import OsProjects.Channels.PipeProcesses

namespace OsProjects
namespace Channels

open Machine

/-!
# What goes through a pipe

The bytes that were ever written are the bytes that calls have read, in that order, and then
the bytes in the ring.  The bytes of one process are in the order of its calls, and a call
that reports success has written all of its bytes.  A process sleeps only where it has
nothing to do, and the end of the file is reported only when nothing more can come.

One case of the code breaks the second of these: a `pipewrite` that finds its process killed
returns without waking the readers of the bytes that it has put.
-/

/-- The place of a write is in its buffer. -/
def Standing.Sized : Standing -> Prop
  | .writing addr n i _ => addr.length = n.toNat ∧ i ≤ addr.length
  | _ => True

structure Traffic (s : State) (items : List UInt8) : Prop where
  contains : s.pipe.Contains items
  order : s.sent.map Prod.snd = s.returned.flatMap Return.taken ++ items
  whole : forall who, shareOf who s.sent = s.returned.flatMap (Return.putBy who) ++
    (s.standing who).part
  sized : forall who, (s.standing who).Sized
  sound : forall result, result ∈ s.returned -> result.Sound
  writers : forall who, (s.standing who).chan = some true -> items.length = PIPESIZE ∧
    s.pipe.readopen = true
  readers : forall who, (s.standing who).chan = some false -> s.pipe.writeopen = true
  ended : forall result, result ∈ s.returned -> result.EndOfFile ->
    items = [] ∧ s.pipe.writeopen = false

/-- The readers that sleep have nothing to read. -/
def Idle (s : State) (items : List UInt8) : Prop :=
  forall who, (s.standing who).chan = some false -> items = []

/-- The invariant of the runs, with idle readers in those that spare killed writers. -/
def InOrder (live : Bool) (s : State) : Prop :=
  Ends s ∧ Exists fun items => Traffic s items ∧ (live = true -> Idle s items)

/-- What a step outside the pipe's loops does to a process. -/
structure Standing.Calm (before after : Standing) : Prop where
  part : after.part = before.part
  chan : forall chan, after.chan = some chan -> before.chan = some chan
  sized : before.Sized -> after.Sized

namespace Standing.Calm

variable {standing : Standing} {chan : Bool}

theorem refl : standing.Calm standing := ⟨rfl, fun _ same => same, id⟩

theorem wake : standing.Calm (standing.wake chan) := by
  refine ⟨Standing.wake_part, fun other sleeps => ?_, fun sized => ?_⟩
  · rw [Standing.wake_chan] at sleeps
    split at sleeps
    · exact absurd sleeps.symm (Option.some_ne_none _)
    · exact sleeps
  · cases standing with
    | out => exact sized
    | closing writable => exact sized
    | writing addr n i asleep => cases asleep <;> cases chan <;> exact sized
    | reading n asleep => cases asleep <;> cases chan <;> exact sized

theorem trans {middle after : Standing} (first : standing.Calm middle)
    (second : middle.Calm after) : standing.Calm after :=
  ⟨second.part.trans first.part, fun other sleeps => first.chan other (second.chan other sleeps),
    fun sized => second.sized (first.sized sized)⟩

end Standing.Calm

/-- Nobody that `wakeup` has woken sleeps on its channel. -/
theorem Standing.not_asleep {standing : Standing} {chan : Bool} :
    (standing.wake chan).chan ≠ some chan := by
  rw [Standing.wake_chan]
  split
  · exact (Option.some_ne_none _).symm
  next other => exact other

namespace Traffic

variable {s after : State} {items : List UInt8} {who : Nat} {live : Bool}

theorem created (first : Created who s) : Traffic s [] := by
  rcases first.pipe with ⟨data, pipe⟩
  refine ⟨?_, ?_, fun other => ?_, fun other => ?_, fun result inside => ?_, fun other sleeps => ?_,
    fun other sleeps => ?_, fun result inside => ?_⟩
  · rw [pipe]
    exact Pipe.pipealloc_contains data
  · rw [first.sent, first.returned]
    rfl
  · rw [first.sent, first.returned, first.standing]
    rfl
  · rw [first.standing]
    trivial
  · rw [first.returned] at inside
    exact absurd inside List.not_mem_nil
  · rw [first.standing] at sleeps
    exact absurd sleeps.symm (Option.some_ne_none _)
  · rw [first.standing] at sleeps
    exact absurd sleeps.symm (Option.some_ne_none _)
  · rw [first.returned] at inside
    exact absurd inside List.not_mem_nil

/-- Steps that leave the pipe and what went through it alone. -/
theorem calm (traffic : Traffic s items) (pipe : after.pipe = s.pipe) (sent : after.sent = s.sent)
    (returned : after.returned = s.returned)
    (calm : forall who, (s.standing who).Calm (after.standing who)) : Traffic after items := by
  refine ⟨?_, ?_, fun other => ?_, fun other => (calm other).sized (traffic.sized other), ?_,
    fun other sleeps => ?_, fun other sleeps => ?_, ?_⟩
  · rw [pipe]
    exact traffic.contains
  · rw [sent, returned]
    exact traffic.order
  · rw [sent, returned, (calm other).part]
    exact traffic.whole other
  · rw [returned]
    exact traffic.sound
  · rw [pipe]
    exact traffic.writers other ((calm other).chan true sleeps)
  · rw [pipe]
    exact traffic.readers other ((calm other).chan false sleeps)
  · rw [returned, pipe]
    exact traffic.ended

end Traffic

theorem Idle.calm {s after : State} {items : List UInt8} (idle : Idle s items)
    (calm : forall who, (s.standing who).Calm (after.standing who)) : Idle after items :=
  fun who sleeps => idle who ((calm who).chan false sleeps)

/-- The steps of a process that is outside the pipe's loops. -/
theorem stand_calm {s : State} {who : Nat} {standing : Standing}
    (calm : (s.standing who).Calm standing) (other : Nat) :
    (s.standing other).Calm ((s.stand who standing).standing other) := by
  by_cases same : other = who
  · rw [same, State.stand_self]
    exact calm
  · rw [State.stand_of_ne same]
    exact Standing.Calm.refl

theorem pipeclose_calm {s : State} {who : Nat} {writable : Bool}
    (closing : s.standing who = .closing writable) (other : Nat) :
    (s.standing other).Calm ((s.pipeclose who writable).standing other) ∧
    ((s.pipeclose who writable).standing other).chan ≠ some (!writable) := by
  by_cases same : other = who
  · have out : (s.pipeclose who writable).standing who = .out := State.stand_self
    rw [same, out, closing]
    exact ⟨⟨rfl, fun _ asleep => asleep, id⟩, (Option.some_ne_none _).symm⟩
  · have woken : (s.pipeclose who writable).standing other = (s.standing other).wake (!writable) :=
      State.stand_of_ne same
    rw [woken]
    exact ⟨Standing.Calm.wake, Standing.not_asleep⟩

namespace Traffic

variable {s after : State} {items bytes addr : List UInt8} {who i j : Nat} {n : Int} {asleep : Bool}
  {stop : Stop} {q : Pipe} {results : List Return} {result : Return}

/-- A stretch of `pipewrite` puts bytes; `results` is its result, if it returns. -/
theorem wrote (traffic : Traffic s items) (here : s.standing who = .writing addr n i asleep)
    (wrote : Pipe.Wrote (s.killed who) addr i s.pipe items stop j q)
    (writeopen : s.pipe.writeopen = true) (pipe : after.pipe = q)
    (sent : after.sent = s.sent ++ ((addr.take j).drop i).map (fun byte => (who, byte)))
    (returned : after.returned = s.returned ++ results)
    (others : forall other, other ≠ who -> (s.standing other).Calm (after.standing other))
    {standing : Standing} (stood : after.standing who = standing)
    (own : results.flatMap (Return.putBy who) ++ standing.part = addr.take j)
    (only : forall other, other ≠ who -> results.flatMap (Return.putBy other) = [])
    (written : results.flatMap Return.taken = [])
    (sound : forall result, result ∈ results -> result.Sound ∧ ¬ result.EndOfFile)
    (sized : standing.Sized) (sleeps : forall chan, standing.chan = some chan -> stop = .asleep) :
    Traffic after (items ++ (addr.take j).drop i) := by
  have opened : q.writeopen = true := wrote.ends.2.trans writeopen
  refine ⟨?_, ?_, fun other => ?_, fun other => ?_, fun result inside => ?_,
    fun other asleepNow => ?_, fun other _ => ?_, fun result inside finished => ?_⟩
  · rw [pipe]
    exact wrote.contains
  · have mapped : (((addr.take j).drop i).map (fun byte => (who, byte))).map Prod.snd =
        (addr.take j).drop i := by
      rw [List.map_map]
      exact List.map_id _
    rw [sent, returned, List.map_append, traffic.order, List.flatMap_append, written, mapped,
      List.append_nil, List.append_assoc]
  · rw [sent, returned, shareOf_append, List.flatMap_append, traffic.whole other]
    by_cases same : other = who
    · rw [same, here, if_pos rfl, stood, List.append_assoc _ _ standing.part, own,
        List.append_assoc]
      refine congrArg _ ?_
      show addr.take i ++ (addr.take j).drop i = addr.take j
      have front : addr.take i = (addr.take j).take i := by
        rw [List.take_take, Nat.min_eq_left wrote.onward]
      rw [front, List.take_append_drop]
    · rw [if_neg (fun equal => same equal.symm), List.append_nil, only other same, List.append_nil,
        (others other same).part]
  · by_cases same : other = who
    · rw [same, stood]
      exact sized
    · exact (others other same).sized (traffic.sized other)
  · rw [returned] at inside
    exact (List.mem_append.mp inside).elim (traffic.sound result) (fun new => (sound result new).1)
  · rw [pipe]
    by_cases same : other = who
    · rw [same, stood] at asleepNow
      have stopped := sleeps true asleepNow
      refine ⟨wrote.full ?_, wrote.ends.1.trans (wrote.asleep stopped).1⟩
      rw [stopped]
      exact Stop.noConfusion
    · rcases traffic.writers other ((others other same).chan true asleepNow) with ⟨full, reading⟩
      refine ⟨Nat.le_antisymm wrote.contains.fits ?_, wrote.ends.1.trans reading⟩
      rw [List.length_append, full]
      exact Nat.le_add_right _ _
  · rw [pipe]
    exact opened
  · rw [returned] at inside
    rcases List.mem_append.mp inside with old | new
    · have closed := (traffic.ended result old finished).2
      rw [writeopen] at closed
      exact Bool.noConfusion closed
    · exact absurd finished (sound result new).2

/-- A stretch of `piperead` that returns takes bytes and wakes the writers. -/
theorem read (traffic : Traffic s items) (here : s.standing who = .reading n asleep)
    (read : Pipe.Read n s.pipe items stop bytes q) (pipe : after.pipe = q)
    (sent : after.sent = s.sent) (returned : after.returned = s.returned ++ [result])
    (others : forall other, other ≠ who ->
      (s.standing other).Calm (after.standing other) ∧
      ((after.standing other).chan = some true -> bytes = []))
    (out : after.standing who = .out) (taken : result.taken = bytes)
    (puts : forall other, result.putBy other = []) (sound : result.Sound)
    (finished : result.EndOfFile -> items = [] ∧ s.pipe.writeopen = false) :
    Traffic after (items.drop bytes.length) := by
  refine ⟨?_, ?_, fun other => ?_, fun other => ?_, fun later inside => ?_,
    fun other asleepNow => ?_, fun other asleepNow => ?_, fun later inside ends => ?_⟩
  · rw [pipe]
    exact read.contains
  · rw [sent, returned, List.flatMap_append, traffic.order, List.append_assoc,
      List.flatMap_singleton, taken]
    conv_lhs => rw [← List.take_append_drop bytes.length items, ← read.taken]
  · rw [sent, returned, List.flatMap_append, List.flatMap_singleton, puts, List.append_nil,
      traffic.whole other]
    by_cases same : other = who
    · rw [same, out, here]
      rfl
    · rw [(others other same).1.part]
  · by_cases same : other = who
    · rw [same, out]
      trivial
    · exact (others other same).1.sized (traffic.sized other)
  · rw [returned] at inside
    rcases List.mem_append.mp inside with old | new
    · exact traffic.sound later old
    · rw [List.mem_singleton.mp new]
      exact sound
  · by_cases same : other = who
    · rw [same, out] at asleepNow
      exact absurd asleepNow.symm (Option.some_ne_none _)
    · rcases traffic.writers other ((others other same).1.chan true asleepNow) with ⟨full, reading⟩
      rw [pipe, (others other same).2 asleepNow]
      exact ⟨full, read.ends.1.trans reading⟩
  · by_cases same : other = who
    · rw [same, out] at asleepNow
      exact absurd asleepNow.symm (Option.some_ne_none _)
    · rw [pipe]
      exact read.ends.2.trans (traffic.readers other ((others other same).1.chan false asleepNow))
  · have ended : items = [] ∧ s.pipe.writeopen = false := by
      rw [returned] at inside
      rcases List.mem_append.mp inside with old | new
      · exact traffic.ended later old ends
      · rw [List.mem_singleton.mp new] at ends
        exact finished ends
    rw [pipe, ended.1, List.drop_nil]
    exact ⟨rfl, read.ends.2.trans ended.2⟩

/-- A stretch of `piperead` that sleeps. -/
theorem sleep (traffic : Traffic s items) (here : s.standing who = .reading n asleep)
    (writeopen : s.pipe.writeopen = true) (late : Bool) :
    Traffic ((s.stand who (.reading n true)).arrive who late) items := by
  refine ⟨traffic.contains, traffic.order, fun other => ?_, fun other => ?_, traffic.sound,
    fun other asleepNow => ?_, fun other _ => writeopen, traffic.ended⟩
  · show _ = _ ++ ((s.stand who (.reading n true)).standing other).part
    by_cases same : other = who
    · rw [same, State.stand_self]
      refine (traffic.whole who).trans ?_
      rw [here]
      rfl
    · rw [State.stand_of_ne same]
      exact traffic.whole other
  · show ((s.stand who (.reading n true)).standing other).Sized
    by_cases same : other = who
    · rw [same, State.stand_self]
      trivial
    · rw [State.stand_of_ne same]
      exact traffic.sized other
  · change ((s.stand who (.reading n true)).standing other).chan = some true at asleepNow
    by_cases same : other = who
    · rw [same, State.stand_self] at asleepNow
      exact absurd (Option.some.inj asleepNow) Bool.false_ne_true
    · rw [State.stand_of_ne same] at asleepNow
      exact traffic.writers other asleepNow

/-- `pipeclose` wakes those who sleep at the other end. -/
theorem pipeclose {writable : Bool} (traffic : Traffic s items)
    (closing : s.standing who = .closing writable) : Traffic (s.pipeclose who writable) items := by
  have calm := fun other => (pipeclose_calm closing other).1
  have apart := fun other => (pipeclose_calm closing other).2
  refine ⟨traffic.contains.pipeclose writable, traffic.order, fun other => ?_,
    fun other => (calm other).sized (traffic.sized other), traffic.sound, fun other asleepNow => ?_,
    fun other asleepNow => ?_, fun result inside finished => ?_⟩
  · rw [(calm other).part]
    exact traffic.whole other
  · rcases traffic.writers other ((calm other).chan true asleepNow) with ⟨full, reading⟩
    refine ⟨full, ?_⟩
    cases writable with
    | false => exact absurd asleepNow (apart other)
    | true => exact reading
  · cases writable with
    | false => exact traffic.readers other ((calm other).chan false asleepNow)
    | true => exact absurd asleepNow (apart other)
  · rcases traffic.ended result inside finished with ⟨empty, closed⟩
    refine ⟨empty, ?_⟩
    cases writable with
    | false => exact closed
    | true => rfl

end Traffic

/-- A process that sleeps is in a call. -/
theorem Standing.needs_of_chan {standing : Standing} {chan : Bool}
    (asleep : standing.chan = some chan) : standing.needs = some chan := by
  cases standing with
  | out => exact absurd asleep.symm (Option.some_ne_none _)
  | closing writable => exact absurd asleep.symm (Option.some_ne_none _)
  | writing addr n i sleeps =>
      cases sleeps with
      | false => exact absurd asleep.symm (Option.some_ne_none _)
      | true => exact asleep
  | reading n sleeps =>
      cases sleeps with
      | false => exact absurd asleep.symm (Option.some_ne_none _)
      | true => exact asleep

/-- A process is not at the channel that has just been woken. -/
theorem wakeup_stand {s : State} {who other : Nat} {chan : Bool} {standing : Standing}
    (different : other ≠ who) :
    (s.standing other).Calm (((s.wakeup chan).stand who standing).standing other) ∧
    (((s.wakeup chan).stand who standing).standing other).chan ≠ some chan := by
  rw [State.stand_of_ne different]
  exact ⟨Standing.Calm.wake, Standing.not_asleep⟩

namespace InOrder

variable {s after : State} {who i : Nat} {addr : List UInt8} {n : Int} {live late writable : Bool}

theorem calm (inOrder : InOrder live s) (ends : Ends after) (pipe : after.pipe = s.pipe)
    (sent : after.sent = s.sent) (returned : after.returned = s.returned)
    (calm : forall who, (s.standing who).Calm (after.standing who)) : InOrder live after := by
  rcases inOrder with ⟨_, items, traffic, idle⟩
  exact ⟨ends, items, traffic.calm pipe sent returned calm, fun on => (idle on).calm calm⟩

theorem write (inOrder : InOrder live s) (here : s.standing who = .writing addr n i false)
    (spared : live = true -> s.killed who = false) :
    InOrder live (s.writeStep who addr n i late) := by
  rcases inOrder with ⟨ends, items, traffic, idle⟩
  refine ⟨ends.writeStep here, ?_⟩
  have writeopen : s.pipe.writeopen = true :=
    @Ends.open_of_needs s who true ends (by rw [here]; rfl)
  have sized : addr.length = n.toNat ∧ i ≤ addr.length := by
    have sized := traffic.sized who
    rw [here] at sized
    exact sized
  have wrote := @Pipe.pipewrite_spec s.pipe items (s.killed who) i addr traffic.contains sized.2
  rw [State.writeStep]
  rcases run : Pipe.pipewrite (s.killed who) addr i s.pipe with ⟨stop, j, q⟩
  rw [run] at wrote
  dsimp only at wrote ⊢
  refine ⟨items ++ (addr.take j).drop i, ?_⟩
  have notMine : forall value, forall other, other ≠ who ->
      [Return.wrote who addr n j value].flatMap (Return.putBy other) = [] := by
    intro value other different
    rw [List.flatMap_singleton]
    exact if_neg (fun same => different same.symm)
  have mine : forall value, [Return.wrote who addr n j value].flatMap (Return.putBy who) ++
      Standing.out.part = addr.take j := by
    intro value
    rw [List.flatMap_singleton, Return.putBy, if_pos rfl]
    exact List.append_nil _
  cases stop with
  | returned =>
      have whole : j = addr.length := wrote.returned.mp rfl
      refine ⟨traffic.wrote here wrote writeopen rfl rfl rfl (fun other different =>
        (wakeup_stand different).1) State.stand_self (mine n) (notMine n) rfl ?_ trivial
        (fun _ asleep => absurd asleep.symm (Option.some_ne_none _)), fun _ other asleep => ?_⟩
      · intro result inside
        rw [List.mem_singleton.mp inside]
        exact ⟨⟨sized.1, Or.inl ⟨rfl, whole⟩⟩, id⟩
      · by_cases same : other = who
        · rw [same] at asleep
          exact absurd (asleep.symm.trans (congrArg Standing.chan State.stand_self))
            (Option.some_ne_none _)
        · exact absurd asleep (wakeup_stand same).2
  | failed =>
      have short : j < addr.length :=
        Nat.lt_of_le_of_ne wrote.within (fun whole => Stop.noConfusion (wrote.returned.mpr whole))
      refine ⟨traffic.wrote here wrote writeopen rfl rfl rfl
        (fun other different => ?_) State.stand_self (mine (-1)) (notMine (-1)) rfl ?_ trivial
        (fun _ asleep => absurd asleep.symm (Option.some_ne_none _)), fun on other asleep => ?_⟩
      · show (s.standing other).Calm (Function.update s.standing who .out other)
        rw [Function.update_of_ne different]
        exact Standing.Calm.refl
      · intro result inside
        rw [List.mem_singleton.mp inside]
        exact ⟨⟨sized.1, Or.inr ⟨rfl, short⟩⟩, id⟩
      · change (Function.update s.standing who .out other).chan = some false at asleep
        by_cases same : other = who
        · rw [same, Function.update_self] at asleep
          exact absurd asleep.symm (Option.some_ne_none _)
        · rw [Function.update_of_ne same] at asleep
          have reading : s.pipe.readopen = true :=
            ends.open_of_needs (Standing.needs_of_chan asleep)
          rcases wrote.failed rfl with closed | killed
          · rw [reading] at closed
            exact Bool.noConfusion closed
          · rw [spared on] at killed
            exact Bool.noConfusion killed
  | asleep =>
      refine ⟨traffic.wrote here wrote writeopen rfl rfl (List.append_nil _).symm
        (fun other different => (wakeup_stand different).1) State.stand_self rfl
        (fun _ _ => rfl) rfl ?_ ⟨sized.1, wrote.within⟩ (fun _ _ => rfl), fun _ other asleep => ?_⟩
      · intro result inside
        exact absurd inside List.not_mem_nil
      · by_cases same : other = who
        · rw [same] at asleep
          exact absurd (Option.some.inj
            ((congrArg Standing.chan State.stand_self).symm.trans asleep)) Bool.noConfusion
        · exact absurd asleep (wakeup_stand same).2

theorem read (inOrder : InOrder live s) (here : s.standing who = .reading n false) :
    InOrder live (s.readStep who n late) := by
  rcases inOrder with ⟨ends, items, traffic, idle⟩
  refine ⟨ends.readStep here, ?_⟩
  have read := @Pipe.piperead_spec s.pipe items (s.killed who) n traffic.contains
  rw [State.readStep]
  rcases run : Pipe.piperead (s.killed who) n s.pipe with ⟨stop, bytes, q⟩
  rw [run] at read
  dsimp only at read ⊢
  cases stop with
  | returned =>
      refine ⟨items.drop bytes.length,
        traffic.read here read rfl rfl rfl (fun other different => ?_) State.stand_self rfl
        (fun _ => rfl) (Or.inl ⟨rfl, read.bounded⟩) (fun finished => ?_), fun on other asleep => ?_⟩
      · exact ⟨(wakeup_stand different).1, fun asleep => absurd asleep (wakeup_stand different).2⟩
      · exact read.finished rfl
          (List.length_eq_zero_iff.mp (Int.ofNat_eq_zero.mp finished.2)) finished.1
      · by_cases same : other = who
        · rw [same] at asleep
          exact absurd (asleep.symm.trans (congrArg Standing.chan State.stand_self))
            (Option.some_ne_none _)
        · rw [idle on other ((wakeup_stand same).1.chan false asleep), List.drop_nil]
  | failed =>
      rcases read.empty Stop.noConfusion with ⟨_, _, rfl, rfl⟩
      have others : forall other, other ≠ who ->
          (s.standing other).Calm (Function.update s.standing who .out other) := by
        intro other different
        rw [Function.update_of_ne different]
        exact Standing.Calm.refl
      refine ⟨items, traffic.read here read rfl rfl rfl
        (fun other different => ⟨others other different, fun _ => rfl⟩) State.stand_self rfl
        (fun _ => rfl) (Or.inr ⟨rfl, rfl⟩) (fun finished => absurd finished.2 (by decide)),
        fun on other asleep => ?_⟩
      by_cases same : other = who
      · rw [same] at asleep
        exact absurd (asleep.symm.trans (congrArg Standing.chan State.stand_self))
          (Option.some_ne_none _)
      · exact idle on other ((others other same).chan false asleep)
  | asleep =>
      rcases read.empty Stop.noConfusion with ⟨none, writeopen, rfl, rfl⟩
      exact ⟨items, traffic.sleep here writeopen late, fun _ _ _ => none⟩

theorem kept : Kept (InOrder live) live where
  startWrite inOrder idle held counted :=
    inOrder.calm (inOrder.1.enter idle rfl held) rfl rfl rfl (stand_calm
    (by rw [idle]; exact ⟨rfl, fun _ asleep => asleep, fun _ => ⟨counted, Nat.zero_le _⟩⟩))
  startRead inOrder idle held := inOrder.calm (inOrder.1.enter idle rfl held) rfl rfl rfl
    (stand_calm (by rw [idle]; exact ⟨rfl, fun _ asleep => asleep, fun _ => trivial⟩))
  write inOrder here spared := inOrder.write here spared
  read inOrder here := inOrder.read here
  dup inOrder _ held := inOrder.calm (inOrder.1.filedup held) rfl rfl rfl
    (fun _ => Standing.Calm.refl)
  fork inOrder _ _ _ _ _ :=
    inOrder.calm (inOrder.1.fork _ _) rfl rfl rfl (fun _ => Standing.Calm.refl)
  close inOrder idle held := by
    have ends := inOrder.1.fileclose idle held
    rw [State.fileclose] at ends ⊢
    split at ends
    next more =>
      rw [if_pos more]
      exact inOrder.calm ends rfl rfl rfl (fun _ => Standing.Calm.refl)
    next last =>
      rw [if_neg last]
      refine inOrder.calm ends rfl rfl rfl (stand_calm ?_)
      rw [idle]
      exact ⟨rfl, fun _ asleep => asleep, id⟩
  pipeclose inOrder closing := by
    rcases inOrder with ⟨ends, items, traffic, idle⟩
    exact ⟨ends.pipeclose closing, items, traffic.pipeclose closing,
      fun on => (idle on).calm (fun other => (pipeclose_calm closing other).1)⟩
  kill inOrder := inOrder.calm inOrder.1.kill rfl rfl rfl
    (stand_calm (Standing.Calm.wake.trans Standing.Calm.wake))

theorem reached {guard : State -> Event -> Prop} (reached : Reachable next (Created who) guard s)
    (spared : forall before event, guard before event -> live = true -> SparesKilled before event) :
    InOrder live s :=
  reached.invariant (fun _ first => ⟨Ends.created first, [], Traffic.created first,
    fun _ _ _ => rfl⟩) (fun before event _ inOrder allowed stepped =>
    kept.next inOrder (spared before event allowed) stepped)

end InOrder

/-- The write end is closed, and nothing more is written. -/
def Final (sent : List (Nat × UInt8)) (s : State) : Prop :=
  Ends s ∧ s.pipe.writeopen = false ∧ s.sent = sent

namespace Final

variable {s : State} {sent : List (Nat × UInt8)} {who : Nat} {n : Int} {late : Bool}

theorem read (final : Final sent s) (here : s.standing who = .reading n false) :
    Final sent (s.readStep who n late) := by
  refine ⟨final.1.readStep here, ?_⟩
  have ends := @Pipe.piperead_ends s.pipe (s.killed who) n
  rw [State.readStep]
  rcases run : Pipe.piperead (s.killed who) n s.pipe with ⟨stop, bytes, q⟩
  rw [run] at ends
  cases stop with
  | returned => exact ⟨ends.2.trans final.2.1, final.2.2⟩
  | failed => exact ⟨ends.2.trans final.2.1, final.2.2⟩
  | asleep => exact ⟨ends.2.trans final.2.1, final.2.2⟩

theorem kept : Kept (Final sent) false where
  startWrite final idle held _ := ⟨final.1.enter idle rfl held, final.2⟩
  startRead final idle held := ⟨final.1.enter idle rfl held, final.2⟩
  write final here _ := by
    have isOpen := final.1.open_of_needs (congrArg Standing.needs here)
    exact absurd (final.2.1.symm.trans isOpen) Bool.false_ne_true
  read final here := final.read here
  dup final _ held := ⟨final.1.filedup held, final.2⟩
  fork final _ _ _ _ _ := ⟨final.1.fork _ _, final.2⟩
  close final idle held := by
    refine ⟨final.1.fileclose idle held, ?_⟩
    rw [State.fileclose]
    split
    · exact final.2
    · exact final.2
  pipeclose {_ _ writable} final closing := by
    refine ⟨final.1.pipeclose closing, ?_, final.2.2⟩
    cases writable with
    | false => exact final.2.1
    | true => rfl
  kill final := ⟨final.1.kill, final.2⟩

theorem run {after : State} (final : Final sent s) {events : List Event}
    (ran : Machine.run next s events = some after) : Final sent after := by
  have first : Reachable next (fun state => state = s) anyStep s := .start rfl
  have reached := first.run ran
  refine reached.invariant (fun _ same => ?_) (fun _ _ _ holds _ stepped =>
    kept.next holds (fun live => absurd live Bool.false_ne_true) stepped)
  rw [same]
  exact final

end Final

section Runs

variable {who : Nat} {s after : State}

/-- In every run, the bytes written are those that were read, in order, and at most `PIPESIZE`
bytes in the ring; each process has written the bytes of its calls in order, and a call has
written all of them unless it reported a failure. -/
theorem pipe_keeps_order (reached : Reachable next (Created who) anyStep s) :
    (Exists fun items =>
      s.pipe.Contains items ∧ s.sent.map Prod.snd = s.returned.flatMap Return.taken ++ items) ∧
    (forall writer,
      shareOf writer s.sent =
        s.returned.flatMap (Return.putBy writer) ++ (s.standing writer).part) ∧
    forall result, result ∈ s.returned -> result.Sound := by
  rcases @InOrder.reached s who false _ reached
    (fun _ _ _ live => absurd live Bool.false_ne_true) with ⟨_, items, traffic, _⟩
  exact ⟨⟨items, traffic.contains, traffic.order⟩, traffic.whole, traffic.sound⟩

/-- A child writes two bytes and its parent reads the first. -/
theorem pipe_keeps_order_twoProcesses :
    Exists fun s =>
      run next newPipe [.fork 0 1, .write 1 [104, 105] 2 false, .read 0 1 false] = some s ∧
      forall writer,
        shareOf writer s.sent =
          s.returned.flatMap (Return.putBy writer) ++ (s.standing writer).part :=
  ⟨_, rfl, (pipe_keeps_order (@Reachable.run _ _ next (Created 0) newPipe _ (.start newPipe_created)
    [.fork 0 1, .write 1 [104, 105] 2 false, .read 0 1 false] rfl)).2.1⟩

/-- When a call has reported the end of the file, all that was ever written has been read, and
whatever the processes do, nothing more is written. -/
theorem pipe_end_of_file (reached : Reachable next (Created who) anyStep s) {result : Return}
    (inside : result ∈ s.returned) (finished : result.EndOfFile) {events : List Event}
    (ran : run next s events = some after) :
    s.sent.map Prod.snd = s.returned.flatMap Return.taken ∧ after.sent = s.sent ∧
    after.pipe.writeopen = false := by
  rcases @InOrder.reached s who false _ reached
    (fun _ _ _ live => absurd live Bool.false_ne_true) with ⟨ends, items, traffic, _⟩
  rcases traffic.ended result inside finished with ⟨empty, closed⟩
  have final := Final.run ⟨ends, closed, rfl⟩ ran
  refine ⟨?_, final.2.2, final.2.1⟩
  rw [traffic.order, empty, List.append_nil]

/-- The only writer has closed its end, and a read reports it. -/
theorem pipe_end_of_file_closed :
    Exists fun s =>
      run next newPipe
        [.write 0 [104] 1 false, .close 0 true, .pipeclose 0, .read 0 4 false, .read 0 4 false] =
        some s ∧
      s.sent.map Prod.snd = s.returned.flatMap Return.taken := by
  have reached := @Reachable.run _ _ next (Created 0) newPipe _ (.start newPipe_created)
    [.write 0 [104] 1 false, .close 0 true, .pipeclose 0, .read 0 4 false, .read 0 4 false] rfl
  exact ⟨_, rfl, (@pipe_end_of_file 0 _ _ reached (.read 0 4 [] 0) (List.mem_of_getLast? rfl)
    ⟨by decide, rfl⟩ [] rfl).1⟩

/-- In every run in which no killed process runs `pipewrite`, a process that sleeps at the
pipe has nothing to do there: a writer finds it full and a reader empty, with the other end
open and in somebody's hands. -/
theorem pipe_sleepers_wait (reached : Reachable next (Created who) SparesKilled s) :
    (forall writer, (s.standing writer).chan = some true ->
      s.pipe.nwrite = s.pipe.nread + UInt32.ofNat PIPESIZE ∧
      (s.descriptors false ≠ [] ∨ Exists fun other => s.standing other = .closing false)) ∧
    (forall reader, (s.standing reader).chan = some false ->
      s.pipe.nread = s.pipe.nwrite ∧
      (s.descriptors true ≠ [] ∨ Exists fun other => s.standing other = .closing true)) ∧
    forall writer reader, (s.standing writer).chan = some true ->
      (s.standing reader).chan ≠ some false := by
  rcases @InOrder.reached s who true _ reached (fun _ _ spares _ => spares) with
    ⟨ends, items, traffic, idle⟩
  have someone : forall writable, s.pipe.isOpen writable = true ->
      s.descriptors writable ≠ [] ∨ Exists fun other => s.standing other = .closing writable := by
    intro writable isOpen
    refine (ends.closed writable isOpen).imp (fun positive => ?_) id
    rw [ends.counted, List.length_pos_iff] at positive
    exact positive
  refine ⟨fun writer asleep => ?_, fun reader asleep => ?_, fun writer reader full empty => ?_⟩
  · rcases traffic.writers writer asleep with ⟨full, reading⟩
    exact ⟨traffic.contains.full_iff.mpr full, someone false reading⟩
  · exact ⟨traffic.contains.empty_iff.mpr (idle rfl reader asleep),
      someone true (traffic.readers reader asleep)⟩
  · have size := (traffic.writers writer full).1
    rw [idle rfl reader empty] at size
    exact absurd size (by decide)

/-- A reader sleeps until a writer comes, which wakes it. -/
theorem pipe_sleepers_wait_reader :
    Exists fun s =>
      run next newPipe [.fork 0 1, .read 0 1 false] = some s ∧ (s.standing 0).chan = some false ∧
      s.pipe.nread = s.pipe.nwrite := by
  have forked : Reachable next (Created 0) SparesKilled (newPipe.fork 0 1) :=
    @Reachable.step _ _ next _ _ _ _ (.fork 0 1) (.start newPipe_created) trivial rfl
  have read : Reachable next (Created 0) SparesKilled
      (((newPipe.fork 0 1).stand 0 (.reading 1 false)).readStep 0 1 false) :=
    @Reachable.step _ _ next _ _ _ _ (.read 0 1 false) forked trivial rfl
  exact ⟨_, rfl, rfl, ((pipe_sleepers_wait read).2.1 0 rfl).1⟩

end Runs

end Channels
end OsProjects
