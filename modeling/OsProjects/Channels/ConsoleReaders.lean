import OsProjects.Channels.Console
import OsProjects.Machine.Transition

namespace OsProjects
namespace Channels

open Machine

/-!
# Processes that read the console

Interrupts type characters while any number of processes read.  A step is a region under
`input.lock`: the whole loop of `consoleintr`, or `consoleread` up to a return or a `sleep`.

Three histories are kept beside the ring: what was typed, what was made ready, and what the
readers have taken away.  The last two are read off the ring at the indices as they move.
-/

/-- Where a process stands: outside, or in a `consoleread` of `n` characters of which it has
some. -/
inductive Reader
  | out
  | reading (n : Int) (got : List UInt8) (asleep : Bool)
  deriving DecidableEq

def Reader.got : Reader -> List UInt8
  | .out => []
  | .reading _ got _ => got

def Reader.asleep : Reader -> Bool
  | .out => false
  | .reading _ _ asleep => asleep

/-- `wakeup(&input.r)`, for one process. -/
def Reader.wake : Reader -> Reader
  | .out => .out
  | .reading n got _ => .reading n got false

/-- A `consoleread` that has returned `value`; no code reads it. -/
structure ConsoleRead where
  who : Nat
  n : Int
  bytes : List UInt8
  value : Int

structure Console where
  input : Input
  killed : Nat -> Bool
  standing : Nat -> Reader
  /-- The characters of all interrupts; no code reads this or what follows. -/
  typed : List UInt8
  committed : List UInt8
  taken : List (Nat × UInt8)
  returned : List ConsoleRead

namespace Console

/-- One character of an interrupt. -/
def type (s : Console) (c : UInt8) : Console :=
  let now := s.input.typed c
  { s with
    input := now.1
    standing := if now.2 then fun who => (s.standing who).wake else s.standing
    typed := s.typed ++ [c]
    committed := s.committed ++ ringItems now.1.buf INPUT_BUF s.input.w.toNat
      (now.1.w - s.input.w).toNat }

def consoleintr (s : Console) (chars : List UInt8) : Console := chars.foldl type s

def stand (s : Console) (who : Nat) (reader : Reader) : Console :=
  { s with standing := Function.update s.standing who reader }

/-- A stretch of `consoleread`. -/
def readStep (s : Console) (who : Nat) (n : Int) (got : List UInt8) (late : Bool) : Console :=
  let run := s.input.readLoop (s.killed who) n.toNat (n.toNat - got.length)
  let gone := ringItems s.input.buf INPUT_BUF s.input.r.toNat (run.2.2.r - s.input.r).toNat
  let s := { s with input := run.2.2, taken := s.taken ++ gone.map (fun c => (who, c)) }
  match run.1 with
  | .returned =>
      { s.stand who .out with
        returned := s.returned ++ [⟨who, n, got ++ run.2.1, (got ++ run.2.1).length⟩] }
  | .failed =>
      { s.stand who .out with returned := s.returned ++ [⟨who, n, got ++ run.2.1, -1⟩] }
  | .asleep =>
      { s.stand who (.reading n (got ++ run.2.1) true) with
        killed := Function.update s.killed who (s.killed who || late) }

/-- `kill`, which also makes a sleeping process run. -/
def kill (s : Console) (who : Nat) : Console :=
  { s.stand who (s.standing who).wake with killed := Function.update s.killed who true }

end Console

/-- A step; `late` is a kill between the test of `killed` and the `sleep`. -/
inductive ConsoleEvent
  | interrupt (chars : List UInt8)
  | read (who : Nat) (n : Int) (late : Bool)
  | resume (who : Nat) (late : Bool)
  | kill (who : Nat)

def Console.next (s : Console) : ConsoleEvent -> Option Console
  | .interrupt chars => some (s.consoleintr chars)
  | .read who n late => if s.standing who = .out then some (s.readStep who n [] late) else none
  | .resume who late =>
      match s.standing who with
      | .reading n got false => some (s.readStep who n got late)
      | _ => none
  | .kill who => some (s.kill who)

/-- The console after `consoleinit`, with its memory zero. -/
structure Quiet (s : Console) : Prop where
  r : s.input.r = 0
  w : s.input.w = 0
  e : s.input.e = 0
  standing : forall who, s.standing who = .out
  typed : s.typed = []
  committed : s.committed = []
  taken : s.taken = []
  returned : s.returned = []

def ConsoleRead.bytesOf (who : Nat) (result : ConsoleRead) : List UInt8 :=
  if result.who = who then result.bytes else []

/-- A read returns at most one line, of at most `n` characters, or fails. -/
structure ConsoleRead.Sound (result : ConsoleRead) : Prop where
  bounded : result.bytes.length ≤ result.n.toNat
  line : forall front back, result.bytes = front ++ newline :: back -> back = []
  value : result.value = result.bytes.length ∨ result.value = -1

/-- What a process has got of a line. -/
structure Reader.Sound (n : Int) (got : List UInt8) : Prop where
  bounded : got.length ≤ n.toNat
  unfinished : newline ∉ got

structure Delivery (s : Console) (line : Line) (base : Nat) : Prop where
  holds : s.input.Holds line base
  order : s.committed = s.taken.map Prod.snd ++ line.ready
  whole : forall who, (shareOf who s.taken).filter (fun c => c ≠ ctrl 'D') =
    s.returned.flatMap (ConsoleRead.bytesOf who) ++ (s.standing who).got
  sound : forall result, result ∈ s.returned -> result.Sound
  partly : forall who n got asleep, s.standing who = .reading n got asleep -> Reader.Sound n got
  idle : forall who, (s.standing who).asleep = true -> line.ready = []

def Delivered (s : Console) : Prop := Exists fun line => Exists fun base => Delivery s line base

namespace Reader

variable {reader : Reader} {n : Int} {got : List UInt8} {asleep : Bool}

theorem wake_got : reader.wake.got = reader.got := by
  cases reader <;> rfl

theorem wake_asleep : reader.wake.asleep = false := by
  cases reader <;> rfl

theorem of_wake (woken : reader.wake = .reading n got asleep) :
    Exists fun before => reader = .reading n got before := by
  cases reader with
  | out => exact Reader.noConfusion woken
  | reading m taken before =>
      rcases Reader.reading.inj woken with ⟨rfl, rfl, _⟩
      exact ⟨before, rfl⟩

end Reader

namespace Delivery

variable {s : Console} {line : Line} {base who : Nat} {n : Int} {got : List UInt8} {late : Bool}

theorem quiet (first : Quiet s) : Delivery s ⟨[], []⟩ 0 := by
  refine ⟨⟨first.r, first.w, first.e, rfl, Nat.zero_le _,
    fun c inside => absurd inside List.not_mem_nil⟩, ?_, fun who => ?_, fun result inside => ?_,
    fun who n got asleep here => ?_, fun _ _ => rfl⟩
  · rw [first.committed, first.taken]
    rfl
  · rw [first.taken, first.returned, first.standing]
    rfl
  · rw [first.returned] at inside
    exact absurd inside List.not_mem_nil
  · rw [first.standing] at here
    exact Reader.noConfusion here

/-- One character of an interrupt. -/
theorem type (delivery : Delivery s line base) (c : UInt8) :
    Delivery (s.type c) (line.typed c) base := by
  rcases delivery.holds.typed c with ⟨holds, wakes⟩
  rcases line.typed_ready c with ⟨more, grown⟩
  have committed : ringItems (s.input.typed c).1.buf INPUT_BUF s.input.w.toNat
      ((s.input.typed c).1.w - s.input.w).toNat = more := by
    have split : (line.typed c).all = line.ready ++ (more ++ (line.typed c).pending) := by
      rw [Line.all, grown, List.append_assoc]
    have small : more.length ≤ INPUT_BUF := by
      have fits := holds.ready_le
      rw [grown, List.length_append] at fits
      exact Nat.le_trans (Nat.le_add_left _ _) fits
    rw [holds.w, delivery.holds.w, grown, List.length_append, ← Nat.add_assoc,
      Input.Holds.moved small]
    exact holds.between split
  refine ⟨holds, ?_, fun who => ?_, delivery.sound, fun who n got asleep here => ?_,
    fun who asleep => ?_⟩
  · show s.committed ++ ringItems _ _ _ _ = _
    rw [committed, delivery.order, grown, List.append_assoc]
    rfl
  · refine (delivery.whole who).trans (congrArg _ ?_)
    show _ = ((if (s.input.typed c).2 then fun who => (s.standing who).wake
      else s.standing) who).got
    split
    · exact Reader.wake_got.symm
    · rfl
  · change (if (s.input.typed c).2 then fun who => (s.standing who).wake
      else s.standing) who = _ at here
    split at here
    · rcases Reader.of_wake here with ⟨before, was⟩
      exact delivery.partly who n got before was
    · exact delivery.partly who n got asleep here
  · change ((if (s.input.typed c).2 then fun who => (s.standing who).wake
      else s.standing) who).asleep = true at asleep
    split at asleep
    · rw [Reader.wake_asleep] at asleep
      exact Bool.noConfusion asleep
    next quiet =>
      rw [wakes (Bool.not_eq_true _ ▸ quiet)]
      exact delivery.idle who asleep

theorem consoleintr (delivery : Delivery s line base) (chars : List UInt8) :
    Delivery (s.consoleintr chars) (chars.foldl Line.typed line) base := by
  induction chars generalizing s line with
  | nil => exact delivery
  | cons c chars ih => exact ih (delivery.type c)

theorem stand_self {reader : Reader} : (s.stand who reader).standing who = reader := by
  simp only [Console.stand, Function.update_self]

theorem stand_of_ne {reader : Reader} {other : Nat} (different : other ≠ who) :
    (s.stand who reader).standing other = s.standing other := by
  simp only [Console.stand, Function.update_of_ne different]

/-- What a stretch of `consoleread` takes, and what it leaves of the list. -/
theorem taken (delivery : Delivery s line base) (killed : Bool) (target left : Nat) :
    Exists fun gone => Exists fun baseNow =>
      line.ready = gone ++ (Line.read target left line.ready).2.2 ∧
      gone.filter (fun c => c ≠ ctrl 'D') = (s.input.readLoop killed target left).2.1 ∧
      ringItems s.input.buf INPUT_BUF s.input.r.toNat
        ((s.input.readLoop killed target left).2.2.r - s.input.r).toNat =
        gone ∧
      (s.input.readLoop killed target left).2.2.Holds
        ⟨(Line.read target left line.ready).2.2, line.pending⟩ baseNow := by
  rcases @Input.Holds.readLoop s.input line base left killed target delivery.holds with
    ⟨bytes, _, baseNow, holds, same⟩
  rcases Line.read_spec target left line.ready with ⟨gone, split, copied, _, _, _⟩
  refine ⟨gone, baseNow, split, copied.trans bytes.symm, ?_, holds⟩
  have length := congrArg List.length split
  rw [List.length_append] at length
  have small : gone.length ≤ INPUT_BUF := by
    have fits := delivery.holds.ready_le
    omega
  have start : baseNow = base + gone.length := by omega
  have whole :
      line.all = [] ++ (gone ++ ((Line.read target left line.ready).2.2 ++ line.pending)) := by
    rw [List.nil_append, Line.all, ← List.append_assoc, ← split]
  rw [holds.r, start, delivery.holds.r, Input.Holds.moved small]
  exact delivery.holds.between whole

/-- The parts of the invariant that a stretch of `consoleread` changes; `results` is its result, if
it returns. -/
theorem read (delivery : Delivery s line base) {after : Console} {gone rest : List UInt8}
    {baseNow : Nat} {results : List ConsoleRead} {reader : Reader}
    (mine : (s.standing who).got = got) (split : line.ready = gone ++ rest)
    (holds : after.input.Holds ⟨rest, line.pending⟩ baseNow)
    (committed : after.committed = s.committed)
    (taken : after.taken = s.taken ++ gone.map (fun c => (who, c)))
    (returned : after.returned = s.returned ++ results) (here : after.standing who = reader)
    (others : forall other, other ≠ who -> after.standing other = s.standing other)
    (own : results.flatMap (ConsoleRead.bytesOf who) ++ reader.got = got ++ gone.filter
      (fun c => c ≠ ctrl 'D'))
    (only : forall other, other ≠ who -> results.flatMap (ConsoleRead.bytesOf other) = [])
    (sound : forall result, result ∈ results -> result.Sound)
    (partly : forall n got asleep, reader = .reading n got asleep -> Reader.Sound n got)
    (asleep : reader.asleep = true -> rest = []) : Delivery after ⟨rest, line.pending⟩ baseNow := by
  refine ⟨holds, ?_, fun other => ?_, fun result inside => ?_, fun other n got sleeps stands => ?_,
    fun other sleeps => ?_⟩
  · have mapped : (gone.map (fun c => (who, c))).map Prod.snd = gone := by
      rw [List.map_map]
      exact List.map_id _
    rw [committed, taken, delivery.order, List.map_append, mapped, split, List.append_assoc]
  · rw [taken, returned, shareOf_append, List.filter_append, List.flatMap_append,
      delivery.whole other]
    by_cases same : other = who
    · rw [same, here, if_pos rfl, mine, List.append_assoc, List.append_assoc, own]
    · rw [if_neg (fun equal => same equal.symm), List.filter_nil, List.append_nil, only other same,
        List.append_nil, others other same]
  · rw [returned] at inside
    exact (List.mem_append.mp inside).elim (delivery.sound result) (sound result)
  · by_cases same : other = who
    · rw [same, here] at stands
      exact partly n got sleeps stands
    · rw [others other same] at stands
      exact delivery.partly other n got sleeps stands
  · by_cases same : other = who
    · rw [same, here] at sleeps
      exact asleep sleeps
    · rw [others other same] at sleeps
      have empty := delivery.idle other sleeps
      rw [split] at empty
      exact (List.append_eq_nil_iff.mp empty).2

/-- A stretch of `consoleread`, from the start or from a `sleep`. -/
theorem readStep (delivery : Delivery s line base) (mine : (s.standing who).got = got)
    (partly : Reader.Sound n got) :
    Exists fun rest => Exists fun baseNow =>
      Delivery (s.readStep who n got late) ⟨rest, line.pending⟩ baseNow := by
  rcases delivery.taken (s.killed who) n.toNat (n.toNat - got.length) with
    ⟨gone, baseNow, split, copied, ghost, holds⟩
  rcases @Input.Holds.readLoop s.input line base (n.toNat - got.length)
    (s.killed who) n.toNat delivery.holds with ⟨bytes, stopped, _⟩
  rcases Line.read_spec n.toNat (n.toNat - got.length) line.ready with ⟨_, _, _, fits, lines, waits⟩
  rw [← bytes] at fits lines waits
  refine ⟨(Line.read n.toNat (n.toNat - got.length) line.ready).2.2, baseNow, ?_⟩
  have onlyEnd : forall front back,
      got ++ (s.input.readLoop (s.killed who) n.toNat (n.toNat - got.length)).2.1 =
        front ++ newline :: back ->
      back = [] ∧ (Line.read n.toNat (n.toNat - got.length) line.ready).1 = true := by
    intro front back found
    rcases List.append_eq_append_iff.mp found with ⟨middle, _, later⟩ | ⟨middle, earlier, later⟩
    · exact lines middle back later
    · cases middle with
      | nil => exact lines [] back later.symm
      | cons d middle =>
          refine absurd ?_ partly.unfinished
          rw [earlier, (List.cons.inj later).1]
          exact List.mem_append_right _ List.mem_cons_self
  have short : (got ++ (s.input.readLoop (s.killed who) n.toNat
      (n.toNat - got.length)).2.1).length ≤ n.toNat := by
    have bounded := partly.bounded
    rw [List.length_append]
    omega
  rw [Console.readStep]
  dsimp only
  rw [ghost]
  rcases run : s.input.readLoop (s.killed who) n.toNat (n.toNat - got.length) with
    ⟨stop, part, after⟩
  rw [run] at copied holds stopped onlyEnd short
  dsimp only at copied holds stopped onlyEnd short ⊢
  have notMine : forall value, forall other, other ≠ who ->
      [ConsoleRead.mk who n (got ++ part) value].flatMap (ConsoleRead.bytesOf other) = [] := by
    intro value other different
    rw [List.flatMap_singleton]
    exact if_neg (fun same => different same.symm)
  have itsOwn : forall value, [ConsoleRead.mk who n (got ++ part) value].flatMap
      (ConsoleRead.bytesOf who) ++ Reader.out.got = got ++ gone.filter (fun c => c ≠ ctrl 'D') := by
    intro value
    rw [List.flatMap_singleton, ConsoleRead.bytesOf, if_pos rfl, copied]
    exact List.append_nil _
  have result : forall value, value = ((got ++ part).length : Int) ∨ value = -1 -> forall result,
      result ∈ [ConsoleRead.mk who n (got ++ part) value] -> result.Sound := by
    intro value either result inside
    rw [List.mem_singleton.mp inside]
    exact ⟨short, fun front back found => (onlyEnd front back found).1, either⟩
  cases stop with
  | returned =>
      exact delivery.read mine split holds rfl rfl rfl stand_self (fun other => stand_of_ne)
        (itsOwn _) (notMine _) (result _ (Or.inl rfl)) (fun n got asleep outside =>
        Reader.noConfusion outside) (fun asleep => Bool.noConfusion asleep)
  | failed =>
      exact delivery.read mine split holds rfl rfl rfl stand_self (fun other => stand_of_ne)
        (itsOwn _) (notMine _) (result _ (Or.inr rfl)) (fun n got asleep outside =>
        Reader.noConfusion outside) (fun asleep => Bool.noConfusion asleep)
  | asleep =>
      have waiting : (Line.read n.toNat (n.toNat - got.length) line.ready).1 = false := by
        refine Bool.eq_false_of_not_eq_true (fun returns => ?_)
        rw [returns, if_pos rfl] at stopped
        exact Stop.noConfusion stopped
      refine delivery.read mine split holds rfl rfl (List.append_nil _).symm stand_self
        (fun other => stand_of_ne) ?_ (fun _ _ => rfl) (fun _ inside =>
        absurd inside List.not_mem_nil) (fun m now sleeps here => ?_) (fun _ => (waits waiting).1)
      · rw [copied]
        rfl
      · rcases Reader.reading.inj here with ⟨rfl, rfl, _⟩
        refine ⟨short, fun inside => ?_⟩
        rcases List.append_of_mem inside with ⟨front, back, found⟩
        have returns := (onlyEnd front back found).2
        rw [waiting] at returns
        exact Bool.noConfusion returns

theorem kill (delivery : Delivery s line base) : Delivery (s.kill who) line base := by
  have standing : forall other, (s.kill who).standing other = s.standing other ∨
      (s.kill who).standing other = (s.standing other).wake := by
    intro other
    by_cases same : other = who
    · rw [same]
      exact Or.inr stand_self
    · exact Or.inl (stand_of_ne same)
  refine ⟨delivery.holds, delivery.order, fun other => ?_, delivery.sound,
    fun other n got asleep here => ?_, fun other asleep => ?_⟩
  · refine (delivery.whole other).trans (congrArg _ ?_)
    rcases standing other with same | woken
    · rw [same]
    · rw [woken, Reader.wake_got]
  · rcases standing other with same | woken
    · rw [same] at here
      exact delivery.partly other n got asleep here
    · rw [woken] at here
      rcases Reader.of_wake here with ⟨before, was⟩
      exact delivery.partly other n got before was
  · rcases standing other with same | woken
    · rw [same] at asleep
      exact delivery.idle other asleep
    · rw [woken, Reader.wake_asleep] at asleep
      exact Bool.noConfusion asleep

theorem next (delivery : Delivery s line base) {event : ConsoleEvent} {after : Console}
    (stepped : s.next event = some after) : Delivered after := by
  cases event with
  | interrupt chars =>
      rcases Option.some.inj stepped with rfl
      exact ⟨_, base, delivery.consoleintr chars⟩
  | read who n late =>
      rw [Console.next] at stepped
      split at stepped
      next outside =>
        rcases Option.some.inj stepped with rfl
        rcases delivery.readStep (by rw [outside]; rfl) ⟨Nat.zero_le _, List.not_mem_nil⟩ with
          ⟨_, _, now⟩
        exact ⟨_, _, now⟩
      next => exact absurd stepped.symm (Option.some_ne_none _)
  | resume who late =>
      rw [Console.next] at stepped
      split at stepped
      next n got here =>
        rcases Option.some.inj stepped with rfl
        rcases delivery.readStep (by rw [here]; rfl) (delivery.partly who n got false here) with
          ⟨_, _, now⟩
        exact ⟨_, _, now⟩
      next => exact absurd stepped.symm (Option.some_ne_none _)
  | kill who =>
      rcases Option.some.inj stepped with rfl
      exact ⟨line, base, delivery.kill⟩

theorem reached {guard : Console -> ConsoleEvent -> Prop}
    (reached : Reachable Console.next Quiet guard s) : Delivered s :=
  reached.invariant (fun _ first => ⟨_, _, quiet first⟩)
    (fun _ _ _ delivered _ stepped => delivered.choose_spec.choose_spec.next stepped)

end Delivery

/-- In every run, what has been made ready is what the readers have taken, in order, and at most
`INPUT_BUF` characters in the ring.  Each process has got what it has taken but the
control-Ds, a read returns at most one line, and who sleeps has nothing to read. -/
theorem console_delivers_in_order {s : Console} (reached : Reachable Console.next Quiet anyStep s) :
    (Exists fun line => Exists fun base =>
      s.input.Holds line base ∧ s.committed = s.taken.map Prod.snd ++ line.ready ∧
      forall who, (s.standing who).asleep = true -> line.ready = []) ∧
    (forall who,
      (shareOf who s.taken).filter (fun c => c ≠ ctrl 'D') =
        s.returned.flatMap (ConsoleRead.bytesOf who) ++ (s.standing who).got) ∧
    forall result, result ∈ s.returned -> result.Sound := by
  rcases Delivery.reached reached with ⟨line, base, delivery⟩
  exact ⟨⟨line, base, delivery.holds, delivery.order, delivery.idle⟩, delivery.whole,
    delivery.sound⟩

def quietConsole : Console where
  input := ⟨fun _ => 0, 0, 0, 0⟩
  killed := fun _ => false
  standing := fun _ => .out
  typed := []
  committed := []
  taken := []
  returned := []

theorem quietConsole_quiet : Quiet quietConsole := ⟨rfl, rfl, rfl, fun _ => rfl, rfl, rfl, rfl, rfl⟩

/-- A reader waits, and a line with a backspace is typed. -/
def oneLine : List ConsoleEvent := [.read 0 10 false, .interrupt [104, 8, 111, 10]]

/-- The reader is resumed and returns with the line. -/
theorem console_delivers_in_order_oneLine :
    Exists fun s => Exists fun result =>
      run Console.next quietConsole (oneLine ++ [.resume 0 false]) = some s ∧
      s.returned = [result] ∧ result.bytes = [111, 10] ∧ result.Sound ∧
      (shareOf 0 s.taken).filter (fun c => c ≠ ctrl 'D') = result.bytes := by
  have there : (run Console.next quietConsole (oneLine ++ [.resume 0 false])).map
      (fun s => (s.returned, (s.standing 0).got)) = some ([⟨0, 10, [111, 10], 2⟩], []) := rfl
  rcases Option.map_eq_some_iff.mp there with ⟨s, ran, same⟩
  rcases Prod.mk.inj same with ⟨returned, got⟩
  have reached : Reachable Console.next Quiet anyStep s :=
    (Reachable.start quietConsole_quiet).run ran
  rcases console_delivers_in_order reached with ⟨_, shares, sound⟩
  refine ⟨s, _, ran, returned, rfl, sound _ (by rw [returned]; exact List.mem_singleton_self _), ?_⟩
  rw [shares 0, returned, got]
  rfl

/-! ## What the user has typed -/

/-- What a character does to a line of any length: `ready` is the text that is finished. -/
def edit (line : Line) (c : UInt8) : Line :=
  if c = ctrl 'P' then line
  else if c = ctrl 'U' then ⟨line.ready, []⟩
  else if c = ctrl 'H' ∨ c = rubout then ⟨line.ready, line.pending.dropLast⟩
  else if c = 0 then line
  else
    let c := if c = carriageReturn then newline else c
    line.put c (c = newline ∨ c = ctrl 'D')

def edited (typed : List UInt8) : Line := typed.foldl edit ⟨[], []⟩

/-- The ring keeps a free place beside the characters of an interrupt. -/
def Roomy (s : Console) : ConsoleEvent -> Prop
  | .interrupt chars => (s.input.e - s.input.r).toNat + chars.length < INPUT_BUF
  | _ => True

section Editing

variable {line : Line} {s : Console} {base : Nat}

/-- With a free place beside it, a character does to the ring's lists what it does to the text. -/
theorem edit_typed (front : List UInt8) (c : UInt8) (room : line.all.length + 1 < INPUT_BUF) :
    edit ⟨front ++ line.ready, line.pending⟩ c =
      ⟨front ++ (line.typed c).ready, (line.typed c).pending⟩ := by
  rw [edit, Line.typed]
  by_cases isP : c = ctrl 'P'
  · rw [if_pos isP, if_pos isP]
  rw [if_neg isP, if_neg isP]
  by_cases isU : c = ctrl 'U'
  · rw [if_pos isU, if_pos isU]
  rw [if_neg isU, if_neg isU]
  by_cases isH : c = ctrl 'H' ∨ c = rubout
  · rw [if_pos isH, if_pos isH]
  rw [if_neg isH, if_neg isH]
  by_cases null : c = 0
  · rw [if_pos null, if_neg (fun stores => stores.1 null)]
  have stores : c ≠ 0 ∧ line.all.length < INPUT_BUF := ⟨null, Nat.lt_of_succ_lt room⟩
  rw [if_neg null, if_pos stores]
  dsimp only
  have notFull : ¬ line.all.length + 1 = INPUT_BUF := Nat.ne_of_lt room
  simp only [notFull, or_false]
  generalize (if c = carriageReturn then newline else c) = letter
  cases decide (letter = newline ∨ letter = ctrl 'D') with
  | false => rfl
  | true =>
      show Line.mk ((front ++ line.ready) ++ line.pending ++ [_]) [] = Line.mk
        (front ++ (line.ready ++ line.pending ++ [_])) []
      rw [List.append_assoc, List.append_assoc, List.append_assoc]

theorem length_typed (c : UInt8) : (line.typed c).all.length ≤ line.all.length + 1 := by
  have put : forall c finish, (line.put c finish).all.length ≤ line.all.length + 1 := by
    intro c finish
    cases finish with
    | false =>
        show (line.ready ++ (line.pending ++ [c])).length ≤ _
        rw [← List.append_assoc, List.length_append, List.length_singleton]
        exact Nat.le_refl _
    | true =>
        show ((line.all ++ [c]) ++ []).length ≤ _
        rw [List.append_nil, List.length_append, List.length_singleton]
  have fewer : forall pending : List UInt8, pending.length ≤ line.pending.length ->
      (Line.mk line.ready pending).all.length ≤ line.all.length + 1 := by
    intro pending less
    rw [Input.Holds.length_all, Input.Holds.length_all]
    exact Nat.le_succ_of_le (Nat.add_le_add_left less _)
  rw [Line.typed]
  split
  · exact Nat.le_succ _
  split
  · exact fewer [] (Nat.zero_le _)
  split
  · exact fewer _ (by rw [List.length_dropLast]; exact Nat.sub_le _ _)
  split
  · exact put _ _
  · exact Nat.le_succ _

/-- What has been typed, edited, is what was made ready and the line in the ring. -/
structure Edits (s : Console) (line : Line) (base : Nat) : Prop where
  delivery : Delivery s line base
  text : edited s.typed = ⟨s.committed, line.pending⟩

def Followed (s : Console) : Prop := Exists fun line => Exists fun base => Edits s line base

theorem Edits.type (edits : Edits s line base) (c : UInt8)
    (room : line.all.length + 1 < INPUT_BUF) : Edits (s.type c) (line.typed c) base := by
  have now := edits.delivery.type c
  refine ⟨now, ?_⟩
  have front : s.committed = s.taken.map Prod.snd ++ line.ready := edits.delivery.order
  have after : (s.type c).committed = s.taken.map Prod.snd ++ (line.typed c).ready := now.order
  show edited (s.typed ++ [c]) = _
  rw [edited, List.foldl_append, List.foldl_cons, List.foldl_nil, ← edited, edits.text,
    front, after]
  exact edit_typed _ c room

theorem Edits.consoleintr (edits : Edits s line base) (chars : List UInt8)
    (room : line.all.length + chars.length < INPUT_BUF) :
    Edits (s.consoleintr chars) (chars.foldl Line.typed line) base := by
  induction chars generalizing s line with
  | nil => exact edits
  | cons c chars ih =>
      rw [List.length_cons] at room
      have longer := @length_typed line c
      exact ih (edits.type c (by omega)) (by omega)

theorem Edits.readStep {who : Nat} {n : Int} {got : List UInt8} {late : Bool}
    (edits : Edits s line base) (mine : (s.standing who).got = got) (partly : Reader.Sound n got) :
    Followed (s.readStep who n got late) := by
  rcases @Delivery.readStep s line base who n got late edits.delivery mine partly with
    ⟨rest, baseNow, now⟩
  refine ⟨_, baseNow, now, ?_⟩
  have same : (s.readStep who n got late).typed = s.typed ∧
      (s.readStep who n got late).committed = s.committed := by
    rw [Console.readStep]
    dsimp only
    split
    · exact ⟨rfl, rfl⟩
    · exact ⟨rfl, rfl⟩
    · exact ⟨rfl, rfl⟩
  rw [same.1, same.2]
  exact edits.text

theorem Edits.next {event : ConsoleEvent} {after : Console} (edits : Edits s line base)
    (roomy : Roomy s event) (stepped : s.next event = some after) : Followed after := by
  cases event with
  | interrupt chars =>
      rcases Option.some.inj stepped with rfl
      have room : (s.input.e - s.input.r).toNat + chars.length < INPUT_BUF := roomy
      rw [edits.delivery.holds.used] at room
      exact ⟨_, base, edits.consoleintr chars room⟩
  | read who n late =>
      rw [Console.next] at stepped
      split at stepped
      next outside =>
        rcases Option.some.inj stepped with rfl
        exact edits.readStep (by rw [outside]; rfl) ⟨Nat.zero_le _, List.not_mem_nil⟩
      next => exact absurd stepped.symm (Option.some_ne_none _)
  | resume who late =>
      rw [Console.next] at stepped
      split at stepped
      next n got here =>
        rcases Option.some.inj stepped with rfl
        exact edits.readStep (by rw [here]; rfl) (edits.delivery.partly who n got false here)
      next => exact absurd stepped.symm (Option.some_ne_none _)
  | kill who =>
      rcases Option.some.inj stepped with rfl
      exact ⟨line, base, edits.delivery.kill, edits.text⟩

end Editing

/-- In every run that keeps a free place in the ring, the readers take the text that the user has
typed and edited: the finished lines, of which the rest is in the ring, with the line that is
still edited behind it. -/
theorem console_edits_lines {s : Console} (reached : Reachable Console.next Quiet Roomy s) :
    Exists fun line => Exists fun base =>
      s.input.Holds line base ∧ (edited s.typed).ready = s.taken.map Prod.snd ++ line.ready ∧
      (edited s.typed).pending = line.pending := by
  have followed : Followed s := by
    refine reached.invariant (fun _ first => ⟨_, _, Delivery.quiet first, ?_⟩)
      (fun _ _ _ followed roomy stepped => followed.choose_spec.choose_spec.next roomy stepped)
    rw [first.typed, first.committed]
    rfl
  rcases followed with ⟨line, base, edits⟩
  refine ⟨line, base, edits.delivery.holds, ?_, ?_⟩
  · rw [edits.text, edits.delivery.order]
  · rw [edits.text]

theorem console_edits_lines_oneLine :
    Exists fun s =>
      run Console.next quietConsole oneLine = some s ∧
      Exists fun line : Line =>
        (edited s.typed).ready = s.taken.map Prod.snd ++ line.ready ∧
        (edited s.typed).pending = line.pending := by
  have waits : Reachable Console.next Quiet Roomy (quietConsole.readStep 0 10 [] false) :=
    @Reachable.step _ _ Console.next _ _ quietConsole _ (.read 0 10 false)
      (.start quietConsole_quiet) trivial rfl
  have typed : Reachable Console.next Quiet Roomy
      ((quietConsole.readStep 0 10 [] false).consoleintr [104, 8, 111, 10]) :=
    @Reachable.step _ _ Console.next _ _ _ _ (.interrupt [104, 8, 111, 10]) waits
      (show (0 : UInt32).toNat + 4 < INPUT_BUF by decide) rfl
  rcases console_edits_lines typed with ⟨line, _, _, text⟩
  exact ⟨_, rfl, line, text⟩

end Channels
end OsProjects
