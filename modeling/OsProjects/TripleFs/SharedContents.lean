import OsProjects.TripleFs.SharedCache
import Mathlib.Data.Fintype.Pi

namespace OsProjects
namespace TripleFs
namespace SharedCache

open Machine

/-!
# What processes see of the disk

The reads that `bread` returns and the writes that the disk carries out are, in the order of
the run, the reads and writes of one plain array of sectors.  Two things are needed for it:
the disk reports no error, which `ideintr` ignores, and a process that changed a buffer
writes it before `brelse`.  Otherwise the cache keeps what is not on the disk for as long as
the buffer is not taken for another sector.
-/

/-- A plain array of sectors: a read has to get what is there. -/
def plainly (contents : Address -> Block) : Access -> Option (Address -> Block)
  | .got address data => if contents address = data then some contents else none
  | .wrote address data => some (Function.update contents address data)

/-- The steps without errors of the disk, in which `brelse` gets only buffers that agree with it. -/
def Careful (s : State) : Event -> Prop
  | .bread _ dev sector => dev < 2 ∧ sector < 2 ^ 28
  | .brelse _ b => (s.buf b).data = s.controller.disk (s.buf b).address
  | .interrupt failed => failed = false
  | _ => True

theorem Careful.addressable (s : State) (event : Event) (careful : Careful s event) :
    Addressable s event := by
  cases event with
  | bread who dev sector => exact careful
  | _ => exact trivial

/-- The buffer has the contents of its sector. -/
def Agrees (s : State) (b : Slot) : Prop := (s.buf b).data = s.controller.disk (s.buf b).address

/-- The accesses so far, and the buffers that nobody changes. -/
structure Coherent (contents : Address -> Block) (s : State) : Prop where
  history : run plainly contents s.log = some s.controller.disk
  free : forall b, s.holder b = none -> (s.buf b).valid = true -> Agrees s b
  checked : forall who b, s.standing who = .checking b -> (s.buf b).valid = true -> Agrees s b
  synced : forall who b reads asleep, s.standing who = .syncing b reads asleep ->
    b ∉ s.idequeue -> Agrees s b

namespace Coherent

variable {contents : Address -> Block} {s after : State} {who : Nat} {x : Slot} {dev sector : Nat}

/-- A step that accesses no sector and makes no promise about a buffer. -/
structure Calm (s after : State) : Prop where
  log : after.log = s.log
  disk : after.controller.disk = s.controller.disk
  kept : forall b, (after.buf b).data = (s.buf b).data ∧ (after.buf b).address = (s.buf b).address ∧
    (after.buf b).valid = (s.buf b).valid
  free : forall b, after.holder b = none -> s.holder b = none
  checked : forall who b, after.standing who = .checking b -> s.standing who = .checking b
  synced : forall who b reads asleep, after.standing who = .syncing b reads asleep ->
    b ∉ after.idequeue -> (Exists fun asleep => s.standing who = .syncing b reads asleep) ∧
    b ∉ s.idequeue

theorem calm (coherent : Coherent contents s) (calm : Calm s after) : Coherent contents after := by
  have agrees : forall b, Agrees s b -> Agrees after b := by
    intro b agrees
    rw [Agrees, (calm.kept b).1, (calm.kept b).2.1, calm.disk]
    exact agrees
  refine ⟨?_, fun b free valid => agrees b
    (coherent.free b (calm.free b free) ((calm.kept b).2.2 ▸ valid)), fun who b checks valid =>
    agrees b (coherent.checked who b (calm.checked who b checks) ((calm.kept b).2.2 ▸ valid)),
    fun who b reads asleep syncs outside => ?_⟩
  · rw [calm.log, calm.disk]
    exact coherent.history
  · rcases calm.synced who b reads asleep syncs outside with ⟨⟨before, syncs⟩, outside⟩
    exact agrees b (coherent.synced who b reads before syncs outside)

/-- A step of one process that leaves the buffers alone. -/
theorem calm_stand {standing : Standing} (checked : forall b, standing ≠ .checking b)
    (synced : forall b reads asleep, standing = .syncing b reads asleep -> b ∉ s.idequeue ->
      Exists fun asleep => s.standing who = .syncing b reads asleep) :
    Calm s (s.stand who standing) := by
  refine ⟨rfl, rfl, fun _ => ⟨rfl, rfl, rfl⟩, fun _ => id, fun other b checks => ?_,
    fun other b reads asleep syncs outside =>
    ⟨?_, outside⟩⟩
  · by_cases same : other = who
    · rw [same] at checks
      exact absurd ((Function.update_self ..).symm.trans checks) (checked b)
    · exact (Function.update_of_ne same ..).symm.trans checks
  · by_cases same : other = who
    · rw [same] at syncs ⊢
      exact synced b reads asleep ((Function.update_self ..).symm.trans syncs) outside
    · exact ⟨asleep, (Function.update_of_ne same ..).symm.trans syncs⟩

theorem calm_panic {reason : Panic} : Calm s (s.panic reason) :=
  ⟨rfl, rfl, fun _ => ⟨rfl, rfl, rfl⟩, fun _ => id, fun _ _ => id,
    fun _ _ _ asleep syncs outside => ⟨⟨asleep, syncs⟩, outside⟩⟩

/-- Taking a buffer that is free. -/
theorem take (coherent : Coherent contents s) (orderly : Orderly s) {new : Buf}
    (free : (s.buf x).busy = false)
    (agrees : new.valid = true -> new.data = s.controller.disk new.address) :
    Coherent contents (s.take who x new) := by
  have nobody := orderly.holder_of_free free
  have other : forall b, b ≠ x -> Agrees s b -> Agrees (s.take who x new) b := by
    intro b different agrees
    show (Function.update s.buf x new b).data = s.controller.disk
      (Function.update s.buf x new b).address
    rw [Function.update_of_ne different]
    exact agrees
  have standing : forall other, other ≠ who ->
      (s.take who x new).standing other = s.standing other :=
    fun other different => Function.update_of_ne different ..
  have own : (s.take who x new).standing who = .checking x := Function.update_self ..
  have buf : forall b, b ≠ x -> (s.take who x new).buf b = s.buf b :=
    fun b different => Function.update_of_ne different ..
  refine ⟨coherent.history, fun b free valid => ?_, fun user b checks valid => ?_,
    fun user b reads asleep syncs outside => ?_⟩
  · by_cases same : b = x
    · rw [same] at free
      exact absurd ((Function.update_self ..).symm.trans free) (Option.some_ne_none _)
    · rw [buf b same] at valid
      exact other b same (coherent.free b ((Function.update_of_ne same ..).symm.trans free) valid)
  · by_cases same : b = x
    · rw [same] at valid ⊢
      show (Function.update s.buf x new x).data = s.controller.disk
        (Function.update s.buf x new x).address
      have valid : (Function.update s.buf x new x).valid = true := valid
      rw [Function.update_self] at valid ⊢
      exact agrees valid
    · by_cases self : user = who
      · rw [self, own] at checks
        exact absurd (Standing.checking.inj checks).symm same
      · rw [standing user self] at checks
        rw [buf b same] at valid
        exact other b same (coherent.checked user b checks valid)
  · by_cases self : user = who
    · rw [self, own] at syncs
      exact Standing.noConfusion syncs
    · rw [standing user self] at syncs
      have holds : s.holder b = some user := orderly.holder_of_uses (by rw [syncs]; rfl)
      refine other b ?_ (coherent.synced user b reads asleep syncs outside)
      rintro rfl
      exact Option.some_ne_none _ (holds.symm.trans nobody)

theorem bget (coherent : Coherent contents s) (orderly : Orderly s) :
    Coherent contents (s.bget who dev sector) := by
  rw [State.bget]
  split
  next b found =>
    split
    next =>
        exact coherent.calm (calm_stand (fun _ => Standing.noConfusion)
          (fun _ _ _ => Standing.noConfusion))
    next free =>
      have free := Bool.eq_false_iff.mpr free
      exact coherent.take orderly free (coherent.free b (orderly.holder_of_free free))
  next =>
    split
    next b found =>
      have free := List.find?_some found
      rw [Bool.not_eq_true'] at free
      exact coherent.take orderly free (fun valid => absurd valid Bool.false_ne_true)
    next => exact coherent.calm calm_panic

/-- `bread` returns what the sector holds. -/
theorem give (coherent : Coherent contents s) (agrees : Agrees s x) :
    Coherent contents (s.give who x) := by
  have noted : Coherent contents { s with
      log := s.log ++ [Access.got (s.buf x).address (s.buf x).data] } := by
    refine ⟨run_append coherent.history ?_, coherent.free, coherent.checked, coherent.synced⟩
    refine run_cons_eq_some.mpr ⟨s.controller.disk, ?_, rfl⟩
    rw [plainly, if_pos agrees.symm]
  exact noted.calm (calm_stand (fun _ => Standing.noConfusion) (fun _ _ _ => Standing.noConfusion))

theorem calm_append : Calm s (s.append x) := by
  rw [State.append_eq]
  exact ⟨rfl, rfl, fun _ => ⟨rfl, rfl, rfl⟩, fun _ => id, fun _ _ => id,
    fun _ b _ asleep syncs outside =>
    ⟨⟨asleep, syncs⟩, fun inside => outside (List.mem_append_left _ inside)⟩⟩

theorem iderw (coherent : Coherent contents s) {reads : Bool} :
    Coherent contents (s.iderw who x reads) := by
  rw [State.iderw]
  split
  next => exact coherent.calm calm_panic
  next =>
  split
  next => exact coherent.calm calm_panic
  next unsynced =>
  split
  next => exact coherent.calm calm_panic
  next =>
    have buf : (s.append x).buf x = s.buf x := by
      rw [State.append_eq]
    rw [State.await, buf, if_neg unsynced]
    refine (coherent.calm calm_append).calm
      (calm_stand (fun _ => Standing.noConfusion) (fun b _ _ syncs outside => ?_))
    rcases Standing.syncing.inj syncs with ⟨rfl, _, _⟩
    rw [State.append_eq] at outside
    exact absurd (List.mem_append_right _ List.mem_cons_self) outside

theorem check (coherent : Coherent contents s) (checks : s.standing who = .checking x) :
    Coherent contents (s.check who x) := by
  rw [State.check]
  split
  next => exact coherent.iderw
  next valid => exact coherent.give (coherent.checked who x checks (eq_true_of_ne_false valid))

theorem await (coherent : Coherent contents s) (orderly : Orderly s) {reads : Bool}
    (syncs : s.standing who = .syncing x reads false) :
    Coherent contents (s.await who x reads) := by
  have fits := orderly.fits who
  rw [syncs] at fits
  rw [State.await]
  split
  next synced =>
    have outside : x ∉ s.idequeue := by
      intro inside
      have rest := fits.2
      rw [if_pos inside] at rest
      exact rest.1 synced
    split
    next => exact coherent.give (coherent.synced who x reads false syncs outside)
    next =>
        exact coherent.calm (calm_stand (fun _ => Standing.noConfusion)
          (fun _ _ _ => Standing.noConfusion))
  next =>
    refine coherent.calm (calm_stand (fun _ => Standing.noConfusion) (fun b _ _ again _ => ?_))
    rcases Standing.syncing.inj again with ⟨rfl, rfl, _⟩
    exact ⟨false, syncs⟩

/-- Changing one buffer, on which nobody works. -/
theorem revise (coherent : Coherent contents s) (log : after.log = s.log)
    (disk : after.controller.disk = s.controller.disk)
    (buf : forall b, b ≠ x -> after.buf b = s.buf b)
    (holder : forall b, b ≠ x -> after.holder b = s.holder b)
    (own : after.holder x = none -> (after.buf x).valid = true -> Agrees after x)
    (checked : forall who b, after.standing who = .checking b ->
      b ≠ x ∧ s.standing who = .checking b)
    (synced : forall who b reads asleep, after.standing who = .syncing b reads asleep ->
      b ∉ after.idequeue ->
      b ≠ x ∧ (Exists fun asleep => s.standing who = .syncing b reads asleep) ∧ b ∉ s.idequeue) :
    Coherent contents after := by
  have agrees : forall b, b ≠ x -> Agrees s b -> Agrees after b := by
    intro b different agrees
    rw [Agrees, buf b different, disk]
    exact agrees
  refine ⟨?_, fun b free valid => ?_, fun who b checks valid => ?_,
    fun who b reads asleep syncs outside => ?_⟩
  · rw [log, disk]
    exact coherent.history
  · by_cases same : b = x
    · rw [same] at free valid ⊢
      exact own free valid
    · rw [holder b same] at free
      rw [buf b same] at valid
      exact agrees b same (coherent.free b free valid)
  · rcases checked who b checks with ⟨different, checks⟩
    rw [buf b different] at valid
    exact agrees b different (coherent.checked who b checks valid)
  · rcases synced who b reads asleep syncs outside with ⟨different, ⟨before, syncs⟩, outside⟩
    exact agrees b different (coherent.synced who b reads before syncs outside)

theorem bwrite (coherent : Coherent contents s) : Coherent contents (s.bwrite who x) := by
  rw [State.bwrite]
  split
  next => exact coherent.calm calm_panic
  next =>
    have stored : Coherent contents (s.store x { s.buf x with dirty := true }) := by
      refine coherent.calm ⟨rfl, rfl, fun b => ?_, fun _ => id, fun _ _ => id,
        fun _ _ _ asleep syncs outside => ⟨⟨asleep, syncs⟩, outside⟩⟩
      dsimp only [State.store]
      by_cases same : b = x
      · rw [same, Function.update_self]
        exact ⟨rfl, rfl, rfl⟩
      · rw [Function.update_of_ne same]
        exact ⟨rfl, rfl, rfl⟩
    exact stored.iderw

/-- Nobody works on a buffer whose holder is outside. -/
theorem ne_of_uses (orderly : Orderly s) (holds : s.holder x = some who)
    (out : s.standing who = .out) {other : Nat} {b : Slot}
    (uses : (s.standing other).uses = some b) : b ≠ x := by
  rintro rfl
  exact orderly.unused_of_out holds out other uses

theorem patch (coherent : Coherent contents s) (orderly : Orderly s) (out : s.standing who = .out)
    (holds : s.holder x = some who) (data : Block) :
    Coherent contents (s.store x { s.buf x with data := data }) :=
  coherent.revise rfl rfl (fun _ other => Function.update_of_ne other ..)
    (fun _ _ => rfl) (fun free => absurd (holds.symm.trans free) (Option.some_ne_none _))
    (fun _ _ checks => ⟨ne_of_uses orderly holds out (congrArg Standing.uses checks), checks⟩)
    (fun _ _ _ asleep syncs outside =>
    ⟨ne_of_uses orderly holds out (congrArg Standing.uses syncs), ⟨asleep, syncs⟩, outside⟩)

theorem awake_checking {standing : Standing} {b : Slot} (checks : standing.awake = .checking b) :
    standing = .checking b := by
  cases standing with
  | out => exact Standing.noConfusion checks
  | getting _ _ _ => exact Standing.noConfusion checks
  | checking _ => exact checks
  | syncing _ _ _ => exact Standing.noConfusion checks

theorem awake_syncing {standing : Standing} {b : Slot} {reads asleep : Bool}
    (syncs : standing.awake = .syncing b reads asleep) :
    Exists fun asleep => standing = .syncing b reads asleep := by
  cases standing with
  | out => exact Standing.noConfusion syncs
  | getting _ _ _ => exact Standing.noConfusion syncs
  | checking _ => exact Standing.noConfusion syncs
  | syncing c old before =>
      rcases Standing.syncing.inj syncs with ⟨rfl, rfl, _⟩
      exact ⟨before, rfl⟩

theorem wakeup_checking {user : Nat} {b : Slot}
    (checks : (s.wakeup x).standing user = .checking b) : s.standing user = .checking b := by
  have checks : (if (s.standing user).chan = some x then (s.standing user).awake
      else s.standing user) = .checking b := checks
  split at checks
  · exact awake_checking checks
  · exact checks

theorem wakeup_syncing {user : Nat} {b : Slot} {reads asleep : Bool}
    (syncs : (s.wakeup x).standing user = .syncing b reads asleep) :
    Exists fun asleep => s.standing user = .syncing b reads asleep := by
  have syncs : (if (s.standing user).chan = some x then (s.standing user).awake
      else s.standing user) = .syncing b reads asleep := syncs
  split at syncs
  · exact awake_syncing syncs
  · exact ⟨asleep, syncs⟩

theorem kill (coherent : Coherent contents s) :
    Coherent contents (s.stand who (s.standing who).awake) := by
  refine coherent.calm ⟨rfl, rfl, fun _ => ⟨rfl, rfl, rfl⟩, fun _ => id, fun user b checks => ?_,
    fun user b reads asleep syncs outside =>
    ⟨?_, outside⟩⟩
  · by_cases same : user = who
    · rw [same] at checks ⊢
      exact awake_checking ((Function.update_self ..).symm.trans checks)
    · exact (Function.update_of_ne same ..).symm.trans checks
  · by_cases same : user = who
    · rw [same] at syncs ⊢
      exact awake_syncing ((Function.update_self ..).symm.trans syncs)
    · exact ⟨asleep, (Function.update_of_ne same ..).symm.trans syncs⟩

theorem brelse (coherent : Coherent contents s) (orderly : Orderly s) (out : s.standing who = .out)
    (holds : s.holder x = some who) (agrees : Agrees s x) : Coherent contents (s.brelse x) := by
  rw [State.brelse]
  split
  next => exact coherent.calm calm_panic
  next =>
    refine @revise _ s _ x coherent rfl rfl (fun _ other => Function.update_of_ne other ..)
      (fun _ other => Function.update_of_ne other ..) (fun _ _ => ?_) (fun _ b checks => ?_)
      (fun _ b _ asleep syncs outside => ?_)
    · show (Function.update s.buf x _ x).data = s.controller.disk
        (Function.update s.buf x _ x).address
      rw [Function.update_self]
      exact agrees
    · have checks := @wakeup_checking s x _ b checks
      exact ⟨ne_of_uses orderly holds out (congrArg Standing.uses checks), checks⟩
    · rcases @wakeup_syncing s x _ b _ _ syncs with ⟨before, syncs⟩
      exact ⟨ne_of_uses orderly holds out (congrArg Standing.uses syncs), ⟨before, syncs⟩, outside⟩

/-- What the first request writes to its sector or gets from it. -/
theorem finish_first (coherent : Coherent contents s) (orderly : Orderly s) {rest : List Slot}
    (queue : s.idequeue = x :: rest) : Exists fun data =>
      (if (s.buf x).dirty = false ∧ false = false then (s.controller.finish false).register
        else (s.buf x).data) = data ∧
      (s.controller.finish false).disk = Function.update s.controller.disk (s.buf x).address data ∧
      run plainly contents (s.finish false).log =
      some (Function.update s.controller.disk (s.buf x).address data) := by
  have working : s.controller.command = some (s.buf x).command := by
    rw [orderly.working, queue]
    rfl
  rw [Buf.command] at working
  have log : (s.finish false).log = s.log ++ (s.controller.command.map Command.access).getD [] :=
    rfl
  rw [log, Controller.finish]
  cases dirty : (s.buf x).dirty with
  | false =>
      rw [dirty, if_neg Bool.false_ne_true] at working
      rw [working]
      refine ⟨s.controller.disk (s.buf x).address, if_pos ⟨rfl, rfl⟩,
        (Function.update_eq_self ..).symm, ?_⟩
      rw [Function.update_eq_self]
      exact run_append coherent.history rfl
  | true =>
      rw [dirty, if_pos rfl] at working
      rw [working]
      exact ⟨(s.buf x).data, if_neg (fun read => Bool.false_ne_true read.1.symm), rfl,
        run_append coherent.history rfl⟩

/-- The end of the first command, when the disk reports no error. -/
theorem interrupt (coherent : Coherent contents s) (orderly : Orderly s) :
    Coherent contents ((s.finish false).ideintr false) := by
  have working := orderly.working
  cases queue : s.idequeue with
  | nil =>
      rw [queue] at working
      have step : (s.finish false).ideintr false = s.finish false := by
        rw [State.ideintr, show (s.finish false).idequeue = [] from queue]
      rw [step]
      refine coherent.calm ⟨?_, ?_, fun _ => ⟨rfl, rfl, rfl⟩, fun _ => id, fun _ _ => id,
        fun _ _ _ asleep syncs outside => ⟨⟨asleep, syncs⟩, outside⟩⟩
      · show s.log ++ (if false = true then []
          else (s.controller.command.map Command.access).getD []) = s.log
        rw [working]
        exact List.append_nil _
      · show (s.controller.finish false).disk = s.controller.disk
        rw [Controller.finish, working]
        rfl
  | cons x rest =>
      rw [queue] at working
      have step : (s.finish false).ideintr false = (s.finish false).serve x rest false := by
        rw [State.ideintr, show (s.finish false).idequeue = x :: rest from queue]
      rw [step]
      rcases coherent.finish_first orderly queue with ⟨data, transferred, written, history⟩
      have buf : ((s.finish false).serve x rest false).buf =
          Function.update s.buf x { s.buf x with data := data, valid := true, dirty := false } := by
        rw [← transferred]
        cases rest <;> rfl
      have disk : ((s.finish false).serve x rest false).controller.disk =
          Function.update s.controller.disk (s.buf x).address data := by
        rw [← written]
        cases rest <;> rfl
      have holder : ((s.finish false).serve x rest false).holder = s.holder := by cases rest <;> rfl
      have standing : ((s.finish false).serve x rest false).standing = (s.wakeup x).standing := by
        cases rest <;> rfl
      have log : ((s.finish false).serve x rest false).log = (s.finish false).log := by
        cases rest <;> rfl
      have idequeue : ((s.finish false).serve x rest false).idequeue = rest := by cases rest <;> rfl
      have own : Agrees ((s.finish false).serve x rest false) x := by
        rw [Agrees, disk, buf, Function.update_self]
        exact (Function.update_self (s.buf x).address data s.controller.disk).symm
      have ours : Named (s.buf x) := by
        rcases orderly.queued x (by rw [queue]; exact List.mem_cons_self) with
          ⟨user, reads, asleep, syncs⟩
        exact orderly.named_of_held (orderly.holder_of_uses (by rw [syncs]; rfl))
      have others : forall b, b ≠ x -> Named (s.buf b) -> Agrees s b ->
          Agrees ((s.finish false).serve x rest false) b := by
        intro b different theirs agrees
        have apart : (s.buf b).address ≠ (s.buf x).address := by
          intro same
          have place := theirs.of_address ours same
          exact different (orderly.distinct b x place.1 place.2 theirs)
        rw [Agrees, disk, buf, Function.update_of_ne different, Function.update_of_ne apart]
        exact agrees
      refine ⟨by rw [log, disk]; exact history, fun b free valid => ?_,
        fun user b checks valid => ?_, fun user b reads asleep syncs outside => ?_⟩
      · by_cases same : b = x
        · exact same ▸ own
        · rw [holder] at free
          rw [buf, Function.update_of_ne same] at valid
          refine others b same ?_ (coherent.free b free valid)
          rcases orderly.named b with named | fresh
          · exact named
          · exact absurd (valid.symm.trans fresh.2.1) Bool.true_eq_false.mp
      · by_cases same : b = x
        · exact same ▸ own
        · rw [standing] at checks
          have checks := wakeup_checking checks
          rw [buf, Function.update_of_ne same] at valid
          exact others b same (orderly.named_of_held (orderly.holder_of_uses (by rw [checks]; rfl)))
            (coherent.checked user b checks valid)
      · by_cases same : b = x
        · exact same ▸ own
        · rw [standing] at syncs
          rcases wakeup_syncing syncs with ⟨before, syncs⟩
          rw [idequeue] at outside
          refine others b same (orderly.named_of_held (orderly.holder_of_uses (by rw [syncs]; rfl)))
            (coherent.synced user b reads before syncs (fun inside => ?_))
          rw [queue] at inside
          exact (List.mem_cons.mp inside).elim same outside

theorem next {event : Event} (coherent : Coherent contents s) (orderly : Orderly s)
    (careful : Careful s event) (stepped : next s event = some after) :
    Coherent contents after := by
  rcases moves stepped with ⟨_, moves⟩
  cases moves with
  | bread _ => exact coherent.bget orderly
  | again _ => exact coherent.bget orderly
  | check checks => exact coherent.check checks
  | await syncs => exact coherent.await orderly syncs
  | patch out holds => exact coherent.patch orderly out holds _
  | bwrite _ _ => exact coherent.bwrite
  | brelse out holds => exact coherent.brelse orderly out holds careful
  | kill => exact coherent.kill
  | interrupt =>
      rcases careful with rfl
      exact coherent.interrupt orderly

theorem boot (first : Boot s) : Coherent s.controller.disk s := by
  refine ⟨by rw [first.log]; rfl, fun b _ valid => ?_, fun who b checks => ?_,
    fun who b reads asleep syncs => ?_⟩
  · rw [first.buf] at valid
    exact absurd valid Bool.false_ne_true
  · exact Standing.noConfusion ((first.standing who).symm.trans checks)
  · exact Standing.noConfusion ((first.standing who).symm.trans syncs)

end Coherent

/-- The machine has started with these contents on its disks. -/
def Started (contents : Address -> Block) (s : State) : Prop :=
  Boot s ∧ s.controller.disk = contents

/-- The two invariants together. -/
def Kept (contents : Address -> Block) (s : State) : Prop := Sound s ∧ Coherent contents s

theorem Kept.reached {contents : Address -> Block} {s : State}
    (reached : Reachable next (Started contents) Careful s) : Kept contents s :=
  reached.invariant (fun s first => ⟨.of_orderly (.boot first.1) first.1.panicked,
    first.2 ▸ Coherent.boot first.1⟩) (fun before event after kept careful stepped => by
      have sound := kept.1
      rw [Sound, (moves stepped).1] at sound
      exact ⟨Sound.next sound (careful.addressable before event) stepped,
        kept.2.next sound careful stepped⟩)

/-- In every run without disk errors, in whatever order processes read and write, what `bread`
returned and what the disk wrote is a run of one plain array of sectors, which ends in the
contents of the disk.  A buffer that nobody holds is then either not valid or has the contents
of its sector, and when `iderw` returns, its buffer has been written or read. -/
theorem shared_disk_is_plain {contents : Address -> Block} {s : State}
    (reached : Reachable next (Started contents) Careful s) :
    run plainly contents s.log = some s.controller.disk ∧
    (forall b, s.holder b = none -> (s.buf b).valid = true -> Agrees s b) ∧
    forall who b reads asleep, s.standing who = .syncing b reads asleep -> b ∉ s.idequeue ->
      Agrees s b :=
  have coherent := (Kept.reached reached).2
  ⟨coherent.history, coherent.free, coherent.synced⟩

/-- A process reads a sector, changes it and writes it. -/
def exchange : List Event :=
  [.bread 0 1 5, .resume 0, .interrupt false, .resume 0, .patch 0 ⟨0, by decide⟩ (Bytes.fill 7),
    .bwrite 0 ⟨0, by decide⟩, .interrupt false, .resume 0]

theorem exchange_careful : forall event, event ∈ exchange -> forall state, Careful state event := by
  intro event inside state
  rcases List.mem_cons.mp inside with rfl | inside
  · exact ⟨by decide, by decide⟩
  rcases List.mem_cons.mp inside with rfl | inside
  · exact trivial
  rcases List.mem_cons.mp inside with rfl | inside
  · exact rfl
  rcases List.mem_cons.mp inside with rfl | inside
  · exact trivial
  rcases List.mem_cons.mp inside with rfl | inside
  · exact trivial
  rcases List.mem_cons.mp inside with rfl | inside
  · exact trivial
  rcases List.mem_cons.mp inside with rfl | inside
  · exact rfl
  rcases List.mem_cons.mp inside with rfl | inside
  · exact trivial
  · exact absurd inside List.not_mem_nil

theorem shared_disk_is_plain_exchange : Exists fun s => run next booted exchange = some s ∧
    run plainly booted.controller.disk s.log = some s.controller.disk :=
  ⟨_, rfl, (shared_disk_is_plain (@Reachable.run_allowed _ _ next (Started booted.controller.disk)
    Careful booted _ (.start ⟨booted_boot, rfl⟩) exchange rfl exchange_careful)).1⟩

end SharedCache
end TripleFs
end OsProjects
