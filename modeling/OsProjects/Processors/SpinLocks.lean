import OsProjects.Machine.Transition
import Mathlib.Logic.Function.Basic
import Mathlib.Data.List.Nodup

namespace OsProjects
namespace Processors

open Machine

/-!
# Spin locks and interrupts

Several processors run the code of the kernel, and they meet in the words `locked` and `cpu`
of the spin locks.  A step is one access to such a word, or work of a processor on its own
flags and its own `struct cpu`; so a run is an interleaving of the accesses.

An interrupt can come between any two steps of a processor that has interrupts enabled.  The
gate disables them, and `iret` enables them again.  Handlers take locks, too, so a processor
that was interrupted with a lock could wait for itself.

The models of the pipe, the console and the disk queue take what happens under a lock as one
step, and that no two processors have one lock is what allows it.

Which process runs on a processor is left out; so is `sched`, where a process hands its lock
and its `intena` to another one.
-/

/-- `panic` in `acquire`, `release` and `popcli`. -/
inductive Panic
  | acquire (lk : Nat)
  | release (lk : Nat)
  | interruptible
  | popcli
  deriving DecidableEq

/-- Where a processor is in `acquire` or `release`, with `eflags` of `pushcli`. -/
inductive Place
  | out
  | pushing (lk : Nat) (eflags : Bool)
  | counting (lk : Nat) (eflags : Bool)
  | testing (lk : Nat)
  | comparing (lk : Nat)
  | spinning (lk : Nat)
  | recording (lk : Nat)
  | verifying (lk : Nat)
  | checking (lk : Nat)
  | forgetting (lk : Nat)
  | unlocking (lk : Nat)
  | popping
  | panicked (reason : Panic)
  deriving DecidableEq

/-- `struct spinlock` -/
structure Spinlock where
  locked : Bool
  cpu : Option Nat

def initlock : Spinlock := ⟨false, none⟩

/-- The interrupt flag, `ncli` and `intena` of a processor, where it is, and where it was when
interrupts came. -/
structure Cpu where
  interruptible : Bool
  ncli : Nat
  intena : Bool
  place : Place
  interrupted : List Place

structure State where
  lock : Nat -> Spinlock
  cpu : Nat -> Cpu
  /-- The locks that the code of a processor has got; no code reads this. -/
  holds : Nat -> List Nat

namespace State

def put (s : State) (c : Nat) (cpu : Cpu) : State := { s with cpu := Function.update s.cpu c cpu }

def stand (s : State) (c : Nat) (place : Place) : State := s.put c { s.cpu c with place := place }

def write (s : State) (lk : Nat) (lock : Spinlock) : State :=
  { s with lock := Function.update s.lock lk lock }

/-- `panic`, which begins with `cli` and does not return. -/
def panic (s : State) (c : Nat) (reason : Panic) : State :=
  s.put c { s.cpu c with interruptible := false, place := .panicked reason }

def popcli (s : State) (c : Nat) : State :=
  let cpu := s.cpu c
  if cpu.interruptible then s.panic c .interruptible
  else if cpu.ncli = 0 then s.panic c .popcli
  else
    let ncli := cpu.ncli - 1
    s.put c { cpu with
      ncli := ncli
      interruptible := if ncli = 0 ∧ cpu.intena = true then true else cpu.interruptible
      place := .out }

/-- The next step of `acquire` or `release`: `testing` and `comparing` are the two reads of
`holding` in `acquire`, `verifying` and `checking` those in `release`. -/
def go (s : State) (c : Nat) : Option State :=
  let cpu := s.cpu c
  match cpu.place with
  | .out => none
  | .panicked _ => none
  | .pushing lk eflags =>
      some (s.put c { cpu with interruptible := false, place := .counting lk eflags })
  | .counting lk eflags => some (s.put c { cpu with
      ncli := cpu.ncli + 1
      intena := if cpu.ncli = 0 then eflags else cpu.intena
      place := .testing lk })
  | .testing lk => some (s.stand c (if (s.lock lk).locked then .comparing lk else .spinning lk))
  | .comparing lk =>
      some (if (s.lock lk).cpu = some c then s.panic c (.acquire lk) else s.stand c (.spinning lk))
  | .spinning lk =>
      if (s.lock lk).locked then some s
      else some { (s.write lk { s.lock lk with locked := true }).stand c (.recording lk) with
        holds := Function.update s.holds c (lk :: s.holds c) }
  | .recording lk => some ((s.write lk { s.lock lk with cpu := some c }).stand c .out)
  | .verifying lk =>
      some (if (s.lock lk).locked then s.stand c (.checking lk) else s.panic c (.release lk))
  | .checking lk =>
      some (if (s.lock lk).cpu = some c then s.stand c (.forgetting lk)
        else s.panic c (.release lk))
  | .forgetting lk => some ((s.write lk { s.lock lk with cpu := none }).stand c (.unlocking lk))
  | .unlocking lk => some { (s.write lk { s.lock lk with locked := false }).stand c .popping with
      holds := Function.update s.holds c ((s.holds c).erase lk) }
  | .popping => some (s.popcli c)

end State

/-- A call of `acquire` or `release`, a step of it, an interrupt, or the end of a handler. -/
inductive Event
  | acquire (c lk : Nat)
  | release (c lk : Nat)
  | go (c : Nat)
  | interrupt (c : Nat)
  | iret (c : Nat)

def next (s : State) : Event -> Option State
  | .acquire c lk =>
      if (s.cpu c).place = .out then
        some (s.stand c (.pushing lk (s.cpu c).interruptible))
      else none
  | .release c lk => if (s.cpu c).place = .out then some (s.stand c (.verifying lk)) else none
  | .go c => s.go c
  | .interrupt c =>
      if (s.cpu c).interruptible then
        some (s.put c { s.cpu c with
          interruptible := false, place := .out, interrupted :=
            (s.cpu c).place :: (s.cpu c).interrupted })
      else none
  | .iret c =>
      match (s.cpu c).interrupted with
      | [] => none
      | place :: rest =>
          if (s.cpu c).place = .out then
            some (s.put
              c { s.cpu c with interruptible := true, place := place, interrupted := rest })
          else none

/-- The processors have enabled interrupts, and nothing is locked. -/
structure Started (s : State) : Prop where
  unlocked : forall lk, s.lock lk = initlock
  enabled : forall c, (s.cpu c).interruptible = true
  ncli : forall c, (s.cpu c).ncli = 0
  place : forall c, (s.cpu c).place = .out
  interrupted : forall c, (s.cpu c).interrupted = []
  holds : forall c, s.holds c = []

/-- A handler releases what it has acquired. -/
def Balanced (s : State) : Event -> Prop
  | .iret c => s.holds c = []
  | _ => True

/-! ## One processor -/

namespace Place

/-- Interrupts are off here. -/
def masked : Place -> Bool
  | .out => false
  | .pushing _ _ => false
  | .verifying _ => false
  | .checking _ => false
  | _ => true

/-- By how much `ncli` exceeds the number of locks here. -/
def extra : Place -> Nat
  | .testing _ => 1
  | .comparing _ => 1
  | .spinning _ => 1
  | .popping => 1
  | .panicked (.acquire _) => 1
  | _ => 0

/-- What a place says about the locks of the processor. -/
def Fits (holds : List Nat) : Place -> Prop
  | .spinning lk => lk ∉ holds
  | .recording lk => lk ∈ holds
  | .forgetting lk => lk ∈ holds
  | .unlocking lk => lk ∈ holds
  | .panicked (.acquire lk) => lk ∈ holds
  | .panicked (.release lk) => lk ∉ holds
  | .panicked _ => False
  | _ => True

/-- Not between taking or giving up a lock and the word `cpu`. -/
def calm : Place -> Bool
  | .recording _ => false
  | .unlocking _ => false
  | _ => true

variable {place : Place}

theorem not_moving (calm : place.calm = true) (lk : Nat) :
    ¬ (place = .recording lk ∨ place = .unlocking lk) := by
  rintro (rfl | rfl)
  · exact Bool.noConfusion calm
  · exact Bool.noConfusion calm

theorem calm_of_unmasked (unmasked : place.masked = false) : place.calm = true := by
  cases place with
  | recording => exact Bool.noConfusion unmasked
  | unlocking => exact Bool.noConfusion unmasked
  | _ => rfl

theorem of_unmasked (unmasked : place.masked = false) (holds : List Nat) :
    place.extra = 0 ∧ place.Fits holds ∧ forall lk eflags, place ≠ .counting lk eflags := by
  cases place with
  | out => exact ⟨rfl, trivial, fun _ _ same => Place.noConfusion same⟩
  | pushing => exact ⟨rfl, trivial, fun _ _ same => Place.noConfusion same⟩
  | verifying => exact ⟨rfl, trivial, fun _ _ same => Place.noConfusion same⟩
  | checking => exact ⟨rfl, trivial, fun _ _ same => Place.noConfusion same⟩
  | _ => exact Bool.noConfusion unmasked

end Place

/-- A processor with its locks, and with what `ncli` and `intena` are for: interrupts are on
only where no lock is held, and they come on again when they were. -/
structure Orderly (cpu : Cpu) (holds : List Nat) : Prop where
  count : cpu.ncli = holds.length + cpu.place.extra
  off : cpu.interruptible = true -> holds = [] ∧ cpu.place.masked = false
  settled : holds = [] -> cpu.place.masked = false -> cpu.interruptible = cpu.interrupted.isEmpty
  flags : forall lk eflags, cpu.place = .pushing lk eflags -> eflags = cpu.interruptible
  saved : forall lk eflags, cpu.place = .counting lk eflags -> holds = [] ->
    eflags = cpu.interrupted.isEmpty
  intena : 0 < cpu.ncli -> cpu.intena = cpu.interrupted.isEmpty
  below : forall place, place ∈ cpu.interrupted -> place.masked = false ∧ forall lk eflags,
    place = .pushing lk eflags -> eflags = true
  once : cpu.interrupted.length ≤ 1
  fits : cpu.place.Fits holds
  nodup : holds.Nodup

namespace Orderly

variable {cpu : Cpu} {holds : List Nat} {lk : Nat}

/-- A step from one place to another that leaves `ncli` and the flag. -/
theorem stand {place : Place} (orderly : Orderly cpu holds) (extra : place.extra = cpu.place.extra)
    (fits : place.Fits holds) (masked : cpu.interruptible = true -> place.masked = false)
    (settled : holds = [] -> place.masked = false -> cpu.place.masked = false)
    (flags : forall lk eflags, place = .pushing lk eflags -> eflags = cpu.interruptible)
    (saved : forall lk eflags, place ≠ .counting lk eflags) :
    Orderly { cpu with place := place } holds :=
  ⟨orderly.count.trans (by rw [extra]), fun on => ⟨(orderly.off on).1, masked on⟩,
    fun none_ unmasked => orderly.settled none_ (settled none_ unmasked), flags,
    fun lk eflags same => absurd same (saved lk eflags), orderly.intena, orderly.below,
    orderly.once, fits, orderly.nodup⟩

/-- A step to a place where interrupts are off. -/
theorem stand_masked {place : Place} (orderly : Orderly cpu holds) (off : cpu.interruptible = false)
    (extra : place.extra = cpu.place.extra) (fits : place.Fits holds) (masked : place.masked = true)
    (saved : forall lk eflags, place ≠ .counting lk eflags) :
    Orderly { cpu with place := place } holds := by
  refine orderly.stand extra fits (fun on => Bool.noConfusion (off.symm.trans on))
    (fun _ unmasked => Bool.noConfusion (masked.symm.trans unmasked))
    (fun lk eflags same => ?_) saved
  rw [same] at masked
  exact Bool.noConfusion masked

theorem disabled (orderly : Orderly cpu holds) (masked : cpu.place.masked = true) :
    cpu.interruptible = false := by
  by_contra on
  exact Bool.false_ne_true ((orderly.off (eq_true_of_ne_false on)).2.symm.trans masked)

theorem disabled_of_mem (orderly : Orderly cpu holds) (inside : lk ∈ holds) :
    cpu.interruptible = false := by
  by_contra on
  rw [(orderly.off (eq_true_of_ne_false on)).1] at inside
  exact absurd inside List.not_mem_nil

theorem ncli_zero (orderly : Orderly cpu holds) (on : cpu.interruptible = true) : cpu.ncli = 0 := by
  rcases orderly.off on with ⟨none_, unmasked⟩
  rw [orderly.count, none_, (Place.of_unmasked unmasked holds).1]
  rfl

theorem panic (orderly : Orderly cpu holds) {reason : Panic}
    (extra : (Place.panicked reason).extra = cpu.place.extra)
    (fits : (Place.panicked reason).Fits holds) :
    Orderly { cpu with interruptible := false, place := .panicked reason } holds :=
  ⟨orderly.count.trans (by rw [extra]), fun on => Bool.noConfusion on, fun _ unmasked =>
    Bool.noConfusion unmasked, fun _ _ same => Place.noConfusion same, fun _ _ same =>
    Place.noConfusion same, orderly.intena, orderly.below, orderly.once, fits, orderly.nodup⟩

theorem cli {eflags : Bool} (orderly : Orderly cpu holds) (here : cpu.place = .pushing lk eflags) :
    Orderly { cpu with interruptible := false, place := .counting lk eflags } holds := by
  refine ⟨?_, fun on => Bool.noConfusion on, fun _ unmasked => Bool.noConfusion unmasked,
    fun _ _ same => Place.noConfusion same, fun _ _ same none_ => ?_, orderly.intena, orderly.below,
    orderly.once, trivial, orderly.nodup⟩
  · rw [orderly.count, here]
    rfl
  · rw [← (Place.counting.inj same).2, orderly.flags lk eflags here]
    exact orderly.settled none_ (by rw [here]; rfl)

theorem push {eflags : Bool} (orderly : Orderly cpu holds)
    (here : cpu.place = .counting lk eflags) : Orderly { cpu with
      ncli := cpu.ncli + 1
      intena := if cpu.ncli = 0 then eflags else cpu.intena
      place := .testing lk } holds := by
  have disabled := orderly.disabled (by rw [here]; rfl)
  have count := orderly.count
  rw [here] at count
  refine ⟨?_, fun on => ?_, fun _ unmasked => Bool.noConfusion unmasked,
    fun _ _ same => Place.noConfusion same, fun _ _ same => Place.noConfusion same, fun _ => ?_,
    orderly.below, orderly.once, trivial, orderly.nodup⟩
  · show cpu.ncli + 1 = holds.length + 1
    rw [count]
    rfl
  · rw [show cpu.interruptible = false from disabled] at on
    exact Bool.noConfusion on
  · show (if cpu.ncli = 0 then eflags else cpu.intena) = _
    split
    next zero =>
      refine orderly.saved lk eflags here (List.length_eq_zero_iff.mp ?_)
      rw [zero] at count
      exact (Nat.add_eq_zero_iff.mp count.symm).1
    next some => exact orderly.intena (Nat.pos_of_ne_zero some)

theorem pop (orderly : Orderly cpu holds) (here : cpu.place = .popping) :
    cpu.interruptible = false ∧ cpu.ncli ≠ 0 ∧ Orderly { cpu with
      ncli := cpu.ncli - 1
      interruptible := if cpu.ncli - 1 = 0 ∧ cpu.intena = true then true else cpu.interruptible
      place := .out } holds := by
  have disabled := orderly.disabled (by rw [here]; rfl)
  have count : cpu.ncli = holds.length + 1 := by
    rw [orderly.count, here]
    rfl
  have intena := orderly.intena (by omega)
  refine ⟨disabled, by omega, ?_, fun on => ?_, fun none_ _ => ?_,
    fun _ _ same => Place.noConfusion same, fun _ _ same => Place.noConfusion same, fun _ => intena,
    orderly.below, orderly.once, trivial, orderly.nodup⟩
  · show cpu.ncli - 1 = holds.length + 0
    omega
  · have on : (if cpu.ncli - 1 = 0 ∧ cpu.intena = true then true else cpu.interruptible) = true :=
      on
    split at on
    next last => exact ⟨List.length_eq_zero_iff.mp (by omega), rfl⟩
    next =>
      rw [disabled] at on
      exact Bool.noConfusion on
  · show (if cpu.ncli - 1 = 0 ∧ cpu.intena = true then true else cpu.interruptible) =
      cpu.interrupted.isEmpty
    have last : cpu.ncli - 1 = 0 := by
      rw [count, none_]
      rfl
    rw [disabled, ← intena]
    cases cpu.intena with
    | true => exact if_pos ⟨last, rfl⟩
    | false => exact if_neg (fun both => Bool.noConfusion both.2)

/-- The lock that a processor has got counts in `ncli` from here on as its own. -/
theorem take (orderly : Orderly cpu holds) (here : cpu.place = .spinning lk) :
    Orderly { cpu with place := .recording lk } (lk :: holds) := by
  have disabled := orderly.disabled (by rw [here]; rfl)
  have away : lk ∉ holds := by
    have fits := orderly.fits
    rw [here] at fits
    exact fits
  refine ⟨?_, fun on => ?_, fun _ unmasked => Bool.noConfusion unmasked,
    fun _ _ same => Place.noConfusion same, fun _ _ same => Place.noConfusion same, orderly.intena,
    orderly.below, orderly.once, List.mem_cons_self, List.nodup_cons.mpr ⟨away, orderly.nodup⟩⟩
  · rw [orderly.count, here]
    rfl
  · rw [show cpu.interruptible = false from disabled] at on
    exact Bool.noConfusion on

theorem give (orderly : Orderly cpu holds) (here : cpu.place = .unlocking lk) :
    Orderly { cpu with place := .popping } (holds.erase lk) := by
  have disabled := orderly.disabled (by rw [here]; rfl)
  have inside : lk ∈ holds := by
    have fits := orderly.fits
    rw [here] at fits
    exact fits
  refine ⟨?_, fun on => ?_, fun _ unmasked => Bool.noConfusion unmasked,
    fun _ _ same => Place.noConfusion same, fun _ _ same => Place.noConfusion same, orderly.intena,
    orderly.below, orderly.once, trivial, orderly.nodup.erase lk⟩
  · show cpu.ncli = (holds.erase lk).length + 1
    have positive := List.length_pos_of_mem inside
    rw [orderly.count, here, List.length_erase_of_mem inside]
    show holds.length + 0 = _
    omega
  · rw [show cpu.interruptible = false from disabled] at on
    exact Bool.noConfusion on

/-- A handler starts with interrupts off, and it was none that was interrupted. -/
theorem interrupt (orderly : Orderly cpu holds) (on : cpu.interruptible = true) :
    Orderly { cpu with
      interruptible := false
      place := .out
      interrupted := cpu.place :: cpu.interrupted } holds := by
  rcases orderly.off on with ⟨none_, unmasked⟩
  have base : cpu.interrupted = [] :=
    List.isEmpty_iff.mp ((orderly.settled none_ unmasked).symm.trans on)
  have count := orderly.ncli_zero on
  refine ⟨?_, fun on => Bool.noConfusion on, fun _ _ => rfl, fun _ _ same => Place.noConfusion same,
    fun _ _ same => Place.noConfusion same, fun positive => ?_, fun place inside => ?_, ?_, trivial,
    orderly.nodup⟩
  · rw [none_]
    exact count
  · exact absurd count (Nat.pos_iff_ne_zero.mp positive)
  · have inside : place ∈ cpu.place :: cpu.interrupted := inside
    rw [base] at inside
    rw [List.mem_singleton.mp inside]
    exact ⟨unmasked, fun lk eflags same => (orderly.flags lk eflags same).trans on⟩
  · show (cpu.place :: cpu.interrupted).length ≤ 1
    rw [base]
    exact Nat.le_refl 1

theorem iret (orderly : Orderly cpu holds) (here : cpu.place = .out) (released : holds = [])
    {place : Place} {rest : List Place} (frames : cpu.interrupted = place :: rest) :
    Orderly { cpu with interruptible := true, place := place, interrupted := rest } holds := by
  have below := orderly.below place (by rw [frames]; exact List.mem_cons_self)
  rcases Place.of_unmasked below.1 holds with ⟨extra, fits, other⟩
  have base : rest = [] := by
    have once := orderly.once
    rw [frames, List.length_cons] at once
    exact List.length_eq_zero_iff.mp (by omega)
  have count : cpu.ncli = 0 := by
    rw [orderly.count, released, here]
    rfl
  refine ⟨?_, fun _ => ⟨released, below.1⟩, fun _ _ => ?_, below.2, fun lk eflags same =>
    absurd same (other lk eflags), fun positive => absurd count (Nat.pos_iff_ne_zero.mp positive),
    fun place inside => ?_, ?_, fits, orderly.nodup⟩
  · show cpu.ncli = holds.length + place.extra
    rw [count, released, extra]
    rfl
  · rw [base]
    rfl
  · have inside : place ∈ rest := inside
    rw [base] at inside
    exact absurd inside List.not_mem_nil
  · rw [base]
    exact Nat.zero_le 1

end Orderly

/-! ## All processors -/

/-- The processors and the locks: a locked lock is in one hand, and its word `cpu` names a
processor only while that one has it. -/
structure Sound (s : State) : Prop where
  orderly : forall c, Orderly (s.cpu c) (s.holds c)
  locked : forall lk, (s.lock lk).locked = true ↔ Exists fun c => lk ∈ s.holds c
  alone : forall lk c d, lk ∈ s.holds c -> lk ∈ s.holds d -> c = d
  owner : forall lk c, (s.lock lk).cpu = some c -> lk ∈ s.holds c
  known : forall lk c, lk ∈ s.holds c ->
    (s.lock lk).cpu = some c ∨ (s.cpu c).place = .recording lk ∨ (s.cpu c).place = .unlocking lk
  forgotten : forall lk c, (s.cpu c).place = .unlocking lk -> (s.lock lk).cpu = none

namespace Sound

variable {s after : State} {c d lk : Nat}

theorem started (start : Started s) : Sound s := by
  refine ⟨fun c => ?_, fun lk => ?_, fun lk c d inside => ?_, fun lk c recorded => ?_,
    fun lk c inside => ?_, fun lk c here => ?_⟩
  · have place := start.place c
    have interrupted := start.interrupted c
    have ncli := start.ncli c
    rw [start.holds c]
    refine ⟨?_, fun _ => ⟨rfl, ?_⟩, fun _ _ => ?_, fun lk eflags same => ?_,
      fun lk eflags same => ?_, fun positive => ?_, fun place inside => ?_, ?_, ?_, List.nodup_nil⟩
    · rw [ncli, place]
      rfl
    · rw [place]
      rfl
    · rw [start.enabled c, interrupted]
      rfl
    · exact Place.noConfusion (place.symm.trans same)
    · exact Place.noConfusion (place.symm.trans same)
    · exact absurd ncli (Nat.pos_iff_ne_zero.mp positive)
    · rw [interrupted] at inside
      exact absurd inside List.not_mem_nil
    · rw [interrupted]
      exact Nat.zero_le 1
    · rw [place]
      trivial
  · rw [start.unlocked lk]
    refine iff_of_false Bool.false_ne_true ?_
    rintro ⟨c, inside⟩
    rw [start.holds c] at inside
    exact absurd inside List.not_mem_nil
  · rw [start.holds c] at inside
    exact absurd inside List.not_mem_nil
  · rw [start.unlocked lk] at recorded
    exact absurd recorded.symm (Option.some_ne_none c)
  · rw [start.holds c] at inside
    exact absurd inside List.not_mem_nil
  · exact Place.noConfusion ((start.place c).symm.trans here)

theorem orderly_update (sound : Sound s) {cpu : Cpu} {holds : Nat -> List Nat}
    (orderly : Orderly cpu (holds c)) (others : forall d, d ≠ c -> holds d = s.holds d) (d : Nat) :
    Orderly (Function.update s.cpu c cpu d) (holds d) := by
  by_cases same : d = c
  · rw [same, Function.update_self]
    exact orderly
  · rw [Function.update_of_ne same, others d same]
    exact sound.orderly d

/-- A step that touches no lock. -/
theorem put (sound : Sound s) {cpu : Cpu} (orderly : Orderly cpu (s.holds c))
    (calm : (s.cpu c).place.calm = true) (still : forall lk, cpu.place ≠ .unlocking lk) :
    Sound (s.put c cpu) := by
  refine ⟨sound.orderly_update orderly (fun _ _ => rfl), sound.locked, sound.alone, sound.owner,
    fun lk d inside => ?_, fun lk d here => ?_⟩
  · rcases sound.known lk d inside with known | moving
    · exact Or.inl known
    · by_cases same : d = c
      · rw [same] at moving
        exact absurd moving (Place.not_moving calm lk)
      · refine Or.inr ?_
        show (Function.update s.cpu c cpu d).place = _ ∨ (Function.update s.cpu c cpu d).place = _
        rw [Function.update_of_ne same]
        exact moving
  · have here : (Function.update s.cpu c cpu d).place = .unlocking lk := here
    by_cases same : d = c
    · rw [same, Function.update_self] at here
      exact absurd here (still lk)
    · rw [Function.update_of_ne same] at here
      exact sound.forgotten lk d here

theorem mem_of_place (sound : Sound s) {place : Place} (here : (s.cpu c).place = place) :
    place.Fits (s.holds c) :=
  here ▸ (sound.orderly c).fits

/-- `holding` is right: the word `cpu` names the processor that asks just if it has the lock. -/
theorem holding_iff (sound : Sound s) (calm : (s.cpu c).place.calm = true) :
    (s.lock lk).cpu = some c ↔ lk ∈ s.holds c :=
  ⟨sound.owner lk c, fun inside => (sound.known lk c inside).resolve_right
    (Place.not_moving calm lk)⟩

/-- What a step may do that touches one lock: nobody but the processor has it, before or after. -/
theorem touch (sound : Sound s) {word : Spinlock} {place : Place} {holds : List Nat}
    (orderly : Orderly { s.cpu c with place := place } holds)
    (others : forall x, x ≠ lk -> (x ∈ holds ↔ x ∈ s.holds c))
    (alone : forall d, lk ∈ s.holds d -> d = c)
    (about : forall x, x ≠ lk ->
      ¬ ((s.cpu c).place = .recording x ∨ (s.cpu c).place = .unlocking x))
    (settled : forall x, x ≠ lk -> place ≠ .unlocking x) (locked : word.locked = true ↔ lk ∈ holds)
    (owner : forall d, word.cpu = some d -> d = c ∧ lk ∈ holds)
    (known : lk ∈ holds -> word.cpu = some c ∨ place = .recording lk ∨ place = .unlocking lk)
    (forgotten : place = .unlocking lk -> word.cpu = none) :
    Sound { (s.write lk word).stand c place with holds := Function.update s.holds c holds } := by
  have otherLock : forall x, x ≠ lk -> forall d, x ∈ Function.update s.holds c holds d ↔
      x ∈ s.holds d := by
    intro x other d
    by_cases own : d = c
    · rw [own, Function.update_self]
      exact others x other
    · rw [Function.update_of_ne own]
  have thisLock : forall d, lk ∈ Function.update s.holds c holds d ↔ d = c ∧ lk ∈ holds := by
    intro d
    by_cases own : d = c
    · rw [own, Function.update_self]
      exact (and_iff_right rfl).symm
    · rw [Function.update_of_ne own]
      exact iff_of_false (fun inside => own (alone d inside)) (fun both => own both.1)
  refine ⟨sound.orderly_update ?_ (fun d other => Function.update_of_ne other _ _),
    fun x => ?_, fun x d e first second => ?_, fun x d recorded => ?_, fun x d inside => ?_,
    fun x d unlocking => ?_⟩
  · show Orderly _ (Function.update s.holds c holds c)
    rw [Function.update_self]
    exact orderly
  · show (Function.update s.lock lk word x).locked = true ↔
      Exists fun d => x ∈ Function.update s.holds c holds d
    by_cases equal : x = lk
    · rw [equal, Function.update_self, locked]
      exact ⟨fun inside => ⟨c, (thisLock c).mpr ⟨rfl, inside⟩⟩,
        fun ⟨d, inside⟩ => ((thisLock d).mp inside).2⟩
    · rw [Function.update_of_ne equal, sound.locked x]
      exact exists_congr (fun d => (otherLock x equal d).symm)
  · by_cases equal : x = lk
    · rw [equal] at first second
      exact ((thisLock d).mp first).1.trans ((thisLock e).mp second).1.symm
    · exact sound.alone x d e ((otherLock x equal d).mp first) ((otherLock x equal e).mp second)
  · show x ∈ Function.update s.holds c holds d
    have recorded : (Function.update s.lock lk word x).cpu = some d := recorded
    by_cases equal : x = lk
    · rw [equal, Function.update_self] at recorded
      rw [equal]
      exact (thisLock d).mpr (owner d recorded)
    · rw [Function.update_of_ne equal] at recorded
      exact (otherLock x equal d).mpr (sound.owner x d recorded)
  · show (Function.update s.lock lk word x).cpu = some d ∨ (Function.update s.cpu c _ d).place = _ ∨
      (Function.update s.cpu c _ d).place = _
    by_cases equal : x = lk
    · rw [equal] at inside ⊢
      rcases (thisLock d).mp inside with ⟨own, inside⟩
      rw [own, Function.update_self, Function.update_self]
      exact known inside
    · have old := sound.known x d ((otherLock x equal d).mp inside)
      rw [Function.update_of_ne equal]
      by_cases own : d = c
      · rw [own] at old ⊢
        exact Or.inl (old.resolve_right (about x equal))
      · rw [Function.update_of_ne own]
        exact old
  · show (Function.update s.lock lk word x).cpu = none
    have unlocking : (Function.update s.cpu c { s.cpu c with place := place } d).place =
        .unlocking x := unlocking
    by_cases own : d = c
    · rw [own, Function.update_self] at unlocking
      have unlocking : place = .unlocking x := unlocking
      by_cases equal : x = lk
      · rw [equal] at unlocking ⊢
        rw [Function.update_self]
        exact forgotten unlocking
      · exact absurd unlocking (settled x equal)
    · rw [Function.update_of_ne own] at unlocking
      have inside : x ∈ s.holds d := sound.mem_of_place unlocking
      have equal : ¬ x = lk := fun equal => own (alone d (equal ▸ inside))
      rw [Function.update_of_ne equal]
      exact sound.forgotten x d unlocking

theorem take (sound : Sound s) (here : (s.cpu c).place = .spinning lk)
    (free : (s.lock lk).locked = false) :
    Sound { (s.write lk { s.lock lk with locked := true }).stand c (.recording lk) with
      holds := Function.update s.holds c (lk :: s.holds c) } := by
  have nobody : forall d, lk ∉ s.holds d := fun d inside =>
    Bool.false_ne_true (free.symm.trans ((sound.locked lk).mpr ⟨d, inside⟩))
  refine sound.touch ((sound.orderly c).take here) (fun x other =>
    List.mem_cons.trans (or_iff_right other)) (fun d inside => absurd inside (nobody d))
    (fun x _ => ?_) (fun _ _ => nofun) (iff_of_true rfl List.mem_cons_self) (fun d recorded =>
    absurd (sound.owner lk d recorded) (nobody d)) (fun _ => Or.inr (Or.inl rfl)) nofun
  rw [here]
  exact not_or.mpr ⟨nofun, nofun⟩

theorem record (sound : Sound s) (here : (s.cpu c).place = .recording lk) :
    Sound ((s.write lk { s.lock lk with cpu := some c }).stand c .out) := by
  have inside : lk ∈ s.holds c := sound.mem_of_place here
  have orderly : Orderly { s.cpu c with place := .out } (s.holds c) := by
    refine (sound.orderly c).stand (by rw [here]; rfl) trivial (fun _ => rfl)
      (fun none_ => ?_) nofun nofun
    rw [none_] at inside
    exact absurd inside List.not_mem_nil
  have after : Sound { (s.write lk { s.lock lk with cpu := some c }).stand c .out with
      holds := Function.update s.holds c (s.holds c) } := by
    refine sound.touch orderly (fun _ _ => Iff.rfl)
      (fun d holds => sound.alone lk d c holds inside) (fun x other => ?_)
      (fun _ _ => nofun) (iff_of_true ((sound.locked lk).mpr ⟨c, inside⟩) inside)
      (fun d recorded => ⟨(Option.some.inj recorded).symm, inside⟩) (fun _ => Or.inl rfl) nofun
    rw [here]
    exact not_or.mpr ⟨fun moving => other (Place.recording.inj moving).symm, nofun⟩
  rw [Function.update_eq_self] at after
  exact after

theorem forget (sound : Sound s) (here : (s.cpu c).place = .forgetting lk) :
    Sound ((s.write lk { s.lock lk with cpu := none }).stand c (.unlocking lk)) := by
  have inside : lk ∈ s.holds c := sound.mem_of_place here
  have disabled := (sound.orderly c).disabled_of_mem inside
  have orderly : Orderly { s.cpu c with place := .unlocking lk } (s.holds c) :=
    (sound.orderly c).stand_masked disabled (by rw [here]; rfl) inside rfl nofun
  have after : Sound { (s.write lk { s.lock lk with cpu := none }).stand c (.unlocking lk) with
      holds := Function.update s.holds c (s.holds c) } := by
    refine sound.touch orderly (fun _ _ => Iff.rfl) (fun d holds => sound.alone lk d c holds inside)
      (fun x _ => ?_) (fun x other same => other (Place.unlocking.inj same).symm)
      (iff_of_true ((sound.locked lk).mpr ⟨c, inside⟩) inside) (fun d recorded =>
      absurd recorded.symm (Option.some_ne_none d)) (fun _ => Or.inr (Or.inr rfl)) (fun _ => rfl)
    rw [here]
    exact not_or.mpr ⟨nofun, nofun⟩
  rw [Function.update_eq_self] at after
  exact after

theorem give (sound : Sound s) (here : (s.cpu c).place = .unlocking lk) :
    Sound { (s.write lk { s.lock lk with locked := false }).stand c .popping with
      holds := Function.update s.holds c ((s.holds c).erase lk) } := by
  have inside : lk ∈ s.holds c := sound.mem_of_place here
  have nobody := sound.forgotten lk c here
  have away : lk ∉ (s.holds c).erase lk := (sound.orderly c).nodup.not_mem_erase
  refine sound.touch ((sound.orderly c).give here) (fun x other => List.mem_erase_of_ne other)
    (fun d holds => sound.alone lk d c holds inside) (fun x other => ?_) (fun _ _ => nofun)
    (iff_of_false Bool.false_ne_true away) (fun d recorded => absurd (recorded.symm.trans nobody)
    (Option.some_ne_none d)) (fun holds => absurd holds away) nofun
  rw [here]
  exact not_or.mpr ⟨nofun, fun moving => other (Place.unlocking.inj moving).symm⟩

/-! The steps that touch no lock, one for each place. -/

theorem pushing {eflags : Bool} (sound : Sound s) (here : (s.cpu c).place = .pushing lk eflags) :
    Sound (s.put c { s.cpu c with interruptible := false, place := .counting lk eflags }) :=
  sound.put ((sound.orderly c).cli here) (by rw [here]; rfl) nofun

theorem counting {eflags : Bool} (sound : Sound s) (here : (s.cpu c).place = .counting lk eflags) :
    Sound (s.put c { s.cpu c with
      ncli := (s.cpu c).ncli + 1
      intena := if (s.cpu c).ncli = 0 then eflags else (s.cpu c).intena
      place := .testing lk }) :=
  sound.put ((sound.orderly c).push here) (by rw [here]; rfl) nofun

theorem testing (sound : Sound s) (here : (s.cpu c).place = .testing lk) :
    Sound (s.stand c (if (s.lock lk).locked then .comparing lk else .spinning lk)) := by
  have disabled := (sound.orderly c).disabled (by rw [here]; rfl)
  have calm : (s.cpu c).place.calm = true := by
    rw [here]
    rfl
  split
  next =>
    exact sound.put ((sound.orderly c).stand_masked disabled (by rw [here]; rfl) trivial rfl nofun)
      calm nofun
  next free =>
    have away : lk ∉ s.holds c := fun inside => free ((sound.locked lk).mpr ⟨c, inside⟩)
    exact sound.put ((sound.orderly c).stand_masked disabled (by rw [here]; rfl) away rfl nofun)
      calm nofun

theorem comparing (sound : Sound s) (here : (s.cpu c).place = .comparing lk) :
    Sound (if (s.lock lk).cpu = some c then s.panic c (.acquire lk)
      else s.stand c (.spinning lk)) := by
  have disabled := (sound.orderly c).disabled (by rw [here]; rfl)
  have calm : (s.cpu c).place.calm = true := by
    rw [here]
    rfl
  split
  next own =>
    exact sound.put ((sound.orderly c).panic (by rw [here]; rfl) (sound.owner lk c own)) calm nofun
  next other =>
    have away : lk ∉ s.holds c := fun inside => other ((sound.holding_iff calm).mpr inside)
    exact sound.put ((sound.orderly c).stand_masked disabled (by rw [here]; rfl) away rfl nofun)
      calm nofun

theorem verifying (sound : Sound s) (here : (s.cpu c).place = .verifying lk) :
    Sound (if (s.lock lk).locked then s.stand c (.checking lk) else s.panic c (.release lk)) := by
  have calm : (s.cpu c).place.calm = true := by
    rw [here]
    rfl
  split
  next =>
    have settled : s.holds c = [] -> (Place.checking lk).masked = false ->
        (s.cpu c).place.masked = false := by
      intro _ _
      rw [here]
      rfl
    exact sound.put ((sound.orderly c).stand (by rw [here]; rfl) trivial
      (fun _ => rfl) settled nofun nofun) calm nofun
  next free =>
    have away : lk ∉ s.holds c := fun inside => free ((sound.locked lk).mpr ⟨c, inside⟩)
    exact sound.put ((sound.orderly c).panic (by rw [here]; rfl) away) calm nofun

theorem checking (sound : Sound s) (here : (s.cpu c).place = .checking lk) :
    Sound (if (s.lock lk).cpu = some c then s.stand c (.forgetting lk)
      else s.panic c (.release lk)) := by
  have calm : (s.cpu c).place.calm = true := by
    rw [here]
    rfl
  split
  next own =>
    have inside := sound.owner lk c own
    have disabled := (sound.orderly c).disabled_of_mem inside
    exact sound.put ((sound.orderly c).stand_masked disabled (by rw [here]; rfl) inside rfl nofun)
      calm nofun
  next other =>
    have away : lk ∉ s.holds c := fun inside => other ((sound.holding_iff calm).mpr inside)
    exact sound.put ((sound.orderly c).panic (by rw [here]; rfl) away) calm nofun

/-- `popcli` finds interrupts off and a count that is not zero. -/
theorem popping (sound : Sound s) (here : (s.cpu c).place = .popping) : Sound (s.popcli c) := by
  rcases (sound.orderly c).pop here with ⟨disabled, count, orderly⟩
  rw [State.popcli, disabled, if_neg Bool.false_ne_true, if_neg count, ← disabled]
  exact sound.put orderly (by rw [here]; rfl) nofun

theorem go (sound : Sound s) (stepped : s.go c = some after) : Sound after := by
  cases here : (s.cpu c).place with
  | out => simp only [State.go, here, reduceCtorEq] at stepped
  | panicked => simp only [State.go, here, reduceCtorEq] at stepped
  | pushing lk eflags =>
      simp only [State.go, here, Option.some.injEq] at stepped
      exact stepped ▸ sound.pushing here
  | counting lk eflags =>
      simp only [State.go, here, Option.some.injEq] at stepped
      exact stepped ▸ sound.counting here
  | testing lk =>
      simp only [State.go, here, Option.some.injEq] at stepped
      exact stepped ▸ sound.testing here
  | comparing lk =>
      simp only [State.go, here, Option.some.injEq] at stepped
      exact stepped ▸ sound.comparing here
  | spinning lk =>
      simp only [State.go, here] at stepped
      split at stepped
      next => exact Option.some.inj stepped ▸ sound
      next free => exact Option.some.inj stepped ▸ sound.take here (Bool.eq_false_iff.mpr free)
  | recording lk =>
      simp only [State.go, here, Option.some.injEq] at stepped
      exact stepped ▸ sound.record here
  | verifying lk =>
      simp only [State.go, here, Option.some.injEq] at stepped
      exact stepped ▸ sound.verifying here
  | checking lk =>
      simp only [State.go, here, Option.some.injEq] at stepped
      exact stepped ▸ sound.checking here
  | forgetting lk =>
      simp only [State.go, here, Option.some.injEq] at stepped
      exact stepped ▸ sound.forget here
  | unlocking lk =>
      simp only [State.go, here, Option.some.injEq] at stepped
      exact stepped ▸ sound.give here
  | popping =>
      simp only [State.go, here, Option.some.injEq] at stepped
      exact stepped ▸ sound.popping here

/-- A processor begins one of the two calls. -/
theorem call (sound : Sound s) {place : Place} (here : (s.cpu c).place = .out)
    (extra : place.extra = 0) (unmasked : place.masked = false)
    (flags : forall lk eflags, place = .pushing lk eflags -> eflags = (s.cpu c).interruptible) :
    Sound (s.stand c place) := by
  have fits := (Place.of_unmasked unmasked (s.holds c)).2
  refine sound.put ((sound.orderly c).stand (by rw [here, extra]; rfl) fits.1 (fun _ => unmasked)
    (fun _ _ => by rw [here]; rfl) flags fits.2) (by rw [here]; rfl) (fun lk same => ?_)
  have same : place = .unlocking lk := same
  rw [same] at unmasked
  exact Bool.noConfusion unmasked

theorem interrupt (sound : Sound s) (on : (s.cpu c).interruptible = true) :
    Sound (s.put c { s.cpu c with
      interruptible := false, place := .out, interrupted :=
        (s.cpu c).place :: (s.cpu c).interrupted }) := by
  exact sound.put ((sound.orderly c).interrupt on)
    (Place.calm_of_unmasked ((sound.orderly c).off on).2) nofun

theorem iret (sound : Sound s) (here : (s.cpu c).place = .out) (released : s.holds c = [])
    {place : Place} {rest : List Place} (frames : (s.cpu c).interrupted = place :: rest) :
    Sound
      (s.put c { s.cpu c with interruptible := true, place := place, interrupted := rest }) := by
  have unmasked := ((sound.orderly c).below place (by rw [frames]; exact List.mem_cons_self)).1
  refine sound.put ((sound.orderly c).iret here released frames) (by rw [here]; rfl)
    (fun lk same => ?_)
  have same : place = .unlocking lk := same
  rw [same] at unmasked
  exact Bool.noConfusion unmasked

theorem next {event : Event} (sound : Sound s) (balanced : Balanced s event)
    (stepped : Processors.next s event = some after) : Sound after := by
  cases event with
  | acquire c lk =>
      rcases Option.ite_none_right_eq_some.mp stepped with ⟨here, same⟩
      exact Option.some.inj same ▸ sound.call here rfl rfl
        (fun _ _ same => (Place.pushing.inj same).2.symm)
  | release c lk =>
      rcases Option.ite_none_right_eq_some.mp stepped with ⟨here, same⟩
      exact Option.some.inj same ▸ sound.call here rfl rfl nofun
  | go c => exact sound.go stepped
  | interrupt c =>
      rcases Option.ite_none_right_eq_some.mp stepped with ⟨on, same⟩
      exact Option.some.inj same ▸ sound.interrupt on
  | iret c =>
      rw [Processors.next] at stepped
      split at stepped
      next => exact absurd stepped (Option.some_ne_none after).symm
      next place rest frames =>
        rcases Option.ite_none_right_eq_some.mp stepped with ⟨here, same⟩
        exact Option.some.inj same ▸ sound.iret here balanced frames

theorem reached (reachable : Reachable Processors.next Started Balanced s) : Sound s :=
  reachable.invariant (fun _ => started)
    (fun _ _ _ sound balanced stepped => sound.next balanced stepped)

end Sound

/-! ## What the locks are for -/

def idle : State := ⟨fun _ => initlock, fun _ => ⟨true, 0, false, .out, []⟩, fun _ => []⟩

theorem idle_started : Started idle :=
  ⟨fun _ => rfl, fun _ => rfl, fun _ => rfl, fun _ => rfl, fun _ => rfl, fun _ => rfl⟩

def Event.quiet : Event -> Bool
  | .iret _ => false
  | _ => true

/-- A run in which no handler ends. -/
theorem reachable_of_quiet {s : State} {events : List Event} (ran : run next idle events = some s)
    (quiet : events.all Event.quiet = true) : Reachable next Started Balanced s := by
  refine (Reachable.start idle_started).run_allowed ran (fun event inside s => ?_)
  have quiet := List.all_eq_true.mp quiet event inside
  cases event with
  | iret => exact Bool.noConfusion quiet
  | _ => exact trivial

/-- Two processors never have one lock, and a processor that has one cannot be interrupted, so
that no handler waits for a lock of the processor that it runs on; `holding` is right, and the
only panics are those of a processor that acquires what it has or releases what it has not. -/
theorem spinlock_excludes {s : State} (reached : Reachable next Started Balanced s) :
    (forall lk, (s.lock lk).locked = true ↔ Exists fun c => lk ∈ s.holds c) ∧
    (forall lk c d, lk ∈ s.holds c -> lk ∈ s.holds d -> c = d) ∧
    (forall lk c, lk ∈ s.holds c ->
      (s.cpu c).interruptible = false ∧ (s.cpu c).place ≠ .spinning lk) ∧
    (forall lk c, (s.cpu c).place = .unlocking lk -> lk ∈ s.holds c) ∧
    (forall lk c, (s.cpu c).place = .out ->
      ((s.lock lk).locked = true ∧ (s.lock lk).cpu = some c ↔ lk ∈ s.holds c)) ∧
    (forall c reason, (s.cpu c).place = .panicked reason ->
      Exists fun lk =>
        reason = .acquire lk ∧ lk ∈ s.holds c ∨ reason = .release lk ∧ lk ∉ s.holds c) := by
  have sound := Sound.reached reached
  refine ⟨sound.locked, sound.alone, fun lk c inside => ⟨(sound.orderly c).disabled_of_mem inside,
    fun here => ?_⟩, fun lk c here => sound.mem_of_place here, fun lk c here =>
    ⟨fun held => sound.owner lk c held.2, fun inside => ⟨(sound.locked lk).mpr ⟨c, inside⟩, ?_⟩⟩,
    fun c reason here => ?_⟩
  · exact sound.mem_of_place here inside
  · apply (sound.holding_iff ?_).mpr inside
    rw [here]
    rfl
  · have fits := sound.mem_of_place here
    cases reason with
    | acquire lk => exact ⟨lk, Or.inl ⟨rfl, fits⟩⟩
    | release lk => exact ⟨lk, Or.inr ⟨rfl, fits⟩⟩
    | interruptible => exact fits.elim
    | popcli => exact fits.elim

/-- Processor 0 takes lock 7; a handler comes when processor 1 is about to take it, too. -/
def contended : List Event :=
  [.acquire 0 7] ++ List.replicate 4 (.go 0) ++ [.acquire 1 7, .interrupt 1, .acquire 1 7] ++
    List.replicate 4 (.go 1)

theorem spinlock_excludes_contended : Exists fun s => run next idle contended = some s ∧
    (s.cpu 1).place = .spinning 7 ∧ 7 ∈ s.holds 0 ∧ 7 ∉ s.holds 1 := by
  have there : (run next idle contended).map (fun s => ((s.cpu 1).place, s.holds 0)) =
      some (.spinning 7, [7]) := rfl
  rcases Option.map_eq_some_iff.mp there with ⟨s, ran, same⟩
  rcases Prod.mk.inj same with ⟨spinning, holds⟩
  have inside : 7 ∈ s.holds 0 := by
    rw [holds]
    exact List.mem_cons_self
  have excludes := spinlock_excludes (reachable_of_quiet ran rfl)
  exact ⟨s, ran, spinning, inside, fun both => absurd (excludes.2.1 7 0 1 inside both) (by decide)⟩

/-- Between its calls a processor has disabled interrupts as often as it has locks; with none
it can be interrupted just if it is not in a handler, as it was before the first call. -/
theorem interrupts_restored {s : State} (reached : Reachable next Started Balanced s) {c : Nat}
    (here : (s.cpu c).place = .out) :
    (s.cpu c).ncli = (s.holds c).length ∧
    ((s.cpu c).interruptible = true ↔ s.holds c = [] ∧ (s.cpu c).interrupted = []) := by
  have orderly := (Sound.reached reached).orderly c
  have settled : s.holds c = [] -> (s.cpu c).interruptible = (s.cpu c).interrupted.isEmpty :=
    fun released =>
    orderly.settled released (by rw [here]; rfl)
  refine ⟨?_, fun on => ?_, fun both => ?_⟩
  · rw [orderly.count, here]
    rfl
  · have released := (orderly.off on).1
    exact ⟨released, List.isEmpty_iff.mp ((settled released).symm.trans on)⟩
  · rw [settled both.1, both.2]
    rfl

/-- A handler that comes between `readeflags` and `cli`, and its lock. -/
def nested : List Event :=
  [.acquire 0 7, .interrupt 0, .acquire 0 7] ++ List.replicate 5 (.go 0) ++ [.release 0 7] ++
    List.replicate 5 (.go 0)

theorem interrupts_restored_nested : Exists fun s => run next idle nested = some s ∧
    (s.cpu 0).ncli = 0 ∧ (s.cpu 0).interruptible = false := by
  have there : (run next idle nested).map (fun s => ((s.cpu 0).place, s.holds 0,
      (s.cpu 0).interrupted)) = some (.out, [], [.pushing 7 true]) := rfl
  rcases Option.map_eq_some_iff.mp there with ⟨s, ran, same⟩
  rcases Prod.mk.inj same with ⟨here, same⟩
  rcases Prod.mk.inj same with ⟨holds, interrupted⟩
  have restored := interrupts_restored (reachable_of_quiet ran rfl) here
  refine ⟨s, ran, ?_, Bool.eq_false_iff.mpr (fun on => ?_)⟩
  · rw [restored.1, holds]
    rfl
  · exact List.cons_ne_nil _ _ (interrupted.symm.trans (restored.2.mp on).2)

/-! ## Calls that meet nobody -/

namespace State

def acquired (s : State) (c lk : Nat) : State where
  lock := Function.update s.lock lk ⟨true, some c⟩
  cpu := Function.update s.cpu c { s.cpu c with
    interruptible := false
    ncli := (s.cpu c).ncli + 1
    intena := if (s.cpu c).ncli = 0 then (s.cpu c).interruptible else (s.cpu c).intena }
  holds := Function.update s.holds c (lk :: s.holds c)

def released (s : State) (c lk : Nat) : State where
  lock := Function.update s.lock lk ⟨false, none⟩
  cpu := Function.update s.cpu c { s.cpu c with
    interruptible := decide ((s.cpu c).ncli - 1 = 0) && (s.cpu c).intena
    ncli := (s.cpu c).ncli - 1 }
  holds := Function.update s.holds c ((s.holds c).erase lk)

end State

section

variable {s : State} {c lk : Nat}

/-- `acquire` with five steps: `cli`, the count, one read of `locked`, `xchg` and the word `cpu`. -/
theorem run_acquire (here : (s.cpu c).place = .out) (free : (s.lock lk).locked = false) :
    run next s (.acquire c lk :: List.replicate 5 (.go c)) = some (s.acquired c lk) := by
  simp [List.replicate, run, next, here, free, State.go, State.stand, State.put, State.write,
    State.acquired]

/-- `release` with five steps: two reads of `holding`, the word `cpu`, `xchg` and `popcli`. -/
theorem run_release (here : (s.cpu c).place = .out) (held : s.lock lk = ⟨true, some c⟩)
    (off : (s.cpu c).interruptible = false) (count : (s.cpu c).ncli ≠ 0) :
    run next s (.release c lk :: List.replicate 5 (.go c)) = some (s.released c lk) := by
  simp [List.replicate, run, next, here, held, off, count, State.go, State.stand, State.put,
    State.write, State.popcli, State.released]

/-- A processor that acquires a free lock gets it, and when it releases the lock at once, all is
as before: the locks, the count, and whether it can be interrupted. -/
theorem acquire_release_returns (reached : Reachable next Started Balanced s)
    (here : (s.cpu c).place = .out) (free : (s.lock lk).locked = false) :
    Exists fun inside => Exists fun after =>
      run next s (.acquire c lk :: List.replicate 5 (.go c)) = some inside ∧
      inside.holds c = lk :: s.holds c ∧
      run next inside (.release c lk :: List.replicate 5 (.go c)) = some after ∧
      (after.lock lk).locked = false ∧ after.holds = s.holds ∧ (after.cpu c).place = .out ∧
      (after.cpu c).ncli = (s.cpu c).ncli ∧
      (after.cpu c).interruptible = (s.cpu c).interruptible := by
  have orderly := (Sound.reached reached).orderly c
  refine ⟨s.acquired c lk, (s.acquired c lk).released c lk, run_acquire here free, ?_,
    run_release ?_ ?_ ?_ ?_, ?_, ?_, ?_, ?_, ?_⟩
  · exact Function.update_self ..
  · simp [State.acquired, here]
  · simp [State.acquired]
  · simp [State.acquired]
  · simp [State.acquired]
  · simp [State.released]
  · simp [State.acquired, State.released]
  · simp [State.acquired, State.released, here]
  · simp [State.acquired, State.released]
  · by_cases none_ : (s.cpu c).ncli = 0
    · simp [State.acquired, State.released, none_]
    · have off : (s.cpu c).interruptible = false :=
        Bool.eq_false_iff.mpr (fun on => none_ (orderly.ncli_zero on))
      simp [State.acquired, State.released, none_, off]

/-- The first processor takes a second lock and gives it back while another one waits for
the first lock. -/
theorem acquire_release_returns_second : Exists fun s => Exists fun inside => Exists fun after =>
    run next idle (.acquire 0 7 :: List.replicate 5 (.go 0) ++ [.acquire 1 7, .go 1]) = some s ∧
    run next s (.acquire 0 8 :: List.replicate 5 (.go 0)) = some inside ∧ inside.holds 0 = [8, 7] ∧
    run next inside (.release 0 8 :: List.replicate 5 (.go 0)) = some after ∧
    after.holds = s.holds ∧ (after.cpu 0).ncli = (s.cpu 0).ncli := by
  have there :
      (run next idle (.acquire 0 7 :: List.replicate 5 (.go 0) ++ [.acquire 1 7, .go 1])).map
      (fun s => ((s.cpu 0).place, (s.lock 8).locked, s.holds 0)) = some (.out, false, [7]) := rfl
  rcases Option.map_eq_some_iff.mp there with ⟨s, ran, same⟩
  rcases Prod.mk.inj same with ⟨here, same⟩
  rcases Prod.mk.inj same with ⟨free, holds⟩
  rcases acquire_release_returns (reachable_of_quiet ran rfl) here free with
    ⟨inside, after, acquired, locks, released, _, others, _, count, _⟩
  exact ⟨s, inside, after, ran, acquired, locks.trans (by rw [holds]), released, others, count⟩

end

end Processors
end OsProjects
