import OsProjects.Machine.Forest
import OsProjects.Scheduler.Seats

namespace OsProjects
namespace Scheduler

open Machine

/-!
# Parents, children and waiting

Every process but the first was forked by a parent, and an exit hands its children to
`init`.  A zombie stays in the table until its parent, or `init` after the parent's exit,
finds it in `wait`.

`wait` sleeps on the address of its own slot.  It looks at the whole table and goes to sleep
under one lock, and whoever makes a zombie wakes the parent under that lock, so no exit is
missed.
-/

/-- What the table says about the family of a process and its sleep. -/
structure Kin where
  state : ProcState
  parent : Option Slot
  chan : Option Nat

def Proc.kin (p : Proc) : Kin := ⟨p.state, p.parent, p.chan⟩

/-- The process is in the table. -/
def Kin.Used (kin : Kin) : Prop := kin.state ≠ .unused

/-- The process can still call `wait`. -/
def Kin.Alive (kin : Kin) : Prop := kin.state ≠ .unused ∧ kin.state ≠ .zombie

/-- The process sleeps on the address of a slot. -/
def Kin.Awaits (kin : Kin) (i : Slot) : Prop := kin.state = .sleeping ∧ kin.chan = some i.val

/-- The processes in use form a tree with `init` at its root, and a process that sleeps in
`wait` has children, none of which has exited; `elsewhere` says that only `wait` sleeps on
the address of a slot. -/
structure Families (elsewhere : Prop) (init : Slot) (kin : Slot -> Kin) : Prop where
  forest : Forest init (fun i => (kin i).Used) (fun i => (kin i).Alive) (fun i => (kin i).parent)
  orphan : forall i, ¬ (kin i).Used -> (kin i).parent = none
  rootless : (kin init).parent = none
  children : elsewhere -> forall c, (kin c).Awaits c -> Exists fun i => (kin i).parent = some c
  waiting : elsewhere -> forall c i, (kin c).Awaits c -> (kin i).parent = some c ->
    (kin i).state ≠ .zombie

namespace Kernel

variable {k after : Kernel} {c i : Slot}

def kin (k : Kernel) (i : Slot) : Kin := (k.proc i).kin

theorem kin_congr (same : after.proc = k.proc) : after.kin = k.kin := by
  funext i
  rw [kin, same, kin]

theorem kin_set (change : Proc -> Proc) :
    (k.set i change).kin = Function.update k.kin i (change (k.proc i)).kin := by
  funext j
  by_cases here : j = i
  · rw [here, kin, proc_set_self, Function.update_self]
  · rw [kin, proc_set_of_ne change here, Function.update_of_ne here, kin]

theorem kin_set_same {change : Proc -> Proc} (keeps : (change (k.proc i)).kin = (k.proc i).kin) :
    (k.set i change).kin = k.kin := by
  rw [kin_set, keeps]
  exact Function.update_eq_self i k.kin

theorem kin_sched : (k.sched c).kin = k.kin := by
  unfold sched
  cases k.resume c with
  | none => rfl
  | some d => exact @kin_set_same k c (charged (cost d (k.proc c))) rfl

theorem kin_wakeup1 (chan : Option Nat) (i : Slot) :
    (k.wakeup1 chan).kin i =
      if (k.kin i).state = .sleeping ∧ (k.kin i).chan = chan then
        { k.kin i with state := .runnable }
      else k.kin i := by
  by_cases asleep : (k.kin i).state = .sleeping ∧ (k.kin i).chan = chan
  · have raw : (k.proc i).state = .sleeping ∧ (k.proc i).chan = chan := asleep
    rw [if_pos asleep, kin, wakeup1]
    dsimp only
    rw [if_pos raw]
    rfl
  · have raw : ¬ ((k.proc i).state = .sleeping ∧ (k.proc i).chan = chan) := asleep
    rw [if_neg asleep, kin, wakeup1]
    dsimp only
    rw [if_neg raw]
    rfl

theorem initproc_adopt (k : Kernel) : (k.adopt c i).initproc = k.initproc := by
  unfold adopt
  dsimp only
  split
  · split <;> rfl
  · rfl

end Kernel

/-- What a step that hands over no child and ends no process does to a process. -/
structure Kin.Calm (before after : Kin) : Prop where
  parent : after.parent = before.parent
  unused : after.state = .unused ↔ before.state = .unused
  zombie : after.state = .zombie ↔ before.state = .zombie
  awaits : forall i, after.Awaits i -> before.Awaits i

theorem Kin.Calm.refl {kin : Kin} : kin.Calm kin := ⟨rfl, Iff.rfl, Iff.rfl, fun _ same => same⟩

theorem Kin.Calm.used {before after : Kin} (calm : before.Calm after) : after.Used ↔ before.Used :=
  not_congr calm.unused

theorem Kin.Calm.alive {before after : Kin} (calm : before.Calm after) :
    after.Alive ↔ before.Alive :=
  and_congr (not_congr calm.unused) (not_congr calm.zombie)

namespace Families

variable {elsewhere : Prop} {init c np : Slot} {kin after : Slot -> Kin}

theorem calm (families : Families elsewhere init kin) (calm : forall i, (kin i).Calm (after i)) :
    Families elsewhere init after := by
  have parents : forall i, (after i).parent = (kin i).parent := fun i => (calm i).parent
  refine ⟨families.forest.congr (fun i => (calm i).used) (fun i => (calm i).alive)
    (fun i _ => parents i), fun i unused => ?_, ?_, fun only c awaits => ?_,
    fun only c i awaits child zombie => ?_⟩
  · rw [parents]
    exact families.orphan i (fun used => unused ((calm i).used.mpr used))
  · rw [parents]
    exact families.rootless
  · rcases families.children only c ((calm c).awaits c awaits) with ⟨i, child⟩
    exact ⟨i, (parents i).trans child⟩
  · exact families.waiting only c i ((calm c).awaits c awaits) ((parents i).symm.trans child)
      ((calm i).zombie.mp zombie)

/-- One process changes and stays what it is in its family. -/
theorem update (families : Families elsewhere init kin) {now : Kin} (calm : (kin c).Calm now) :
    Families elsewhere init (Function.update kin c now) := by
  refine families.calm (fun i => ?_)
  by_cases here : i = c
  · rw [here, Function.update_self]
    exact calm
  · rw [Function.update_of_ne here]
    exact Kin.Calm.refl

/-- `fork`. -/
theorem born (families : Families elsewhere init kin) (fresh : ¬ (kin np).Used)
    (alive : (kin c).Alive) {child : Kin} (runnable : child.state = .runnable)
    (parent : child.parent = some c) : Families elsewhere init (Function.update kin np child) := by
  have different : init ≠ np := by
    rintro rfl
    exact fresh families.forest.top.1
  have members : forall j, (Function.update kin np child j).Used ↔ j = np ∨ (kin j).Used := by
    intro j
    by_cases here : j = np
    · rw [here, Function.update_self]
      exact iff_of_true (by rw [Kin.Used, runnable]; decide) (Or.inl rfl)
    · rw [Function.update_of_ne here]
      exact (or_iff_right here).symm
  have inners : forall j, (Function.update kin np child j).Alive ↔ j = np ∨ (kin j).Alive := by
    intro j
    by_cases here : j = np
    · rw [here, Function.update_self]
      exact iff_of_true (by rw [Kin.Alive, runnable]; decide) (Or.inl rfl)
    · rw [Function.update_of_ne here]
      exact (or_iff_right here).symm
  have awaits : forall j, (Function.update kin np child j).Awaits j ->
      j ≠ np ∧ (kin j).Awaits j := by
    intro j awaits
    by_cases here : j = np
    · rw [here, Function.update_self, Kin.Awaits, runnable] at awaits
      exact ProcState.noConfusion awaits.1
    · rw [Function.update_of_ne here] at awaits
      exact ⟨here, awaits⟩
  refine ⟨families.forest.attach fresh alive members inners ?_ (fun j used => ?_),
    fun j unused => ?_, ?_, fun only j asleep => ?_, fun only j i asleep isChild => ?_⟩
  · show (Function.update kin np child np).parent = some c
    rw [Function.update_self, parent]
  · have here : j ≠ np := by
      rintro rfl
      exact fresh used
    show (Function.update kin np child j).parent = _
    rw [Function.update_of_ne here]
  · have outside := not_or.mp (fun inside => unused ((members j).mpr inside))
    rw [Function.update_of_ne outside.1]
    exact families.orphan j outside.2
  · rw [Function.update_of_ne different]
    exact families.rootless
  · rcases awaits j asleep with ⟨_, before⟩
    rcases families.children only j before with ⟨i, isChild⟩
    have here : i ≠ np := by
      rintro rfl
      rw [families.orphan i fresh] at isChild
      exact Option.some_ne_none _ isChild.symm
    refine ⟨i, ?_⟩
    rw [Function.update_of_ne here]
    exact isChild
  · rcases awaits j asleep with ⟨_, before⟩
    by_cases here : i = np
    · rw [here, Function.update_self, runnable]
      exact ProcState.noConfusion
    · rw [Function.update_of_ne here] at isChild ⊢
      exact families.waiting only j i before isChild

/-- `wait` finds a zombie child. -/
theorem reaped (families : Families elsewhere init kin) (zombie : (kin c).state = .zombie)
    {now : Kin} (unused : now.state = .unused) (parent : now.parent = none) :
    Families elsewhere init (Function.update kin c now) := by
  have different : init ≠ c := by
    rintro rfl
    exact families.forest.top.2 zombie
  have members : forall j, (Function.update kin c now j).Used ↔ (kin j).Used ∧ j ≠ c := by
    intro j
    by_cases here : j = c
    · rw [here, Function.update_self]
      exact iff_of_false (fun used => used unused) (fun inside => inside.2 rfl)
    · rw [Function.update_of_ne here]
      exact (and_iff_left here).symm
  have leaf : ¬ (kin c).Alive := fun alive => alive.2 zombie
  have inners : forall j, (Function.update kin c now j).Alive ↔ (kin j).Alive := by
    intro j
    by_cases here : j = c
    · rw [here, Function.update_self]
      exact iff_of_false (fun alive => alive.1 unused) leaf
    · rw [Function.update_of_ne here]
  have awaits : forall j, (Function.update kin c now j).Awaits j -> (kin j).Awaits j := by
    intro j awaits
    by_cases here : j = c
    · rw [here, Function.update_self, Kin.Awaits, unused] at awaits
      exact ProcState.noConfusion awaits.1
    · rw [Function.update_of_ne here] at awaits
      exact awaits
  refine ⟨families.forest.remove leaf members inners (fun j _ here => ?_), fun j notUsed => ?_, ?_,
    fun only j asleep => ?_, fun only j i asleep isChild => ?_⟩
  · show (Function.update kin c now j).parent = _
    rw [Function.update_of_ne here]
  · by_cases here : j = c
    · rw [here, Function.update_self, parent]
    · rw [Function.update_of_ne here] at notUsed ⊢
      exact families.orphan j notUsed
  · rw [Function.update_of_ne different]
    exact families.rootless
  · rcases families.children only j (awaits j asleep) with ⟨i, isChild⟩
    have here : i ≠ c := by
      rintro rfl
      exact families.waiting only j i (awaits j asleep) isChild zombie
    refine ⟨i, ?_⟩
    rw [Function.update_of_ne here]
    exact isChild
  · by_cases here : i = c
    · rw [here, Function.update_self, unused]
      exact ProcState.noConfusion
    · rw [Function.update_of_ne here] at isChild ⊢
      exact families.waiting only j i (awaits j asleep) isChild

end Families

/-- What the loop of `exit` has done to the slots that it has visited. -/
structure Passed (init c : Slot) (visited : List Slot) (kin after : Slot -> Kin) : Prop where
  parent : forall j, (after j).parent = if j ∈ visited ∧ (kin j).parent = some c then some init
    else (kin j).parent
  unused : forall j, (after j).state = .unused ↔ (kin j).state = .unused
  zombie : forall j, (after j).state = .zombie ↔ (kin j).state = .zombie
  awaits : forall i j, (after j).Awaits i -> (kin j).Awaits i
  wakes : forall i, i ∈ visited -> (kin i).parent = some c -> (kin i).state = .zombie ->
    ¬ (after init).Awaits init

theorem Kin.Calm.woken {kin : Kin} {chan : Option Nat} :
    kin.Calm (if kin.state = .sleeping ∧ kin.chan = chan then { kin with state := .runnable }
      else kin) := by
  split
  next asleep =>
    refine ⟨rfl, ?_, ?_, fun i awaits => ProcState.noConfusion awaits.1⟩
    · exact iff_of_false ProcState.noConfusion (by rw [asleep.1]; exact ProcState.noConfusion)
    · exact iff_of_false ProcState.noConfusion (by rw [asleep.1]; exact ProcState.noConfusion)
  next => exact Kin.Calm.refl

/-- Nobody that `wakeup1` has woken sleeps on its channel. -/
theorem Kernel.not_awaits_wakeup1 {k : Kernel} {i j : Slot} :
    ¬ ((k.wakeup1 (some i.val)).kin j).Awaits i := by
  rw [Kernel.kin_wakeup1]
  split
  next => exact fun awaits => ProcState.noConfusion awaits.1
  next awake => exact awake

namespace Kernel

variable {k after : Kernel} {c i : Slot}

/-- One child is handed to `init`. -/
theorem passed_moved {kin : Slot -> Kin} {init : Slot} (child : (kin i).parent = some c) :
    (forall j, (Function.update kin i { kin i with parent := some init } j).parent =
      if j ∈ [i] ∧ (kin j).parent = some c then some init else (kin j).parent) ∧
    (forall j, (Function.update kin i { kin i with parent := some init } j).state = (kin j).state) ∧
    forall j, (Function.update kin i { kin i with parent := some init } j).chan = (kin j).chan := by
  refine ⟨fun j => ?_, fun j => ?_, fun j => ?_⟩
  · by_cases here : j = i
    · rw [here, Function.update_self, if_pos ⟨List.mem_singleton_self i, child⟩]
    · rw [Function.update_of_ne here, if_neg (fun inside => here (List.mem_singleton.mp inside.1))]
  · by_cases here : j = i
    · rw [here, Function.update_self]
    · rw [Function.update_of_ne here]
  · by_cases here : j = i
    · rw [here, Function.update_self]
    · rw [Function.update_of_ne here]

theorem passed_adopt (k : Kernel) (c i : Slot) :
    Passed k.initproc c [i] k.kin (k.adopt c i).kin := by
  unfold adopt
  by_cases child : (k.kin i).parent = some c
  · have moved : (k.set i (fun p => { p with parent := some k.initproc })).kin =
        Function.update k.kin i { k.kin i with parent := some k.initproc } := kin_set _
    rcases @passed_moved c i k.kin k.initproc child with ⟨parents, states, chans⟩
    rw [← moved] at parents states chans
    have raw : (k.proc i).parent = some c := child
    rw [if_pos raw]
    dsimp only
    have awaits : forall i' j,
        ((k.set i (fun p => { p with parent := some k.initproc })).kin j).Awaits i' ->
        (k.kin j).Awaits i' := by
      intro i' j awaits
      rw [Kin.Awaits, states, chans] at awaits
      exact awaits
    split
    next zombie =>
      have calm : forall j, ((k.set i (fun p => { p with parent := some k.initproc })).kin j).Calm
          (((k.set i (fun p => { p with parent := some k.initproc })).wakeup1
          (some k.initproc.val)).kin j) := by
        intro j
        rw [kin_wakeup1]
        exact Kin.Calm.woken
      refine ⟨fun j => (calm j).parent.trans (parents j), fun j => (calm j).unused.trans
        (by rw [states]), fun j => (calm j).zombie.trans (by rw [states]), fun i' j asleep =>
        awaits i' j ((calm j).awaits i' asleep), fun _ _ _ _ => not_awaits_wakeup1⟩
    next alive =>
      refine ⟨parents, fun j => by rw [states], fun j => by rw [states], awaits,
        fun j inside _ zombie => absurd ?_ alive⟩
      rw [List.mem_singleton.mp inside] at zombie
      exact (states i).trans zombie
  · have raw : ¬ (k.proc i).parent = some c := child
    rw [if_neg raw]
    refine ⟨fun j => (if_neg (fun inside => child ?_)).symm, fun _ => Iff.rfl, fun _ => Iff.rfl,
      fun _ _ same => same, fun j inside isChild => absurd isChild ?_⟩
    · rw [← List.mem_singleton.mp inside.1]
      exact inside.2
    · rw [List.mem_singleton.mp inside]
      exact child

theorem passed_foldl (k : Kernel) (different : c ≠ k.initproc) (visited : List Slot) :
    Passed k.initproc c visited k.kin (visited.foldl (adopt c) k).kin := by
  induction visited generalizing k with
  | nil =>
      exact ⟨fun j => (if_neg (fun inside => List.not_mem_nil inside.1)).symm, fun _ => Iff.rfl,
        fun _ => Iff.rfl, fun _ _ same => same, fun j inside => absurd inside List.not_mem_nil⟩
  | cons i rest ih =>
      have first := passed_adopt k c i
      have same : (k.adopt c i).initproc = k.initproc := initproc_adopt k
      have later := ih (k.adopt c i) (by rw [same]; exact different)
      rw [same] at later
      refine ⟨fun j => ?_, fun j => (later.unused j).trans (first.unused j),
        fun j => (later.zombie j).trans (first.zombie j), fun i' j awaits =>
        first.awaits i' j (later.awaits i' j awaits), fun j inside child zombie => ?_⟩
      · rw [List.foldl_cons, later.parent, first.parent]
        by_cases here : j ∈ [i] ∧ (k.kin j).parent = some c
        · rw [if_pos here, ite_self,
            if_pos ⟨List.mem_cons.mpr (Or.inl (List.mem_singleton.mp here.1)), here.2⟩]
        · rw [if_neg here]
          by_cases further : j ∈ rest ∧ (k.kin j).parent = some c
          · rw [if_pos further, if_pos ⟨List.mem_cons_of_mem i further.1, further.2⟩]
          · rw [if_neg further, if_neg]
            rintro ⟨inside, child⟩
            rcases List.mem_cons.mp inside with same | later
            · exact here ⟨List.mem_singleton.mpr same, child⟩
            · exact further ⟨later, child⟩
      · rcases List.mem_cons.mp inside with rfl | further
        · exact fun awaits => first.wakes j (List.mem_singleton_self j) child zombie
            (later.awaits _ _ awaits)
        · by_cases here : j = i
          · exact fun awaits => first.wakes j (List.mem_singleton.mpr here) child zombie
              (later.awaits _ _ awaits)
          · refine later.wakes j further ?_ ((first.zombie j).mpr zombie)
            rw [first.parent, if_neg (fun inside => here (List.mem_singleton.mp inside.1))]
            exact child

/-- `exit`: the parent is woken, the children go to `init`, and the process becomes a zombie. -/
theorem kin_exit (ended : k.exit c = some after) :
    c ≠ k.initproc ∧
    Exists fun passed : Slot -> Kin =>
      Passed k.initproc c slots
        (k.wakeup1 ((k.proc c).parent.map (fun parent => parent.val))).kin passed ∧
      after.kin = Function.update passed c { passed c with state := .zombie } := by
  unfold exit at ended
  split at ended
  · exact absurd ended.symm (Option.some_ne_none _)
  next different =>
    rcases Option.some.inj ended with rfl
    refine ⟨different, _, ?_, kin_sched.trans (kin_set _)⟩
    exact passed_foldl (k.wakeup1 _) different slots

end Kernel

/-- An `exit` leaves the family to `init`, and nobody asleep with a zombie child. -/
theorem Families.dies {elsewhere : Prop} {init c : Slot} {kin woken passed : Slot -> Kin}
    (families : Families elsewhere init kin) (different : c ≠ init) (alive : (kin c).Alive)
    (calm : forall i, (kin i).Calm (woken i))
    (parentWoken : forall p, (kin c).parent = some p -> ¬ (woken p).Awaits p)
    (handed : Passed init c slots woken passed) :
    Families elsewhere init (Function.update passed c { passed c with state := .zombie }) := by
  have parents : forall j, (passed j).parent = if (kin j).parent = some c then some init
      else (kin j).parent := by
    intro j
    rw [handed.parent, (calm j).parent]
    simp only [slots, List.mem_finRange, true_and]
  have unused : forall j, (passed j).state = .unused ↔ (kin j).state = .unused :=
    fun j => (handed.unused j).trans (calm j).unused
  have zombie : forall j, (passed j).state = .zombie ↔ (kin j).state = .zombie :=
    fun j => (handed.zombie j).trans (calm j).zombie
  have parentsNow : forall j,
      (Function.update passed c { passed c with state := .zombie } j).parent = if (kin j).parent =
      some c then some init else (kin j).parent := by
    intro j
    rw [← parents]
    by_cases here : j = c
    · rw [here, Function.update_self]
    · rw [Function.update_of_ne here]
  have members : forall j, (Function.update passed c { passed c with state := .zombie } j).Used ↔
      (kin j).Used := by
    intro j
    by_cases here : j = c
    · rw [here, Function.update_self]
      exact iff_of_true ProcState.noConfusion alive.1
    · rw [Function.update_of_ne here]
      exact not_congr (unused j)
  have inners : forall j, (Function.update passed c { passed c with state := .zombie } j).Alive ↔
      (kin j).Alive ∧ j ≠ c := by
    intro j
    by_cases here : j = c
    · rw [here, Function.update_self]
      exact iff_of_false (fun aliveNow => aliveNow.2 rfl) (fun aliveNow => aliveNow.2 rfl)
    · rw [Function.update_of_ne here, and_iff_left here]
      exact and_congr (not_congr (unused j)) (not_congr (zombie j))
  have awaits : forall j, (Function.update passed c { passed c with state := .zombie } j).Awaits
      j -> j ≠ c ∧ (passed j).Awaits j ∧ (woken j).Awaits j ∧ (kin j).Awaits j := by
    intro j asleep
    by_cases here : j = c
    · rw [here, Function.update_self] at asleep
      exact ProcState.noConfusion asleep.1
    · rw [Function.update_of_ne here] at asleep
      exact ⟨here, asleep, handed.awaits j j asleep, (calm j).awaits j (handed.awaits j j asleep)⟩
  refine ⟨families.forest.retire different members inners (fun j _ => parentsNow j),
    fun j notUsed => ?_, ?_, fun only j asleep => ?_, fun only j i asleep child zombieNow => ?_⟩
  · rw [parentsNow, families.orphan j (fun used => notUsed ((members j).mpr used))]
    exact if_neg (Option.some_ne_none _).symm
  · rw [parentsNow, families.rootless]
    exact if_neg (Option.some_ne_none _).symm
  · rcases awaits j asleep with ⟨other, _, _, before⟩
    rcases families.children only j before with ⟨i, child⟩
    refine ⟨i, ?_⟩
    rw [parentsNow, child, if_neg (fun same => other (Option.some.inj same))]
  · rcases awaits j asleep with ⟨other, asleepPassed, asleepWoken, before⟩
    rw [parentsNow] at child
    by_cases mine : (kin i).parent = some c
    · rw [if_pos mine] at child
      have root : j = init := (Option.some.inj child).symm
      have notSelf : i ≠ c := by
        rintro rfl
        exact families.forest.ne_parent alive.1 different mine
      rw [Function.update_of_ne notSelf] at zombieNow
      have childWoken : (woken i).parent = some c := (calm i).parent.trans mine
      rw [root] at asleepPassed
      exact handed.wakes i (List.mem_finRange i) childWoken
        ((handed.zombie i).mp zombieNow) asleepPassed
    · rw [if_neg mine] at child
      by_cases here : i = c
      · rw [here] at child
        exact parentWoken j child asleepWoken
      · rw [Function.update_of_ne here] at zombieNow
        exact families.waiting only j i before child ((zombie i).mp zombieNow)

namespace Kernel

variable {k after : Kernel} {c i : Slot}

theorem initproc_sched : (k.sched c).initproc = k.initproc := by
  unfold sched
  cases k.resume c with
  | none => rfl
  | some d => rfl

theorem initproc_perform {event : Event} (done : perform k event = some after) :
    after.initproc = k.initproc := by
  cases event with
  | round =>
      rcases Option.some.inj done with rfl
      unfold scheduler
      cases k.winner with
      | none => rfl
      | some won => rfl
  | yield c =>
      rcases Option.some.inj done with rfl
      exact initproc_sched
  | sleep c chan =>
      rcases Option.some.inj done with rfl
      exact initproc_sched
  | wakeup chan =>
      rcases Option.some.inj done with rfl
      rfl
  | fork c kstack pgdir =>
      rcases Option.some.inj done with rfl
      show (k.fork c kstack pgdir).2.initproc = k.initproc
      cases free : k.firstUnused with
      | none => rw [fork_of_full free]
      | some np =>
          cases outcome : kstack && pgdir with
          | false =>
              rw [fork_of_failed free outcome]
              rfl
          | true =>
              rcases Bool.and_eq_true_iff.mp outcome with ⟨rfl, rfl⟩
              rw [fork_of_free free]
              rfl
  | exit c =>
      have ended : k.exit c = some after := done
      unfold exit at ended
      split at ended
      · exact absurd ended.symm (Option.some_ne_none _)
      · rcases Option.some.inj ended with rfl
        rw [initproc_sched]
        simp only [set]
        rw [foldl_adopt initproc (fun k _ => initproc_adopt k)]
        rfl
  | wait c =>
      rcases Option.some.inj done with rfl
      unfold wait
      split
      · rfl
      · split
        · rfl
        · exact initproc_sched
  | kill c pid =>
      rcases Option.some.inj done with rfl
      unfold kill
      split
      · rfl
      · rfl
  | reserve c arg =>
      rcases Option.some.inj done with rfl
      cases arg with
      | none => rfl
      | some n =>
          unfold sysReserve
          dsimp only
          split
          · rfl
          · split
            · rfl
            · rfl
  | spot c arg =>
      rcases Option.some.inj done with rfl
      cases arg with
      | none => rfl
      | some n => rfl

theorem kin_fork_of_free (free : k.firstUnused = some i) :
    (k.fork c true true).2.kin = Function.update k.kin i ⟨.runnable, some c, (k.kin i).chan⟩ := by
  rw [fork_of_free free]
  exact @kin_set k i (fun p => { p with state := .runnable, pid := k.nextpid, parent := some c })

theorem kin_fork_of_failed (free : k.firstUnused = some i) {kstack pgdir : Bool}
    (failed : (kstack && pgdir) = false) :
    (k.fork c kstack pgdir).2.kin = Function.update k.kin i { k.kin i with state := .unused } := by
  rw [fork_of_failed free failed]
  exact @kin_set k i (fun p => { p with state := .unused, pid := k.nextpid })

theorem kin_yield :
    (k.yield c).kin = Function.update k.kin c { k.kin c with state := .runnable } := by
  rw [yield, kin_sched, kin_set]
  rfl

theorem kin_sleep (chan : Nat) :
    (k.sleep c chan).kin =
      Function.update k.kin c { k.kin c with chan := some chan, state := .sleeping } := by
  rw [sleep, kin_sched, kin_set]
  rfl

theorem kin_scheduler_of_winner {won : Slot × Dispatch} (drawn : k.winner = some won) :
    k.scheduler.kin = Function.update k.kin won.1 { k.kin won.1 with state := .running } := by
  have table := @proc_scheduler k
  rw [drawn] at table
  exact (kin_congr table).trans (kin_set _)

theorem kin_scheduler_of_none (drawn : k.winner = none) : k.scheduler.kin = k.kin := by
  have table := @proc_scheduler k
  rw [drawn] at table
  exact kin_congr table

/-- `kill` makes a sleeping process run. -/
theorem kin_kill (pid : Int) :
    (k.kill pid).2.kin = k.kin ∨
    Exists fun i =>
      (k.kin i).state = .sleeping ∧
      (k.kill pid).2.kin = Function.update k.kin i { k.kin i with state := .runnable } := by
  unfold kill
  split
  next i found =>
    have change := @kin_set k i (fun p =>
        { p with killed := true, state := if p.state = .sleeping then .runnable else p.state })
    by_cases asleep : (k.proc i).state = .sleeping
    · refine Or.inr ⟨i, asleep, change.trans ?_⟩
      simp only [Proc.kin, if_pos asleep]
      rfl
    · refine Or.inl (change.trans ?_)
      simp only [Proc.kin, if_neg asleep]
      exact Function.update_eq_self i k.kin
  next => exact Or.inl rfl

/-- What one scan of `wait` does. -/
theorem kin_wait (k : Kernel) (c : Slot) :
    (Exists fun i =>
      (k.kin i).state = .zombie ∧
      (k.wait c).2.kin = Function.update k.kin i ⟨.unused, none, (k.kin i).chan⟩) ∨
    (k.wait c).2 = k ∨
    ((Exists fun i => (k.kin i).parent = some c) ∧
     (forall i, (k.kin i).parent = some c -> (k.kin i).state ≠ .zombie) ∧
     (k.wait c).2 = k.sleep c c.val) := by
  unfold wait
  cases found : slots.find? (fun i => (k.proc i).parent = some c ∧ (k.proc i).state = .zombie) with
  | some i =>
      left
      have child : (k.proc i).parent = some c ∧ (k.proc i).state = .zombie := by
        simpa using List.find?_some found
      exact ⟨i, child.2, @kin_set k i
        (fun p => { p with state := .unused, pid := 0, parent := none, killed := false })⟩
  | none =>
      right
      dsimp only
      split
      · exact Or.inl rfl
      next stays =>
        refine Or.inr ⟨?_, fun i child zombie => ?_, rfl⟩
        · have some := Bool.of_not_eq_false (not_or.mp stays).1
          rcases List.any_eq_true.mp some with ⟨i, _, child⟩
          exact ⟨i, of_decide_eq_true child⟩
        · have skipped := List.find?_eq_none.mp found i (List.mem_finRange i)
          exact skipped (decide_eq_true ⟨child, zombie⟩)

theorem kin_sysReserve (arg : Option Int) : (k.sysReserve c arg).2.kin = k.kin := by
  cases arg with
  | none => rfl
  | some n =>
      unfold sysReserve
      dsimp only
      split
      · rfl
      · split
        · rfl
        · exact @kin_set_same { k with totalpercent := int32 (n + k.totalpercent) } c
            (fun p => { p with spotbid := 0, rpercent := n }) rfl

theorem kin_sysSpot (arg : Option Int) : (k.sysSpot c arg).2.kin = k.kin := by
  cases arg with
  | none => rfl
  | some n => exact @kin_set_same k c (fun p => { p with rpercent := 0, spotbid := n }) rfl

end Kernel

/-- Nobody but `wait` sleeps on the address of a slot. -/
def SleepsElsewhere (_k : Kernel) : Event -> Prop
  | .sleep _ chan => NPROC ≤ chan
  | _ => True

/-- A process that was awake goes to another waiting state. -/
theorem Kin.Calm.turned {before after : Kin} (parent : after.parent = before.parent)
    (was : before.state = .running ∨ before.state = .runnable ∨ before.state = .sleeping)
    (now : after.state = .running ∨ after.state = .runnable ∨ after.state = .sleeping)
    (awaits : forall i, after.Awaits i -> before.Awaits i) : before.Calm after := by
  refine ⟨parent, iff_of_false (fun unused => ?_) (fun unused => ?_),
    iff_of_false (fun zombie => ?_) (fun zombie => ?_), awaits⟩
  · rw [unused] at now
    exact absurd now (by decide)
  · rw [unused] at was
    exact absurd was (by decide)
  · rw [zombie] at now
    exact absurd now (by decide)
  · rw [zombie] at was
    exact absurd was (by decide)

section Steps

variable {elsewhere : Prop} {k after : Kernel} {init c : Slot}

theorem families_fork (families : Families elsewhere init k.kin)
    (running : (k.kin c).state = .running) (kstack pgdir : Bool) :
    Families elsewhere init (k.fork c kstack pgdir).2.kin := by
  cases free : k.firstUnused with
  | none => rwa [Kernel.fork_of_full free]
  | some np =>
      have unused : (k.proc np).state = .unused := by simpa using List.find?_some free
      cases outcome : kstack && pgdir with
      | false =>
          rw [Kernel.kin_fork_of_failed free outcome]
          refine families.update ⟨rfl, iff_of_true rfl unused,
            iff_of_false ProcState.noConfusion ?_, fun i awaits => ProcState.noConfusion awaits.1⟩
          intro zombie
          exact ProcState.noConfusion (unused.symm.trans zombie)
      | true =>
          rcases Bool.and_eq_true_iff.mp outcome with ⟨rfl, rfl⟩
          rw [Kernel.kin_fork_of_free free]
          refine @Families.born elsewhere init c np k.kin families
            (fun used => used unused) ?_ _ rfl rfl
          rw [Kin.Alive, running]
          decide

/-- A process that goes to sleep on its own slot has children, and no zombie among them. -/
theorem families_sleep (families : Families elsewhere init k.kin)
    (running : (k.kin c).state = .running) (chan : Nat)
    (own : elsewhere ->
      forall i : Slot, chan = i.val ->
        i = c ∧ (Exists fun i => (k.kin i).parent = some c) ∧
        forall i, (k.kin i).parent = some c -> (k.kin i).state ≠ .zombie) :
    Families elsewhere init (k.sleep c chan).kin := by
  rw [Kernel.kin_sleep]
  have others : forall j, j ≠ c ->
      Function.update k.kin c { k.kin c with chan := some chan, state := .sleeping } j = k.kin j :=
    fun j different => Function.update_of_ne different _ _
  have mine : Function.update k.kin c { k.kin c with chan := some chan, state := .sleeping } c =
      { k.kin c with chan := some chan, state := .sleeping } := Function.update_self _ _ _
  have parents : forall j,
      (Function.update k.kin c { k.kin c with chan := some chan, state := .sleeping } j).parent =
      (k.kin j).parent := by
    intro j
    by_cases here : j = c
    · rw [here, mine]
    · rw [others j here]
  have used : forall j,
      (Function.update k.kin c { k.kin c with chan := some chan, state := .sleeping } j).Used ↔
      (k.kin j).Used := by
    intro j
    by_cases here : j = c
    · rw [here, mine, Kin.Used, Kin.Used, running]
      exact iff_of_true ProcState.noConfusion ProcState.noConfusion
    · rw [others j here]
  have zombie : forall j,
      (Function.update k.kin c { k.kin c with chan := some chan, state := .sleeping } j).state =
      .zombie ↔ (k.kin j).state = .zombie := by
    intro j
    by_cases here : j = c
    · rw [here, mine, running]
      exact iff_of_false ProcState.noConfusion ProcState.noConfusion
    · rw [others j here]
  have asleep : elsewhere -> forall j,
      (Function.update k.kin c { k.kin c with chan := some chan, state := .sleeping } j).Awaits j ->
      (Exists fun i => (k.kin i).parent = some j) ∧ forall i, (k.kin i).parent = some j ->
      (k.kin i).state ≠ .zombie := by
    intro only j awaits
    by_cases here : j = c
    · rw [here, mine] at awaits
      rw [here]
      exact (own only c (Option.some.inj awaits.2)).2
    · rw [others j here] at awaits
      exact ⟨families.children only j awaits, fun i => families.waiting only j i awaits⟩
  refine ⟨families.forest.congr used (fun j => and_congr (used j) (not_congr (zombie j)))
    (fun j _ => parents j), fun j unused => ?_, ?_, fun only j awaits => ?_,
    fun only j i awaits child => ?_⟩
  · rw [parents]
    exact families.orphan j (fun inUse => unused ((used j).mpr inUse))
  · rw [parents]
    exact families.rootless
  · rcases (asleep only j awaits).1 with ⟨i, child⟩
    exact ⟨i, (parents i).trans child⟩
  · rw [parents] at child
    exact fun dead => (asleep only j awaits).2 i child ((zombie i).mp dead)

/-- What one step does to the families. -/
theorem families_perform {event : Event} (families : Families elsewhere k.initproc k.kin)
    (enabled : Enabled k event) (guarded : elsewhere -> SleepsElsewhere k event)
    (done : perform k event = some after) : Families elsewhere k.initproc after.kin := by
  cases event with
  | round =>
      rcases Option.some.inj done with rfl
      cases drawn : k.winner with
      | none => rwa [Kernel.kin_scheduler_of_none drawn]
      | some won =>
          rw [Kernel.kin_scheduler_of_winner drawn]
          exact families.update (Kin.Calm.turned rfl (Or.inr (Or.inl (Kernel.draw_runnable drawn)))
            (Or.inl rfl) (fun i awaits => ProcState.noConfusion awaits.1))
  | yield c =>
      rcases Option.some.inj done with rfl
      rw [Kernel.kin_yield]
      exact families.update (Kin.Calm.turned rfl (Or.inl (enabled c rfl)) (Or.inr (Or.inl rfl))
        (fun i awaits => ProcState.noConfusion awaits.1))
  | sleep c chan =>
      rcases Option.some.inj done with rfl
      refine families_sleep families (enabled c rfl) chan (fun only i same => ?_)
      have below : i.val < NPROC := i.isLt
      have above : NPROC ≤ chan := guarded only
      omega
  | wakeup chan =>
      rcases Option.some.inj done with rfl
      refine families.calm (fun i => ?_)
      rw [Kernel.kin_wakeup1]
      exact Kin.Calm.woken
  | fork c kstack pgdir =>
      rcases Option.some.inj done with rfl
      exact families_fork families (enabled c rfl) kstack pgdir
  | exit c =>
      rcases Kernel.kin_exit done with ⟨different, passed, handed, result⟩
      rw [result]
      have running : (k.kin c).state = .running := enabled c rfl
      refine families.dies different ?_ (fun i => ?_) (fun p parent => ?_) handed
      · rw [Kin.Alive, running]
        decide
      · rw [Kernel.kin_wakeup1]
        exact Kin.Calm.woken
      · have same : (k.proc c).parent = some p := parent
        rw [same]
        exact Kernel.not_awaits_wakeup1
  | wait c =>
      rcases Option.some.inj done with rfl
      rcases Kernel.kin_wait k c with ⟨i, zombie, same⟩ | same | ⟨child, alive, same⟩
      · show Families elsewhere k.initproc (k.wait c).2.kin
        rw [same]
        exact families.reaped zombie rfl rfl
      · show Families elsewhere k.initproc (k.wait c).2.kin
        rwa [same]
      · show Families elsewhere k.initproc (k.wait c).2.kin
        rw [same]
        exact families_sleep families (enabled c rfl) c.val
          (fun _ i same => ⟨(Fin.ext same).symm, child, alive⟩)
  | kill c pid =>
      rcases Option.some.inj done with rfl
      show Families elsewhere k.initproc (k.kill pid).2.kin
      rcases Kernel.kin_kill (k := k) pid with same | ⟨i, asleep, same⟩
      · rwa [same]
      · rw [same]
        exact families.update (Kin.Calm.turned rfl (Or.inr (Or.inr asleep)) (Or.inr (Or.inl rfl))
          (fun i awaits => ProcState.noConfusion awaits.1))
  | reserve c arg =>
      rcases Option.some.inj done with rfl
      show Families elsewhere k.initproc (k.sysReserve c arg).2.kin
      rwa [Kernel.kin_sysReserve]
  | spot c arg =>
      rcases Option.some.inj done with rfl
      show Families elsewhere k.initproc (k.sysSpot c arg).2.kin
      rwa [Kernel.kin_sysSpot]

end Steps

theorem families_booted {elsewhere : Prop} {k : Kernel} (booted : Booted k) :
    Families elsewhere k.initproc k.kin := by
  have blank : forall i, i ≠ firstSlot -> k.kin i = ⟨.unused, none, none⟩ := by
    intro i different
    rw [Kernel.kin, booted.others i different]
    rfl
  have first : k.kin firstSlot = ⟨.runnable, none, none⟩ := by
    rw [Kernel.kin, booted.first]
    rfl
  have parents : forall i, (k.kin i).parent = none := by
    intro i
    by_cases here : i = firstSlot
    · rw [here, first]
    · rw [blank i here]
  have awake : forall i j, ¬ (k.kin i).Awaits j := by
    intro i j awaits
    by_cases here : i = firstSlot
    · rw [here, first] at awaits
      exact ProcState.noConfusion awaits.1
    · rw [blank i here] at awaits
      exact ProcState.noConfusion awaits.1
  refine ⟨⟨?_, fun i alive => alive.1, fun _ => 0, fun i used different => ?_⟩,
    fun i _ => parents i, parents _, fun _ c awaits => absurd awaits (awake c c),
    fun _ c i awaits => absurd awaits (awake c c)⟩
  · show (k.kin k.initproc).Alive
    rw [booted.init, first, Kin.Alive]
    decide
  · rw [booted.init] at different
    exact absurd (congrArg Kin.state (blank i different)) used

theorem families_running {elsewhere : Prop} {guard : Kernel -> Event -> Prop} {k : Kernel}
    (reached : Running guard k)
    (guarded : forall before event, guard before event -> elsewhere ->
      SleepsElsewhere before event) : Families elsewhere k.initproc k.kin := by
  refine reached.invariant (fun _ booted => families_booted booted)
    (fun before event after families allowed stepped => ?_)
  unfold step at stepped
  split at stepped
  next enabled =>
    rw [Kernel.initproc_perform stepped]
    exact families_perform families enabled (guarded before event allowed) stepped
  next => exact absurd stepped.symm (Option.some_ne_none _)

/-- `init` forks and waits for its child. -/
def firstWait : List Event := [.round, .round, .fork firstSlot true true, .wait firstSlot]

def childSlot : Slot := ⟨firstSlot.val + 1, by decide⟩

theorem firstWait_runs :
    (run step bootKernel firstWait).map
      (fun k => ((k.proc childSlot).state, (k.proc firstSlot).state, (k.proc firstSlot).chan)) =
      some (.runnable, .sleeping, some 0) := by
  decide +kernel

/-- The processes in use are a tree: each but `init` has a parent that has not exited, and
going from parent to parent one comes to `init`. -/
theorem process_tree {k : Kernel} (reached : Running anyStep k) {i : Slot}
    (used : (k.proc i).state ≠ .unused) :
    Descends (fun i => (k.proc i).parent) i k.initproc ∧
    (i ≠ k.initproc ->
      Exists fun p =>
        (k.proc i).parent = some p ∧ p ≠ i ∧ (k.proc p).state ≠ .unused ∧
        (k.proc p).state ≠ .zombie) := by
  have families := @families_running False anyStep k reached (fun _ _ _ => False.elim)
  refine ⟨families.forest.descends used, fun different => ?_⟩
  rcases families.forest.up used different with ⟨p, parent, alive⟩
  refine ⟨p, parent, ?_, alive⟩
  rintro rfl
  exact families.forest.ne_parent used different parent

theorem process_tree_firstWait : Exists fun k => run step bootKernel firstWait = some k ∧
    Descends (fun i => (k.proc i).parent) childSlot k.initproc := by
  have ran := firstWait_runs
  rcases Option.map_eq_some_iff.mp ran with ⟨k, result, states⟩
  have used : (k.proc childSlot).state ≠ .unused := by
    rw [(Prod.mk.inj states).1]
    decide
  exact ⟨k, result, (process_tree ((Reachable.start bootKernel_booted).run result) used).1⟩

/-- No exit is missed: a process that sleeps in `wait` has a child, and all its children are
still to exit. -/
theorem wait_misses_no_exit {k : Kernel} (reached : Running SleepsElsewhere k) {c : Slot}
    (asleep : (k.proc c).state = .sleeping) (chan : (k.proc c).chan = some c.val) :
    (Exists fun i => (k.proc i).parent = some c) ∧
    forall i, (k.proc i).parent = some c ->
      (k.proc i).state ≠ .unused ∧ (k.proc i).state ≠ .zombie := by
  have families := @families_running True SleepsElsewhere k reached (fun _ _ spares _ => spares)
  refine ⟨families.children trivial c ⟨asleep, chan⟩,
    fun i child => ⟨fun unused => ?_, families.waiting trivial c i ⟨asleep, chan⟩ child⟩⟩
  have none := families.orphan i (fun used => used unused)
  exact Option.some_ne_none _ (child.symm.trans none)

theorem wait_misses_no_exit_firstWait : Exists fun k => run step bootKernel firstWait = some k ∧
    Exists fun i => (k.proc i).parent = some firstSlot := by
  have ran := firstWait_runs
  rcases Option.map_eq_some_iff.mp ran with ⟨k, result, states⟩
  have started : Reachable step Booted SleepsElsewhere bootKernel := .start bootKernel_booted
  have reached := started.run_allowed result (by
    intro event inside state
    simp only [firstWait, List.mem_cons, List.not_mem_nil, or_false] at inside
    rcases inside with rfl | rfl | rfl | rfl <;> trivial)
  have parts := Prod.mk.inj (Prod.mk.inj states).2
  exact ⟨k, result, (wait_misses_no_exit reached parts.1 parts.2).1⟩

end Scheduler
end OsProjects
