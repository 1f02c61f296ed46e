import OsProjects.AddressSpace.Leak

namespace OsProjects
namespace AddressSpace

open Machine

/-!
# Which entries change

`allocuvm`, `deallocuvm` and `copyuvm` work page by page.  `Added` and `Removed`
say for every entry of a page table, and for every page of memory, what such a
loop has done to it: which entries are new and what is behind them, which pages
were taken or given back, and that nothing else is different.  They compose, so
the loops follow from their bodies by induction, and a rollback follows from the
two together.
-/

/-- The pages of `range`, which were unmapped, are mapped to pages that were free,
with the given contents.  Everything else is the same. -/
structure Added (owner : Nat -> Role) (s : Vm) (d : Nat) (range : Nat -> Prop)
    (contents : Nat -> Page) (after : Nat -> Role) (t : Vm) : Prop where
  directory : t.mem d = s.mem d
  entries : forall w, w < 2 ^ 20 -> ¬ range w -> pte t d w = pte s d w
  frames : forall w, range w -> Exists fun r => owner r = .free ∧ after r = .user d w ∧
    pte t d w = r * PGSIZE ||| 7 ∧ t.mem r = contents w
  role : forall p, after p = owner p ∨ (owner p = .free ∧ Exists fun w => range w ∧
    after p = .user d w ∧ pte t d w = p * PGSIZE ||| 7)
  kept : forall p, owner p ≠ .free -> (forall i, owner p ≠ .table d i) -> t.mem p = s.mem p

/-- The pages of `range` are unmapped, and the pages behind them are free.
Everything else is the same. -/
structure Removed (owner : Nat -> Role) (s : Vm) (d : Nat) (range : Nat -> Prop)
    (after : Nat -> Role) (t : Vm) : Prop where
  directory : t.mem d = s.mem d
  entries : forall w, w < 2 ^ 20 -> ¬ range w -> pte t d w = pte s d w
  cleared : forall w, range w -> pte t d w = 0
  freed : forall w, range w -> Present (pte s d w) -> after (PTE_ADDR (pte s d w)) = .free
  role : forall p, after p = owner p ∨ (after p = .free ∧ Exists fun w => range w ∧
    Present (pte s d w) ∧ PTE_ADDR (pte s d w) = p)
  kept : forall p, after p ≠ .free -> (forall i, owner p ≠ .table d i) -> t.mem p = s.mem p

section Composition

variable {owner middle after : Nat -> Role} {s t u : Vm} {d : Nat}
  {first second whole : Nat -> Prop} {contents : Nat -> Page}

theorem Added.refl (owner : Nat -> Role) (s : Vm) (d : Nat) {range : Nat -> Prop}
    (empty : forall w, ¬ range w) (contents : Nat -> Page) :
    Added owner s d range contents owner s :=
  ⟨rfl, fun _ _ _ => rfl, fun w inside => absurd inside (empty w), fun _ => Or.inl rfl,
    fun _ _ _ => rfl⟩

theorem Removed.refl (owner : Nat -> Role) (s : Vm) (d : Nat) {range : Nat -> Prop}
    (empty : forall w, range w -> pte s d w = 0) : Removed owner s d range owner s := by
  refine ⟨rfl, fun _ _ _ => rfl, empty, fun w inside present => ?_, fun _ => Or.inl rfl,
    fun _ _ _ => rfl⟩
  rw [empty w inside] at present
  exact absurd present not_present_zero

/-- A page that is not free before keeps its role. -/
theorem Added.role_of_used (added : Added owner s d first contents middle t) {p : Nat}
    (used : owner p ≠ .free) : middle p = owner p :=
  (added.role p).resolve_right (fun fresh => used fresh.1)

theorem Added.trans (one : Added owner s d first contents middle t)
    (two : Added middle t d second contents after u)
    (parts : forall w, whole w ↔ first w ∨ second w)
    (disjoint : forall w, first w -> ¬ second w) (low : forall w, whole w -> w < 2 ^ 20) :
    Added owner s d whole contents after u := by
  have mapped : forall w r, first w -> middle r = .user d w -> pte t d w = r * PGSIZE ||| 7 ->
      after r = .user d w ∧ pte u d w = r * PGSIZE ||| 7 := by
    intro w r inside role entry
    have used : middle r ≠ .free := by rw [role]; exact Role.noConfusion
    refine ⟨(two.role_of_used used).trans role, ?_⟩
    rw [two.entries w (low w ((parts w).mpr (Or.inl inside))) (disjoint w inside)]
    exact entry
  have wasFree : forall p, middle p = .free -> owner p = .free := by
    intro p isFree
    rcases one.role p with same | ⟨free, _⟩
    · rw [← same]
      exact isFree
    · exact free
  refine ⟨two.directory.trans one.directory, fun w below outside => ?_, fun w inside => ?_,
    fun p => ?_, fun p used notTable => ?_⟩
  · have outsideFirst := fun inside => outside ((parts w).mpr (Or.inl inside))
    have outsideSecond := fun inside => outside ((parts w).mpr (Or.inr inside))
    exact (two.entries w below outsideSecond).trans (one.entries w below outsideFirst)
  · rcases (parts w).mp inside with inFirst | inSecond
    · rcases one.frames w inFirst with ⟨r, free, role, entry, filled⟩
      have both := mapped w r inFirst role entry
      refine ⟨r, free, both.1, both.2, ?_⟩
      rw [two.kept r (by rw [role]; exact Role.noConfusion)
        (fun i => by rw [role]; exact Role.noConfusion)]
      exact filled
    · rcases two.frames w inSecond with ⟨r, free, rest⟩
      exact ⟨r, wasFree r free, rest⟩
  · rcases two.role p with same | ⟨free, w, inside, rest⟩
    · rcases one.role p with before | ⟨free, w, inside, role, entry⟩
      · exact Or.inl (same.trans before)
      · exact Or.inr ⟨free, w, (parts w).mpr (Or.inl inside), mapped w p inside role entry⟩
    · exact Or.inr ⟨wasFree p free, w, (parts w).mpr (Or.inr inside), rest⟩
  · have same := one.role_of_used used
    rw [two.kept p (by rw [same]; exact used) (fun i => by rw [same]; exact notTable i)]
    exact one.kept p used notTable

theorem Removed.trans (one : Removed owner s d first middle t)
    (two : Removed middle t d second after u) (parts : forall w, whole w ↔ first w ∨ second w)
    (disjoint : forall w, first w -> ¬ second w) (low : forall w, whole w -> w < 2 ^ 20) :
    Removed owner s d whole after u := by
  have stillFree : forall p, middle p = .free -> after p = .free := by
    intro p isFree
    rcases two.role p with same | ⟨free, _⟩
    · exact same.trans isFree
    · exact free
  have same : forall w, second w -> pte t d w = pte s d w := fun w inside =>
    one.entries w (low w ((parts w).mpr (Or.inr inside))) (fun inFirst => disjoint w inFirst inside)
  refine ⟨two.directory.trans one.directory, fun w below outside => ?_, fun w inside => ?_,
    fun w inside present => ?_, fun p => ?_, fun p used notTable => ?_⟩
  · have outsideFirst := fun inside => outside ((parts w).mpr (Or.inl inside))
    have outsideSecond := fun inside => outside ((parts w).mpr (Or.inr inside))
    exact (two.entries w below outsideSecond).trans (one.entries w below outsideFirst)
  · rcases (parts w).mp inside with inFirst | inSecond
    · rw [two.entries w (low w inside) (disjoint w inFirst)]
      exact one.cleared w inFirst
    · exact two.cleared w inSecond
  · rcases (parts w).mp inside with inFirst | inSecond
    · exact stillFree _ (one.freed w inFirst present)
    · rw [← same w inSecond] at present ⊢
      exact two.freed w inSecond present
  · rcases two.role p with unchanged | ⟨free, w, inside, present, frame⟩
    · rcases one.role p with before | ⟨free, w, inside, rest⟩
      · exact Or.inl (unchanged.trans before)
      · exact Or.inr ⟨unchanged.trans free, w, (parts w).mpr (Or.inl inside), rest⟩
    · rw [same w inside] at present frame
      exact Or.inr ⟨free, w, (parts w).mpr (Or.inr inside), present, frame⟩
  · have middleUsed : middle p ≠ .free := fun free => used (stillFree p free)
    have role : middle p = owner p := (one.role p).resolve_right (fun freed => middleUsed freed.1)
    rw [two.kept p used (fun i => by rw [role]; exact notTable i)]
    exact one.kept p middleUsed notTable

/-- Removing more than what had just been added is the same as removing the rest. -/
theorem Added.undone (added : Added owner s d first contents middle t)
    (removed : Removed middle t d whole after u) (included : forall w, first w -> whole w)
    (clear : forall w, first w -> pte s d w = 0) (low : forall w, whole w -> w < 2 ^ 20) :
    Removed owner s d whole after u := by
  have role : forall p, after p = owner p ∨ (after p = .free ∧ Exists fun w => whole w ∧
      Present (pte s d w) ∧ PTE_ADDR (pte s d w) = p) := by
    intro p
    rcases removed.role p with same | ⟨free, w, inside, present, frame⟩
    · rcases added.role p with before | ⟨free, w, inside, _, entry⟩
      · exact Or.inl (same.trans before)
      · have freed := removed.freed w (included w inside)
          (by rw [entry]; exact present_entry p (by decide) (by decide))
        rw [entry, PTE_ADDR_entry p (by decide)] at freed
        exact Or.inl (freed.trans free.symm)
    · by_cases inFirst : first w
      · rcases added.frames w inFirst with ⟨r, wasFree, _, entry, _⟩
        rw [entry, PTE_ADDR_entry r (by decide)] at frame
        rw [frame] at wasFree
        exact Or.inl (free.trans wasFree.symm)
      · rw [added.entries w (low w inside) inFirst] at present frame
        exact Or.inr ⟨free, w, inside, present, frame⟩
  refine ⟨removed.directory.trans added.directory, fun w below outside => ?_, removed.cleared,
    fun w inside present => ?_, role, fun p used notTable => ?_⟩
  · rw [removed.entries w below outside]
    exact added.entries w below (fun inFirst => outside (included w inFirst))
  · have notFirst : ¬ first w := by
      intro inFirst
      rw [clear w inFirst] at present
      exact not_present_zero present
    rw [← added.entries w (low w inside) notFirst] at present ⊢
    exact removed.freed w inside present
  · have wasUsed : owner p ≠ .free := by
      intro free
      rcases role p with same | ⟨nowFree, _⟩
      · exact used (same.trans free)
      · exact used nowFree
    have same := added.role_of_used wasUsed
    rw [removed.kept p used (fun i => by rw [same]; exact notTable i)]
    exact added.kept p wasUsed notTable

/-- Removing unmapped pages does nothing. -/
theorem Removed.nothing (removed : Removed owner s d whole after t)
    (clear : forall w, whole w -> pte s d w = 0) :
    (forall p, after p = owner p) ∧ forall w, w < 2 ^ 20 -> pte t d w = pte s d w := by
  refine ⟨fun p => (removed.role p).resolve_right ?_, fun w below => ?_⟩
  · rintro ⟨_, w, inside, present, _⟩
    rw [clear w inside] at present
    exact not_present_zero present
  · by_cases inside : whole w
    · rw [removed.cleared w inside, clear w inside]
    · exact removed.entries w below inside

end Composition

/-! ## Mapping -/

/-- The address space `d` now has the user pages `pages`, and `how` says what has
happened on the way. -/
def BecameBy (image : Image) (owner : Nat -> Role) (s : Vm) (d : Nat) (pages : Nat -> Prop)
    (how : (Nat -> Role) -> Vm -> Prop) (t : Vm) : Prop :=
  Exists fun after => Heap image after t ∧ Within d owner after s t ∧ Space after t d pages ∧
    how after t

/-- A page that was free is filled and mapped. -/
theorem mapNew_added {owner : Nat -> Role} {s : Vm} {d r v : Nat} {pages : Nat -> Prop}
    (space : Space owner s d pages) (isUser : v < USERPAGES) (isFree : owner r = .free)
    (low : r < 2 ^ 20) (rest : List Nat) (contents : Page) :
    Program.wp (mappages d (v * PGSIZE) PGSIZE r (PTE_W ||| PTE_U))
      (fun _ t => Added owner s d (fun w => w = v) (fun _ => contents)
        (Function.update owner r (.user d v)) t)
      (fun _ => True) (Vm.withPage { s with freelist := rest } r contents) := by
  have taken := space.take (v := v) isFree contents rest
  refine Program.wp_mono (mappages_user_state taken isUser) ?_ (fun _ _ => trivial)
  generalize filled : Vm.withPage { s with freelist := rest } r contents = u at taken ⊢
  rintro _ t isT
  have role : Function.update owner r (.user d v) r = .user d v := Function.update_self _ _ _
  have tableRole := taken.tableRole isUser
  have tablePresent : Present (pde u d (v / 1024)) := by
    rw [(userpage_table isUser).1]
    exact taken.table
  have fits := entry_lt (show 7 < PGSIZE by decide) low
  have set := taken.dir.setEntry (userpage_table isUser).2.2 tablePresent fits
    (fun _ _ => by rw [PTE_ADDR_entry r (by decide)]; exact role)
  rw [← isT] at set
  have others : forall p, owner p ≠ .free -> u.mem p = s.mem p := by
    intro p used
    rw [← filled]
    exact Vm.withPage_mem_of_ne _ _ (fun same => used (by rw [same]; exact isFree))
  have before := space.dir.kept (t := u) (fun _ _ => rfl) (fun p structural => others p (by
    rcases structural with self | ⟨i, table⟩
    · rw [self]
      exact Role.noConfusion
    · rw [table]
      exact Role.noConfusion))
  generalize PTE_ADDR (pde u d (v / 1024)) = table at isT tableRole
  have notTable : forall p, Function.update owner r (.user d v) p ≠ .table d (v / 1024) ->
      t.mem p = u.mem p := by
    intro p different
    rw [isT]
    exact Vm.withPage_mem_of_ne _ _ (fun same => different (by rw [same]; exact tableRole))
  refine ⟨?_, fun w below different => ?_, fun w same => ?_, fun p => ?_,
    fun p used plain => ?_⟩
  · rw [notTable d (by rw [taken.dir.self]; exact Role.noConfusion)]
    exact others d (by rw [space.dir.self]; exact Role.noConfusion)
  · rw [set.2.2 w below, if_neg different]
    exact before.2.2 w below
  · subst same
    refine ⟨r, isFree, role, ?_, ?_⟩
    · rw [set.2.2 w (userpage_table isUser).2.2, if_pos rfl]
    · rw [notTable r (by rw [role]; exact Role.noConfusion), ← filled]
      exact Vm.withPage_mem_self _ _ _
  · by_cases same : p = r
    · subst same
      refine Or.inr ⟨isFree, v, rfl, role, ?_⟩
      rw [set.2.2 v (userpage_table isUser).2.2, if_pos rfl]
    · exact Or.inl (Function.update_of_ne same _ _)
  · have notPage : p ≠ r := fun same => used (by rw [same]; exact isFree)
    rw [notTable p (by rw [Function.update_of_ne notPage]; exact plain _)]
    exact others p used

/-- Taking the first free page, filling it and mapping it. -/
theorem mapFree_added {image : Image} {owner : Nat -> Role} {s : Vm} {d r v : Nat}
    {pages : Nat -> Prop} (heap : Heap image owner s) (space : Space owner s d pages)
    (isUser : v < USERPAGES) (clear : ¬ pages v) {rest : List Nat} (head : s.freelist = r :: rest)
    (contents : Page) :
    Program.wp (mappages d (v * PGSIZE) PGSIZE r (PTE_W ||| PTE_U))
      (fun ok t => ok = true ∧ t.freelist = rest ∧
        BecameBy image owner s d (Function.update pages v True)
          (Added owner s d (fun w => w = v) (fun _ => contents)) t)
      (fun _ => False) (Vm.withPage { s with freelist := rest } r contents) := by
  have isFree : owner r = .free := (heap.free r).mp (by rw [head]; exact List.mem_cons_self)
  have small := (heap.page_pos (p := r) (by rw [isFree]; decide)).2
  have mapped := mappages_user (space.take (v := v) isFree contents rest) isUser
    (Function.update_self _ _ _) (by omega)
  refine Program.wp_mono (wp_both (Program.wp_mono mapped (fun _ _ => id)
    (fun _ stopped => clear stopped.2)) (mapNew_added space isUser isFree (by omega) rest contents))
    ?_ (fun _ => id)
  rintro ok t ⟨⟨isOk, _, within, sameList, now⟩, added⟩
  exact ⟨isOk, sameList, _, (heap.take head Role.noConfusion _ _).congr sameList,
    (Within.take isFree _ _ rest).trans within, now, added⟩

theorem allocPage_added {image : Image} {owner : Nat -> Role} {s : Vm} {d v : Nat}
    {pages : Nat -> Prop} (heap : Heap image owner s) (space : Space owner s d pages)
    (isUser : v < USERPAGES) (clear : ¬ pages v) :
    Program.wp (allocPage d (v * PGSIZE))
      (fun ok t => if ok then BecameBy image owner s d (Function.update pages v True)
          (Added owner s d (fun w => w = v) (fun _ => Bytes.fill 0)) t
        else t = s)
      (fun _ => False) s := by
  unfold allocPage
  rw [Program.wp_bind]
  refine kalloc_wp (fun _ => ?_) (fun r rest head => ?_)
  · rw [Program.wp_pure, if_neg Bool.false_ne_true]
  · rw [Program.wp_bind, storePage_wp]
    refine Program.wp_seq (mapFree_added heap space isUser clear head (Bytes.fill 0)) ?_
    rintro _ t ⟨_, _, became⟩
    rw [Program.wp_pure, if_pos rfl]
    exact became

/-! ## Unmapping -/

/-- Clearing the entry of a page and giving back the page behind it. -/
theorem Removed.of_free {owner : Nat -> Role} {s t : Vm} {d r v table : Nat} {pages : Nat -> Prop}
    (space : Space owner s d pages) (isUser : v < USERPAGES)
    (present : Present (pte s d v)) (isTable : PTE_ADDR (pde s d (v / 1024)) = table)
    (frame : PTE_ADDR (pte s d v) = r)
    (memory : t.mem = ((s.withPage table ((s.mem table).setWord (v % 1024) 0)).withPage r
      (Bytes.fill 1)).mem) :
    Removed owner s d (fun w => w = v) (Function.update owner r .free) t := by
  have role : owner r = .user d v := by
    rw [← frame]
    exact space.dir.user v isUser present
  have tableRole : owner table = .table d (v / 1024) := by
    rw [← isTable]
    exact space.tableRole isUser
  have tablePresent : Present (pde s d (v / 1024)) := by
    rw [(userpage_table isUser).1]
    exact space.table
  have set := space.dir.setEntry (userpage_table isUser).2.2 tablePresent
    (show 0 < 2 ^ 32 by decide) (fun _ impossible => absurd impossible not_present_zero)
  rw [isTable] at set
  generalize cleared : s.withPage table ((s.mem table).setWord (v % 1024) 0) = u at memory set
  have kept : forall p, p ≠ r -> t.mem p = u.mem p := by
    intro p different
    rw [memory]
    exact Vm.withPage_mem_of_ne _ _ different
  have untouched : forall p, p ≠ r -> owner p ≠ .table d (v / 1024) -> t.mem p = s.mem p := by
    intro p notPage notTable
    rw [kept p notPage, ← cleared]
    exact Vm.withPage_mem_of_ne _ _ (fun same => notTable (by rw [same]; exact tableRole))
  have entries := (set.1.kept (t := t) (fun _ _ => rfl) (fun p structural => kept p (fun same => by
    rw [same, role] at structural
    rcases structural with self | ⟨i, isTable⟩
    · cases self
    · cases isTable))).2.2
  refine ⟨untouched d (fun same => ?_) (by rw [space.dir.self]; exact Role.noConfusion),
    fun w below different => ?_, fun w same => ?_, fun w same _ => ?_, fun p => ?_,
    fun p used notTable => untouched p (fun same => used ?_) (notTable _)⟩
  · have self := space.dir.self
    rw [same, role] at self
    cases self
  · rw [entries w below, set.2.2 w below, if_neg different]
  · rw [same, entries v (userpage_table isUser).2.2, set.2.2 v (userpage_table isUser).2.2,
      if_pos rfl]
  · rw [same, frame]
    exact Function.update_self _ _ _
  · by_cases same : p = r
    · rw [same]
      exact Or.inr ⟨Function.update_self _ _ _, v, rfl, present, frame⟩
    · exact Or.inl (Function.update_of_ne same _ _)
  · rw [same]
    exact Function.update_self _ _ _

theorem freePage_removed {image : Image} {owner : Nat -> Role} {s : Vm} {d v : Nat}
    {pages : Nat -> Prop} (heap : Heap image owner s) (space : Space owner s d pages)
    (isUser : v < USERPAGES) :
    Program.wp (freePage image d (v * PGSIZE))
      (fun _ t => BecameBy image owner s d (Function.update pages v False)
        (Removed owner s d (fun w => w = v)) t)
      (fun _ => False) s := by
  refine Program.wp_mono (freePage_freed heap space isUser) ?_ (fun _ => id)
  intro _ t outcome
  by_cases present : Present (pte s d v)
  · rw [if_pos present] at outcome
    exact ⟨_, outcome.heap, outcome.within, outcome.space,
      Removed.of_free space isUser present rfl rfl outcome.memory⟩
  · rw [if_neg present] at outcome
    subst outcome
    have absent : ¬ pages v := fun mapped => present ((space.user v isUser).mpr mapped)
    refine ⟨owner, heap, Within.refl d owner t, space.congr (fun w _ => ?_),
      Removed.refl owner t d (fun w same => by rw [same]; exact space.zero v isUser absent)⟩
    by_cases same : w = v
    · rw [same, Function.update_self]
      exact iff_of_false absent id
    · rw [Function.update_of_ne same]

/-- The loop of `deallocuvm`. -/
theorem freePages_removed {image : Image} {d : Nat} (count : Nat) :
    forall {owner : Nat -> Role} {s : Vm} {v : Nat} {pages : Nat -> Prop},
      Heap image owner s -> Space owner s d pages -> v + count ≤ USERPAGES ->
      Program.wp (freePages image d count (v * PGSIZE))
        (fun _ t => BecameBy image owner s d (fun w => pages w ∧ ¬ (v ≤ w ∧ w < v + count))
          (Removed owner s d (fun w => v ≤ w ∧ w < v + count)) t)
        (fun _ => False) s := by
  induction count with
  | zero =>
      intro owner s v pages heap space _
      rw [freePages, Program.wp_pure]
      refine ⟨owner, heap, Within.refl d owner s, space.congr (fun w _ => ?_),
        Removed.refl owner s d (fun w inside => by omega)⟩
      exact ⟨fun mapped => ⟨mapped, by omega⟩, And.left⟩
  | succ count ih =>
      intro owner s v pages heap space high
      have next : v * PGSIZE + PGSIZE = (v + 1) * PGSIZE := (Nat.succ_mul v PGSIZE).symm
      rw [freePages, next]
      refine Program.wp_seq (freePage_removed heap space (by omega)) ?_
      rintro _ t ⟨middle, middleHeap, within, middleSpace, removed⟩
      refine Program.wp_mono (ih middleHeap middleSpace (by omega)) ?_ (fun _ => id)
      rintro _ u ⟨after, restHeap, restWithin, restSpace, restRemoved⟩
      refine ⟨after, restHeap, within.trans restWithin, restSpace.congr (fun w _ => ?_),
        removed.trans restRemoved (fun w => ?_) (fun w same => ?_) (fun w inside => ?_)⟩
      · by_cases same : w = v
        · rw [same, Function.update_self]
          exact iff_of_false (fun both => both.1) (fun both => both.2 (by omega))
        · rw [Function.update_of_ne same]
          refine and_congr_right (fun _ => not_congr ?_)
          omega
      · omega
      · omega
      · simp only [USERPAGES, USERTOP, PGSIZE] at high
        omega

/-- `deallocuvm` removes the pages between the two sizes. -/
theorem deallocuvm_removed {image : Image} {owner : Nat -> Role} {s : Vm} {d oldsz newsz : Nat}
    {pages : Nat -> Prop} (heap : Heap image owner s) (space : Space owner s d pages)
    (low : oldsz ≤ USERTOP) :
    Program.wp (deallocuvm image d oldsz newsz)
      (fun result t => result = min oldsz newsz ∧
        BecameBy image owner s d (fun w => pages w ∧ ¬ Between newsz oldsz w)
          (Removed owner s d (Between newsz oldsz)) t)
      (fun _ => False) s := by
  unfold deallocuvm
  by_cases grows : oldsz ≤ newsz
  · have order := ceilPage_mono grows
    have empty : forall w, ¬ Between newsz oldsz w := by
      rintro w ⟨lower, upper⟩
      omega
    rw [if_pos grows]
    exact ⟨(Nat.min_eq_left grows).symm, owner, heap, Within.refl d owner s,
      space.congr (fun w _ => ⟨fun mapped => ⟨mapped, empty w⟩, And.left⟩),
      Removed.refl owner s d (fun w inside => absurd inside (empty w))⟩
  · have lower : newsz ≤ oldsz := by omega
    have order := ceilPage_mono lower
    have high := ceilPage_le_userpages low
    have range : (fun w => ceilPage newsz ≤ w ∧
        w < ceilPage newsz + (ceilPage oldsz - ceilPage newsz)) = Between newsz oldsz := by
      funext w
      rw [Nat.add_sub_cancel' order]
      exact rfl
    have removed := freePages_removed (ceilPage oldsz - ceilPage newsz) (v := ceilPage newsz) heap
      space (by omega)
    rw [range] at removed
    rw [if_neg grows, PGROUNDUP_eq (Nat.le_trans lower low), pagesBelow_eq]
    refine Program.wp_seq removed ?_
    rintro _ t became
    rw [Program.wp_pure]
    refine ⟨(Nat.min_eq_right lower).symm, ?_⟩
    have pages_ : (fun w => pages w ∧ ¬ (ceilPage newsz ≤ w ∧
        w < ceilPage newsz + (ceilPage oldsz - ceilPage newsz))) =
        fun w => pages w ∧ ¬ Between newsz oldsz w := by
      funext w
      exact congrArg (fun inside => pages w ∧ ¬ inside) (congrFun range w)
    rw [pages_] at became
    exact became

/-! ## The loop of `allocuvm` -/

/-- The loop of `allocuvm`, from the page `v` on, when nothing is mapped there. -/
theorem allocPages_added {image : Image} {d oldsz newsz : Nat} (low : newsz ≤ USERTOP)
    (count : Nat) :
    forall {owner : Nat -> Role} {s : Vm} {v : Nat} {pages : Nat -> Prop},
      Heap image owner s -> Space owner s d pages -> ceilPage oldsz ≤ v ->
      v + count = ceilPage newsz -> (forall w, v ≤ w -> w < ceilPage newsz -> ¬ pages w) ->
      Program.wp (allocPages image d oldsz newsz count (v * PGSIZE))
        (fun result t =>
          (result = newsz ∧ BecameBy image owner s d
            (fun w => pages w ∨ (v ≤ w ∧ w < ceilPage newsz))
            (Added owner s d (fun w => v ≤ w ∧ w < ceilPage newsz) (fun _ => Bytes.fill 0)) t) ∨
          (result = 0 ∧ BecameBy image owner s d (fun w => pages w ∧ ¬ Between oldsz newsz w)
            (Removed owner s d (Between oldsz newsz)) t))
        (fun _ => False) s := by
  have high := ceilPage_le_userpages low
  induction count with
  | zero =>
      intro owner s v pages heap space _ last _
      have empty : forall w, ¬ (v ≤ w ∧ w < ceilPage newsz) := by omega
      rw [allocPages, Program.wp_pure]
      exact Or.inl ⟨rfl, owner, heap, Within.refl d owner s,
        space.congr (fun w _ => ⟨Or.inl, fun either => either.resolve_right (empty w)⟩),
        Added.refl owner s d empty _⟩
  | succ count ih =>
      intro owner s v pages heap space above last clear
      have next : v * PGSIZE + PGSIZE = (v + 1) * PGSIZE := (Nat.succ_mul v PGSIZE).symm
      have isUser : v < USERPAGES := by omega
      have clearHere : ¬ pages v := clear v (Nat.le_refl v) (by omega)
      rw [allocPages, next]
      refine Program.wp_seq (allocPage_added heap space isUser clearHere) ?_
      intro ok t outcome
      cases ok with
      | false =>
          rw [if_neg Bool.false_ne_true] at outcome ⊢
          subst outcome
          refine Program.wp_seq (deallocuvm_removed heap space low) ?_
          rintro _ u ⟨_, became⟩
          exact Or.inr ⟨rfl, became⟩
      | true =>
          rw [if_pos rfl] at outcome ⊢
          rcases outcome with ⟨middle, middleHeap, within, middleSpace, added⟩
          refine Program.wp_mono (ih middleHeap middleSpace (by omega) (by omega)
            (fun w lower upper => ?_)) ?_ (fun _ => id)
          · rw [Function.update_of_ne (by omega)]
            exact clear w (by omega) upper
          · rintro result u (⟨isNew, after, restHeap, restWithin, restSpace, restAdded⟩ |
              ⟨isZero, after, restHeap, restWithin, restSpace, restRemoved⟩)
            · refine Or.inl ⟨isNew, after, restHeap, within.trans restWithin,
                restSpace.congr (fun w _ => ?_),
                added.trans restAdded (fun w => ?_) (fun w same => ?_) (fun w inside => ?_)⟩
              · by_cases same : w = v
                · rw [same, Function.update_self]
                  exact iff_of_true (Or.inl trivial) (Or.inr (by omega))
                · rw [Function.update_of_ne same]
                  refine or_congr_right ?_
                  omega
              · omega
              · omega
              · simp only [USERPAGES, USERTOP, PGSIZE] at high
                omega
            · refine Or.inr ⟨isZero, after, restHeap, within.trans restWithin,
                restSpace.congr (fun w _ => ?_),
                added.undone restRemoved (fun w same => ?_) (fun w same => ?_) (fun w inside => ?_)⟩
              · by_cases same : w = v
                · have inside : Between oldsz newsz v := ⟨above, by omega⟩
                  rw [same]
                  exact iff_of_false (fun both => both.2 inside) (fun both => both.2 inside)
                · rw [Function.update_of_ne same]
              · rw [same]
                exact ⟨above, by omega⟩
              · rw [same]
                exact space.zero v isUser clearHere
              · have upper := inside.2
                simp only [USERPAGES, USERTOP, PGSIZE] at high
                omega

/-- `allocuvm` on a range where nothing is mapped adds all of it or removes what it
had added. -/
theorem allocuvm_added {image : Image} {owner : Nat -> Role} {s : Vm} {d oldsz newsz : Nat}
    {pages : Nat -> Prop} (heap : Heap image owner s) (space : Space owner s d pages)
    (low : newsz ≤ USERTOP) (grows : oldsz ≤ newsz)
    (clear : forall w, Between oldsz newsz w -> ¬ pages w) :
    Program.wp (allocuvm image d oldsz newsz)
      (fun result t =>
        (result = newsz ∧ BecameBy image owner s d (fun w => pages w ∨ Between oldsz newsz w)
          (Added owner s d (Between oldsz newsz) (fun _ => Bytes.fill 0)) t) ∨
        (result = 0 ∧ BecameBy image owner s d (fun w => pages w ∧ ¬ Between oldsz newsz w)
          (Removed owner s d (Between oldsz newsz)) t))
      (fun _ => False) s := by
  have order := ceilPage_mono grows
  unfold allocuvm
  rw [if_neg (Nat.not_lt.mpr low), if_neg (Nat.not_lt.mpr grows),
    PGROUNDUP_eq (Nat.le_trans grows low), pagesBelow_eq]
  exact allocPages_added low _ heap space (Nat.le_refl _) (by omega)
    (fun w lower upper => clear w ⟨lower, upper⟩)

/-! ## All or nothing -/

/-- Every entry of the page table `d` is the same, except those of `range`. -/
def SameEntries (d : Nat) (range : Nat -> Prop) (s t : Vm) : Prop :=
  (forall i, pde t d i = pde s d i) ∧ forall w, w < 2 ^ 20 -> ¬ range w -> pte t d w = pte s d w

/-- The pages of `range` are mapped for user code, to different pages filled with
zeros, and exactly these have left the free list. -/
structure Mapped (s t : Vm) (d : Nat) (range : Nat -> Prop) : Prop where
  frames : forall w, range w -> Exists fun frame => frame ∈ s.freelist ∧
    pte t d w = frame * PGSIZE ||| PTE_P ||| PTE_W ||| PTE_U ∧ t.mem frame = Bytes.fill 0
  distinct : forall v w, range v -> range w -> PTE_ADDR (pte t d v) = PTE_ADDR (pte t d w) -> v = w
  free : forall p, p ∈ t.freelist ↔
    p ∈ s.freelist ∧ ¬ Exists fun w => range w ∧ PTE_ADDR (pte t d w) = p

/-- The page table and the free pages are as before. -/
def RolledBack (s t : Vm) (d : Nat) : Prop :=
  SameEntries d (fun _ => False) s t ∧ SameFree s.freelist t.freelist

/-- The other page tables are as before. -/
def OthersKept (owner : Nat -> Role) (s t : Vm) (d : Nat) : Prop :=
  forall e, e ≠ d -> Dir owner s e -> forall w, w < 2 ^ 20 -> pte t e w = pte s e w

theorem Added.mapped {image : Image} {owner after : Nat -> Role} {s t : Vm} {d : Nat}
    {range : Nat -> Prop} (added : Added owner s d range (fun _ => Bytes.fill 0) after t)
    (heap : Heap image owner s) (nextHeap : Heap image after t) : Mapped s t d range := by
  refine ⟨fun w inside => ?_, fun v w inV inW same => ?_, fun p => ?_⟩
  · rcases added.frames w inside with ⟨r, free, _, entry, filled⟩
    refine ⟨r, (heap.free r).mpr free, ?_, filled⟩
    rw [entry, Nat.or_assoc, Nat.or_assoc]
    rfl
  · rcases added.frames v inV with ⟨r, _, role, entry, _⟩
    rcases added.frames w inW with ⟨q, _, otherRole, otherEntry, _⟩
    rw [entry, otherEntry, PTE_ADDR_entry r (by decide), PTE_ADDR_entry q (by decide)] at same
    rw [same, otherRole] at role
    exact (Role.user.inj role).2.symm
  · rw [nextHeap.free, heap.free]
    constructor
    · intro free
      rcases added.role p with same | ⟨_, w, _, role, _⟩
      · refine ⟨same ▸ free, ?_⟩
        rintro ⟨w, inside, frame⟩
        rcases added.frames w inside with ⟨r, _, role, entry, _⟩
        rw [entry, PTE_ADDR_entry r (by decide)] at frame
        rw [frame, free] at role
        cases role
      · rw [role] at free
        cases free
    · rintro ⟨free, untaken⟩
      rcases added.role p with same | ⟨_, w, inside, _, entry⟩
      · exact same.trans free
      · refine absurd ⟨w, inside, ?_⟩ untaken
        rw [entry, PTE_ADDR_entry p (by decide)]

theorem Added.sameEntries {owner after : Nat -> Role} {s t : Vm} {d : Nat} {range : Nat -> Prop}
    {contents : Nat -> Page} (added : Added owner s d range contents after t) :
    SameEntries d range s t :=
  ⟨fun i => by rw [pde, pde, added.directory], added.entries⟩

theorem Removed.sameEntries {owner after : Nat -> Role} {s t : Vm} {d : Nat} {range : Nat -> Prop}
    (removed : Removed owner s d range after t) : SameEntries d range s t :=
  ⟨fun i => by rw [pde, pde, removed.directory], removed.entries⟩

/-- Removing a range where nothing was mapped. -/
theorem Removed.rolledBack {image : Image} {owner after : Nat -> Role} {s t : Vm} {d : Nat}
    {range : Nat -> Prop} (removed : Removed owner s d range after t)
    (clear : forall w, range w -> pte s d w = 0) (heap : Heap image owner s)
    (nextHeap : Heap image after t) : RolledBack s t d := by
  rcases removed.nothing clear with ⟨role, entries⟩
  refine ⟨⟨removed.sameEntries.1, fun w below _ => entries w below⟩, fun p => ?_⟩
  rw [nextHeap.free, heap.free, role]

theorem Within.othersKept {d : Nat} {owner after : Nat -> Role} {s t : Vm}
    (within : Within d owner after s t) : OthersKept owner s t d := by
  intro e different dir
  have untouched : forall r : Role, r.Of e -> ¬ (r = .free ∨ r.Of d) :=
    fun _ => Role.Of.untouched different.symm
  refine (dir.kept (fun p mine => within.framed.role p (untouched _ mine)) (fun p structural =>
    within.framed.contents p (untouched _ ?_))).2.2
  rcases structural with self | ⟨i, table⟩
  · rw [self]
    exact rfl
  · rw [table]
    exact rfl

/-- `allocuvm` maps the whole range, or it returns 0 with the page table and the
free pages as before.  `Space` holds of every page table that `setupkvm` has built,
and the operations on user memory keep it. -/
theorem allocuvm_all_or_nothing {image : Image} {owner : Nat -> Role} {s : Vm} {d oldsz newsz : Nat}
    {pages : Nat -> Prop} (heap : Heap image owner s) (space : Space owner s d pages)
    (low : newsz ≤ USERTOP) (grows : oldsz ≤ newsz)
    (absent : forall w, Between oldsz newsz w -> ¬ Present (pte s d w)) :
    Exists fun result => Exists fun t => allocuvm image d oldsz newsz s = .done result t ∧
      OthersKept owner s t d ∧
      ((result = newsz ∧ Mapped s t d (Between oldsz newsz) ∧
          SameEntries d (Between oldsz newsz) s t) ∨
        (result = 0 ∧ RolledBack s t d)) := by
  have high := ceilPage_le_userpages low
  have clear : forall w, Between oldsz newsz w -> ¬ pages w := by
    intro w inside mapped
    exact absent w inside ((space.user w (Nat.lt_of_lt_of_le inside.2 high)).mpr mapped)
  refine Program.exists_done_of_wp (Program.wp_mono
    (allocuvm_added heap space low grows clear) ?_ (fun _ => id))
  rintro result t (⟨isNew, after, nextHeap, within, _, added⟩ |
    ⟨isZero, after, nextHeap, within, _, removed⟩)
  · exact ⟨within.othersKept, Or.inl ⟨isNew, added.mapped heap nextHeap, added.sameEntries⟩⟩
  · exact ⟨within.othersKept, Or.inr ⟨isZero, removed.rolledBack (fun w inside =>
      space.zero w (Nat.lt_of_lt_of_le inside.2 high) (clear w inside)) heap nextHeap⟩⟩

/-- With fourteen free pages, four more pages are mapped, and 31 more pages are not. -/
theorem allocuvm_all_or_nothing_grownStack :
    (Exists fun t =>
      allocuvm smallKernel grownStack.proc.pgdir 0x1800 0x5800 grownStack = .done 0x5800 t ∧
      OthersKept grownStackOwner grownStack t grownStack.proc.pgdir ∧
      Mapped grownStack t grownStack.proc.pgdir (Between 0x1800 0x5800) ∧
      SameEntries grownStack.proc.pgdir (Between 0x1800 0x5800) grownStack t) ∧
    (Exists fun t =>
      allocuvm smallKernel grownStack.proc.pgdir 0x1800 0x20800 grownStack = .done 0 t ∧
      OthersKept grownStackOwner grownStack t grownStack.proc.pgdir ∧
      RolledBack grownStack t grownStack.proc.pgdir) := by
  have absent : forall newsz, newsz ≤ 0x9E000 -> forall w, Between 0x1800 newsz w ->
      ¬ Present (pte grownStack grownStack.proc.pgdir w) := by
    intro newsz high w inside
    simp only [Between, ceilPage, PGSIZE] at inside
    exact grownStack_absent (by omega)
  constructor
  · rcases allocuvm_all_or_nothing grownStack_heap grownStack_space
      (show 0x5800 ≤ USERTOP by decide) (show 0x1800 ≤ 0x5800 by decide) (absent _ (by decide)) with
      ⟨result, t, ran, kept, ⟨rfl, mapped, same⟩ | ⟨rfl, _⟩⟩
    · exact ⟨t, ran, kept, mapped, same⟩
    · cases Program.post_of_done (allocuvm_wp grownStack_heap grownStack_space) ran with
      | tooLarge high => exact absurd high (by decide)
      | outOfMemory _ _ _ few => exact absurd few (by decide)
  · rcases allocuvm_all_or_nothing grownStack_heap grownStack_space
      (show 0x20800 ≤ USERTOP by decide) (show 0x1800 ≤ 0x20800 by decide)
      (absent _ (by decide)) with
      ⟨result, t, ran, kept, ⟨rfl, _⟩ | ⟨rfl, rolledBack⟩⟩
    · cases Program.post_of_done (allocuvm_wp grownStack_heap grownStack_space) ran with
      | grown _ _ _ _ sum =>
          have total : grownStack.freelist.length = 14 := List.length_range'
          have pages : ceilPage 0x20800 - ceilPage 0x1800 = 31 := by decide
          omega
    · exact ⟨t, ran, kept, rolledBack⟩

end AddressSpace
end OsProjects
