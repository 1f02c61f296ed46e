import Mathlib.Data.Nat.Count
import OsProjects.AddressSpace.Process

namespace OsProjects
namespace AddressSpace

open Machine

/-!
# Counting pages

A page that an address space has mapped is not on the free list, and operations
on the user part of an address space move pages between the two.  `Steady` says
that such an operation loses no page: the number of free pages plus the number of
mapped ones stays the same, and the directory with its tables is not touched.
`freevm` then returns as many pages as the address space has.
-/

/-- The user pages that an address space has mapped. -/
def userPages (s : Vm) (d : Nat) : Finset Nat :=
  (Finset.range USERPAGES).filter (fun v => Present (pte s d v))

theorem mem_userPages {s : Vm} {d v : Nat} :
    v ∈ userPages s d ↔ v < USERPAGES ∧ Present (pte s d v) := by
  simp only [userPages, Finset.mem_filter, Finset.mem_range]

/-- The free pages and the pages behind the user entries of `d`. -/
def pool (s : Vm) (d : Nat) : Finset Nat :=
  s.freelist.toFinset ∪ (userPages s d).image (fun v => PTE_ADDR (pte s d v))

theorem mem_pool {s : Vm} {d p : Nat} :
    p ∈ pool s d ↔
      p ∈ s.freelist ∨ Exists fun v => v ∈ userPages s d ∧ PTE_ADDR (pte s d v) = p := by
  simp only [pool, Finset.mem_union, List.mem_toFinset, Finset.mem_image]

/-- No page is lost between the free list and the user part of `d`. -/
structure Steady (d : Nat) (s t : Vm) : Prop where
  directory : t.mem d = s.mem d
  balance : t.freelist.length + (userPages t d).card = s.freelist.length + (userPages s d).card
  pool : pool t d = pool s d

theorem Steady.refl (d : Nat) (s : Vm) : Steady d s s := ⟨rfl, rfl, rfl⟩

theorem Steady.trans {d : Nat} {s t u : Vm} (first : Steady d s t) (second : Steady d t u) :
    Steady d s u :=
  ⟨second.directory.trans first.directory, second.balance.trans first.balance,
    second.pool.trans first.pool⟩

/-- The entries of user pages outside a range are the same. -/
def SameOutside (d : Nat) (range : Nat -> Prop) (s t : Vm) : Prop :=
  forall w, w < USERPAGES -> ¬ range w -> pte t d w = pte s d w

theorem SameOutside.refl (d : Nat) (range : Nat -> Prop) (s : Vm) : SameOutside d range s s :=
  fun _ _ _ => rfl

theorem SameOutside.trans {d : Nat} {range : Nat -> Prop} {s t u : Vm}
    (first : SameOutside d range s t) (second : SameOutside d range t u) :
    SameOutside d range s u :=
  fun w below outside => (second w below outside).trans (first w below outside)

theorem SameOutside.mono {d : Nat} {range wider : Nat -> Prop} {s t : Vm}
    (same : SameOutside d range s t) (within : forall w, range w -> wider w) :
    SameOutside d wider s t :=
  fun w below outside => same w below (fun inside => outside (within w inside))

theorem SameOutside.symm {d : Nat} {range : Nat -> Prop} {s t : Vm}
    (same : SameOutside d range s t) : SameOutside d range t s :=
  fun w below outside => (same w below outside).symm

/-- The same entries are mapped. -/
theorem SameOutside.mem_userPages {d w : Nat} {range : Nat -> Prop} {s t : Vm}
    (same : SameOutside d range s t) (outside : ¬ range w) :
    w ∈ userPages t d ↔ w ∈ userPages s d := by
  rw [AddressSpace.mem_userPages, AddressSpace.mem_userPages]
  refine and_congr_right (fun below => ?_)
  rw [same w below outside]

/-- A page moves from the free list to the entry of `v`. -/
theorem pool_move {d v r : Nat} {s t : Vm} (elsewhere : SameOutside d (fun w => w = v) s t)
    (clear : v ∉ userPages s d) (mapped : v ∈ userPages t d) (frame : PTE_ADDR (pte t d v) = r)
    (lists : forall p, p ∈ s.freelist ↔ p = r ∨ p ∈ t.freelist) : pool t d = pool s d := by
  ext p
  rw [mem_pool, mem_pool, lists]
  constructor
  · rintro (free | ⟨w, member, isFrame⟩)
    · exact Or.inl (Or.inr free)
    · by_cases same : w = v
      · rw [same, frame] at isFrame
        exact Or.inl (Or.inl isFrame.symm)
      · have before := (elsewhere.mem_userPages same).mp member
        rw [elsewhere w (mem_userPages.mp before).1 same] at isFrame
        exact Or.inr ⟨w, before, isFrame⟩
  · rintro ((isPage | free) | ⟨w, member, isFrame⟩)
    · exact Or.inr ⟨v, mapped, frame.trans isPage.symm⟩
    · exact Or.inl free
    · have same : w ≠ v := fun same => clear (by rw [← same]; exact member)
      have now := (elsewhere.mem_userPages same).mpr member
      rw [← elsewhere w (mem_userPages.mp now).1 same] at isFrame
      exact Or.inr ⟨w, now, isFrame⟩

/-- Writing the entry of one user page keeps all other entries. -/
theorem SameOutside.of_setEntry {owner : Nat -> Role} {s t : Vm} {d v : Nat} {pages : Nat -> Prop}
    (space : Space owner s d pages) (isUser : v < USERPAGES) (directory : t.mem d = s.mem d)
    (entry : Nat) (written : t.mem (PTE_ADDR (pde s d (v / 1024))) =
      (s.mem (PTE_ADDR (pde s d (v / 1024)))).setWord (v % 1024) entry) :
    SameOutside d (fun w => w = v) s t := by
  intro w below different
  have first := userpage_table isUser
  have second := userpage_table below
  have sameDirectory : w / 1024 = v / 1024 := by rw [first.1, second.1]
  have present : Present (pde s d (w / 1024)) := by
    rw [second.1]
    exact space.table
  have sameEntry : pde t d (w / 1024) = pde s d (w / 1024) := by rw [pde, pde, directory]
  rw [pte_of_present present, pte_of_present (by rw [sameEntry]; exact present), sameEntry,
    sameDirectory, written, Bytes.word_setWord_of_ne _ _ (by omega)]

/-- Both specifications of a program that has two. -/
theorem wp_both {Value : Type} {program : VmProgram Value} {first second : Value -> Vm -> Prop}
    {escape other : Panic -> Prop} {s : Vm} (one : Program.wp program first escape s)
    (two : Program.wp program second other s) :
    Program.wp program (fun value t => first value t ∧ second value t) escape s := by
  unfold Program.wp at one two ⊢
  cases ended : program s with
  | done value t =>
      rw [ended] at one two
      exact ⟨one, two⟩
  | panic reason =>
      rw [ended] at one
      exact one

/-- A space whose user pages are the same has the same number of them. -/
theorem userPages_congr {s t : Vm} {d : Nat}
    (same : forall v, v < USERPAGES -> (Present (pte t d v) ↔ Present (pte s d v))) :
    userPages t d = userPages s d := by
  ext v
  rw [mem_userPages, mem_userPages]
  exact and_congr_right (same v)

/-- Mapping one more page. -/
theorem userPages_insert {owner after : Nat -> Role} {s t : Vm} {d v : Nat} {pages : Nat -> Prop}
    (before : Space owner s d pages) (now : Space after t d (Function.update pages v True))
    (isUser : v < USERPAGES) : userPages t d = insert v (userPages s d) := by
  ext w
  rw [Finset.mem_insert, mem_userPages, mem_userPages]
  by_cases same : w = v
  · subst same
    rw [now.user w isUser, Function.update_self]
    exact iff_of_true ⟨isUser, trivial⟩ (Or.inl rfl)
  · constructor
    · rintro ⟨below, present⟩
      rw [now.user w below, Function.update_of_ne same] at present
      exact Or.inr ⟨below, (before.user w below).mpr present⟩
    · rintro (impossible | ⟨below, present⟩)
      · exact absurd impossible same
      · refine ⟨below, ?_⟩
        rw [now.user w below, Function.update_of_ne same]
        exact (before.user w below).mp present

/-- Unmapping a page. -/
theorem userPages_erase {owner after : Nat -> Role} {s t : Vm} {d v : Nat} {pages : Nat -> Prop}
    (before : Space owner s d pages) (now : Space after t d (Function.update pages v False)) :
    userPages t d = (userPages s d).erase v := by
  ext w
  rw [Finset.mem_erase, mem_userPages, mem_userPages]
  by_cases same : w = v
  · subst same
    refine iff_of_false (fun both => ?_) (fun both => both.1 rfl)
    have mapped := (now.user w both.1).mp both.2
    rw [Function.update_self] at mapped
    exact mapped
  · constructor
    · rintro ⟨below, present⟩
      rw [now.user w below, Function.update_of_ne same] at present
      exact ⟨same, below, (before.user w below).mpr present⟩
    · rintro ⟨_, below, present⟩
      refine ⟨below, ?_⟩
      rw [now.user w below, Function.update_of_ne same]
      exact (before.user w below).mp present

/-- A page that was free is mapped. -/
theorem Steady.of_map {owner after : Nat -> Role} {s t : Vm} {d v : Nat} {pages : Nat -> Prop}
    (before : Space owner s d pages) (now : Space after t d (Function.update pages v True))
    (isUser : v < USERPAGES) (clear : ¬ pages v) (directory : t.mem d = s.mem d)
    (elsewhere : SameOutside d (fun w => w = v) s t) {r : Nat} (frame : PTE_ADDR (pte t d v) = r)
    (head : s.freelist = r :: t.freelist) : Steady d s t := by
  have absent : v ∉ userPages s d := fun member =>
    clear ((before.user v isUser).mp (mem_userPages.mp member).2)
  have inserted := userPages_insert before now isUser
  refine ⟨directory, ?_, pool_move elsewhere absent ?_ frame (fun p => ?_)⟩
  · rw [inserted, Finset.card_insert_of_notMem absent, head, List.length_cons]
    omega
  · rw [inserted]
    exact Finset.mem_insert_self v _
  · rw [head, List.mem_cons]

/-! ## Unmapping -/

/-- The free list after an iteration of `deallocuvm`. -/
theorem freePage_length {image : Image} {owner : Nat -> Role} {s : Vm} {d v : Nat}
    {pages : Nat -> Prop} (heap : Heap image owner s) (space : Space owner s d pages)
    (isUser : v < USERPAGES) :
    Program.wp (freePage image d (v * PGSIZE))
      (fun _ t => t.mem d = s.mem d ∧ SameOutside d (fun w => w = v) s t ∧
        (pages v -> t.freelist = PTE_ADDR (pte s d v) :: s.freelist) ∧ (¬ pages v -> t = s))
      (fun _ => False) s := by
  refine Program.wp_mono (freePage_freed heap space isUser) ?_ (fun _ => id)
  intro _ t outcome
  by_cases present : Present (pte s d v)
  · rw [if_pos present] at outcome
    have role := space.dir.user v isUser present
    have tableRole := space.tableRole isUser
    have memory := outcome.memory
    have notTable : d ≠ PTE_ADDR (pde s d (v / 1024)) := by
      intro same
      rw [← same, space.dir.self] at tableRole
      cases tableRole
    have notPage : d ≠ PTE_ADDR (pte s d v) := by
      intro same
      rw [← same, space.dir.self] at role
      cases role
    have different : PTE_ADDR (pde s d (v / 1024)) ≠ PTE_ADDR (pte s d v) := by
      intro same
      rw [same, role] at tableRole
      cases tableRole
    have directory : t.mem d = s.mem d := by
      rw [memory, Vm.withPage_mem_of_ne _ _ notPage]
      exact Vm.withPage_mem_of_ne _ _ notTable
    refine ⟨directory, SameOutside.of_setEntry space isUser directory 0 ?_,
      fun _ => outcome.freelist, fun clear => absurd ((space.user v isUser).mp present) clear⟩
    rw [memory, Vm.withPage_mem_of_ne _ _ different]
    exact Vm.withPage_mem_self _ _ _
  · rw [if_neg present] at outcome
    subst outcome
    exact ⟨rfl, SameOutside.refl d _ t,
      fun mapped => absurd ((space.user v isUser).mpr mapped) present, fun _ => rfl⟩

theorem freePage_steady {image : Image} {owner : Nat -> Role} {s : Vm} {d v : Nat}
    {pages : Nat -> Prop} (heap : Heap image owner s) (space : Space owner s d pages)
    (isUser : v < USERPAGES) :
    Program.wp (freePage image d (v * PGSIZE))
      (fun _ t => Became image owner s d (Function.update pages v False) t ∧ Steady d s t ∧
        SameOutside d (fun w => w = v) s t)
      (fun _ => False) s := by
  refine Program.wp_mono (wp_both (freePage_wp heap space isUser)
    (freePage_length heap space isUser)) ?_ (fun _ stopped => stopped)
  rintro _ t ⟨⟨became, _⟩, directory, others, more, same⟩
  refine ⟨became, ?_, others⟩
  by_cases mapped : pages v
  · rcases became with ⟨after, _, _, now⟩
    have member : v ∈ userPages s d := mem_userPages.mpr ⟨isUser, (space.user v isUser).mpr mapped⟩
    have positive := Finset.card_pos.mpr ⟨v, member⟩
    have erased := userPages_erase space now
    refine ⟨directory, ?_, (pool_move others.symm ?_ member rfl (fun p => ?_)).symm⟩
    · rw [erased, Finset.card_erase_of_mem member, more mapped, List.length_cons]
      omega
    · rw [erased]
      exact Finset.notMem_erase v _
    · rw [more mapped, List.mem_cons]
  · rw [same mapped]
    exact Steady.refl d s

theorem freePages_steady {image : Image} {d : Nat} (count : Nat) :
    forall {owner : Nat -> Role} {s : Vm} {v : Nat} {pages : Nat -> Prop},
      Heap image owner s -> Space owner s d pages -> v + count ≤ USERPAGES ->
      Program.wp (freePages image d count (v * PGSIZE))
        (fun _ t => Steady d s t ∧ SameOutside d (fun w => v ≤ w ∧ w < v + count) s t)
        (fun _ => False) s := by
  induction count with
  | zero =>
      intro owner s v pages _ _ _
      rw [freePages, Program.wp_pure]
      exact ⟨Steady.refl d s, SameOutside.refl d _ s⟩
  | succ count ih =>
      intro owner s v pages heap space high
      have next : v * PGSIZE + PGSIZE = (v + 1) * PGSIZE := (Nat.succ_mul v PGSIZE).symm
      rw [freePages, next]
      refine Program.wp_seq (freePage_steady heap space (by omega)) ?_
      rintro _ t ⟨⟨middle, middleHeap, _, middleSpace⟩, steady, others⟩
      refine Program.wp_mono (ih middleHeap middleSpace (by omega)) ?_ (fun _ stopped => stopped)
      rintro _ u ⟨restSteady, restOthers⟩
      refine ⟨steady.trans restSteady, (others.mono ?_).trans (restOthers.mono ?_)⟩
      · intro w same
        omega
      · intro w inside
        omega

theorem deallocuvm_steady {image : Image} {owner : Nat -> Role} {s : Vm} {d oldsz newsz : Nat}
    {pages : Nat -> Prop} (heap : Heap image owner s) (space : Space owner s d pages)
    (low : oldsz ≤ USERTOP) :
    Program.wp (deallocuvm image d oldsz newsz)
      (fun _ t => Steady d s t ∧ SameOutside d (Between newsz oldsz) s t) (fun _ => False) s := by
  unfold deallocuvm
  by_cases grows : oldsz ≤ newsz
  · rw [if_pos grows]
    exact ⟨Steady.refl d s, SameOutside.refl d _ s⟩
  · have lower : newsz ≤ oldsz := by omega
    have order := ceilPage_mono lower
    have high := ceilPage_le_userpages low
    rw [if_neg grows, PGROUNDUP_eq (Nat.le_trans lower low), pagesBelow_eq]
    refine Program.wp_seq (freePages_steady _ heap space (by omega)) ?_
    rintro _ t ⟨steady, others⟩
    refine ⟨steady, others.mono (fun w inside => ⟨inside.1, ?_⟩)⟩
    have upper := inside.2
    omega

/-! ## Mapping -/

/-- What mapping more pages keeps of the pages that are mapped already. -/
structure Preserves (d : Nat) (s t : Vm) : Prop where
  directory : t.mem d = s.mem d
  entries : forall v, v < USERPAGES -> Present (pte s d v) -> pte t d v = pte s d v
  contents : forall v, v < USERPAGES -> Present (pte s d v) ->
    t.mem (PTE_ADDR (pte s d v)) = s.mem (PTE_ADDR (pte s d v))

theorem Preserves.refl (d : Nat) (s : Vm) : Preserves d s s :=
  ⟨rfl, fun _ _ _ => rfl, fun _ _ _ => rfl⟩

theorem Preserves.trans {d : Nat} {s t u : Vm} (first : Preserves d s t)
    (second : Preserves d t u) : Preserves d s u := by
  refine ⟨second.directory.trans first.directory, fun v isUser present => ?_,
    fun v isUser present => ?_⟩
  · have same := first.entries v isUser present
    rw [second.entries v isUser (by rw [same]; exact present), same]
  · have same := first.entries v isUser present
    have kept := second.contents v isUser (by rw [same]; exact present)
    rw [same] at kept
    rw [kept, first.contents v isUser present]

/-- `mappages` on one user page writes its entry and nothing else. -/
theorem mappages_user_state {owner : Nat -> Role} {s : Vm} {d r v : Nat} {pages : Nat -> Prop}
    (space : Space owner s d pages) (isUser : v < USERPAGES) :
    Program.wp (mappages d (v * PGSIZE) PGSIZE r (PTE_W ||| PTE_U))
      (fun _ t => t = s.withPage (PTE_ADDR (pde s d (v / 1024)))
        ((s.mem (PTE_ADDR (pde s d (v / 1024)))).setWord (v % 1024) (r * PGSIZE ||| 7)))
      (fun _ => True) s := by
  have single : mappages d (v * PGSIZE) PGSIZE r (PTE_W ||| PTE_U) =
      mapPages d (PTE_W ||| PTE_U) 1 (v * PGSIZE) r := by
    rw [← mappages_range Nat.one_pos (by have := (userpage_table isUser); omega), Nat.one_mul]
  rw [single, mapPages, Program.wp_bind]
  refine walkpgdir_user space isUser true ?_
  simp only [Program.wp_bind, Program.wp_read]
  by_cases present : Present ((s.mem (PTE_ADDR (pde s d (v / 1024)))).word (v % 1024))
  · rw [if_pos present]
    exact trivial
  · have entry : r * PGSIZE ||| (PTE_W ||| PTE_U) ||| PTE_P = r * PGSIZE ||| 7 := by
      rw [Nat.or_assoc]
      rfl
    rw [if_neg present, Program.wp_bind, storeWord_wp, entry, mapPages]
    exact rfl

/-- A new page and its entry leave all mapped pages alone. -/
theorem Preserves.of_map {owner : Nat -> Role} {s : Vm} {d r v : Nat} {pages : Nat -> Prop}
    (space : Space owner s d pages) (isUser : v < USERPAGES) (clear : ¬ pages v)
    (isFree : owner r = .free) (contents : Page) (rest : List Nat) {entry : Nat}
    (fits : entry < 2 ^ 32) {u t : Vm}
    (isU : u = Vm.withPage { s with freelist := rest } r contents)
    (isT : t = u.withPage (PTE_ADDR (pde u d (v / 1024)))
      ((u.mem (PTE_ADDR (pde u d (v / 1024)))).setWord (v % 1024) entry)) :
    Preserves d s t ∧ SameOutside d (fun w => w = v) s t ∧ pte t d v = entry ∧
    t.freelist = rest := by
  have tableRole := space.tableRole isUser
  have notFree : forall {p : Nat}, owner p ≠ .free -> u.mem p = s.mem p := by
    intro p used
    rw [isU]
    exact Vm.withPage_mem_of_ne _ _ (fun same => used (by rw [same]; exact isFree))
  have dirKept : u.mem d = s.mem d := notFree (by rw [space.dir.self]; exact Role.noConfusion)
  have sameTable : PTE_ADDR (pde u d (v / 1024)) = PTE_ADDR (pde s d (v / 1024)) := by
    rw [pde, pde, dirKept]
  rw [sameTable] at isT
  have tableKept := notFree (p := PTE_ADDR (pde s d (v / 1024)))
    (by rw [tableRole]; exact Role.noConfusion)
  have others : forall {p : Nat}, owner p ≠ .free -> p ≠ PTE_ADDR (pde s d (v / 1024)) ->
      t.mem p = s.mem p := by
    intro p used different
    rw [isT, Vm.withPage_mem_of_ne _ _ different]
    exact notFree used
  have dirSame : t.mem d = s.mem d := by
    refine others (by rw [space.dir.self]; exact Role.noConfusion) (fun same => ?_)
    rw [← same, space.dir.self] at tableRole
    cases tableRole
  have elsewhere : SameOutside d (fun w => w = v) s t := by
    refine SameOutside.of_setEntry space isUser dirSame entry ?_
    rw [isT, Vm.withPage_mem_self, tableKept]
  have tablePresent : Present (pde t d (v / 1024)) := by
    rw [pde, dirSame, (userpage_table isUser).1]
    exact space.table
  refine ⟨⟨dirSame, fun w below present => elsewhere w below (fun same => clear ?_),
    fun w below present => ?_⟩, elsewhere, ?_, ?_⟩
  · rw [← same]
    exact (space.user w below).mp present
  · have role := space.dir.user w below present
    refine others (by rw [role]; exact Role.noConfusion) (fun same => ?_)
    rw [same, tableRole] at role
    cases role
  · have sameEntry : pde t d (v / 1024) = pde s d (v / 1024) := by rw [pde, pde, dirSame]
    rw [pte_of_present tablePresent, sameEntry, isT, Vm.withPage_mem_self]
    exact Bytes.word_setWord_self _ (by simp only [PGSIZE]; omega) fits
  · rw [isT, isU]
    rfl

/-- Taking a page for the entry of `v`, filling it and mapping it. -/
theorem mapNew_wp {owner : Nat -> Role} {s : Vm} {d r v : Nat} {pages : Nat -> Prop}
    (space : Space owner s d pages) (isUser : v < USERPAGES) (isFree : owner r = .free)
    (low : r < 2 ^ 20) {rest : List Nat} (head : s.freelist = r :: rest) (contents : Page) :
    Program.wp (mappages d (v * PGSIZE) PGSIZE r (PTE_W ||| PTE_U))
      (fun _ t => Preserves d s t ∧ Steady d s t ∧ SameOutside d (fun w => w = v) s t)
      (fun _ => True) (Vm.withPage { s with freelist := rest } r contents) := by
  have taken : Space (Function.update owner r (.user d v))
      (Vm.withPage { s with freelist := rest } r contents) d pages :=
    space.take isFree contents rest
  refine Program.wp_mono (wp_both (mappages_user taken isUser (Function.update_self _ _ _) low)
    (mappages_user_state taken isUser)) ?_ (fun _ _ => trivial)
  rintro _ t ⟨⟨_, clear, _, _, now⟩, isT⟩
  rcases Preserves.of_map space isUser clear isFree contents rest
    (entry_lt (show 7 < PGSIZE by decide) low) rfl isT with ⟨preserves, elsewhere, entry, sameList⟩
  refine ⟨preserves, Steady.of_map space now isUser clear preserves.directory elsewhere
    (by rw [entry, PTE_ADDR_entry r (by decide)]) ?_, elsewhere⟩
  rw [sameList, head]

theorem allocPage_steady {image : Image} {owner : Nat -> Role} {s : Vm} {d v : Nat}
    {pages : Nat -> Prop} (heap : Heap image owner s) (space : Space owner s d pages)
    (isUser : v < USERPAGES) :
    Program.wp (allocPage d (v * PGSIZE))
      (fun _ t => Preserves d s t ∧ Steady d s t ∧ SameOutside d (fun w => w = v) s t)
      (fun _ => True) s := by
  unfold allocPage
  rw [Program.wp_bind]
  refine kalloc_wp (fun _ => ⟨Preserves.refl d s, Steady.refl d s, SameOutside.refl d _ s⟩)
    (fun r rest head => ?_)
  have isFree : owner r = .free := (heap.free r).mp (by rw [head]; exact List.mem_cons_self)
  have small := (heap.page_pos (p := r) (by rw [isFree]; decide)).2
  rw [Program.wp_bind, storePage_wp]
  refine Program.wp_seq (mapNew_wp space isUser isFree (by omega) head (Bytes.fill 0)) ?_
  intro _ t mapped
  exact mapped

theorem allocPages_steady {image : Image} {d oldsz newsz : Nat} (low : newsz ≤ USERTOP)
    (count : Nat) :
    forall {owner : Nat -> Role} {s : Vm} {v : Nat} {pages : Nat -> Prop},
      Heap image owner s -> Space owner s d pages -> ceilPage oldsz ≤ v ->
      v + count = ceilPage newsz ->
      Program.wp (allocPages image d oldsz newsz count (v * PGSIZE))
        (fun result t => Steady d s t ∧ SameOutside d (Between oldsz newsz) s t ∧
          (result ≠ 0 -> Preserves d s t)) (fun _ => True) s := by
  have high := ceilPage_le_userpages low
  induction count with
  | zero =>
      intro owner s v pages _ _ _ _
      rw [allocPages, Program.wp_pure]
      exact ⟨Steady.refl d s, SameOutside.refl d _ s, fun _ => Preserves.refl d s⟩
  | succ count ih =>
      intro owner s v pages heap space above last
      have next : v * PGSIZE + PGSIZE = (v + 1) * PGSIZE := (Nat.succ_mul v PGSIZE).symm
      have isUser : v < USERPAGES := by omega
      rw [allocPages, next, Program.wp_bind]
      refine Program.wp_mono (wp_both (allocPage_wp heap space isUser)
        (allocPage_steady heap space isUser)) ?_ (fun _ _ => trivial)
      rintro ok t ⟨outcome, preserves, steady, elsewhere⟩
      cases ok with
      | false =>
          rcases outcome with ⟨_, rfl⟩
          refine Program.wp_seq (Program.wp_mono (deallocuvm_steady heap space low) (fun _ _ => id)
            (fun _ => False.elim)) ?_
          rintro _ u ⟨freed, others⟩
          exact ⟨freed, others, fun nonzero => absurd rfl nonzero⟩
      | true =>
          rcases outcome with ⟨_, ⟨middle, middleHeap, _, middleSpace⟩, _⟩
          refine Program.wp_mono (ih middleHeap middleSpace (by omega) (by omega)) ?_
            (fun _ _ => trivial)
          rintro result u ⟨restSteady, restElsewhere, restPreserves⟩
          refine ⟨steady.trans restSteady, (elsewhere.mono ?_).trans restElsewhere,
            fun nonzero => preserves.trans (restPreserves nonzero)⟩
          intro w same
          rw [same]
          exact ⟨above, by omega⟩

theorem allocuvm_steady {image : Image} {owner : Nat -> Role} {s : Vm} {d oldsz newsz : Nat}
    {pages : Nat -> Prop} (heap : Heap image owner s) (space : Space owner s d pages) :
    Program.wp (allocuvm image d oldsz newsz)
      (fun result t => Steady d s t ∧ SameOutside d (Between oldsz newsz) s t ∧
        (result ≠ 0 -> Preserves d s t)) (fun _ => True) s := by
  have unchanged : forall result, Steady d s s ∧ SameOutside d (Between oldsz newsz) s s ∧
      (result ≠ 0 -> Preserves d s s) :=
    fun _ => ⟨Steady.refl d s, SameOutside.refl d _ s, fun _ => Preserves.refl d s⟩
  unfold allocuvm
  by_cases large : USERTOP < newsz
  · rw [if_pos large]
    exact unchanged 0
  · by_cases shrinks : newsz < oldsz
    · rw [if_neg large, if_pos shrinks]
      exact unchanged oldsz
    · have low : newsz ≤ USERTOP := by omega
      have grows : oldsz ≤ newsz := by omega
      have order := ceilPage_mono grows
      have high := ceilPage_le_userpages low
      rw [if_neg large, if_neg shrinks, PGROUNDUP_eq (Nat.le_trans grows low), pagesBelow_eq]
      exact allocPages_steady low _ heap space (Nat.le_refl _) (by omega)

/-! ## Copying -/

/-- One page of `copyuvm`, whatever the parent has mapped. -/
theorem copyPage_steady {image : Image} {owner : Nat -> Role} {s : Vm} {d e v : Nat}
    {pages : Nat -> Prop} (heap : Heap image owner s) (space : Space owner s d pages)
    (isUser : v < USERPAGES) :
    Program.wp (copyPage d e (v * PGSIZE))
      (fun _ t => Steady d s t ∧ Exists fun now => Became image owner s d now t)
      (fun _ => True) s := by
  have unchanged : Steady d s s ∧ Exists fun now => Became image owner s d now s :=
    ⟨Steady.refl d s, pages, owner, heap, Within.refl d owner s, space⟩
  unfold copyPage
  rw [Program.wp_bind]
  refine walkpgdir_lookup (userpage_table isUser).2.2 (fun _ => ?_) (fun _ => trivial)
  rw [Program.wp_bind, Program.wp_read]
  by_cases present : Present ((s.mem (PTE_ADDR (pde s e (v / 1024)))).word (v % 1024))
  · rw [if_pos present, Program.wp_bind]
    refine kalloc_wp (fun _ => unchanged) (fun r rest head => ?_)
    have isFree : owner r = .free := (heap.free r).mp (by rw [head]; exact List.mem_cons_self)
    have small := (heap.page_pos (p := r) (by rw [isFree]; decide)).2
    rw [Program.wp_bind, Program.wp_read, Program.wp_bind, storePage_wp]
    refine Program.wp_mono (wp_both (mapNew_wp space isUser isFree (by omega) head _)
      (mappages_user (space.take isFree _ rest) isUser (Function.update_self _ _ _) (by omega))) ?_
      (fun _ _ => trivial)
    rintro _ t ⟨⟨_, steady, _⟩, _, _, within, sameList, nowMapped⟩
    exact ⟨steady, _, _, (heap.take head Role.noConfusion _ _).congr sameList,
      (Within.take isFree _ _ rest).trans within, nowMapped⟩
  · rw [if_neg present]
    exact trivial

theorem copyPages_steady {image : Image} {d e : Nat} (count : Nat) :
    forall {owner : Nat -> Role} {s : Vm} {v : Nat} {pages : Nat -> Prop},
      Heap image owner s -> Space owner s d pages -> v + count ≤ USERPAGES ->
      Program.wp (copyPages d e count (v * PGSIZE))
        (fun _ t => Steady d s t ∧ Exists fun now => Became image owner s d now t)
        (fun _ => True) s := by
  induction count with
  | zero =>
      intro owner s v pages heap space _
      rw [copyPages, Program.wp_pure]
      exact ⟨Steady.refl d s, pages, owner, heap, Within.refl d owner s, space⟩
  | succ count ih =>
      intro owner s v pages heap space high
      have next : v * PGSIZE + PGSIZE = (v + 1) * PGSIZE := (Nat.succ_mul v PGSIZE).symm
      rw [copyPages, next]
      refine Program.wp_seq (copyPage_steady heap space (by omega)) ?_
      rintro ok t ⟨steady, now, middle, middleHeap, within, middleSpace⟩
      cases ok with
      | false =>
          rw [if_neg Bool.false_ne_true, Program.wp_pure]
          exact ⟨steady, now, middle, middleHeap, within, middleSpace⟩
      | true =>
          rw [if_pos rfl]
          refine Program.wp_mono (ih middleHeap middleSpace (by omega)) ?_ (fun _ _ => trivial)
          rintro _ u ⟨restSteady, last, after, restHeap, restWithin, restSpace⟩
          exact ⟨steady.trans restSteady, last, after, restHeap, within.trans restWithin, restSpace⟩

/-- The sizes of a process stay inside the user part. -/
structure Proc.Bounded (p : Proc) : Prop where
  low : p.sz.toNat ≤ USERTOP
  aligned : p.sz2.toNat % PGSIZE = 0
  high : p.sz2.toNat ≤ USERTOP

theorem copyRegions_steady {image : Image} {owner : Nat -> Role} {s : Vm} {d e : Nat}
    {pages : Nat -> Prop} (bounded : s.proc.Bounded) (heap : Heap image owner s)
    (space : Space owner s d pages) :
    Program.wp (copyRegions d e s.proc.sz.toNat)
      (fun _ t => Steady d s t ∧ Exists fun now => Became image owner s d now t)
      (fun _ => True) s := by
  have first : pagesBelow PGSIZE s.proc.sz.toNat = ceilPage s.proc.sz.toNat - 1 := by
    have shifted := pagesBelow_eq 1 s.proc.sz.toNat
    rw [Nat.one_mul] at shifted
    exact shifted
  have second : pagesBelow s.proc.sz2.toNat USERTOP = USERPAGES - s.proc.sz2.toNat / PGSIZE := by
    have shifted := pagesBelow_eq (s.proc.sz2.toNat / PGSIZE) USERTOP
    rw [Nat.div_mul_cancel (Nat.dvd_of_mod_eq_zero bounded.aligned)] at shifted
    exact shifted
  have low := ceilPage_le_userpages bounded.low
  have top : s.proc.sz2.toNat / PGSIZE ≤ USERPAGES := Nat.div_le_div_right bounded.high
  have positive : 1 ≤ USERPAGES := by decide
  unfold copyRegions
  rw [first]
  refine Program.wp_seq (copyPages_steady (v := 1) _ heap space (by omega)) ?_
  rintro ok t ⟨steady, now, middle, middleHeap, within, middleSpace⟩
  cases ok with
  | false =>
      rw [if_neg Bool.false_ne_true, Program.wp_pure]
      exact ⟨steady, now, middle, middleHeap, within, middleSpace⟩
  | true =>
      rw [if_pos rfl, Program.wp_bind, Program.wp_read, within.proc, second]
      have stack := copyPages_steady (e := e) (v := s.proc.sz2.toNat / PGSIZE)
        (USERPAGES - s.proc.sz2.toNat / PGSIZE) middleHeap middleSpace (by omega)
      rw [Nat.div_mul_cancel (Nat.dvd_of_mod_eq_zero bounded.aligned)] at stack
      refine Program.wp_mono stack ?_ (fun _ _ => trivial)
      rintro _ u ⟨restSteady, last, after, restHeap, restWithin, restSpace⟩
      exact ⟨steady.trans restSteady, last, after, restHeap, within.trans restWithin, restSpace⟩

/-! ## Freeing whole address spaces -/

/-- The number of pages of an address space: its user pages, its tables and the
directory. -/
def weight (s : Vm) (d : Nat) : Nat := (userPages s d).card + (tables s d).card + 1

/-- The directory determines which tables are present. -/
theorem tables_of_directory {s t : Vm} {d : Nat} (same : t.mem d = s.mem d) :
    tables t d = tables s d := by
  apply tables_congr
  intro i
  rw [pde, pde, same]

theorem Steady.weight {d : Nat} {s t : Vm} (steady : Steady d s t) :
    t.freelist.length + weight t d = s.freelist.length + weight s d := by
  have same := tables_of_directory steady.directory
  have balance := steady.balance
  rw [AddressSpace.weight, AddressSpace.weight, same]
  omega

theorem freeTable_length {image : Image} {owner : Nat -> Role} {s : Vm} {d i : Nat}
    (remaining : Tables image owner s d i) (below : i < 1024) :
    Program.wp (freeTable image (pde s d i))
      (fun _ t => t.mem d = s.mem d ∧
        t.freelist.length = s.freelist.length + if Present (pde s d i) then 1 else 0)
      (fun _ => False) s := by
  unfold freeTable
  by_cases present : Present (pde s d i)
  · have role := remaining.table i (Nat.le_refl i) below present
    rw [if_pos present, if_pos present]
    generalize PTE_ADDR (pde s d i) = r at role ⊢
    have managed : owner r ≠ .other := by rw [role]; exact Role.noConfusion
    have notDir : d ≠ r := by
      intro same
      rw [← same, remaining.self] at role
      cases role
    exact kfree_wp remaining.heap managed ⟨Vm.withPage_mem_of_ne _ _ notDir, List.length_cons⟩
  · rw [if_neg present, if_neg present, Program.wp_pure]
    exact ⟨rfl, rfl⟩

/-- The tables below an index that are present. -/
def tablesBelow (s : Vm) (d i : Nat) : Nat := Nat.count (fun j => Present (pde s d j)) i

theorem freeTables_length {image : Image} {d : Nat} (count : Nat) :
    forall {owner : Nat -> Role} {s : Vm} {i : Nat}, Tables image owner s d i -> i + count ≤ 1024 ->
      Program.wp (freeTables image d count i)
        (fun _ t => t.freelist.length + tablesBelow s d i =
          s.freelist.length + tablesBelow s d (i + count))
        (fun _ => False) s := by
  induction count with
  | zero =>
      intro owner s i _ _
      rw [freeTables, Program.wp_pure, Nat.add_zero]
  | succ count ih =>
      intro owner s i remaining high
      rw [freeTables, Program.wp_bind, Program.wp_read]
      refine Program.wp_seq (wp_both (freeTable_wp remaining (by omega))
        (freeTable_length remaining (by omega))) ?_
      rintro _ t ⟨⟨middle, next, _, _⟩, directory, freed⟩
      refine Program.wp_mono (ih next (by omega)) ?_ (fun _ stopped => stopped)
      intro _ u rest
      have same : forall j, tablesBelow t d j = tablesBelow s d j := by
        intro j
        simp only [tablesBelow, pde, directory]
        congr
      have step : tablesBelow s d (i + 1) = tablesBelow s d i + if Present (pde s d i) then 1
          else 0 :=
        Nat.count_succ _ _
      rw [same, same, show i + 1 + count = i + (count + 1) by omega] at rest
      omega

/-- `freevm` returns every page of the address space. -/
theorem freevm_length {image : Image} {owner : Nat -> Role} {s : Vm} {d : Nat} {pages : Nat -> Prop}
    (heap : Heap image owner s) (space : Space owner s d pages) :
    Program.wp (freevm image d) (fun _ t => t.freelist.length = s.freelist.length + weight s d)
      (fun _ => False) s := by
  have nonzero : d ≠ 0 := Nat.ne_of_gt
    (heap.page_pos (by rw [space.dir.self]; exact Role.noConfusion)).1
  unfold freevm
  rw [if_neg nonzero]
  refine Program.wp_seq (wp_both (deallocuvm_wp heap space (Nat.le_refl USERTOP))
    (deallocuvm_steady heap space (Nat.le_refl USERTOP))) ?_
  rintro _ t ⟨⟨_, ⟨middle, middleHeap, within, middleSpace⟩, _⟩, steady, _⟩
  have empty : userPages t d = ∅ := by
    apply Finset.eq_empty_of_forall_notMem
    intro v member
    rcases mem_userPages.mp member with ⟨below, present⟩
    refine ((middleSpace.user v below).mp present).2 ⟨?_, ?_⟩
    · exact Nat.zero_le v
    · exact below
  have start : Tables image middle t d 0 :=
    ⟨middleHeap, middleSpace.dir.self, fun j _ below => middleSpace.dir.table j below⟩
  refine Program.wp_seq (wp_both (freeTables_wp 1024 start (Nat.le_refl _))
    (freeTables_length 1024 start (Nat.le_refl _))) ?_
  rintro _ u ⟨⟨after, rest, _, _⟩, freed⟩
  have managed : after d ≠ .other := by rw [rest.self]; exact Role.noConfusion
  refine kfree_wp rest.heap managed ?_
  have all : tablesBelow t d 1024 = (tables t d).card := Nat.count_eq_card_filter_range _ _
  have none : tablesBelow t d 0 = 0 := Nat.count_zero _
  have balance := steady.weight
  rw [weight, empty, Finset.card_empty] at balance
  rw [Nat.zero_add, all, none] at freed
  rw [List.length_cons]
  omega

end AddressSpace
end OsProjects
