import OsProjects.AddressSpace.PageEntries
import OsProjects.AddressSpace.SoundImage

namespace OsProjects
namespace AddressSpace

open Machine

/-!
# What `fork` copies

`copyuvm` walks over the two regions of the parent and copies page by page into
pages from the free list.  The loops are followed with `Added`, whose contents are
the pages of the parent: the parent is another address space, so no step of the
loops changes them.  In the end no page is shared, so that the stores of the two
processes do not meet.
-/

/-! ## Another address space is the same -/

/-- The address space `d` has the same page table and the same contents. -/
structure SameMemory (d : Nat) (s t : Vm) : Prop where
  directory : forall i, pde t d i = pde s d i
  entries : forall v, v < 2 ^ 20 -> pte t d v = pte s d v
  contents : forall v, v < USERPAGES -> Present (pte s d v) ->
    t.mem (PTE_ADDR (pte s d v)) = s.mem (PTE_ADDR (pte s d v))

theorem SameMemory.refl (d : Nat) (s : Vm) : SameMemory d s s :=
  ⟨fun _ => rfl, fun _ _ => rfl, fun _ _ _ => rfl⟩

theorem SameMemory.trans {d : Nat} {s t u : Vm} (first : SameMemory d s t)
    (second : SameMemory d t u) : SameMemory d s u := by
  refine ⟨fun i => (second.directory i).trans (first.directory i),
    fun v below => (second.entries v below).trans (first.entries v below),
    fun v isUser present => ?_⟩
  have same := first.entries v (userpage_table isUser).2.2
  have kept := second.contents v isUser (by rw [same]; exact present)
  rw [same] at kept
  exact kept.trans (first.contents v isUser present)

/-- Work on one address space keeps every other one. -/
theorem Within.sameMemory {d e : Nat} {owner after : Nat -> Role} {s t : Vm}
    (within : Within d owner after s t) (different : d ≠ e) (dir : Dir owner s e) :
    SameMemory e s t := by
  have untouched : forall r : Role, r.Of e -> ¬ (r = .free ∨ r.Of d) :=
    fun _ => Role.Of.untouched different
  have kept := dir.kept (fun p mine => within.framed.role p (untouched _ mine))
    (fun p structural => within.framed.contents p (untouched _ (by
      rcases structural with self | ⟨i, table⟩
      · rw [self]
        exact rfl
      · rw [table]
        exact rfl)))
  refine ⟨kept.2.1, kept.2.2, fun v isUser present => within.framed.contents _ (untouched _ ?_)⟩
  rw [dir.user v isUser present]
  exact rfl

/-! ## The loops -/

theorem Added.congr {owner after : Nat -> Role} {s t : Vm} {d : Nat} {range : Nat -> Prop}
    {contents others : Nat -> Page} (added : Added owner s d range contents after t)
    (same : forall w, range w -> contents w = others w) : Added owner s d range others after t := by
  refine ⟨added.directory, added.entries, fun w inside => ?_, added.role, added.kept⟩
  rcases added.frames w inside with ⟨r, free, role, entry, filled⟩
  exact ⟨r, free, role, entry, filled.trans (same w inside)⟩

/-- The contents of the page that an entry refers to. -/
def pageContents (s : Vm) (d v : Nat) : Page := s.mem (PTE_ADDR (pte s d v))

theorem copyPage_added {image : Image} {owner : Nat -> Role} {s : Vm} {d e v : Nat}
    {pages source : Nat -> Prop} (heap : Heap image owner s) (space : Space owner s d pages)
    (parent : Space owner s e source) (isUser : v < USERPAGES) (clear : ¬ pages v)
    (mapped : source v) :
    Program.wp (copyPage d e (v * PGSIZE))
      (fun ok t => if ok then s.freelist.length = t.freelist.length + 1 ∧
          BecameBy image owner s d (Function.update pages v True)
            (Added owner s d (fun w => w = v) (fun _ => pageContents s e v)) t
        else t = s ∧ s.freelist = [])
      (fun _ => False) s := by
  have table : Present (pde s e (v / 1024)) := by
    rw [(userpage_table isUser).1]
    exact parent.table
  have present : Present (pte s e v) := (parent.user v isUser).mpr mapped
  unfold copyPage
  rw [Program.wp_bind]
  refine walkpgdir_user parent isUser false ?_
  simp only [Program.wp_bind, Program.wp_read]
  rw [← pte_of_present table, if_pos present, Program.wp_bind]
  refine kalloc_wp (fun empty => ?_) (fun r rest head => ?_)
  · rw [Program.wp_pure, if_neg Bool.false_ne_true]
    exact ⟨rfl, empty⟩
  · rw [Program.wp_bind, Program.wp_read, Program.wp_bind, storePage_wp]
    refine Program.wp_mono (mapFree_added heap space isUser clear head (pageContents s e v)) ?_
      (fun _ => id)
    rintro _ t ⟨rfl, sameList, became⟩
    rw [if_pos rfl, head, sameList, List.length_cons]
    exact ⟨rfl, became⟩

/-- A loop of `copyuvm`: the pages so far are copies.  Each of them takes a page. -/
theorem copyPages_added {image : Image} {d e : Nat} (different : d ≠ e) {source : Nat -> Prop}
    {contents : Nat -> Page} (count : Nat) :
    forall {owner : Nat -> Role} {s : Vm} {v : Nat} {pages : Nat -> Prop},
      Heap image owner s -> Space owner s d pages -> Space owner s e source ->
      v + count ≤ USERPAGES -> (forall w, v ≤ w -> w < v + count -> source w ∧ ¬ pages w ∧
        pageContents s e w = contents w) ->
      Program.wp (copyPages d e count (v * PGSIZE))
        (fun ok t => Exists fun now => BecameBy image owner s d now
          (fun after t => (ok = false -> s.freelist.length < count) ∧
            (ok = true -> s.freelist.length = t.freelist.length + count ∧
              (forall w, now w ↔ pages w ∨ (v ≤ w ∧ w < v + count)) ∧
              Added owner s d (fun w => v ≤ w ∧ w < v + count) contents after t)) t)
        (fun _ => False) s := by
  induction count with
  | zero =>
      intro owner s v pages heap space _ _ _
      have empty : forall w, ¬ (v ≤ w ∧ w < v + 0) := by omega
      rw [copyPages, Program.wp_pure]
      refine ⟨pages, owner, heap, Within.refl d owner s, space, Bool.noConfusion, fun _ =>
        ⟨rfl, fun w => ?_, Added.refl owner s d empty contents⟩⟩
      exact ⟨Or.inl, fun either => either.resolve_right (empty w)⟩
  | succ count ih =>
      intro owner s v pages heap space parent high range
      have next : v * PGSIZE + PGSIZE = (v + 1) * PGSIZE := (Nat.succ_mul v PGSIZE).symm
      have here := range v (Nat.le_refl v) (by omega)
      rw [copyPages, next]
      refine Program.wp_seq (copyPage_added heap space parent (by omega) here.2.1 here.1) ?_
      intro ok t outcome
      cases ok with
      | false =>
          rw [if_neg Bool.false_ne_true] at outcome ⊢
          rw [Program.wp_pure, outcome.1]
          refine ⟨pages, owner, heap, Within.refl d owner s, space, fun _ => ?_, fun impossible =>
            absurd impossible Bool.false_ne_true⟩
          rw [outcome.2]
          exact Nat.succ_pos count
      | true =>
          rw [if_pos rfl] at outcome ⊢
          rcases outcome with ⟨fewer, middle, middleHeap, within, middleSpace, added⟩
          have parentKept := parent.framed within.framed (fun _ => Role.Of.untouched different)
          have same := within.sameMemory different parent.dir
          refine Program.wp_mono (ih middleHeap middleSpace parentKept (by omega)
            (fun w lower upper => ?_)) ?_ (fun _ => id)
          · have there := range w (by omega) (by omega)
            have isUser : w < USERPAGES := by omega
            rw [Function.update_of_ne (by omega), pageContents,
              same.entries w (userpage_table isUser).2.2,
              same.contents w isUser ((parent.user w isUser).mpr there.1)]
            exact there
          · rintro ok u ⟨now, after, restHeap, restWithin, restSpace, few, rest⟩
            refine ⟨now, after, restHeap, within.trans restWithin, restSpace, fun isNot => ?_,
              fun isOk => ?_⟩
            · have fewToo := few isNot
              omega
            rcases rest isOk with ⟨taken, exactly, restAdded⟩
            have copied := added.congr (fun w same =>
              show pageContents s e v = contents w by rw [same, here.2.2])
            refine ⟨by omega, fun w => ?_, copied.trans restAdded (fun w => ?_) (fun w same => ?_)
              (fun w inside => ?_)⟩
            · rw [exactly w]
              by_cases same : w = v
              · rw [same, Function.update_self]
                exact iff_of_true (Or.inl trivial) (Or.inr (by omega))
              · rw [Function.update_of_ne same]
                refine or_congr_right ?_
                omega
            · omega
            · omega
            · simp only [USERPAGES, USERTOP, PGSIZE] at high
              omega

/-- The pages that the two loops walk over. -/
theorem Apart.counts {sz sz2 : Nat} (apart : Apart sz sz2) :
    pagesBelow PGSIZE sz = ceilPage sz - 1 ∧ pagesBelow sz2 USERTOP = USERPAGES - sz2 / PGSIZE ∧
      sz2 / PGSIZE * PGSIZE = sz2 ∧ sz2 / PGSIZE ≤ USERPAGES := by
  have whole := Nat.div_mul_cancel (Nat.dvd_of_mod_eq_zero apart.aligned)
  have heapPages := pagesBelow_eq 1 sz
  have stackPages := pagesBelow_eq (sz2 / PGSIZE) USERTOP
  rw [Nat.one_mul] at heapPages
  rw [whole] at stackPages
  exact ⟨heapPages, stackPages, whole, Nat.div_le_div_right apart.high⟩

/-- How many pages these are. -/
def copyCount (sz sz2 : Nat) : Nat := (ceilPage sz - 1) + (USERPAGES - sz2 / PGSIZE)

theorem copyRegions_added {image : Image} {owner : Nat -> Role} {s : Vm} {d e sz : Nat}
    (different : d ≠ e) (apart : Apart sz s.proc.sz2.toNat) (heap : Heap image owner s)
    (space : Space owner s d (fun _ => False))
    (parent : Space owner s e (Regions sz s.proc.sz2.toNat)) :
    Program.wp (copyRegions d e sz)
      (fun ok t => Exists fun now => BecameBy image owner s d now
        (fun after t => (ok = false -> s.freelist.length < copyCount sz s.proc.sz2.toNat) ∧
          (ok = true -> (forall w, now w ↔ Regions sz s.proc.sz2.toNat w) ∧
            Added owner s d (Regions sz s.proc.sz2.toNat) (pageContents s e) after t)) t)
      (fun _ => False) s := by
  rcases apart.counts with ⟨heapPages, stackPages, whole, top⟩
  have order := apart.order
  have positive : 1 ≤ USERPAGES := by decide
  unfold copyRegions copyCount
  rw [heapPages]
  refine Program.wp_seq (copyPages_added (v := 1) different _ heap space parent (by omega)
    (fun w lower upper => ⟨Or.inl (by omega), id, (rfl : pageContents s e w = pageContents s e w)⟩))
    ?_
  rintro ok t ⟨now, middle, middleHeap, within, middleSpace, few, added⟩
  cases ok with
  | false =>
      have fewer := few rfl
      rw [if_neg Bool.false_ne_true, Program.wp_pure]
      exact ⟨now, middle, middleHeap, within, middleSpace, fun _ => by omega, fun impossible =>
        absurd impossible Bool.false_ne_true⟩
  | true =>
      rcases added rfl with ⟨taken, exactly, heapAdded⟩
      have parentKept := parent.framed within.framed (fun _ => Role.Of.untouched different)
      have same := within.sameMemory different parent.dir
      have stackRange : forall w, s.proc.sz2.toNat / PGSIZE ≤ w ->
          w < s.proc.sz2.toNat / PGSIZE + (USERPAGES - s.proc.sz2.toNat / PGSIZE) ->
          Regions sz s.proc.sz2.toNat w ∧ ¬ now w ∧ pageContents t e w = pageContents s e w := by
        intro w lower upper
        have isUser : w < USERPAGES := by omega
        have mapped : Regions sz s.proc.sz2.toNat w := Or.inr (by omega)
        refine ⟨mapped, fun inHeap => ?_, ?_⟩
        · have heapPage := (exactly w).mp inHeap
          rw [false_or] at heapPage
          omega
        · rw [pageContents, same.entries w (userpage_table isUser).2.2,
            same.contents w isUser ((parent.user w isUser).mpr mapped)]
          rfl
      have stack := copyPages_added different (USERPAGES - s.proc.sz2.toNat / PGSIZE) middleHeap
        middleSpace parentKept (by omega) stackRange
      rw [whole] at stack
      rw [if_pos rfl, Program.wp_bind, Program.wp_read, within.proc, stackPages]
      refine Program.wp_mono stack ?_ (fun _ => id)
      rintro ok u ⟨last, after, restHeap, restWithin, restSpace, fewToo, rest⟩
      refine ⟨last, after, restHeap, within.trans restWithin, restSpace, fun isNot => ?_,
        fun isOk => ?_⟩
      · have fewer := fewToo isNot
        omega
      rcases rest isOk with ⟨_, restExactly, stackAdded⟩
      have regions : forall w, Regions sz s.proc.sz2.toNat w ↔
          (1 ≤ w ∧ w < 1 + (ceilPage sz - 1)) ∨ (s.proc.sz2.toNat / PGSIZE ≤ w ∧
            w < s.proc.sz2.toNat / PGSIZE + (USERPAGES - s.proc.sz2.toNat / PGSIZE)) := by
        intro w
        refine or_congr ?_ ?_ <;> omega
      refine ⟨fun w => ?_, heapAdded.trans stackAdded regions (fun w first second => ?_)
        (fun w inside => ?_)⟩
      · rw [restExactly w, exactly w, false_or]
        exact (regions w).symm
      · omega
      · have isUser : w < USERPAGES := by
          rcases inside with inHeap | inStack
          · omega
          · exact inStack.2
        exact (userpage_table isUser).2.2

/-! ## A copy -/

instance (s : Vm) (d v : Nat) : Decidable (UserPage s d v) := inferInstanceAs (Decidable (_ ∧ _))

/-- What a process finds in its page `v`. -/
def userPage (s : Vm) (d v : Nat) : Option Page :=
  if UserPage s d v then some (pageContents s d v) else none

/-- The address space `d` has the user pages of `e`, in pages that were free and that
nothing else maps. -/
structure Duplicate (owner : Nat -> Role) (s t : Vm) (e d : Nat) : Prop where
  same : forall v, v < 2 ^ 20 -> userPage t d v = userPage s e v
  fresh : forall v, UserPage t d v -> v < 2 ^ 20 ->
    PTE_ADDR (pte t d v) ∈ s.freelist ∧ PTE_ADDR (pte t d v) ∉ t.freelist
  distinct : forall v w, UserPage t d v -> UserPage t d w -> v < 2 ^ 20 -> w < 2 ^ 20 ->
    PTE_ADDR (pte t d v) = PTE_ADDR (pte t d w) -> v = w
  unshared : forall f, Dir owner s f -> forall v w, UserPage t d v -> v < 2 ^ 20 ->
    w < USERPAGES -> Present (pte t f w) -> PTE_ADDR (pte t f w) ≠ PTE_ADDR (pte t d v)

theorem Space.userPage_iff {owner : Nat -> Role} {s : Vm} {d v : Nat} {pages : Nat -> Prop}
    (space : Space owner s d pages) (below : v < 2 ^ 20) :
    UserPage s d v ↔ v < USERPAGES ∧ pages v := by
  refine ⟨fun mapped => (space.access v below).mp mapped.2, fun both => ?_⟩
  exact space.userPage both.1 both.2

/-- Pages that have been added with the contents of the pages of `e`. -/
theorem Added.duplicate {image : Image} {owner middle after : Nat -> Role} {s t u : Vm} {d e : Nat}
    {pages : Nat -> Prop} (added : Added middle t d pages (pageContents t e) after u)
    (wasFree : forall p, middle p = .free -> p ∈ s.freelist) (heap : Heap image owner s)
    (nextHeap : Heap image after u) (space : Space after u d pages) (parent : Space owner s e pages)
    (others : forall f, Dir owner s f -> SameMemory f s t ∧ SameMemory f s u) :
    Duplicate owner s u e d := by
  have frame : forall v, UserPage u d v -> v < 2 ^ 20 -> Exists fun r => r ∈ s.freelist ∧
      after r = .user d v ∧ PTE_ADDR (pte u d v) = r := by
    intro v mapped below
    rcases added.frames v ((space.userPage_iff below).mp mapped).2 with ⟨r, free, role, entry, _⟩
    exact ⟨r, wasFree r free, role, by rw [entry, PTE_ADDR_entry r (by decide)]⟩
  refine ⟨fun v below => ?_, fun v mapped below => ?_, fun v w mappedV mappedW belowV belowW same =>
    ?_, fun f dir v w mapped below isUser present same => ?_⟩
  · have samePages := (space.userPage_iff below).trans (parent.userPage_iff below).symm
    unfold userPage
    by_cases mapped : UserPage s e v
    · have inside := (parent.userPage_iff below).mp mapped
      have kept := (others e parent.dir).1
      rcases added.frames v inside.2 with ⟨r, _, _, entry, filled⟩
      rw [if_pos mapped, if_pos (samePages.mpr mapped), pageContents, entry,
        PTE_ADDR_entry r (by decide), filled, pageContents, kept.entries v below,
        kept.contents v inside.1 mapped.1]
      rfl
    · rw [if_neg mapped, if_neg (mt samePages.mp mapped)]
  · rcases frame v mapped below with ⟨r, free, role, isFrame⟩
    rw [isFrame]
    refine ⟨free, fun member => ?_⟩
    rw [(nextHeap.free r).mp member] at role
    cases role
  · rcases frame v mappedV belowV with ⟨r, _, role, isFrame⟩
    rcases frame w mappedW belowW with ⟨q, _, otherRole, otherFrame⟩
    rw [isFrame, otherFrame] at same
    rw [same, otherRole] at role
    exact (Role.user.inj role).2.symm
  · rcases frame v mapped below with ⟨r, free, _, isFrame⟩
    have entry := (others f dir).2.entries w (userpage_table isUser).2.2
    rw [entry] at present same
    have role := dir.user w isUser present
    rw [same, isFrame, (heap.free r).mp free] at role
    cases role

/-- `copyuvm` of a process: no panic, no other address space changes, and the result
is a copy or nothing. -/
theorem copyuvm_duplicates {image : Image} {owner : Nat -> Role} {s : Vm} {e sz : Nat}
    (apart : Apart sz s.proc.sz2.toNat) (heap : Heap image owner s)
    (parent : Space owner s e (Regions sz s.proc.sz2.toNat)) :
    Program.wp (copyuvm image e sz)
      (fun result t => t.proc = s.proc ∧ (forall f, Dir owner s f -> SameMemory f s t) ∧
        (result = none -> s.freelist.length < 13 + copyCount sz s.proc.sz2.toNat) ∧
        forall d, result = some d -> d ∈ s.freelist ∧ Duplicate owner s t e d ∧
          Exists fun after => e ≠ d ∧ Space after t d (Regions sz s.proc.sz2.toNat) ∧
            Space after t e (Regions sz s.proc.sz2.toNat))
      (fun _ => False) s := by
  have settled : forall f, Dir owner s f -> Dir (settle owner) s f := fun f dir =>
    (dir.kept (fun _ mine => settle_of mine dir.self) (fun _ _ => rfl)).1
  unfold copyuvm
  refine Program.wp_seq (setupkvm_wp heap.settle) ?_
  rintro result t ⟨middle, d, notDir, within, middleHeap, outcome⟩
  have others : forall f, Dir owner s f -> d ≠ f := by
    intro f dir same
    rw [same] at notDir
    exact notDir (settled f dir).self
  have first : forall f, Dir owner s f -> SameMemory f s t := fun f dir =>
    within.sameMemory (others f dir) (settled f dir)
  cases result with
  | none =>
      rw [Program.wp_pure]
      exact ⟨within.proc, first, fun _ => Nat.lt_of_lt_of_le outcome (Nat.le_add_right 13 _), nofun⟩
  | some dir =>
      rcases outcome with ⟨rfl, isFree, space, taken⟩
      have different := others e parent.dir
      have parentKept := parent.settle.framed within.framed (fun _ => Role.Of.untouched different)
      have wasFree : forall p, middle p = .free -> p ∈ s.freelist := by
        intro p nowFree
        rw [heap.settle.free]
        by_contra used
        rw [within.framed.role p (fun touched => touched.elim used
          (fun mine => notDir (settle_rooted mine)))] at nowFree
        exact used nowFree
      rw [← within.proc] at apart parentKept parent ⊢
      refine Program.wp_seq (copyRegions_added different apart middleHeap space parentKept) ?_
      rintro ok u ⟨now, after, copyHeap, copyWithin, copySpace, few, copied⟩
      have all := within.trans copyWithin
      have second : forall f, Dir owner s f -> SameMemory f s u := fun f dir =>
        all.sameMemory (others f dir) (settled f dir)
      cases ok with
      | true =>
          rcases copied rfl with ⟨exactly, added⟩
          have childSpace := copySpace.congr (fun w _ => exactly w)
          have parentLast := parentKept.framed copyWithin.framed
              (fun _ => Role.Of.untouched different)
          rw [if_pos rfl, Program.wp_pure]
          refine ⟨all.proc.trans within.proc.symm, second, nofun, fun copy same => ?_⟩
          rw [← Option.some.inj same]
          exact ⟨(heap.settle.free dir).mpr isFree, added.duplicate wasFree heap copyHeap childSpace
            parent (fun f isDir => ⟨first f isDir, second f isDir⟩), after, different.symm,
            childSpace, parentLast⟩
      | false =>
          rw [if_neg Bool.false_ne_true]
          refine Program.wp_seq (freevm_wp copyHeap copySpace) ?_
          rintro _ v ⟨last, _, lastWithin, _⟩
          have whole := all.trans lastWithin
          have fewer := few rfl
          rw [Program.wp_pure]
          exact ⟨whole.proc.trans within.proc.symm, fun f isDir =>
            whole.sameMemory (others f isDir) (settled f isDir), fun _ => by omega, nofun⟩

/-! ## Stores after the fork -/

/-- A store of user code: the page directory of the process, the address and the byte. -/
structure Store where
  pgdir : Nat
  va : UInt32
  byte : UInt8

/-- The page that a store goes to. -/
def Store.page (w : Store) : Nat := w.va.toNat / PGSIZE

theorem Store.page_lt (w : Store) : w.page < 2 ^ 20 := by
  have below := w.va.toNat_lt
  simp only [Store.page, PGSIZE]
  omega

/-- The processor lets user code write to the page. -/
def Writable (s : Vm) (d v : Nat) : Prop := UserPage s d v ∧ pte s d v &&& PTE_W ≠ 0

instance (s : Vm) (d v : Nat) : Decidable (Writable s d v) := inferInstanceAs (Decidable (_ ∧ _))

/-- A store; one that the page table does not allow traps and changes nothing. -/
def Vm.store (s : Vm) (w : Store) : Vm :=
  if Writable s w.pgdir w.page then
    s.withPage (PTE_ADDR (pte s w.pgdir w.page))
      ((pageContents s w.pgdir w.page).splice (w.va.toNat % PGSIZE) 1 (fun _ => w.byte))
  else s

/-- Whatever two processes store, each of them finds what it would find if the other
one had not stored anything. -/
def Independent (s : Vm) (d e : Nat) : Prop :=
  forall stores : List Store, (forall w, w ∈ stores -> w.pgdir = d ∨ w.pgdir = e) -> SameMemory d
    ((stores.filter (fun w => w.pgdir = d)).foldl Vm.store s) (stores.foldl Vm.store s) ∧
    SameMemory e ((stores.filter (fun w => w.pgdir = e)).foldl Vm.store s) (stores.foldl Vm.store s)

section Stores

variable {owner : Nat -> Role} {s t : Vm} {d e : Nat} {pages mine theirs : Nat -> Prop}

/-- A store either does nothing or goes to a page of its own process. -/
theorem Space.store_cases (space : Space owner s d pages) {w : Store} (own : w.pgdir = d) :
    s.store w = s ∨ Exists fun r => Exists fun contents => w.page < USERPAGES ∧
      owner r = .user d w.page ∧ s.store w = s.withPage r contents := by
  by_cases writable : Writable s w.pgdir w.page
  · rw [own] at writable
    have inside := (space.userPage_iff w.page_lt).mp writable.1
    refine Or.inr ⟨PTE_ADDR (pte s d w.page), (pageContents s d w.page).splice
      (w.va.toNat % PGSIZE) 1 (fun _ => w.byte), inside.1,
      space.dir.user w.page inside.1 writable.1.1, ?_⟩
    rw [Vm.store, own, if_pos writable]
  · exact Or.inl (if_neg writable)

/-- A store keeps the mappings of every process. -/
theorem Space.store (space : Space owner s d pages) (other : Space owner s e theirs) {w : Store}
    (own : w.pgdir = d) : Space owner (s.store w) e theirs := by
  rcases space.store_cases own with same | ⟨r, contents, _, role, stored⟩
  · rw [same]
    exact other
  · rw [stored]
    exact other.store_user role contents

/-- A store of another process. -/
theorem Space.store_other (space : Space owner s d pages) (other : Space owner s e theirs)
    (different : d ≠ e) {w : Store} (own : w.pgdir = e) : SameMemory d s (s.store w) := by
  rcases other.store_cases own with same | ⟨r, contents, _, role, stored⟩
  · rw [same]
    exact SameMemory.refl d s
  · have entries := space.entries_store role contents
    rw [stored]
    refine ⟨entries.1, entries.2, fun v isUser present => Vm.withPage_mem_of_ne _ _
      (fun same => ?_)⟩
    have own := space.dir.user v isUser present
    rw [same, role] at own
    exact different (Role.user.inj own).1.symm

/-- The same store in two states in which the process finds the same. -/
theorem SameMemory.store_own (same : SameMemory d s t) (space : Space owner s d mine)
    (other : Space owner t d theirs) {w : Store} (own : w.pgdir = d) :
    SameMemory d (s.store w) (t.store w) := by
  have entry := same.entries w.page w.page_lt
  by_cases writable : Writable s d w.page
  · have inside := (space.userPage_iff w.page_lt).mp writable.1
    have role := space.dir.user w.page inside.1 writable.1.1
    have contents := same.contents w.page inside.1 writable.1.1
    have also : Writable t d w.page := by
      unfold Writable UserPage
      rw [entry]
      exact writable
    rw [Vm.store, Vm.store, own, if_pos writable, if_pos also, pageContents, pageContents, entry,
      contents]
    generalize (Bytes.splice (s.mem (PTE_ADDR (pte s d w.page))) (w.va.toNat % PGSIZE) 1
      (fun _ => w.byte)) = written
    have before := space.entries_store role written
    have after := other.entries_store role written
    refine ⟨fun i => ?_, fun v below => ?_, fun v isUser present => ?_⟩
    · rw [before.1, after.1, same.directory]
    · rw [before.2 v below, after.2 v below, same.entries v below]
    · rw [before.2 v (userpage_table isUser).2.2] at present ⊢
      by_cases hit : PTE_ADDR (pte s d v) = PTE_ADDR (pte s d w.page)
      · rw [hit, Vm.withPage_mem_self, Vm.withPage_mem_self]
      · rw [Vm.withPage_mem_of_ne _ _ hit, Vm.withPage_mem_of_ne _ _ hit]
        exact same.contents v isUser present
  · have neither : ¬ Writable t d w.page := by
      unfold Writable UserPage
      rw [entry]
      exact writable
    rw [Vm.store, Vm.store, own, if_neg writable, if_neg neither]
    exact same

/-- A run of stores of two processes, followed from two states in which the first of
them finds the same. -/
theorem SameMemory.stores (different : d ≠ e) (stores : List Store) :
    forall {s t : Vm} {pages theirs : Nat -> Prop}, SameMemory d s t -> Space owner s d pages ->
      Space owner t d pages -> Space owner t e theirs ->
      (forall w, w ∈ stores -> w.pgdir = d ∨ w.pgdir = e) ->
      SameMemory d ((stores.filter (fun w => w.pgdir = d)).foldl Vm.store s)
        (stores.foldl Vm.store t) := by
  induction stores with
  | nil =>
      intro s t pages theirs same _ _ _ _
      exact same
  | cons w rest ih =>
      intro s t pages theirs same alone space other own
      have later : forall v, v ∈ rest -> v.pgdir = d ∨ v.pgdir = e := fun v member =>
        own v (List.mem_cons_of_mem w member)
      by_cases isMine : w.pgdir = d
      · rw [List.filter_cons, if_pos (decide_eq_true isMine), List.foldl_cons, List.foldl_cons]
        exact ih (same.store_own alone space isMine) (alone.store alone isMine)
          (space.store space isMine) (space.store other isMine) later
      · have isTheirs := (own w List.mem_cons_self).resolve_left isMine
        rw [List.filter_cons, if_neg (by rw [decide_eq_true_iff]; exact isMine), List.foldl_cons]
        exact ih (same.trans (space.store_other other different isTheirs)) alone
          (other.store space isTheirs) (other.store other isTheirs) later

theorem Space.independent (space : Space owner s d mine) (other : Space owner s e theirs)
    (different : d ≠ e) : Independent s d e := by
  intro stores own
  exact ⟨(SameMemory.refl d s).stores different stores space space other own,
    (SameMemory.refl e s).stores different.symm stores other other space
      (fun w member => (own w member).symm)⟩

end Stores

/-- `copyuvm` never panics.  It returns a copy of the parent's user pages, in pages
that nothing else maps, or nothing; no existing address space changes, and the stores
of parent and child are independent of each other. -/
theorem copyuvm_copies_all {image : Image} {owner : Nat -> Role} {s : Vm} {e sz : Nat}
    (apart : Apart sz s.proc.sz2.toNat) (heap : Heap image owner s)
    (parent : Space owner s e (Regions sz s.proc.sz2.toNat)) :
    Exists fun result => Exists fun t =>
      copyuvm image e sz s = .done result t ∧ t.proc = s.proc ∧
      (forall f, Dir owner s f -> SameMemory f s t) ∧
      forall d, result = some d ->
        d ∈ s.freelist ∧ Duplicate owner s t e d ∧ Independent t e d := by
  refine Program.exists_done_of_wp (Program.wp_mono (copyuvm_duplicates apart heap parent) ?_
    (fun _ => id))
  rintro result t ⟨proc, others, _, copied⟩
  refine ⟨proc, others, fun d same => ?_⟩
  rcases copied d same with ⟨fresh, duplicate, after, different, space, parentAfter⟩
  exact ⟨fresh, duplicate, parentAfter.independent space different⟩

/-- With enough free pages there is a copy. -/
theorem copyuvm_succeeds {image : Image} {owner : Nat -> Role} {s t : Vm} {e sz : Nat}
    {result : Option Nat} (apart : Apart sz s.proc.sz2.toNat) (heap : Heap image owner s)
    (parent : Space owner s e (Regions sz s.proc.sz2.toNat))
    (enough : 13 + copyCount sz s.proc.sz2.toNat ≤ s.freelist.length)
    (ran : copyuvm image e sz s = .done result t) : Exists fun d => result = some d := by
  have few := (Program.post_of_done (copyuvm_duplicates apart heap parent) ran).2.2.1
  cases result with
  | none => exact absurd enough (Nat.not_le.mpr (few rfl))
  | some d => exact ⟨d, rfl⟩

/-- A process with a page of heap and a page of stack, and forty free pages. -/
def forking : Vm := twoPages 1 159 (fun p => Bytes.fill (UInt8.ofNat p)) 40 {
  sz := 0x1800, sz2 := 0x9F000, pgdir := 512, tf := { eip := 0, esp := 0x9F800 },
  killed := false, name := [] }

def forkingOwner : Nat -> Role := twoPagesOwner 1 159 40

theorem forking_heap : Heap smallKernel forkingOwner forking := twoPages_heap (by decide)

theorem forking_space :
    Space forkingOwner forking forking.proc.pgdir (Regions 0x1800 forking.proc.sz2.toNat) := by
  refine twoPages_space (by decide) (by decide) (fun v => ?_) rfl
  have stack : forking.proc.sz2.toNat = 0x9F000 := by decide
  simp only [Regions, ceilPage, stack, PGSIZE, USERPAGES, USERTOP]
  omega

/-- Both pages are copied. -/
theorem copyuvm_copies_all_forking : Exists fun d => Exists fun t =>
    copyuvm smallKernel forking.proc.pgdir 0x1800 forking = .done (some d) t ∧
      t.proc = forking.proc ∧ (forall f, Dir forkingOwner forking f -> SameMemory f forking t) ∧
      d ∈ forking.freelist ∧ Duplicate forkingOwner forking t forking.proc.pgdir d ∧
      Independent t forking.proc.pgdir d := by
  have apart : Apart 0x1800 forking.proc.sz2.toNat := ⟨by decide, by decide, by decide⟩
  rcases copyuvm_copies_all apart forking_heap forking_space with
    ⟨result, t, ran, proc, others, copied⟩
  rcases copyuvm_succeeds apart forking_heap forking_space (by decide) ran with ⟨d, rfl⟩
  exact ⟨d, t, ran, proc, others, copied d rfl⟩

end AddressSpace
end OsProjects
