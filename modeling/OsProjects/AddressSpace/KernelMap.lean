import Mathlib.Tactic.IntervalCases
import OsProjects.AddressSpace.PageTable

namespace OsProjects
namespace AddressSpace

open Machine

/-!
# Building the kernel part of a page table

`setupkvm` maps four ranges in ascending order into an empty directory, so no
entry is ever present when `mappages` reaches it.  It needs one page for the
directory and twelve for tables: four for the memory below `PHYSTOP` and eight
for the devices at the top.
-/

/-- The directory indices of the kernel's mappings. -/
def kernelTables : Finset Nat := Finset.range 4 ∪ Finset.Ico 1016 1024

theorem kernelTables_card : kernelTables.card = 12 := by decide

theorem mem_kernelTables {i : Nat} : i ∈ kernelTables ↔ i < 4 ∨ 1016 ≤ i ∧ i < 1024 := by
  simp only [kernelTables, Finset.mem_union, Finset.mem_range, Finset.mem_Ico]

/-- The indices of the directory entries that are present. -/
def tables (s : Vm) (d : Nat) : Finset Nat :=
  (Finset.range 1024).filter (fun i => Present (pde s d i))

theorem mem_tables {s : Vm} {d i : Nat} : i ∈ tables s d ↔ i < 1024 ∧ Present (pde s d i) := by
  simp only [tables, Finset.mem_filter, Finset.mem_range]

theorem tables_congr {s t : Vm} {d : Nat} (same : forall i, pde t d i = pde s d i) :
    tables t d = tables s d := by
  ext i
  rw [mem_tables, mem_tables, same]

theorem tables_insert {s t : Vm} {d i entry : Nat} (below : i < 1024) (present : Present entry)
    (entries : forall j, pde t d j = if j = i then entry else pde s d j) :
    tables t d = insert i (tables s d) := by
  ext j
  rw [mem_tables, entries, Finset.mem_insert, mem_tables]
  by_cases same : j = i
  · rw [if_pos same]
    exact ⟨fun _ => Or.inl same, fun _ => ⟨by omega, present⟩⟩
  · rw [if_neg same]
    exact ⟨Or.inr, fun member => member.resolve_left same⟩

/-- A directory under construction: nothing is mapped from the virtual page `a`
on, and every page taken for a table was taken from the free list. -/
structure Building (image : Image) (owner : Nat -> Role) (s : Vm) (d total a : Nat) : Prop where
  heap : Heap image owner s
  dir : Dir owner s d
  fresh : forall w, a ≤ w -> w < 2 ^ 20 -> ¬ Present (pte s d w)
  kernel : tables s d ⊆ kernelTables
  conserved : s.freelist.length + (tables s d).card = total

/-- What a step on the directory `d` keeps: it may take free pages and change
the pages of `d`. -/
structure Within (d : Nat) (owner after : Nat -> Role) (s t : Vm) : Prop where
  framed : Framed (fun r => r = .free ∨ r.Of d) owner after s t
  proc : t.proc = s.proc

theorem Within.refl (d : Nat) (owner : Nat -> Role) (s : Vm) : Within d owner owner s s :=
  ⟨Framed.refl _ _ _, rfl⟩

theorem Within.trans {d : Nat} {owner middle after : Nat -> Role} {s t u : Vm}
    (first : Within d owner middle s t) (second : Within d middle after t u) :
    Within d owner after s u :=
  ⟨first.framed.trans second.framed, second.proc.trans first.proc⟩

/-- Taking a free page for the address space `d` and filling it. -/
theorem Within.take {d : Nat} {owner : Nat -> Role} {s : Vm} {r : Nat} (isFree : owner r = .free)
    (role : Role) (contents : Page) (rest : List Nat) :
    Within d owner (Function.update owner r role) s
      (Vm.withPage { s with freelist := rest } r contents) := by
  refine ⟨⟨fun p untouched => Function.update_of_ne (fun same => untouched (Or.inl ?_)) _ _,
    fun p untouched => Vm.withPage_mem_of_ne _ _ (fun same => untouched (Or.inl ?_))⟩, rfl⟩
  · rw [same, isFree]
  · rw [same, isFree]

/-- Writing a page of the address space `d`. -/
theorem Within.store {d : Nat} (owner : Nat -> Role) (s : Vm) {r : Nat} (mine : (owner r).Of d)
    (contents : Page) : Within d owner owner s (s.withPage r contents) :=
  ⟨Framed.withPage owner s r contents (Or.inr mine), rfl⟩

/-- Finding the table for the next page, allocating it if necessary. -/
theorem walkpgdir_building {image : Image} {owner : Nat -> Role} {s : Vm} {d total a : Nat}
    (building : Building image owner s d total a) (low : a < 2 ^ 20)
    (kernel : a / 1024 ∈ kernelTables) :
    Program.wp (walkpgdir d (a * PGSIZE) true)
      (fun found t => Exists fun after => Within d owner after s t ∧ Heap image after t ∧
        match found with
        | none => total < 12
        | some (pgtab, i) => Building image after t d total a ∧ Present (pde t d (a / 1024)) ∧
            pgtab = PTE_ADDR (pde t d (a / 1024)) ∧ i = a % 1024 ∧
            forall v, v < 2 ^ 20 -> pte t d v = pte s d v)
      (fun _ => False) s := by
  have index : PDX (a * PGSIZE) = a / 1024 := by simp only [PDX, PGSIZE]; omega
  have offset : PTX (a * PGSIZE) = a % 1024 := by simp only [PTX, PGSIZE]; omega
  unfold walkpgdir
  rw [Program.wp_bind, Program.wp_read, index, offset]
  by_cases present : Present (pde s d (a / 1024))
  · rw [if_pos (show Present ((s.mem d).word (a / 1024)) from present)]
    exact ⟨owner, Within.refl d owner s, building.heap, building, present, rfl, rfl, fun _ _ => rfl⟩
  · rw [if_neg (show ¬ Present ((s.mem d).word (a / 1024)) from present), if_pos rfl,
      Program.wp_bind]
    have missing : a / 1024 ∉ tables s d := fun member => present (mem_tables.mp member).2
    refine kalloc_wp (fun free => ?_) (fun r rest free => ?_)
    · -- The tables present so far are a proper part of the twelve.
      refine ⟨owner, Within.refl d owner s, building.heap, ?_⟩
      have proper : (tables s d).card < kernelTables.card :=
        Finset.card_lt_card ⟨building.kernel, fun all => missing (all kernel)⟩
      have sum := building.conserved
      rw [free, List.length_nil] at sum
      rw [kernelTables_card] at proper
      omega
    · have isFree : owner r = .free :=
        (building.heap.free r).mp (by rw [free]; exact List.mem_cons_self)
      have page := building.heap.page_pos (p := r) (by rw [isFree]; decide)
      have flags : r * PGSIZE ||| PTE_P ||| PTE_W ||| PTE_U = r * PGSIZE ||| 7 := by
        rw [Nat.or_assoc, Nat.or_assoc]
        rfl
      have added := building.dir.addTable (show a / 1024 < 1024 by omega) present isFree
        (show r < 2 ^ 20 by omega) (show 7 < PGSIZE by decide) (by decide) rest
      have notDir : owner d ≠ .free := by rw [building.dir.self]; exact Role.noConfusion
      simp only [storePage_wp, storeWord_wp, flags, Program.wp_bind, Program.wp_pure]
      have notSelf : d ≠ r := fun same => notDir (by rw [same]; exact isFree)
      have mine : (Function.update owner r (.table d (a / 1024)) d).Of d := by
        rw [Function.update_of_ne notSelf, building.dir.self]
        exact rfl
      refine ⟨Function.update owner r (.table d (a / 1024)),
        (Within.take isFree _ _ rest).trans (Within.store _ _ mine _),
        building.heap.take free Role.noConfusion _ _, ?_, ?_, ?_, trivial, added.2.2⟩
      · have grownTables := tables_insert (s := s) (i := a / 1024) (by omega)
          (present_entry r (by decide) (by decide)) added.2.1
        refine ⟨building.heap.take free Role.noConfusion _ _, added.1,
          fun w above below => ?_, ?_, ?_⟩
        · rw [added.2.2 w below]
          exact building.fresh w above below
        · rw [grownTables]
          exact Finset.insert_subset kernel building.kernel
        · rw [grownTables, Finset.card_insert_of_notMem missing]
          have sum := building.conserved
          rw [free, List.length_cons] at sum
          show rest.length + _ = total
          omega
      · rw [added.2.1, if_pos rfl]
        exact present_entry r (by decide) (by decide)
      · rw [added.2.1, if_pos rfl]
        exact (PTE_ADDR_entry r (by decide)).symm

/-- The value that `mappages` stores for the page `w` of a range. -/
def mapped (pa perm a w : Nat) : Nat := (pa + (w - a)) * PGSIZE ||| perm ||| PTE_P

theorem mapped_flags (perm : Nat) (small : perm < 8) :
    (perm ||| PTE_P) < PGSIZE ∧ (perm ||| PTE_P) % 2 = 1 := by
  interval_cases perm <;> decide

theorem mapped_eq (pa perm a w : Nat) :
    mapped pa perm a w = (pa + (w - a)) * PGSIZE ||| (perm ||| PTE_P) := Nat.or_assoc _ _ _

/-- Mapping a range of kernel pages into a directory under construction. -/
theorem mapPages_building {image : Image} {perm : Nat} (small : perm < 8) (count : Nat) :
    forall {owner : Nat -> Role} {s : Vm} {d total a pa : Nat},
      Building image owner s d total a -> USERPAGES ≤ a -> a + count ≤ 2 ^ 20 ->
      pa + count ≤ 2 ^ 20 -> (forall w, a ≤ w -> w < a + count -> w / 1024 ∈ kernelTables) ->
      Program.wp (mapPages d perm count (a * PGSIZE) pa)
        (fun ok t => Exists fun after => Within d owner after s t ∧ Heap image after t ∧
          if ok then Building image after t d total (a + count) ∧
            forall w, w < 2 ^ 20 -> pte t d w =
              if a ≤ w ∧ w < a + count then mapped pa perm a w else pte s d w
          else total < 12)
        (fun _ => False) s := by
  induction count with
  | zero =>
      intro owner s d total a pa building _ _ _ _
      unfold mapPages
      rw [Program.wp_pure]
      refine ⟨owner, Within.refl d owner s, building.heap, ?_⟩
      rw [if_pos rfl]
      exact ⟨building, fun w _ => by rw [if_neg (by omega)]⟩
  | succ count ih =>
      intro owner s d total a pa building above high pages kernel
      unfold mapPages
      refine Program.wp_seq (walkpgdir_building building (by omega)
        (kernel a (Nat.le_refl a) (by omega))) (fun found t walked => ?_)
      rcases walked with ⟨middle, within, heap, rest⟩
      cases found with
      | none =>
          refine ⟨middle, within, heap, ?_⟩
          rw [if_neg Bool.false_ne_true]
          exact rest
      | some place =>
          rcases place with ⟨pgtab, i⟩
          rcases rest with ⟨walkedTo, present, rfl, rfl, same⟩
          have absent : ¬ Present (pte t d a) := by
            rw [same a (by omega)]
            exact building.fresh a (Nat.le_refl a) (by omega)
          rw [pte_of_present present] at absent
          have flags := mapped_flags perm small
          have value : pa * PGSIZE ||| perm ||| PTE_P = mapped pa perm a a := by
            rw [mapped, Nat.sub_self, Nat.add_zero]
          have fits : mapped pa perm a a < 2 ^ 32 := by
            rw [mapped_eq, Nat.sub_self, Nat.add_zero]
            exact entry_lt flags.1 (by omega)
          have set := walkedTo.dir.setEntry (show a < 2 ^ 20 by omega) present fits
              (fun below => absurd below (Nat.not_lt.mpr above))
          have tableRole := walkedTo.dir.table (a / 1024) (by omega) present
          simp only [Program.wp_bind, Program.wp_read, storeWord_wp, if_neg absent, value]
          have next : a * PGSIZE + PGSIZE = (a + 1) * PGSIZE := (Nat.succ_mul a PGSIZE).symm
          rw [next]
          refine Program.wp_mono (@ih middle _ d total (a + 1) (pa + 1) ?_ (by omega) (by omega)
            (by omega) (fun w lower upper => kernel w (by omega) (by omega))) ?_
            (fun _ stopped => stopped)
          · refine ⟨walkedTo.heap.congr rfl, set.1, fun w lower upper => ?_, ?_, ?_⟩
            · rw [set.2.2 w upper, if_neg (by omega)]
              exact walkedTo.fresh w (by omega) upper
            · rw [tables_congr set.2.1]
              exact walkedTo.kernel
            · rw [tables_congr set.2.1]
              exact walkedTo.conserved
          · rintro ok u ⟨after, restWithin, restHeap, outcome⟩
            have stored := Within.store middle t (d := d) (by rw [tableRole]; exact rfl)
              ((t.mem (PTE_ADDR (pde t d (a / 1024)))).setWord (a % 1024) (mapped pa perm a a))
            refine ⟨after, (within.trans stored).trans restWithin, restHeap, ?_⟩
            cases ok with
            | false => exact outcome
            | true =>
                rw [if_pos rfl] at outcome ⊢
                rcases outcome with ⟨built, values⟩
                rw [show a + 1 + count = a + (count + 1) by omega] at built
                refine ⟨built, fun w below => ?_⟩
                rw [values w below, set.2.2 w below, same w below]
                by_cases first : w = a
                · subst w
                  rw [if_neg (by omega), if_pos rfl, if_pos (by omega)]
                · by_cases inside : a ≤ w ∧ w < a + (count + 1)
                  · rw [if_pos inside, if_pos (by omega), mapped, mapped,
                      show pa + 1 + (w - (a + 1)) = pa + (w - a) by omega]
                  · rw [if_neg inside, if_neg (by omega), if_neg first]

/-- `mappages` on a range of whole pages. -/
theorem mappages_range {pgdir p count pa perm : Nat} (nonempty : 0 < count)
    (high : p + count ≤ 2 ^ 20) :
    mappages pgdir (p * PGSIZE) (count * PGSIZE) pa perm =
      mapPages pgdir perm count (p * PGSIZE) pa := by
  have start : PGROUNDDOWN (p * PGSIZE) = p * PGSIZE := by
    simp only [PGROUNDDOWN, PGSIZE]
    omega
  have last : PGROUNDDOWN ((p * PGSIZE + count * PGSIZE - 1) % 2 ^ 32) =
      (p + count - 1) * PGSIZE := by
    have small : (p * PGSIZE + count * PGSIZE - 1) % 2 ^ 32 = (p + count - 1) * PGSIZE + 4095 := by
      simp only [PGSIZE]
      omega
    rw [small]
    simp only [PGROUNDDOWN, PGSIZE]
    omega
  have pages : sub32 ((p + count - 1) * PGSIZE) (p * PGSIZE) / PGSIZE + 1 = count := by
    have small : sub32 ((p + count - 1) * PGSIZE) (p * PGSIZE) = (count - 1) * PGSIZE := by
      simp only [sub32, PGSIZE]
      omega
    rw [small]
    simp only [PGSIZE]
    omega
  simp only [mappages, start, last, pages]

/-! ## The kernel's ranges -/

/-- No page is accessible to user code, and no user page is mapped. -/
def Supervisor (s : Vm) (d : Nat) : Prop :=
  forall w, w < 2 ^ 20 -> pte s d w &&& PTE_U = 0 ∧ (w < USERPAGES -> pte s d w = 0)

theorem mapped_supervisor (pa a w : Nat) {perm : Nat} (small : perm < 4) :
    mapped pa perm a w &&& PTE_U = 0 := by
  have flags : (perm ||| PTE_P) < 4 := by interval_cases perm <;> decide
  have low : mapped pa perm a w % 2 ^ 3 < 4 := by
    rw [mapped_eq, entry_eq _ (Nat.lt_trans flags (by decide))]
    simp only [PGSIZE]
    omega
  have small : mapped pa perm a w &&& PTE_U < 2 ^ 3 := Nat.and_lt_two_pow _ (by decide)
  rw [← Nat.mod_eq_of_lt small, Nat.and_mod_two_pow]
  generalize mapped pa perm a w % 2 ^ 3 = bits at low ⊢
  interval_cases bits <;> decide

/-- One of the kernel's ranges: `count` pages from `page` on, above everything
mapped so far. -/
structure Range (a p e perm page count : Nat) : Prop where
  start : p = page * PGSIZE
  size : sub32 e p = count * PGSIZE
  nonempty : 0 < count
  above : a ≤ page
  high : page + count ≤ 2 ^ 20
  supervisor : perm < 4
  kernel : forall w, page ≤ w -> w < page + count -> w / 1024 ∈ kernelTables

/-- A directory under construction with kernel mappings only. -/
structure KernelPart (image : Image) (owner : Nat -> Role) (s : Vm) (d total a : Nat) : Prop where
  building : Building image owner s d total a
  supervisor : Supervisor s d
  user : USERPAGES ≤ a

/-- Mapping one range keeps everything mapped before. -/
theorem mappages_kernel {image : Image} {owner : Nat -> Role} {s : Vm}
    {d total a p e perm page count : Nat} (part : KernelPart image owner s d total a)
    (range : Range a p e perm page count) :
    Program.wp (mappages d p (sub32 e p) (p / PGSIZE) perm)
      (fun ok t => Exists fun after => Within d owner after s t ∧ Heap image after t ∧
        if ok then KernelPart image after t d total (page + count) ∧
          (forall w, w < 2 ^ 20 -> Present (pte s d w) -> Present (pte t d w)) ∧
          (forall w, page ≤ w -> w < page + count -> Present (pte t d w))
        else total < 12)
      (fun _ => False) s := by
  have first : p / PGSIZE = page := by
    rw [range.start]
    exact Nat.mul_div_cancel page (by decide)
  have high := range.high
  have lower := part.user
  have above := range.above
  have start : Building image owner s d total page :=
    ⟨part.building.heap, part.building.dir,
      fun w atLeast below => part.building.fresh w (Nat.le_trans above atLeast) below,
      part.building.kernel, part.building.conserved⟩
  rw [first, range.size, range.start, mappages_range range.nonempty high]
  refine Program.wp_mono (mapPages_building (Nat.lt_trans range.supervisor (by decide)) count start
    (Nat.le_trans lower above) high high range.kernel) ?_ (fun _ stopped => stopped)
  rintro ok t ⟨after, within, heap, outcome⟩
  refine ⟨after, within, heap, ?_⟩
  cases ok with
  | false => exact outcome
  | true =>
      rw [if_pos rfl] at outcome ⊢
      rcases outcome with ⟨built, values⟩
      have flags := mapped_flags perm (Nat.lt_trans range.supervisor (by decide))
      have isPresent : forall w, Present (mapped page perm page w) := by
        intro w
        rw [mapped_eq]
        exact present_entry _ flags.1 flags.2
      have nonempty := range.nonempty
      refine ⟨⟨built, fun w below => ?_, Nat.le_trans lower (by omega)⟩, fun w below present => ?_,
        fun w atLeast below => ?_⟩
      · rw [values w below]
        by_cases inside : page ≤ w ∧ w < page + count
        · rw [if_pos inside]
          exact ⟨mapped_supervisor _ _ _ range.supervisor, fun isUser => by omega⟩
        · rw [if_neg inside]
          exact part.supervisor w below
      · rw [values w below]
        by_cases inside : page ≤ w ∧ w < page + count
        · rw [if_pos inside]
          exact isPresent w
        · rw [if_neg inside]
          exact present
      · rw [values w (by omega), if_pos ⟨atLeast, below⟩]
        exact isPresent w

/-- The ranges come in ascending order. -/
def Ascending (a : Nat) : List (Nat × Nat × Nat) -> Prop
  | [] => True
  | (p, e, perm) :: rest => Exists fun page => Exists fun count =>
      Range a p e perm page count ∧ Ascending (page + count) rest

/-- A page of one of the ranges. -/
def Covered (ranges : List (Nat × Nat × Nat)) (w : Nat) : Prop :=
  Exists fun k => k ∈ ranges ∧ k.1 ≤ w * PGSIZE ∧ w * PGSIZE < k.1 + sub32 k.2.1 k.1

theorem Range.covers {a p e perm page count w : Nat} (range : Range a p e perm page count)
    (lower : p ≤ w * PGSIZE) (upper : w * PGSIZE < p + sub32 e p) :
    page ≤ w ∧ w < page + count := by
  have start := range.start
  rw [range.size] at upper
  simp only [PGSIZE] at start lower upper
  omega

theorem mapKernel_ascending {image : Image} {d total : Nat} (ranges : List (Nat × Nat × Nat)) :
    forall {owner : Nat -> Role} {s : Vm} {a : Nat}, KernelPart image owner s d total a ->
      Ascending a ranges ->
      Program.wp (mapKernel d ranges)
        (fun result t => Exists fun after => Within d owner after s t ∧ Heap image after t ∧
          match result with
          | none => total < 12
          | some dir => dir = d ∧ (Exists fun b => KernelPart image after t d total b) ∧
              forall w, w < 2 ^ 20 -> Present (pte s d w) ∨ Covered ranges w -> Present (pte t d w))
        (fun _ => False) s := by
  induction ranges with
  | nil =>
      intro owner s a part _
      refine ⟨owner, Within.refl d owner s, part.building.heap, rfl, ⟨a, part⟩,
        fun w _ either => ?_⟩
      rcases either with present | ⟨k, member, _⟩
      · exact present
      · cases member
  | cons head rest ih =>
      rcases head with ⟨p, e, perm⟩
      rintro owner s a part ⟨page, count, range, ascending⟩
      rw [mapKernel, mapRange]
      refine Program.wp_seq (mappages_kernel part range) ?_
      rintro ok t ⟨middle, within, heap, outcome⟩
      cases ok with
      | false => exact ⟨middle, within, heap, outcome⟩
      | true =>
          rcases outcome with ⟨middlePart, kept, mappedRange⟩
          refine Program.wp_mono (ih middlePart ascending) ?_ (fun _ stopped => stopped)
          rintro result u ⟨after, restWithin, restHeap, restOutcome⟩
          refine ⟨after, within.trans restWithin, restHeap, ?_⟩
          cases result with
          | none => exact restOutcome
          | some dir =>
              rcases restOutcome with ⟨same, built, keptRest⟩
              refine ⟨same, built, fun w below either => keptRest w below ?_⟩
              rcases either with present | ⟨k, member, lower, upper⟩
              · exact Or.inl (kept w below present)
              · rcases List.mem_cons.mp member with rfl | later
                · have inside := range.covers lower upper
                  exact Or.inl (mappedRange w inside.1 inside.2)
                · exact Or.inr ⟨k, later, lower, upper⟩

/-- The first of the kernel's ranges is the memory between `USERTOP` and the
kernel text. -/
theorem kmap_first : Range USERPAGES USERTOP 0x100000 PTE_W USERPAGES 96 :=
  ⟨rfl, by decide, by decide, by decide, by decide, by decide, fun w lower upper => by
    rw [mem_kernelTables]
    simp only [USERPAGES, USERTOP, PGSIZE] at lower upper
    omega⟩

theorem kmap_rest (image : Image) : Ascending 256
    [(0x100000, image.data * PGSIZE, 0), (image.data * PGSIZE, PHYSTOP, PTE_W),
      (0xFE000000, 0, PTE_W)] := by
  have low := image.data_low
  have high := image.data_high
  refine ⟨256, image.data - 256, ⟨rfl, ?_, by omega, by omega, by omega, by decide, ?_⟩,
    image.data, 4096 - image.data, ⟨rfl, ?_, by omega, by omega, by omega, by decide, ?_⟩,
    0xFE000, 0x2000, ⟨by decide, by decide, by decide, by omega, by decide, by decide, ?_⟩, trivial⟩
  · simp only [sub32, PGSIZE]
    omega
  · intro w _ _
    rw [mem_kernelTables]
    omega
  · simp only [sub32, PGSIZE, PHYSTOP]
    omega
  · intro w _ _
    rw [mem_kernelTables]
    omega
  · intro w _ _
    rw [mem_kernelTables]
    omega

/-- Every one of the twelve tables has a page in one of the ranges. -/
theorem kernelTables_covered (image : Image) {i : Nat} (member : i ∈ kernelTables)
    (later : i ≠ 0) : Covered [(0x100000, image.data * PGSIZE, 0),
      (image.data * PGSIZE, PHYSTOP, PTE_W), (0xFE000000, 0, PTE_W)] (i * 1024) := by
  have low := image.data_low
  have high := image.data_high
  rcases mem_kernelTables.mp member with small | large
  · by_cases text : i * 1024 < image.data
    · refine ⟨_, List.mem_cons_self, ?_⟩
      simp only [sub32, PGSIZE]
      omega
    · refine ⟨_, List.mem_cons_of_mem _ List.mem_cons_self, ?_⟩
      simp only [sub32, PGSIZE, PHYSTOP]
      omega
  · refine ⟨_, List.mem_cons_of_mem _ (List.mem_cons_of_mem _ List.mem_cons_self), ?_⟩
    simp only [sub32, PGSIZE]
    omega

end AddressSpace
end OsProjects
