import Mathlib.Order.Interval.Finset.Nat
import OsProjects.AddressSpace.PhysicalMemory

namespace OsProjects
namespace AddressSpace

open Machine

/-!
# Two-level page tables

A page directory is a page of 1024 words, and each present word names a page
table, again a page of 1024 words.  `pte` reads the entry of a virtual page
through both levels.  `Dir` says that the pages of an address space have the
roles they are used for; it is what makes the entries of one virtual page
independent of all other writes.
-/

def PTE_P : Nat := 1
def PTE_W : Nat := 2
def PTE_U : Nat := 4

/-- Page directory index. -/
def PDX (la : Nat) : Nat := la / 2 ^ 22 % 1024

/-- Page table index. -/
def PTX (la : Nat) : Nat := la / 2 ^ 12 % 1024

/-- The page that an entry refers to, `PTE_ADDR` as a page number. -/
def PTE_ADDR (entry : Nat) : Nat := entry / PGSIZE

/-- The present bit of an entry. -/
def Present (entry : Nat) : Prop := entry &&& PTE_P ≠ 0

instance (entry : Nat) : Decidable (Present entry) := inferInstanceAs (Decidable (_ ≠ _))

/-- Subtraction of 32-bit values. -/
def sub32 (a b : Nat) : Nat := (a + 2 ^ 32 - b) % 2 ^ 32

/-- Round up to a page boundary in 32-bit arithmetic. -/
def PGROUNDUP (sz : Nat) : Nat := (sz + PGSIZE - 1) % 2 ^ 32 / PGSIZE * PGSIZE

/-- Round down to a page boundary. -/
def PGROUNDDOWN (a : Nat) : Nat := a / PGSIZE * PGSIZE

/-- The place of the entry for `va`: the page of its table and its index there.
With `create` a missing table is allocated. -/
def walkpgdir (pgdir va : Nat) (create : Bool) : VmProgram (Option (Nat × Nat)) := do
  let pde <- Program.read (fun s => (s.mem pgdir).word (PDX va))
  if Present pde then pure (some (PTE_ADDR pde, PTX va))
  else if create then do
    match <- kalloc with
    | none => pure none
    | some pgtab => do
        storePage pgtab (Bytes.fill 0)
        storeWord pgdir (PDX va) (pgtab * PGSIZE ||| PTE_P ||| PTE_W ||| PTE_U)
        pure (some (pgtab, PTX va))
  else pure none

/-- The loop of `mappages`, with the number of pages still to map.  `false` is
the return value -1. -/
def mapPages (pgdir perm : Nat) : Nat -> Nat -> Nat -> VmProgram Bool
  | 0, _, _ => pure true
  | count + 1, a, pa => do
      match <- walkpgdir pgdir a true with
      | none => pure false
      | some (pgtab, i) => do
          let pte <- Program.read (fun s => (s.mem pgtab).word i)
          if Present pte then Program.stop .remap
          else do
            storeWord pgtab i (pa * PGSIZE ||| perm ||| PTE_P)
            mapPages pgdir perm count (a + PGSIZE) (pa + 1)

/-- Map the pages from `la` to `la + size - 1` to the pages from `pa` on. -/
def mappages (pgdir la size pa perm : Nat) : VmProgram Bool :=
  let a := PGROUNDDOWN la
  let last := PGROUNDDOWN ((la + size - 1) % 2 ^ 32)
  mapPages pgdir perm (sub32 last a / PGSIZE + 1) a pa

/-- The kernel's mappings: start, end and permissions. -/
def kmap (image : Image) : List (Nat × Nat × Nat) :=
  [(USERTOP, 0x100000, PTE_W), (0x100000, image.data * PGSIZE, 0),
    (image.data * PGSIZE, PHYSTOP, PTE_W), (0xFE000000, 0, PTE_W)]

/-- The body of the loop of `setupkvm`.  On failure it returns without freeing
anything. -/
def mapRange (pgdir : Nat) (k : Nat × Nat × Nat) (rest : VmProgram (Option Nat)) :
    VmProgram (Option Nat) := do
  if <- mappages pgdir k.1 (sub32 k.2.1 k.1) (k.1 / PGSIZE) k.2.2 then rest
  else pure none

/-- The loop of `setupkvm`. -/
def mapKernel (pgdir : Nat) : List (Nat × Nat × Nat) -> VmProgram (Option Nat)
  | [] => pure (some pgdir)
  | k :: rest => mapRange pgdir k (mapKernel pgdir rest)

/-- Set up the kernel part of a page table. -/
def setupkvm (image : Image) : VmProgram (Option Nat) := do
  match <- kalloc with
  | none => pure none
  | some pgdir => do
      storePage pgdir (Bytes.fill 0)
      mapKernel pgdir (kmap image)

/-! ## Entries -/

theorem present_iff (entry : Nat) : Present entry ↔ entry % 2 = 1 := by
  unfold Present PTE_P
  rw [Nat.and_one_is_mod]
  omega

/-- An entry made of a page number and low flag bits. -/
theorem entry_eq (page : Nat) {flags : Nat} (small : flags < PGSIZE) :
    page * PGSIZE ||| flags = page * PGSIZE + flags := by
  have sum := Nat.two_pow_add_eq_or_of_lt (i := 12) (show flags < 2 ^ 12 from small) page
  rw [show page * PGSIZE = 2 ^ 12 * page from Nat.mul_comm _ _]
  exact sum.symm

theorem PTE_ADDR_entry (page : Nat) {flags : Nat} (small : flags < PGSIZE) :
    PTE_ADDR (page * PGSIZE ||| flags) = page := by
  rw [PTE_ADDR, entry_eq page small]
  simp only [PGSIZE] at small ⊢
  omega

theorem present_entry (page : Nat) {flags : Nat} (small : flags < PGSIZE) (odd : flags % 2 = 1) :
    Present (page * PGSIZE ||| flags) := by
  rw [present_iff, entry_eq page small]
  simp only [PGSIZE]
  omega

theorem entry_lt {page flags : Nat} (small : flags < PGSIZE) (low : page < 2 ^ 20) :
    page * PGSIZE ||| flags < 2 ^ 32 := by
  rw [entry_eq page small]
  simp only [PGSIZE] at small ⊢
  omega

theorem not_present_zero : ¬ Present 0 := by decide

/-! ## Reading through both levels -/

/-- The directory entry with index `i`. -/
def pde (s : Vm) (d i : Nat) : Nat := (s.mem d).word i

/-- The entry of the virtual page `v`; zero when there is no table for it. -/
def pte (s : Vm) (d v : Nat) : Nat :=
  if Present (pde s d (v / 1024)) then
    (s.mem (PTE_ADDR (pde s d (v / 1024)))).word (v % 1024)
  else 0

/-- Number of user pages. -/
def USERPAGES : Nat := USERTOP / PGSIZE

/-- Every page of the address space `d` has the role it is used for. -/
structure Dir (owner : Nat -> Role) (s : Vm) (d : Nat) : Prop where
  self : owner d = .dir d
  table : forall i, i < 1024 -> Present (pde s d i) -> owner (PTE_ADDR (pde s d i)) = .table d i
  user : forall v, v < USERPAGES -> Present (pte s d v) -> owner (PTE_ADDR (pte s d v)) = .user d v

theorem pte_of_present {s : Vm} {d v : Nat} (present : Present (pde s d (v / 1024))) :
    pte s d v = (s.mem (PTE_ADDR (pde s d (v / 1024)))).word (v % 1024) :=
  if_pos present

theorem pte_of_absent {s : Vm} {d v : Nat} (absent : ¬ Present (pde s d (v / 1024))) :
    pte s d v = 0 :=
  if_neg absent

theorem present_pde_of_pte {s : Vm} {d v : Nat} (present : Present (pte s d v)) :
    Present (pde s d (v / 1024)) := by
  by_contra absent
  rw [pte_of_absent absent] at present
  exact not_present_zero present

/-- The same pages have the same entries. -/
theorem pte_congr {s t : Vm} {d v : Nat} (sameDir : t.mem d = s.mem d)
    (sameTable : Present (pde s d (v / 1024)) ->
      t.mem (PTE_ADDR (pde s d (v / 1024))) = s.mem (PTE_ADDR (pde s d (v / 1024)))) :
    pte t d v = pte s d v := by
  have entries : pde t d (v / 1024) = pde s d (v / 1024) := by rw [pde, pde, sameDir]
  by_cases present : Present (pde s d (v / 1024))
  · rw [pte_of_present present, pte_of_present (by rw [entries]; exact present), entries,
      sameTable present]
  · rw [pte_of_absent present, pte_of_absent (by rw [entries]; exact present)]

/-! ## Independent writes -/

/-- An address space survives every step that keeps the roles of its pages and
the contents of its directory and tables. -/
theorem Dir.kept {owner after : Nat -> Role} {s t : Vm} {d : Nat} (dir : Dir owner s d)
    (role : forall p, (owner p).Of d -> after p = owner p)
    (contents : forall p, owner p = .dir d ∨ (Exists fun i => owner p = .table d i) ->
      t.mem p = s.mem p) :
    Dir after t d ∧ (forall i, pde t d i = pde s d i) ∧
      forall v, v < 2 ^ 20 -> pte t d v = pte s d v := by
  have sameDir : t.mem d = s.mem d := contents d (Or.inl dir.self)
  have entries : forall i, pde t d i = pde s d i := fun i => by rw [pde, pde, sameDir]
  have same : forall v, v < 2 ^ 20 -> pte t d v = pte s d v := by
    intro v below
    refine pte_congr sameDir (fun present => contents _ (Or.inr ⟨v / 1024, ?_⟩))
    exact dir.table (v / 1024) (by omega) present
  refine ⟨⟨?_, fun i below present => ?_, fun v below present => ?_⟩, entries, same⟩
  · rw [role d (by rw [dir.self]; exact rfl), dir.self]
  · rw [entries] at present ⊢
    have table := dir.table i below present
    rw [role _ (by rw [table]; exact rfl), table]
  · rw [same v (Nat.lt_trans below (by decide))] at present ⊢
    have user := dir.user v below present
    rw [role _ (by rw [user]; exact rfl), user]

/-- A free page may get any role. -/
theorem Dir.retag {owner : Nat -> Role} {s : Vm} {d : Nat} (dir : Dir owner s d) {r : Nat}
    (role : Role) (isFree : owner r = .free) : Dir (Function.update owner r role) s d := by
  refine (dir.kept (fun p mine => Function.update_of_ne (fun same => ?_) _ _) (fun _ _ => rfl)).1
  rw [same, isFree] at mine
  exact mine

/-- Writing the entry of the virtual page `v` changes that entry and no other. -/
theorem Dir.setEntry {owner : Nat -> Role} {s : Vm} {d v entry : Nat} (dir : Dir owner s d)
    (low : v < 2 ^ 20) (present : Present (pde s d (v / 1024))) (fits : entry < 2 ^ 32)
    (roles : v < USERPAGES -> Present entry -> owner (PTE_ADDR entry) = .user d v) :
    let t := s.withPage (PTE_ADDR (pde s d (v / 1024)))
      ((s.mem (PTE_ADDR (pde s d (v / 1024)))).setWord (v % 1024) entry)
    Dir owner t d ∧ (forall i, pde t d i = pde s d i) ∧
      forall w, w < 2 ^ 20 -> pte t d w = if w = v then entry else pte s d w := by
  intro t
  have role := dir.table (v / 1024) (by omega) present
  have otherDir : d ≠ PTE_ADDR (pde s d (v / 1024)) := by
    intro same
    rw [← same, dir.self] at role
    cases role
  have sameDir : t.mem d = s.mem d := s.withPage_mem_of_ne _ otherDir
  have entries : forall i, pde t d i = pde s d i := fun i => by rw [pde, pde, sameDir]
  have values : forall w, w < 2 ^ 20 -> pte t d w = if w = v then entry else pte s d w := by
    intro w below
    by_cases sameTable : w / 1024 = v / 1024
    · have presentW : Present (pde t d (w / 1024)) := by rw [entries, sameTable]; exact present
      rw [pte_of_present presentW, entries, sameTable, Vm.withPage_mem_self]
      by_cases same : w = v
      · subst w
        rw [if_pos rfl]
        exact Bytes.word_setWord_self _ (by simp only [PGSIZE]; omega) fits
      · rw [if_neg same, Bytes.word_setWord_of_ne _ entry (by omega), pte, sameTable,
          if_pos present]
    · have same : w ≠ v := fun equal => sameTable (by rw [equal])
      rw [if_neg same]
      refine pte_congr sameDir (fun presentW => s.withPage_mem_of_ne _ (fun equal => ?_))
      have roleW := dir.table (w / 1024) (by omega) presentW
      rw [equal, role] at roleW
      exact sameTable (Role.table.inj roleW).2.symm
  refine ⟨⟨dir.self, fun i below presentI => ?_, fun w below presentW => ?_⟩, entries, values⟩
  · rw [entries] at presentI ⊢
    exact dir.table i below presentI
  · rw [values w (Nat.lt_trans below (by decide))] at presentW ⊢
    by_cases same : w = v
    · subst w
      rw [if_pos rfl] at presentW ⊢
      exact roles below presentW
    · rw [if_neg same] at presentW ⊢
      exact dir.user w below presentW

/-- Installing an empty table for a missing directory entry changes no entry. -/
theorem Dir.addTable {owner : Nat -> Role} {s : Vm} {d i r flags : Nat} (dir : Dir owner s d)
    (below : i < 1024) (absent : ¬ Present (pde s d i)) (isFree : owner r = .free)
    (lowPage : r < 2 ^ 20) (small : flags < PGSIZE) (odd : flags % 2 = 1) (freelist : List Nat) :
    let u : Vm := { s with freelist := freelist }
    let z := u.withPage r (Bytes.fill 0)
    let t := z.withPage d ((z.mem d).setWord i (r * PGSIZE ||| flags))
    Dir (Function.update owner r (.table d i)) t d ∧
      (forall j, pde t d j = if j = i then r * PGSIZE ||| flags else pde s d j) ∧
      forall v, v < 2 ^ 20 -> pte t d v = pte s d v := by
  intro u z t
  have different : r ≠ d := by
    intro same
    rw [same, dir.self] at isFree
    cases isFree
  have dirPage : z.mem d = s.mem d := u.withPage_mem_of_ne _ (Ne.symm different)
  have entries : forall j, pde t d j = if j = i then r * PGSIZE ||| flags else pde s d j := by
    intro j
    rw [pde, Vm.withPage_mem_self, dirPage]
    by_cases same : j = i
    · subst j
      rw [if_pos rfl]
      exact Bytes.word_setWord_self _ (by simp only [PGSIZE]; omega) (entry_lt small lowPage)
    · rw [if_neg same]
      exact Bytes.word_setWord_of_ne _ _ same
  have tablePage : t.mem r = Bytes.fill 0 := by
    rw [z.withPage_mem_of_ne _ different]
    exact u.withPage_mem_self r _
  have otherPage : forall p, p ≠ r -> p ≠ d -> t.mem p = s.mem p := by
    intro p notTable notDir
    rw [z.withPage_mem_of_ne _ notDir, u.withPage_mem_of_ne _ notTable]
  have oldTable : forall j, j < 1024 -> Present (pde s d j) -> PTE_ADDR (pde s d j) ≠ r ∧
      PTE_ADDR (pde s d j) ≠ d := by
    intro j lower presentJ
    have role := dir.table j lower presentJ
    constructor
    · intro same
      rw [same, isFree] at role
      cases role
    · intro same
      rw [same, dir.self] at role
      cases role
  have values : forall v, v < 2 ^ 20 -> pte t d v = pte s d v := by
    intro v low
    by_cases here : v / 1024 = i
    · have nowPresent : Present (pde t d (v / 1024)) := by
        rw [entries, if_pos here]
        exact present_entry r small odd
      rw [pte_of_present nowPresent, entries, if_pos here, PTE_ADDR_entry r small, tablePage,
        pte_of_absent (by rw [here]; exact absent)]
      exact Bytes.word_fill_zero _
    · have entry : pde t d (v / 1024) = pde s d (v / 1024) := by rw [entries, if_neg here]
      by_cases presentV : Present (pde s d (v / 1024))
      · have old := oldTable (v / 1024) (by omega) presentV
        rw [pte_of_present presentV, pte_of_present (by rw [entry]; exact presentV), entry,
          otherPage _ old.1 old.2]
      · rw [pte_of_absent presentV, pte_of_absent (by rw [entry]; exact presentV)]
  have retagged := dir.retag (.table d i) isFree
  refine ⟨⟨retagged.self, fun j lower presentJ => ?_, fun v lower presentV => ?_⟩, entries, values⟩
  · by_cases same : j = i
    · subst j
      rw [entries, if_pos rfl, PTE_ADDR_entry r small, Function.update_self]
    · rw [entries, if_neg same] at presentJ ⊢
      exact retagged.table j lower presentJ
  · rw [values v (Nat.lt_trans lower (by decide))] at presentV ⊢
    exact retagged.user v lower presentV

end AddressSpace
end OsProjects
