import Mathlib.Data.List.Nodup
import OsProjects.AddressSpace.Layout
import OsProjects.Machine.Bytes
import OsProjects.Machine.Program

namespace OsProjects
namespace AddressSpace

open Machine

/-!
# Physical memory and the page allocator

Physical memory is an array of pages, and the allocator keeps a list of free
ones.  Page tables live in the same memory as user data, so nothing in the
state says which page is used for what.  That is the job of an ownership map:
it gives every page one role, and since it is a function, two pages with
different roles are different pages.

An operation is described by what it leaves alone: a `Framed` step keeps the
contents and the role of every page whose role it does not touch.
-/

/-- A page of physical memory. -/
abbrev Page : Type := Bytes PGSIZE

/-- End of the physical memory that the kernel uses. -/
def PHYSTOP : Nat := 0x1000000

/-- The link-time constants of the kernel: the page of the symbol `data` and the
address of the symbol `end`. -/
structure Image where
  data : Nat
  end_ : Nat
  data_low : 0x100 < data
  data_high : data < 0x1000
  end_pos : 0x100000 ≤ end_

/-- The calls of `panic` in the modelled functions.  `trap` is the one that ends
a page fault in kernel mode, and `nullPte` the fault of `uva2ka` when it follows
a null pointer. -/
inductive Panic
  | remap
  | kfree
  | freevmNoPgdir
  | loaduvmUnaligned
  | loaduvmMissing
  | copyuvmMissing
  | copyuvmAbsent
  | trap
  | nullPte
  deriving DecidableEq

/-- Memory, free list and the running process. -/
structure Vm where
  mem : Nat -> Page
  freelist : List Nat
  proc : Proc

abbrev VmProgram (Value : Type) : Type := Program Panic Vm Value

/-- The state after a page has been overwritten. -/
def Vm.withPage (s : Vm) (page : Nat) (contents : Page) : Vm :=
  { s with mem := Function.update s.mem page contents }

@[simp] theorem Vm.withPage_freelist (s : Vm) (page : Nat) (contents : Page) :
    (s.withPage page contents).freelist = s.freelist := rfl

@[simp] theorem Vm.withPage_mem_self (s : Vm) (page : Nat) (contents : Page) :
    (s.withPage page contents).mem page = contents := by
  show Function.update s.mem page contents page = contents
  rw [Function.update_self]

theorem Vm.withPage_mem_of_ne (s : Vm) {page p : Nat} (contents : Page) (different : p ≠ page) :
    (s.withPage page contents).mem p = s.mem p := by
  show Function.update s.mem page contents p = s.mem p
  rw [Function.update_of_ne different]

/-- Overwrite a page. -/
def storePage (page : Nat) (contents : Page) : VmProgram Unit :=
  Program.modify (fun s => s.withPage page contents)

/-- Overwrite a 32-bit word of a page. -/
def storeWord (page i value : Nat) : VmProgram Unit :=
  Program.modify (fun s => s.withPage page ((s.mem page).setWord i value))

@[simp] theorem storePage_wp {page : Nat} {contents : Page} {post : Unit -> Vm -> Prop}
    {escape : Panic -> Prop} {s : Vm} :
    Program.wp (storePage page contents) post escape s ↔ post ⟨⟩ (s.withPage page contents) :=
  Iff.rfl

@[simp] theorem storeWord_wp {page i value : Nat} {post : Unit -> Vm -> Prop}
    {escape : Panic -> Prop} {s : Vm} :
    Program.wp (storeWord page i value) post escape s ↔
      post ⟨⟩ (s.withPage page ((s.mem page).setWord i value)) := Iff.rfl

/-- Allocate one page; `none` is the null pointer. -/
def kalloc : VmProgram (Option Nat) := fun s =>
  match s.freelist with
  | [] => .done none s
  | r :: rest => .done (some r) { s with freelist := rest }

/-- Free the page with number `v`, filling it with junk. -/
def kfree (image : Image) (v : Nat) : VmProgram Unit :=
  if v * PGSIZE < image.end_ ∨ PHYSTOP ≤ v * PGSIZE then Program.stop .kfree
  else do
    storePage v (Bytes.fill 1)
    Program.modify (fun s => { s with freelist := v :: s.freelist })

/-! ## Ownership -/

/-- What a page is used for.  `other` is memory the allocator never manages, and
`kernel` an allocated page outside all address spaces. -/
inductive Role
  | free
  | other
  | kernel
  | dir (d : Nat)
  | table (d i : Nat)
  | user (d v : Nat)
  deriving DecidableEq

/-- The roles of the pages that make up one address space. -/
def Role.Of (d : Nat) : Role -> Prop
  | .dir e => e = d
  | .table e _ => e = d
  | .user e _ => e = d
  | _ => False

/-- The allocator agrees with the ownership map. -/
structure Heap (image : Image) (owner : Nat -> Role) (s : Vm) : Prop where
  free : forall p, p ∈ s.freelist ↔ owner p = .free
  nodup : s.freelist.Nodup
  managed : forall p, owner p ≠ .other -> image.end_ ≤ p * PGSIZE ∧ p * PGSIZE < PHYSTOP

/-- A step that leaves alone every page whose role it does not touch. -/
structure Framed (touches : Role -> Prop) (owner after : Nat -> Role) (s t : Vm) : Prop where
  role : forall p, ¬ touches (owner p) -> after p = owner p
  contents : forall p, ¬ touches (owner p) -> t.mem p = s.mem p

theorem Framed.refl (touches : Role -> Prop) (owner : Nat -> Role) (s : Vm) :
    Framed touches owner owner s s :=
  ⟨fun _ _ => rfl, fun _ _ => rfl⟩

theorem Framed.mono {touches more : Role -> Prop} {owner after : Nat -> Role} {s t : Vm}
    (framed : Framed touches owner after s t) (wider : forall r, touches r -> more r) :
    Framed more owner after s t :=
  ⟨fun p untouched => framed.role p (fun hit => untouched (wider _ hit)),
    fun p untouched => framed.contents p (fun hit => untouched (wider _ hit))⟩

theorem Framed.trans {touches : Role -> Prop} {owner middle after : Nat -> Role} {s t u : Vm}
    (first : Framed touches owner middle s t) (second : Framed touches middle after t u) :
    Framed touches owner after s u := by
  refine ⟨fun p untouched => ?_, fun p untouched => ?_⟩
  · have same := first.role p untouched
    rw [second.role p (same ▸ untouched), same]
  · have same := first.role p untouched
    rw [second.contents p (same ▸ untouched), first.contents p untouched]

/-- Changing the contents of one touched page. -/
theorem Framed.withPage {touches : Role -> Prop} (owner : Nat -> Role) (s : Vm) (page : Nat)
    (contents : Page) (touched : touches (owner page)) :
    Framed touches owner owner s (s.withPage page contents) :=
  ⟨fun _ _ => rfl, fun _ untouched =>
    s.withPage_mem_of_ne contents (fun same => untouched (by rw [same]; exact touched))⟩

/-- Taking a free page and giving it a role. -/
theorem Framed.take {owner : Nat -> Role} {r : Nat} (isFree : owner r = .free) (role : Role)
    (s : Vm) (rest : List Nat) :
    Framed (fun r => r = .free) owner (Function.update owner r role) s
      { s with freelist := rest } :=
  ⟨fun _ untouched => Function.update_of_ne
    (fun same => untouched (by rw [same]; exact isFree)) _ _, fun _ _ => rfl⟩

/-! ## The allocator keeps the ownership map -/

/-- Taking the first free page and giving it a new role. -/
theorem Heap.take {image : Image} {owner : Nat -> Role} {s : Vm} (heap : Heap image owner s)
    {r : Nat} {rest : List Nat} (head : s.freelist = r :: rest) {role : Role}
    (used : role ≠ .free) (mem : Nat -> Page) (proc : Proc) :
    Heap image (Function.update owner r role) { mem := mem, freelist := rest, proc := proc } := by
  have nodup := heap.nodup
  rw [head] at nodup
  have fresh := (List.nodup_cons.mp nodup).1
  have isFree : owner r = .free := (heap.free r).mp (by rw [head]; exact List.mem_cons_self)
  refine ⟨fun p => ?_, (List.nodup_cons.mp nodup).2, fun p managed => ?_⟩
  · by_cases same : p = r
    · subst p
      rw [Function.update_self]
      exact ⟨fun member => absurd member fresh, fun impossible => absurd impossible used⟩
    · rw [Function.update_of_ne same, ← heap.free p, head, List.mem_cons]
      exact ⟨Or.inr, fun member => member.resolve_left same⟩
  · by_cases same : p = r
    · subst p
      exact heap.managed r (by rw [isFree]; decide)
    · rw [Function.update_of_ne same] at managed
      exact heap.managed p managed

/-- Giving a page back. -/
theorem Heap.give {image : Image} {owner : Nat -> Role} {s : Vm} (heap : Heap image owner s)
    {v : Nat} (used : owner v ≠ .free) (managed : owner v ≠ .other) (mem : Nat -> Page)
    (proc : Proc) :
    Heap image (Function.update owner v .free)
      { mem := mem, freelist := v :: s.freelist, proc := proc } := by
  refine ⟨fun p => ?_, List.nodup_cons.mpr ⟨fun member => used ((heap.free v).mp member),
    heap.nodup⟩, fun p isManaged => ?_⟩
  · by_cases same : p = v
    · subst p
      rw [Function.update_self]
      exact ⟨fun _ => rfl, fun _ => List.mem_cons_self⟩
    · rw [Function.update_of_ne same, ← heap.free p, List.mem_cons]
      exact ⟨fun member => member.resolve_left same, Or.inr⟩
  · by_cases same : p = v
    · subst p
      exact heap.managed v managed
    · rw [Function.update_of_ne same] at isManaged
      exact heap.managed p isManaged

/-- Changing memory or the process does not concern the allocator. -/
theorem Heap.congr {image : Image} {owner : Nat -> Role} {s t : Vm} (heap : Heap image owner s)
    (same : t.freelist = s.freelist) : Heap image owner t :=
  ⟨by rw [same]; exact heap.free, by rw [same]; exact heap.nodup, heap.managed⟩

/-- A managed page is not page 0. -/
theorem Heap.page_pos {image : Image} {owner : Nat -> Role} {s : Vm} (heap : Heap image owner s)
    {p : Nat} (managed : owner p ≠ .other) : 0 < p ∧ p < 0x1000 := by
  have bounds := heap.managed p managed
  have start := image.end_pos
  simp only [PGSIZE, PHYSTOP] at bounds
  omega

theorem Heap.zero_not_dir {image : Image} {owner : Nat -> Role} {s : Vm}
    (heap : Heap image owner s) : owner 0 ≠ .dir 0 := by
  intro isDir
  have managed : owner 0 ≠ .other := by rw [isDir]; exact Role.noConfusion
  exact absurd (heap.page_pos managed).1 (Nat.lt_irrefl 0)

/-- `kalloc` fails exactly when the free list is empty. -/
theorem kalloc_wp {s : Vm} {post : Option Nat -> Vm -> Prop} {escape : Panic -> Prop}
    (fails : s.freelist = [] -> post none s)
    (takes : forall r rest, s.freelist = r :: rest -> post (some r) { s with freelist := rest }) :
    Program.wp kalloc post escape s := by
  unfold Program.wp kalloc
  cases free : s.freelist with
  | nil => exact fails free
  | cons r rest => exact takes r rest free

/-- `kfree` of a managed page returns it to the free list. -/
theorem kfree_wp {image : Image} {owner : Nat -> Role} {s : Vm} (heap : Heap image owner s)
    {v : Nat} (managed : owner v ≠ .other) {post : Unit -> Vm -> Prop} {escape : Panic -> Prop}
    (returns : post ⟨⟩ { s with
      mem := (s.withPage v (Bytes.fill 1)).mem, freelist := v :: s.freelist }) :
    Program.wp (kfree image v) post escape s := by
  have bounds := heap.managed v managed
  unfold kfree
  rw [if_neg (by omega)]
  exact returns

end AddressSpace
end OsProjects
