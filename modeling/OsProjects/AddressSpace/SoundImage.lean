import OsProjects.AddressSpace.Leak

namespace OsProjects
namespace AddressSpace

open Machine

/-!
# Files that `exec` can load

`exec` takes the place of a segment from the file and checks neither its alignment
nor where it lies, and the size of the image is the sum of all that the headers
ask for, in 32-bit arithmetic.  `File.Sound` says which files avoid the
consequences: what is copied goes to pages of the new image, every segment fits
below the end of the image, and the image ends below the stack.

For these files the bytes are followed through the whole of `exec`: loading writes
the file part of a segment and nothing else, and the arguments stay on the stack.
-/

/-! ## Bytes of an address space -/

/-- The byte at a user address. -/
def Holds (s : Vm) (d a : Nat) (b : UInt8) : Prop :=
  Present (pte s d (a / PGSIZE)) ∧ (s.mem (PTE_ADDR (pte s d (a / PGSIZE)))).get (a % PGSIZE) = b

theorem Holds.of_mem {s t : Vm} {d a : Nat} {b : UInt8} (holds : Holds s d a b)
    (same : t.mem = s.mem) : Holds t d a b := by
  have entries : forall v, pte t d v = pte s d v := fun v => by
    unfold pte pde
    rw [same]
  unfold Holds at holds ⊢
  rw [entries, same]
  exact holds

theorem Preserves.holds {s t : Vm} {d a : Nat} {b : UInt8} (preserves : Preserves d s t)
    (isUser : a / PGSIZE < USERPAGES) (holds : Holds s d a b) : Holds t d a b := by
  have same := preserves.entries _ isUser holds.1
  unfold Holds
  rw [same, preserves.contents _ isUser holds.1]
  exact holds

/-- The bytes in a range are as wanted, and all others are as before. -/
structure Filled (d : Nat) (range : Nat -> Prop) (want : Nat -> UInt8) (s t : Vm) : Prop where
  inside : forall a, range a -> Holds t d a (want a)
  outside : forall a b, a / PGSIZE < USERPAGES -> ¬ range a -> Holds s d a b -> Holds t d a b

theorem Filled.refl {d : Nat} {range : Nat -> Prop} (want : Nat -> UInt8) (s : Vm)
    (empty : forall a, ¬ range a) : Filled d range want s s :=
  ⟨fun a inside => absurd inside (empty a), fun _ _ _ _ => id⟩

/-- Filling one range and then the rest. -/
theorem Filled.trans {d : Nat} {first second whole : Nat -> Prop} {want : Nat -> UInt8} {s t u : Vm}
    (one : Filled d first want s t) (two : Filled d second want t u)
    (split : forall a, whole a ↔ first a ∨ second a)
    (isUser : forall a, first a -> a / PGSIZE < USERPAGES) : Filled d whole want s u := by
  refine ⟨fun a inside => ?_, fun a b below outside holds => ?_⟩
  · by_cases later : second a
    · exact two.inside a later
    · have early := ((split a).mp inside).resolve_right later
      exact two.outside a _ (isUser a early) later (one.inside a early)
  · refine two.outside a b below (fun inside => outside ((split a).mpr (Or.inr inside))) ?_
    exact one.outside a b below (fun inside => outside ((split a).mpr (Or.inl inside))) holds

/-- Writing part of the page behind a user entry. -/
theorem Filled.splice {owner : Nat -> Role} {s : Vm} {d v off len : Nat} {pages : Nat -> Prop}
    (space : Space owner s d pages) (isUser : v < USERPAGES) (mapped : pages v)
    (fits : off + len ≤ PGSIZE) (src : Nat -> UInt8) :
    Filled d (fun a => v * PGSIZE + off ≤ a ∧ a < v * PGSIZE + off + len)
      (fun a => src (a - (v * PGSIZE + off))) s
      (s.withPage (PTE_ADDR (pte s d v)) ((s.mem (PTE_ADDR (pte s d v))).splice off len src)) := by
  have present := (space.user v isUser).mpr mapped
  have role := space.dir.user v isUser present
  have entries := (space.dir.kept (t := s.withPage (PTE_ADDR (pte s d v))
      ((s.mem (PTE_ADDR (pte s d v))).splice off len src)) (fun _ _ => rfl)
    (fun p structural => Vm.withPage_mem_of_ne _ _ (fun same => by
      rw [same, role] at structural
      rcases structural with self | ⟨i, table⟩
      · cases self
      · cases table))).2.2
  refine ⟨fun a inside => ?_, fun a b below outside holds => ?_⟩
  · have page : a / PGSIZE = v := by
      simp only [PGSIZE] at inside fits ⊢
      omega
    have offset : off ≤ a % PGSIZE ∧ a % PGSIZE < off + len ∧
        a % PGSIZE - off = a - (v * PGSIZE + off) := by
      simp only [PGSIZE] at inside fits ⊢
      omega
    unfold Holds
    rw [page, entries v (userpage_table isUser).2.2, Vm.withPage_mem_self, Bytes.get_splice _ _ _ _
      (Nat.mod_lt a (by decide)), if_pos ⟨offset.1, offset.2.1⟩, offset.2.2]
    exact ⟨present, rfl⟩
  · unfold Holds at holds ⊢
    rw [entries _ (userpage_table below).2.2]
    refine ⟨holds.1, ?_⟩
    by_cases page : a / PGSIZE = v
    · rw [page] at holds ⊢
      rw [Vm.withPage_mem_self, Bytes.get_splice_outside _ _ _ _ ?_]
      · exact holds.2
      · simp only [PGSIZE] at page outside ⊢
        omega
    · rw [Vm.withPage_mem_of_ne]
      · exact holds.2
      · intro same
        have other := space.dir.user _ below holds.1
        rw [same, role] at other
        exact page (Role.user.inj other).2.symm

/-! ## Sound files -/

/-- An iteration of `loaduvm` that copies something. -/
def File.Copies (ip : File) (offset sz i : Nat) : Prop :=
  Exists fun m => ip.readi ((offset + i) % 2 ^ 32) (chunkSize sz i) = some m ∧ m ≠ 0

/-- The iterations of `loaduvm` that are reached copy to pages of an image that
ends at `sz`, or at least find a page table. -/
def File.SegmentSafe (ip : File) (ph : ProgHdr) (sz : Nat) : Prop :=
  ph.va % PGSIZE = 0 ∧ forall k, k < ceilPage ph.filesz ->
    ip.chunks ph.offset ph.filesz k 0 = true ->
    (ip.Copies ph.offset ph.filesz (k * PGSIZE) -> ImagePages sz (ph.va / PGSIZE + k)) ∧
    (¬ ip.Copies ph.offset ph.filesz (k * PGSIZE) -> (ph.va / PGSIZE + k) / 1024 ∈ kernelTables)

/-- Every segment that is reached is safe. -/
def File.SafeFrom (ip : File) : Nat -> Nat -> Nat -> Prop
  | 0, _, _ => True
  | count + 1, off, sz => ip.readi off 32 = some 32 ->
      ((ip.ph off).type = ELF_PROG_LOAD -> (ip.ph off).filesz ≤ (ip.ph off).memsz ->
        (ip.ph off).newsz sz ≤ USERTOP -> ip.SegmentSafe (ip.ph off) ((ip.ph off).grow sz)) ∧
      (ip.loadable (ip.ph off) sz ->
        ip.SafeFrom count ((off + 32) % 2 ^ 32) ((ip.ph off).grow sz))

/-- The loadable segments, in the order of their headers. -/
def File.segments (ip : File) : Nat -> Nat -> List ProgHdr
  | 0, _ => []
  | count + 1, off =>
      if (ip.ph off).type = ELF_PROG_LOAD then ip.ph off :: ip.segments count ((off + 32) % 2 ^ 32)
      else ip.segments count ((off + 32) % 2 ^ 32)

/-- The addresses of the file part of a segment. -/
def ProgHdr.FilePart (ph : ProgHdr) (a : Nat) : Prop := ph.va ≤ a ∧ a < ph.va + ph.filesz

/-- The byte of the file that belongs to an address of the file part. -/
def File.byteAt (ip : File) (ph : ProgHdr) (a : Nat) : UInt8 := ip.bytes (ph.offset + (a - ph.va))

/-- Segments that overlap have the same bytes there. -/
def File.Agree (ip : File) (segments : List ProgHdr) : Prop :=
  forall one, one ∈ segments -> forall two, two ∈ segments -> forall a, one.FilePart a ->
    two.FilePart a -> ip.byteAt one a = ip.byteAt two a

/-- All segments that the file asks for. -/
def File.allSegments (ip : File) : List ProgHdr := ip.segments ip.elf.phnum ip.elf.phoff

/-- The stack pointer after an argument has been pushed. -/
def pushArgument (sp : Nat) (arg : Argument) : Nat := sub32 sp (arg.bytes.length + 1) / 4 * 4

/-- The stack pointer after the arguments have been pushed. -/
def stackPointer (argv : List Argument) (sp : Nat) : Nat := argv.foldl pushArgument sp

/-- The lowest address that the arguments take up on the stack. -/
def argumentsEnd (argv : List Argument) : Nat :=
  sub32 (stackPointer argv USERTOP) ((3 + argv.length + 1) * 4)

/-- There are not too many arguments, and they end in mapped memory: in the stack
page, or in the image if it reaches up to the stack page. -/
structure File.Fits (ip : File) (argv : List Argument) : Prop where
  few : argv.length ≤ MAXARG
  isUser : argumentsEnd argv < USERTOP
  mapped : PGSIZE ≤ argumentsEnd argv
  gap : ceilPage ip.last + 1 < USERPAGES -> USERTOP - PGSIZE ≤ argumentsEnd argv

/-- Each segment lies in the image, overlapping ones agree, and all file parts end
below the arguments. -/
structure File.Intact (ip : File) (argv : List Argument) : Prop where
  inside : forall ph, ph ∈ ip.allSegments -> ph.memsz = 0 ∨
    (PGSIZE ≤ ph.va ∧ ph.va + ph.memsz ≤ ceilPage ip.last * PGSIZE)
  agree : ip.Agree ip.allSegments
  below : forall ph, ph ∈ ip.allSegments -> ph.filesz = 0 ∨
    ph.va + ph.filesz ≤ argumentsEnd argv

/-- What a file must fulfil when all of its segments can be loaded: the image ends
below the stack page, and if the arguments fit as well then the image is intact. -/
structure File.Complete (ip : File) (argv : List Argument) : Prop where
  stack : ip.last ≤ USERTOP - PGSIZE
  intact : ip.Fits argv -> ip.Intact argv

/-- The files that `exec` treats correctly. -/
structure File.Sound (ip : File) (argv : List Argument) : Prop where
  safe : ip.SafeFrom ip.elf.phnum ip.elf.phoff PGSIZE
  complete : ip.Loadable ip.elf.phnum ip.elf.phoff PGSIZE -> ip.Complete argv

/-! ## Chunks of a segment -/

/-- A chunk that is found lies in the file. -/
theorem File.chunk_bounds {ip : File} {offset sz i : Nat} (found : ip.chunk offset sz i = true) :
    (offset + i) % 2 ^ 32 + chunkSize sz i ≤ ip.size := by
  rw [File.chunk, beq_iff_eq, File.readi] at found
  split at found
  · cases found
  · have delivered := Option.some.inj found
    omega

theorem File.chunks_succ (ip : File) (offset sz count : Nat) :
    forall i, ip.chunks offset sz (count + 1) i =
      (ip.chunks offset sz count i && ip.chunk offset sz (i + count * PGSIZE)) := by
  induction count with
  | zero =>
      intro i
      rw [File.chunks, File.chunks, File.chunks, Nat.zero_mul, Nat.add_zero, Bool.and_true,
        Bool.true_and]
  | succ count ih =>
      intro i
      have shifted : i + PGSIZE + count * PGSIZE = i + (count + 1) * PGSIZE := by
        rw [Nat.succ_mul]
        omega
      rw [File.chunks, ih, File.chunks, Bool.and_assoc, shifted]

/-- The chunks before a given one are full pages of the file. -/
theorem File.chunks_bounds {ip : File} {offset sz : Nat} (small : offset < 2 ^ 32) (k : Nat)
    (full : k * PGSIZE ≤ sz) (found : ip.chunks offset sz k 0 = true) :
    k = 0 ∨ offset + k * PGSIZE ≤ ip.size := by
  induction k with
  | zero => exact Or.inl rfl
  | succ k ih =>
      have limit := ip.small
      rw [File.chunks_succ, Bool.and_eq_true, Nat.zero_add] at found
      have before := ih (by rw [Nat.succ_mul] at full; omega) found.1
      have bounds := ip.chunk_bounds found.2
      have whole : chunkSize sz (k * PGSIZE) = PGSIZE := by
        rw [Nat.succ_mul] at full
        rw [chunkSize, if_neg (by omega)]
      have noWrap : (offset + k * PGSIZE) % 2 ^ 32 = offset + k * PGSIZE := by
        rcases before with rfl | low
        · rw [Nat.zero_mul, Nat.add_zero, Nat.mod_eq_of_lt small]
        · exact Nat.mod_eq_of_lt (by omega)
      rw [noWrap, whole] at bounds
      rw [Nat.succ_mul]
      omega

/-- The offset of a chunk that is reached does not wrap around. -/
theorem File.offset_noWrap {ip : File} {offset sz : Nat} (small : offset < 2 ^ 32) {k : Nat}
    (full : k * PGSIZE ≤ sz) (found : ip.chunks offset sz k 0 = true) :
    (offset + k * PGSIZE) % 2 ^ 32 = offset + k * PGSIZE := by
  have limit := ip.small
  rcases File.chunks_bounds small k full found with rfl | low
  · rw [Nat.zero_mul, Nat.add_zero, Nat.mod_eq_of_lt small]
  · exact Nat.mod_eq_of_lt (by omega)

/-! ## Loading -/

/-- The entries of an address space do not depend on the contents of user pages. -/
theorem Space.entries_store {owner : Nat -> Role} {s : Vm} {d e r v : Nat} {pages : Nat -> Prop}
    (space : Space owner s d pages) (role : owner r = .user e v)
    (contents : Page) : (forall i, pde (s.withPage r contents) d i = pde s d i) ∧
      forall w, w < 2 ^ 20 -> pte (s.withPage r contents) d w = pte s d w := by
  refine (space.dir.kept (fun _ _ => rfl) (fun p structural => Vm.withPage_mem_of_ne _ _
    (fun same => ?_))).2
  rw [same, role] at structural
  rcases structural with self | ⟨i, table⟩
  · cases self
  · cases table

/-- What writing user pages of `d` keeps: everything but the pages that `d` has mapped. -/
structure Stored (owner : Nat -> Role) (d : Nat) (pages : Nat -> Prop) (s t : Vm) : Prop where
  within : Within d owner owner s t
  freelist : t.freelist = s.freelist
  space : Space owner t d pages
  directory : t.mem d = s.mem d
  entries : forall w, w < 2 ^ 20 -> pte t d w = pte s d w
  only : forall p, t.mem p ≠ s.mem p -> Exists fun v => v < USERPAGES ∧ pages v ∧
    p = PTE_ADDR (pte s d v)

theorem Stored.refl {owner : Nat -> Role} {d : Nat} {pages : Nat -> Prop} {s : Vm}
    (space : Space owner s d pages) : Stored owner d pages s s :=
  ⟨Within.refl d owner s, rfl, space, rfl, fun _ _ => rfl, fun _ changed => absurd rfl changed⟩

theorem Stored.trans {owner : Nat -> Role} {d : Nat} {pages : Nat -> Prop} {s t u : Vm}
    (first : Stored owner d pages s t) (second : Stored owner d pages t u) :
    Stored owner d pages s u := by
  refine ⟨first.within.trans second.within, second.freelist.trans first.freelist, second.space,
    second.directory.trans first.directory,
    fun w below => (second.entries w below).trans (first.entries w below), fun p changed => ?_⟩
  by_cases same : t.mem p = s.mem p
  · rw [← same] at changed
    rcases second.only p changed with ⟨v, isUser, mapped, frame⟩
    rw [first.entries v (userpage_table isUser).2.2] at frame
    exact ⟨v, isUser, mapped, frame⟩
  · exact first.only p same

theorem Stored.page {owner : Nat -> Role} {s : Vm} {d v : Nat} {pages : Nat -> Prop}
    (space : Space owner s d pages) (isUser : v < USERPAGES) (mapped : pages v) (contents : Page) :
    Stored owner d pages s (s.withPage (PTE_ADDR (pte s d v)) contents) := by
  have role := space.dir.user v isUser ((space.user v isUser).mpr mapped)
  refine ⟨Within.store owner s (by rw [role]; exact rfl) contents, rfl,
    space.store_user role contents, (Steady.store_user space role contents).directory,
    (space.entries_store role contents).2, fun p changed => ?_⟩
  by_cases here : p = PTE_ADDR (pte s d v)
  · exact ⟨v, isUser, mapped, here⟩
  · exact absurd (Vm.withPage_mem_of_ne _ _ here) changed

theorem storeFile_filled {image : Image} {owner : Nat -> Role} {s : Vm} {d v m : Nat}
    {pages : Nat -> Prop} (heap : Heap image owner s) (space : Space owner s d pages)
    (isUser : v < USERPAGES) (mapped : pages v) (fits : m ≤ PGSIZE) (src : Nat -> UInt8) :
    Program.wp (storeFile (pte s d v) m src)
      (fun _ t => Stored owner d pages s t ∧
        Filled d (fun a => v * PGSIZE ≤ a ∧ a < v * PGSIZE + m) (fun a => src (a - v * PGSIZE)) s t)
      (fun _ => False) s := by
  unfold storeFile
  by_cases empty : m = 0
  · rw [if_pos empty, Program.wp_pure]
    exact ⟨Stored.refl space, Filled.refl _ s (fun a inside => by omega)⟩
  · have role := space.dir.user v isUser ((space.user v isUser).mpr mapped)
    rw [if_neg empty, Program.wp_bind, kernelPage,
      if_pos (heap.user_above (by rw [role]; exact Role.noConfusion)), Program.wp_pure,
      Program.wp_modify]
    have filled := @Filled.splice owner s d v 0 m pages space isUser mapped (by omega) src
    rw [Nat.add_zero] at filled
    exact ⟨Stored.page space isUser mapped _, filled⟩

/-- An iteration of `loaduvm` that copies to a page of the image. -/
theorem loadPage_filled {image : Image} {owner : Nat -> Role} {s : Vm} {d a k : Nat}
    {pages : Nat -> Prop} (heap : Heap image owner s) (space : Space owner s d pages)
    (isUser : a + k < USERPAGES) (mapped : pages (a + k)) (ip : File) {offset sz : Nat}
    (noWrap : (offset + k * PGSIZE) % 2 ^ 32 = offset + k * PGSIZE) :
    Program.wp (loadPage d (a * PGSIZE) ip offset sz (k * PGSIZE))
      (fun ok t => ok = ip.chunk offset sz (k * PGSIZE) ∧ Stored owner d pages s t ∧
        (ok = true -> Filled d
          (fun x => (a + k) * PGSIZE ≤ x ∧ x < (a + k) * PGSIZE + chunkSize sz (k * PGSIZE))
          (fun x => ip.bytes (offset + (x - a * PGSIZE))) s t))
      (fun _ => False) s := by
  have address : a * PGSIZE + k * PGSIZE = (a + k) * PGSIZE := (Nat.add_mul a k PGSIZE).symm
  have table : Present (pde s d ((a + k) / 1024)) := by
    rw [(userpage_table isUser).1]
    exact space.table
  have short : chunkSize sz (k * PGSIZE) ≤ PGSIZE := by
    unfold chunkSize
    split <;> omega
  unfold loadPage
  rw [address, Program.wp_bind]
  refine walkpgdir_user space isUser false ?_
  rw [Program.wp_bind, Program.wp_read]
  cases delivered : ip.readi ((offset + k * PGSIZE) % 2 ^ 32) (chunkSize sz (k * PGSIZE)) with
  | none =>
      rw [Program.wp_pure, File.chunk, delivered]
      exact ⟨rfl, Stored.refl space, (by rintro ⟨⟩)⟩
  | some m =>
      have fits : m ≤ PGSIZE := by
        rw [File.readi] at delivered
        split at delivered
        · cases delivered
        · have value := Option.some.inj delivered
          omega
      rw [← pte_of_present table, Program.wp_bind]
      refine Program.wp_mono (storeFile_filled heap space isUser mapped fits _) ?_ (fun _ => id)
      rintro _ t ⟨stored, filled⟩
      rw [Program.wp_pure, File.chunk, delivered]
      refine ⟨rfl, stored, fun whole => ?_⟩
      rw [beq_iff_eq] at whole
      rw [whole] at filled
      refine ⟨fun x inside => ?_, filled.outside⟩
      have byte := filled.inside x inside
      rw [noWrap, show offset + k * PGSIZE + (x - (a + k) * PGSIZE) = offset + (x - a * PGSIZE) by
        rw [← address] at inside ⊢
        omega] at byte
      exact byte

/-- An iteration of `loaduvm` that copies nothing. -/
theorem loadPage_misses {s : Vm} {d a k : Nat} (table : Present (pde s d ((a + k) / 1024)))
    (low : a + k < 2 ^ 20) {ip : File} {offset sz : Nat} (more : k * PGSIZE < sz)
    (nothing : ¬ ip.Copies offset sz (k * PGSIZE)) :
    Program.wp (loadPage d (a * PGSIZE) ip offset sz (k * PGSIZE))
      (fun ok t => ok = false ∧ ip.chunk offset sz (k * PGSIZE) = false ∧ t = s)
      (fun _ => False) s := by
  have address : a * PGSIZE + k * PGSIZE = (a + k) * PGSIZE := (Nat.add_mul a k PGSIZE).symm
  have positive : chunkSize sz (k * PGSIZE) ≠ 0 := by
    have nonzero : PGSIZE ≠ 0 := by decide
    unfold chunkSize
    split <;> omega
  unfold loadPage
  rw [address, Program.wp_bind]
  refine walkpgdir_lookup low (fun _ => ?_) (fun missing => absurd table missing)
  rw [Program.wp_bind, Program.wp_read]
  cases delivered : ip.readi ((offset + k * PGSIZE) % 2 ^ 32) (chunkSize sz (k * PGSIZE)) with
  | none =>
      rw [Program.wp_pure, File.chunk, delivered]
      exact ⟨rfl, rfl, rfl⟩
  | some m =>
      have zero : m = 0 := by
        by_contra nonzero
        exact nothing ⟨m, delivered, nonzero⟩
      subst zero
      rw [Program.wp_bind]
      unfold storeFile
      rw [if_pos rfl, Program.wp_pure, Program.wp_pure, File.chunk, delivered]
      refine ⟨beq_false_of_ne (Ne.symm positive), beq_false_of_ne (fun same => ?_), rfl⟩
      exact positive (Option.some.inj same).symm

/-- The kernel part has its tables. -/
theorem table_present {s : Vm} {d v : Nat} (kernel : tables s d = kernelTables)
    (member : v / 1024 ∈ kernelTables) : Present (pde s d (v / 1024)) := by
  rw [← kernel] at member
  exact (mem_tables.mp member).2

/-- The loop of `loaduvm`, from the page `k` of a segment on. -/
theorem loadPages_filled {image : Image} {owner : Nat -> Role} {d a offset sz limit : Nat}
    (ip : File) (small : offset < 2 ^ 32) (low : limit ≤ USERTOP)
    (safe : forall k, k < ceilPage sz -> ip.chunks offset sz k 0 = true ->
      (ip.Copies offset sz (k * PGSIZE) -> ImagePages limit (a + k)) ∧
      (¬ ip.Copies offset sz (k * PGSIZE) -> (a + k) / 1024 ∈ kernelTables))
    (count : Nat) :
    forall {s : Vm} {k : Nat}, Heap image owner s -> Space owner s d (ImagePages limit) ->
      tables s d = kernelTables -> k + count = ceilPage sz -> ip.chunks offset sz k 0 = true ->
      Program.wp (loadPages d (a * PGSIZE) ip offset sz count (k * PGSIZE))
        (fun ok t =>
          ok = ip.chunks offset sz count (k * PGSIZE) ∧ Stored owner d (ImagePages limit) s t ∧
          (ok = true ->
            Filled d (fun x => (a + k) * PGSIZE ≤ x ∧ x < a * PGSIZE + sz)
              (fun x => ip.bytes (offset + (x - a * PGSIZE))) s t))
        (fun _ => False) s := by
  induction count with
  | zero =>
      intro s k _ space _ last _
      rw [loadPages, Program.wp_pure]
      refine ⟨rfl, Stored.refl space, fun _ => Filled.refl _ s (fun x inside => ?_)⟩
      have address : (a + k) * PGSIZE = a * PGSIZE + k * PGSIZE := Nat.add_mul a k PGSIZE
      simp only [ceilPage, PGSIZE] at last inside address
      omega
  | succ count ih =>
      intro s k heap space kernel last found
      have next : k * PGSIZE + PGSIZE = (k + 1) * PGSIZE := (Nat.succ_mul k PGSIZE).symm
      have address : (a + k) * PGSIZE = a * PGSIZE + k * PGSIZE := Nat.add_mul a k PGSIZE
      have more : k * PGSIZE < sz := by
        simp only [ceilPage, PGSIZE] at last ⊢
        omega
      have here := safe k (by omega) found
      have noWrap := File.offset_noWrap small (Nat.le_of_lt more) found
      rw [loadPages, next, File.chunks, next, Program.wp_bind]
      by_cases copies : ip.Copies offset sz (k * PGSIZE)
      · have mapped := here.1 copies
        have isUser : a + k < USERPAGES := Nat.lt_of_lt_of_le mapped.2 (ceilPage_le_userpages low)
        refine Program.wp_mono (loadPage_filled heap space isUser mapped ip noWrap) ?_ (fun _ => id)
        rintro ok t ⟨isChunk, stored, filled⟩
        rw [← isChunk]
        cases ok with
        | false =>
            rw [if_neg Bool.false_ne_true, Program.wp_pure, Bool.false_and]
            exact ⟨rfl, stored, (by rintro ⟨⟩)⟩
        | true =>
            have kernelNow := (tables_of_directory stored.directory).trans kernel
            have foundNext : ip.chunks offset sz (k + 1) 0 = true := by
              rw [File.chunks_succ, found, Bool.true_and, Nat.zero_add]
              exact isChunk.symm
            rw [if_pos rfl, Bool.true_and]
            refine Program.wp_mono (ih (heap.congr stored.freelist) stored.space kernelNow
              (by omega) foundNext) ?_ (fun _ => id)
            rintro ok u ⟨isChunks, restStored, restFilled⟩
            refine ⟨isChunks, stored.trans restStored, fun isOk =>
              (filled rfl).trans (restFilled isOk) (fun x => ?_) (fun x inside => ?_)⟩
            · have following : (a + (k + 1)) * PGSIZE = (a + k) * PGSIZE + PGSIZE := by
                rw [← Nat.add_assoc, Nat.succ_mul]
              rw [chunkSize, following, address]
              split <;> omega
            · have short : chunkSize sz (k * PGSIZE) ≤ PGSIZE := by
                unfold chunkSize
                split <;> omega
              simp only [PGSIZE] at inside short ⊢
              omega
      · have member := here.2 copies
        have below : a + k < 2 ^ 20 := by
          rcases mem_kernelTables.mp member with lower | upper <;> omega
        refine Program.wp_mono (loadPage_misses (table_present kernel member) below more copies) ?_
          (fun _ => id)
        rintro ok t ⟨rfl, isChunk, rfl⟩
        rw [if_neg Bool.false_ne_true, Program.wp_pure, isChunk, Bool.false_and]
        exact ⟨rfl, Stored.refl space, (by rintro ⟨⟩)⟩

theorem ProgHdr.offset_lt (ph : ProgHdr) : ph.offset < 2 ^ 32 := ph.number_lt 4 4

/-- Loading the file part of a safe segment. -/
theorem loaduvm_filled {image : Image} {owner : Nat -> Role} {s : Vm} {d limit : Nat} {ip : File}
    {ph : ProgHdr} (heap : Heap image owner s) (space : Space owner s d (ImagePages limit))
    (kernel : tables s d = kernelTables) (low : limit ≤ USERTOP) (safe : ip.SegmentSafe ph limit) :
    Program.wp (loaduvm d ph.va ip ph.offset ph.filesz)
      (fun ok t => ok = ip.chunks ph.offset ph.filesz (pagesBelow 0 ph.filesz) 0 ∧
        Stored owner d (ImagePages limit) s t ∧
        (ok = true -> Filled d ph.FilePart (ip.byteAt ph) s t))
      (fun _ => False) s := by
  have pages := pagesBelow_eq 0 ph.filesz
  rw [Nat.zero_mul, Nat.sub_zero] at pages
  have start : ph.va / PGSIZE * PGSIZE = ph.va := Nat.div_mul_cancel (Nat.dvd_of_mod_eq_zero safe.1)
  have loads := loadPages_filled (k := 0) ip ph.offset_lt low safe.2 (ceilPage ph.filesz) heap space
    kernel (Nat.zero_add _) rfl
  rw [Nat.add_zero, Nat.zero_mul, start] at loads
  unfold loaduvm
  rw [if_neg (not_not_intro safe.1), pages]
  exact loads

theorem File.chunks_prefix {ip : File} {offset sz n : Nat} (found : ip.chunks offset sz n 0 = true)
    {k : Nat} (within : k ≤ n) : ip.chunks offset sz k 0 = true := by
  induction n with
  | zero =>
      have same : k = 0 := Nat.le_zero.mp within
      rw [same]
      rfl
  | succ n ih =>
      by_cases last : k = n + 1
      · rw [last]
        exact found
      · rw [File.chunks_succ, Bool.and_eq_true] at found
        exact ih found.1 (by omega)

/-- The file part of a segment that has been loaded lies in the image. -/
theorem File.SegmentSafe.inside {ip : File} {ph : ProgHdr} {limit a : Nat}
    (safe : ip.SegmentSafe ph limit)
    (found : ip.chunks ph.offset ph.filesz (pagesBelow 0 ph.filesz) 0 = true)
    (part : ph.FilePart a) : ImagePages limit (a / PGSIZE) := by
  have pages := pagesBelow_eq 0 ph.filesz
  rw [Nat.zero_mul, Nat.sub_zero] at pages
  rw [pages] at found
  have start : ph.va / PGSIZE * PGSIZE = ph.va := Nat.div_mul_cancel (Nat.dvd_of_mod_eq_zero safe.1)
  have lower := part.1
  have upper := part.2
  have page : a / PGSIZE = ph.va / PGSIZE + (a - ph.va) / PGSIZE := by
    simp only [PGSIZE] at start ⊢
    omega
  generalize chunkIndex : (a - ph.va) / PGSIZE = k at page
  have below : k < ceilPage ph.filesz := by
    simp only [ceilPage, PGSIZE] at chunkIndex ⊢
    omega
  have more : k * PGSIZE < ph.filesz := by
    simp only [PGSIZE] at chunkIndex ⊢
    omega
  have through := File.chunks_prefix found (show k + 1 ≤ ceilPage ph.filesz from below)
  rw [File.chunks_succ, Bool.and_eq_true, Nat.zero_add, File.chunk, beq_iff_eq] at through
  rw [page]
  refine (safe.2 k below through.1).1 ⟨_, through.2, ?_⟩
  have nonzero : PGSIZE ≠ 0 := by decide
  unfold chunkSize
  split <;> omega

/-- What is known after a segment of a safe file. -/
structure Placed (image : Image) (owner : Nat -> Role) (s : Vm) (d : Nat) (source : Nat -> Prop)
    (ip : File) (ph : ProgHdr) (sz last : Nat) (after : Nat -> Role) (t : Vm) : Prop where
  within : Within d owner after s t
  loading : Loading image after t d (ImagePages last) source
  kernel : tables t d = kernelTables
  isLast : last = ph.grow sz
  low : last ≤ USERTOP
  sum : s.freelist.length + ceilPage sz = t.freelist.length + ceilPage last
  loadable : ip.loadable ph sz
  filled : ph.type = ELF_PROG_LOAD -> forall a, ph.FilePart a ->
    a / PGSIZE < USERPAGES ∧ Holds t d a (ip.byteAt ph a)
  others : forall a b, a / PGSIZE < USERPAGES -> (ph.type = ELF_PROG_LOAD -> ¬ ph.FilePart a) ->
    Holds s d a b -> Holds t d a b

/-- What is known after a segment that could not be loaded. -/
structure Refused (image : Image) (owner : Nat -> Role) (s : Vm) (d : Nat) (source : Nat -> Prop)
    (possible : Prop) (after : Nat -> Role) (now : Nat -> Prop) (t : Vm) : Prop where
  within : Within d owner after s t
  loading : Loading image after t d now source
  kernel : tables t d = kernelTables
  impossible : ¬ possible

/-- The segment fits into the free pages. -/
def File.PossibleSegment (ip : File) (ph : ProgHdr) (free sz : Nat) : Prop :=
  ip.loadable ph sz ∧ ceilPage (ph.grow sz) ≤ free + ceilPage sz

/-- The rest of the segments fits into the free pages. -/
def File.Possible (ip : File) (count off free sz : Nat) : Prop :=
  ip.Loadable count off sz ∧ ceilPage (ip.imageEnd count off sz) ≤ free + ceilPage sz

/-- The end of a segment or of all of them. -/
def SegmentEnd (image : Image) (owner : Nat -> Role) (s : Vm) (d : Nat) (source : Nat -> Prop)
    (possible : Prop) (placed : Nat -> (Nat -> Role) -> Vm -> Prop) (result : Option Nat)
    (t : Vm) : Prop :=
  match result with
  | none => Exists fun after => Exists fun now =>
      Refused image owner s d source possible after now t
  | some last => Exists fun after => placed last after t

/-- The pages of the segment are there and its file part is loaded. -/
theorem fillSegment_placed {image : Image} {owner middle : Nat -> Role} {s u : Vm} {d sz : Nat}
    {source : Nat -> Prop} {ip : File} {ph : ProgHdr} (isLoad : ph.type = ELF_PROG_LOAD)
    (files : ph.filesz ≤ ph.memsz) (fits : ph.newsz sz ≤ USERTOP)
    (within : Within d owner middle s u)
    (loading : Loading image middle u d (ImagePages (ph.grow sz)) source)
    (kernel : tables u d = kernelTables) (low : ph.grow sz ≤ USERTOP)
    (safe : ip.SegmentSafe ph (ph.grow sz)) (nonzero : ph.grow sz ≠ 0) (preserves : Preserves d s u)
    (sum : s.freelist.length + ceilPage sz = u.freelist.length + ceilPage (ph.grow sz)) :
    Program.wp (fillSegment d ip ph (ph.grow sz))
      (SegmentEnd image owner s d source (ip.PossibleSegment ph s.freelist.length sz)
        (Placed image owner s d source ip ph sz))
      (fun _ => False) u := by
  unfold fillSegment
  rw [if_neg nonzero]
  refine Program.wp_seq (loaduvm_filled loading.heap loading.space kernel low safe) ?_
  rintro ok t ⟨isChunks, stored, filled⟩
  have next := loading.step (stored.within.during _)
      (loading.heap.congr stored.freelist) stored.space
  have kernelNow := (tables_of_directory stored.directory).trans kernel
  have both := within.trans stored.within
  cases ok with
  | false =>
      rw [if_neg Bool.false_ne_true, Program.wp_pure]
      refine ⟨middle, _, both, next, kernelNow, fun possible => ?_⟩
      rw [(possible.1 isLoad).2.2] at isChunks
      cases isChunks
  | true =>
      have part := filled rfl
      rw [if_pos rfl, Program.wp_pure]
      refine ⟨middle, both, next, kernelNow, rfl, low, stored.freelist ▸ sum,
        fun _ => ⟨files, fits, isChunks.symm⟩, fun _ a inside => ⟨?_, part.inside a inside⟩,
        fun a b below outside holds => ?_⟩
      · exact Nat.lt_of_lt_of_le (safe.inside isChunks.symm inside).2 (ceilPage_le_userpages low)
      · exact part.outside a b below (outside isLoad) (preserves.holds below holds)

/-- The pages of an image that has grown. -/
theorem Space.imagePages {owner : Nat -> Role} {s : Vm} {d sz newsz : Nat}
    (space : Space owner s d (fun w => ImagePages sz w ∨ Between sz newsz w)) (start : PGSIZE ≤ sz)
    (larger : sz ≤ newsz) : Space owner s d (ImagePages newsz) := by
  have first : 1 ≤ ceilPage sz := ceilPage_mono start
  have order := ceilPage_mono larger
  refine space.congr (fun v _ => ?_)
  simp only [ImagePages, Between]
  omega

theorem loadSegment_placed {image : Image} {owner : Nat -> Role} {s : Vm} {d sz : Nat}
    {source : Nat -> Prop} {ip : File} {ph : ProgHdr}
    (loading : Loading image owner s d (ImagePages sz) source) (kernel : tables s d = kernelTables)
    (start : PGSIZE ≤ sz) (low : sz ≤ USERTOP)
    (safe : ph.type = ELF_PROG_LOAD -> ph.filesz ≤ ph.memsz -> ph.newsz sz ≤ USERTOP ->
      ip.SegmentSafe ph (ph.grow sz)) :
    Program.wp (loadSegment image d ip ph sz)
      (SegmentEnd image owner s d source (ip.PossibleSegment ph s.freelist.length sz)
        (Placed image owner s d source ip ph sz)) (fun _ => False) s := by
  have positive : 0 < sz := Nat.lt_of_lt_of_le (by decide) start
  unfold loadSegment
  by_cases skipped : ph.type ≠ ELF_PROG_LOAD
  · rw [if_pos skipped, Program.wp_pure]
    refine ⟨owner, Within.refl d owner s, loading, kernel, ?_, low, rfl,
      fun load => absurd load skipped, fun load => absurd load skipped, fun _ _ _ _ => id⟩
    rw [ProgHdr.grow, if_pos skipped]
  · have isLoad : ph.type = ELF_PROG_LOAD := not_not.mp skipped
    rw [if_neg skipped]
    by_cases short : ph.memsz < ph.filesz
    · rw [if_pos short, Program.wp_pure]
      refine ⟨owner, _, Within.refl d owner s, loading, kernel, fun possible => ?_⟩
      exact absurd (possible.1 isLoad).1 (Nat.not_le.mpr short)
    · have files : ph.filesz ≤ ph.memsz := Nat.not_lt.mp short
      rw [if_neg short, Program.wp_bind]
      refine Program.wp_mono (wp_both (allocuvm_wp loading.heap loading.space)
        (allocuvm_steady loading.heap loading.space)) ?_ ?_
      · rintro size t ⟨allocated, steady, _, preserves⟩
        have kernelNow := (tables_of_directory steady.directory).trans kernel
        have refused : forall {after : Nat -> Role} {now : Nat -> Prop}, Within d owner after s t ->
            Loading image after t d now source -> ¬ ip.PossibleSegment ph s.freelist.length sz ->
            Program.wp (fillSegment d ip ph 0)
              (SegmentEnd image owner s d source (ip.PossibleSegment ph s.freelist.length sz)
                (Placed image owner s d source ip ph sz)) (fun _ => False) t := by
          intro after now within next impossible
          unfold fillSegment
          rw [if_pos rfl, Program.wp_pure]
          exact ⟨after, now, within, next, kernelNow, impossible⟩
        cases allocated with
        | tooLarge large =>
            refine refused (Within.refl d owner s) loading (fun possible => ?_)
            exact absurd (possible.1 isLoad).2.1 (Nat.not_le.mpr large)
        | outOfMemory _ larger became few =>
            rcases became with ⟨middle, heap, within, space⟩
            refine refused within (loading.step (within.during _) heap space) (fun possible => ?_)
            have enough := possible.2
            rw [ProgHdr.grow, if_neg skipped, if_neg (Nat.not_lt.mpr larger)] at enough
            omega
        | shrinks smaller =>
            have same : ph.grow sz = sz := by
              rw [ProgHdr.grow, if_neg skipped, if_pos smaller]
            have ready := safe isLoad files (by omega)
            have filled := fillSegment_placed isLoad files (by omega) (Within.refl d owner s)
              (by rw [same]; exact loading) kernel (by omega) ready (by omega)
              (preserves (by omega)) (by rw [same])
            rw [same] at filled
            exact filled
        | grown high larger clear became sum =>
            rcases became with ⟨middle, heap, within, space⟩
            have same : ph.grow sz = ph.newsz sz := by
              rw [ProgHdr.grow, if_neg skipped, if_neg (Nat.not_lt.mpr larger)]
            have order := ceilPage_mono larger
            have grownPages : Space middle t d (ImagePages (ph.grow sz)) := by
              rw [same]
              exact space.imagePages start larger
            have filled := fillSegment_placed isLoad files high within
              (loading.step (within.during _) heap grownPages) kernelNow (by omega)
              (safe isLoad files high) (by omega) (preserves (by omega)) (by rw [same]; omega)
            rw [same] at filled
            exact filled
      · rintro reason ⟨_, high, w, between, mapped⟩
        exact absurd (Nat.lt_of_lt_of_le mapped.2 between.1) (Nat.lt_irrefl w)

/-- The file parts of these segments are in place. -/
def File.Written (ip : File) (s : Vm) (d : Nat) (segments : List ProgHdr) : Prop :=
  forall ph, ph ∈ segments -> forall a, ph.FilePart a ->
    a / PGSIZE < USERPAGES ∧ Holds s d a (ip.byteAt ph a)

theorem File.Agree.mono {ip : File} {few many : List ProgHdr} (agree : ip.Agree many)
    (included : forall ph, ph ∈ few -> ph ∈ many) : ip.Agree few :=
  fun one inOne two inTwo => agree one (included one inOne) two (included two inTwo)

/-- One more segment is in place. -/
theorem Placed.written {image : Image} {owner after : Nat -> Role} {s t : Vm} {d sz last : Nat}
    {source : Nat -> Prop} {ip : File} {ph : ProgHdr} {earlier : List ProgHdr}
    (placed : Placed image owner s d source ip ph sz last after t)
    (isLoad : ph.type = ELF_PROG_LOAD) (written : ip.Written s d earlier)
    (agree : ip.Agree (earlier ++ [ph])) : ip.Written t d (earlier ++ [ph]) := by
  intro other member a part
  by_cases inside : ph.FilePart a
  · have here := placed.filled isLoad a inside
    rw [agree other member ph (List.mem_append_right earlier (List.mem_singleton_self ph)) a part
      inside]
    exact here
  · rcases List.mem_append.mp member with old | new
    · have before := written other old a part
      exact ⟨before.1, placed.others a _ before.1 (fun _ => inside) before.2⟩
    · rw [List.mem_singleton.mp new] at part
      exact absurd part inside

/-- What is known after all segments. -/
structure AllPlaced (image : Image) (owner : Nat -> Role) (s : Vm) (d : Nat) (source : Nat -> Prop)
    (ip : File) (earlier : List ProgHdr) (count off sz last : Nat) (after : Nat -> Role) (t : Vm) :
    Prop where
  within : Within d owner after s t
  loading : Loading image after t d (ImagePages last) source
  kernel : tables t d = kernelTables
  isLast : last = ip.imageEnd count off sz
  low : last ≤ USERTOP
  sum : s.freelist.length + ceilPage sz = t.freelist.length + ceilPage last
  loadable : ip.Loadable count off sz
  written : ip.Agree (earlier ++ ip.segments count off) ->
    ip.Written t d (earlier ++ ip.segments count off)

theorem loadSegments_placed {image : Image} {d : Nat} {source : Nat -> Prop} {ip : File}
    (count : Nat) :
    forall {owner : Nat -> Role} {s : Vm} {off sz : Nat} (earlier : List ProgHdr),
      Loading image owner s d (ImagePages sz) source -> tables s d = kernelTables -> PGSIZE ≤ sz ->
      sz ≤ USERTOP -> ip.SafeFrom count off sz ->
      (ip.Agree (earlier ++ ip.segments count off) -> ip.Written s d earlier) ->
      Program.wp (loadSegments image d ip count off sz)
        (SegmentEnd image owner s d source (ip.Possible count off s.freelist.length sz)
          (AllPlaced image owner s d source ip earlier count off sz)) (fun _ => False) s := by
  induction count with
  | zero =>
      intro owner s off sz earlier loading kernel _ low _ written
      rw [loadSegments, Program.wp_pure]
      refine ⟨owner, Within.refl d owner s, loading, kernel, rfl, low, rfl, trivial,
        fun agree => ?_⟩
      have before := written agree
      rw [File.segments, List.append_nil]
      exact before
  | succ count ih =>
      intro owner s off sz earlier loading kernel start low safe written
      rw [loadSegments]
      by_cases unreadable : ip.readi off 32 ≠ some 32
      · rw [if_pos unreadable, Program.wp_pure]
        exact ⟨owner, _, Within.refl d owner s, loading, kernel, fun possible =>
          unreadable possible.1.1⟩
      · have readable : ip.readi off 32 = some 32 := not_not.mp unreadable
        have safeHere := safe readable
        rw [if_neg unreadable, Program.wp_bind]
        refine Program.wp_mono (loadSegment_placed loading kernel start low safeHere.1) ?_
          (fun _ => id)
        intro result t ended
        have order := ceilPage_mono
          (ip.le_imageEnd count ((off + 32) % 2 ^ 32) ((ip.ph off).grow sz))
        cases result with
        | none =>
            rcases ended with ⟨after, now, refused⟩
            exact ⟨after, now, refused.within, refused.loading, refused.kernel, fun possible =>
              refused.impossible ⟨possible.1.2.1, Nat.le_trans order possible.2⟩⟩
        | some last =>
            rcases ended with ⟨middle, placed⟩
            have sum := placed.sum
            have isLast := placed.isLast
            subst isLast
            have next : Exists fun more =>
                (ip.Agree (more ++ ip.segments count ((off + 32) % 2 ^ 32)) ->
                ip.Written t d more) ∧
              more ++ ip.segments count ((off + 32) % 2 ^ 32) =
                earlier ++ ip.segments (count + 1) off := by
              by_cases isLoad : (ip.ph off).type = ELF_PROG_LOAD
              · refine ⟨earlier ++ [ip.ph off], fun agree => ?_, ?_⟩
                · refine placed.written isLoad (written ?_)
                    (agree.mono (fun _ => List.mem_append_left _))
                  rw [File.segments, if_pos isLoad]
                  rw [List.append_assoc, List.singleton_append] at agree
                  exact agree
                · rw [File.segments, if_pos isLoad, List.append_assoc, List.singleton_append]
              · refine ⟨earlier, fun agree ph member a part => ?_, ?_⟩
                · rw [File.segments, if_neg isLoad] at written
                  have before := written agree ph member a part
                  exact ⟨before.1, placed.others a _ before.1 (fun load => absurd load isLoad)
                    before.2⟩
                · rw [File.segments, if_neg isLoad]
            rcases next with ⟨more, writtenNow, sameList⟩
            refine Program.wp_mono (ih more placed.loading placed.kernel
              (Nat.le_trans start (ProgHdr.le_grow _ sz)) placed.low (safeHere.2 placed.loadable)
              writtenNow) ?_ (fun _ => id)
            intro result u ended
            cases result with
            | none =>
                rcases ended with ⟨after, now, refused⟩
                refine ⟨after, now, placed.within.trans refused.within, refused.loading,
                  refused.kernel, fun possible => refused.impossible ⟨possible.1.2.2, ?_⟩⟩
                have enough := possible.2
                rw [File.imageEnd] at enough
                omega
            | some last =>
                rcases ended with ⟨after, all⟩
                refine ⟨after, placed.within.trans all.within, all.loading, all.kernel, all.isLast,
                  all.low, sum.trans all.sum, ⟨readable, placed.loadable, all.loadable⟩, ?_⟩
                rw [← sameList]
                exact all.written

/-! ## The arguments -/

/-- The stack pointer is at most `USERTOP` below zero or inside user memory, so
that the address has a page table. -/
def NearUser (va : Nat) : Prop := va ≤ USERTOP ∨ (2 ^ 32 - USERTOP ≤ va ∧ va < 2 ^ 32)

theorem NearUser.table {va : Nat} (near : NearUser va) :
    va < 2 ^ 32 ∧ va / PGSIZE < 2 ^ 20 ∧ va / PGSIZE / 1024 ∈ kernelTables := by
  rw [mem_kernelTables]
  unfold NearUser at near
  simp only [PGSIZE, USERTOP] at near ⊢
  omega

/-- `uva2ka` where there is a page table. -/
theorem uva2ka_frame {owner : Nat -> Role} {s : Vm} {d v : Nat} {pages : Nat -> Prop}
    (space : Space owner s d pages) (low : v < 2 ^ 20) (table : Present (pde s d (v / 1024))) :
    Program.wp (uva2ka d (v * PGSIZE))
      (fun pa t => t = s ∧ ((pa = 0 ∧ ¬ (v < USERPAGES ∧ pages v)) ∨
        (v < USERPAGES ∧ pages v ∧ pa = PTE_ADDR (pte s d v))))
      (fun _ => False) s := by
  have access := space.access v low
  unfold uva2ka
  rw [Program.wp_bind]
  refine walkpgdir_lookup low (fun _ => ?_) (fun missing => absurd table missing)
  rw [Program.wp_bind, Program.wp_read, ← pte_of_present table]
  by_cases reachable : v < USERPAGES ∧ pages v
  · have present := (space.user v reachable.1).mpr reachable.2
    rw [if_neg (not_not_intro present), if_neg (access.mpr reachable), Program.wp_pure]
    exact ⟨rfl, Or.inr ⟨reachable.1, reachable.2, rfl⟩⟩
  · have supervisor : pte s d v &&& PTE_U = 0 := not_not.mp (mt access.mp reachable)
    by_cases present : Present (pte s d v)
    · rw [if_neg (not_not_intro present), if_pos supervisor, Program.wp_pure]
      exact ⟨rfl, Or.inl ⟨rfl, reachable⟩⟩
    · rw [if_pos present, Program.wp_pure]
      exact ⟨rfl, Or.inl ⟨rfl, reachable⟩⟩

/-- Bytes outside a range stay. -/
def KeptOutside (d lower upper : Nat) (s t : Vm) : Prop :=
  forall a b, a / PGSIZE < USERPAGES -> ¬ (lower ≤ a ∧ a < upper) -> Holds s d a b -> Holds t d a b

/-- `copyout` with the kernel part of the new space in place: it does not fault,
writes the range and nothing else, and succeeds only if the range is mapped. -/
theorem copyoutLoop_kept {image : Image} {d : Nat} {pages : Nat -> Prop} {owner : Nat -> Role}
    (fuel : Nat) :
    forall {s : Vm} {va : Nat} {buf : List UInt8}, Heap image owner s -> Space owner s d pages ->
      tables s d = kernelTables -> NearUser va ->
      Program.wp (copyoutLoop d fuel va buf)
        (fun ok t => Stored owner d pages s t ∧ KeptOutside d va (va + buf.length) s t ∧
          (ok = true -> buf.length ≤ fuel -> buf ≠ [] -> Reachable pages va buf.length))
        (fun _ => False) s := by
  induction fuel with
  | zero =>
      intro s va buf _ space _ _
      rw [copyoutLoop, Program.wp_pure]
      refine ⟨Stored.refl space, fun _ _ _ _ => id, fun _ empty nonempty => ?_⟩
      exact absurd (List.length_eq_zero_iff.mp (Nat.le_zero.mp empty)) nonempty
  | succ fuel ih =>
      intro s va buf heap space kernel near
      rw [copyoutLoop]
      by_cases done : buf = []
      · rw [if_pos done, Program.wp_pure]
        exact ⟨Stored.refl space, fun _ _ _ _ => id, fun _ _ nonempty => absurd done nonempty⟩
      · rcases near.table with ⟨low, page, member⟩
        have table := table_present kernel member
        have nonempty : 0 < buf.length := List.length_pos_iff.mpr done
        rw [if_neg done, Program.wp_bind]
        refine Program.wp_mono (uva2ka_frame space page table) ?_ (fun _ => id)
        · rintro pa t ⟨rfl, ⟨rfl, _⟩ | ⟨isUser, mapped, rfl⟩⟩
          · rw [if_pos rfl, Program.wp_pure]
            exact ⟨Stored.refl space, fun _ _ _ _ => id, (by rintro ⟨⟩)⟩
          · have role := space.dir.user _ isUser ((space.user _ isUser).mpr mapped)
            have nonzero := Nat.ne_of_gt (heap.page_pos (by rw [role]; exact Role.noConfusion)).1
            generalize chunk : min (PGSIZE - va % PGSIZE) buf.length = n
            have split : va / PGSIZE * PGSIZE + va % PGSIZE = va := Nat.div_add_mod' va PGSIZE
            have fits : va % PGSIZE + n ≤ PGSIZE := by
              have within := Nat.mod_lt va (show 0 < PGSIZE by decide)
              omega
            have next : (PGROUNDDOWN va + PGSIZE) % 2 ^ 32 = (va / PGSIZE + 1) * PGSIZE := by
              simp only [PGROUNDDOWN, PGSIZE, USERPAGES, USERTOP] at isUser ⊢
              omega
            have stored := Stored.page space isUser mapped
              ((t.mem (PTE_ADDR (pte t d (va / PGSIZE)))).splice (va % PGSIZE) n
                (fun k => buf.getD k 0))
            have filled := Filled.splice space isUser mapped fits (fun k => buf.getD k 0)
            rw [if_neg nonzero, Program.wp_bind, storeBytes_wp, next]
            refine Program.wp_mono (ih (heap.congr stored.freelist) stored.space
              ((tables_of_directory stored.directory).trans kernel) (Or.inl ?_)) ?_ (fun _ => id)
            · simp only [PGSIZE, USERPAGES, USERTOP] at isUser ⊢
              omega
            · rintro ok u ⟨rest, kept, reached⟩
              have remaining : (buf.drop n).length = buf.length - n := List.length_drop
              rw [remaining] at kept reached
              refine ⟨stored.trans rest, fun a b below outside holds => ?_,
                fun isOk bound _ v lower upper => ?_⟩
              · refine kept a b below ?_ (filled.outside a b below ?_ holds)
                · rw [Nat.succ_mul]
                  simp only [PGSIZE] at chunk split fits outside ⊢
                  omega
                · rw [split]
                  omega
              · by_cases first : v = va / PGSIZE
                · rw [first]
                  exact ⟨isUser, mapped⟩
                · have atLeast : 1 ≤ n := by
                    have within := Nat.mod_lt va (show 0 < PGSIZE by decide)
                    omega
                  have later : va / PGSIZE + 1 ≤ v := by omega
                  have whole : n < buf.length ∧ va + n = (va / PGSIZE + 1) * PGSIZE := by
                    rw [Nat.succ_mul]
                    simp only [PGSIZE] at chunk split upper later ⊢
                    omega
                  have more : buf.drop n ≠ [] := by
                    intro empty
                    rw [empty, List.length_nil] at remaining
                    omega
                  refine reached isOk (by omega) more v ?_ ?_
                  · rw [Nat.mul_div_cancel _ (show 0 < PGSIZE by decide)]
                    exact later
                  · rw [← whole.2]
                    omega

/-- Something has been copied to the stack, which now ends at `va` and not at `sp`. -/
structure Pushed (d : Nat) (pages : Nat -> Prop) (sp va : Nat) (s t : Vm) : Prop where
  isUser : va < USERTOP
  lower : va ≤ sp
  mapped : pages (va / PGSIZE)
  kept : KeptOutside d va sp s t
  gap : ¬ pages (USERPAGES - 2) -> USERTOP - PGSIZE ≤ sp -> USERTOP - PGSIZE ≤ va

/-- A call of `copyout` for a range that reaches up to the stack pointer `sp`, with
at most three bytes between the two. -/
theorem copyout_kept {image : Image} {owner : Nat -> Role} {s : Vm} {d va : Nat}
    {pages : Nat -> Prop} (sp : Nat) (heap : Heap image owner s) (space : Space owner s d pages)
    (kernel : tables s d = kernelTables) (near : NearUser va) {buf : List UInt8} (some_ : buf ≠ [])
    (reaches : va < USERTOP -> va + buf.length ≤ sp ∧ sp ≤ va + buf.length + 3) :
    Program.wp (copyout d va buf)
      (fun ok t => Stored owner d pages s t ∧ (ok = true -> Pushed d pages sp va s t))
      (fun _ => False) s := by
  have nonempty : 0 < buf.length := List.length_pos_iff.mpr some_
  have inPage : va / PGSIZE * PGSIZE ≤ va := Nat.div_mul_le_self va PGSIZE
  refine Program.wp_mono (copyoutLoop_kept buf.length heap space kernel near) ?_ (fun _ => id)
  rintro ok t ⟨stored, kept, reached⟩
  refine ⟨stored, fun isOk => ?_⟩
  have reachable := reached isOk (Nat.le_refl _) some_
  have first := reachable (va / PGSIZE) (Nat.le_refl _) (by omega)
  have isUser : va < USERTOP := by
    have page := first.1
    simp only [PGSIZE, USERPAGES, USERTOP] at page ⊢
    omega
  have range := reaches isUser
  refine ⟨isUser, by omega, first.2, fun a b inUser outside => ?_, fun gap stack => ?_⟩
  · exact kept a b inUser (fun inside => outside ⟨inside.1, Nat.lt_of_lt_of_le inside.2 range.1⟩)
  · by_contra lower
    refine gap (reachable (USERPAGES - 2) ?_ ?_).2
    · simp only [PGSIZE, USERPAGES, USERTOP] at lower ⊢
      omega
    · simp only [PGSIZE, USERPAGES, USERTOP] at stack lower range ⊢
      omega

/-- Subtracting at most `USERTOP` from a stack pointer. -/
theorem NearUser.sub32 {sp n : Nat} (low : sp ≤ USERTOP) (small : n ≤ USERTOP) :
    NearUser (AddressSpace.sub32 sp n) ∧
      (AddressSpace.sub32 sp n < USERTOP -> AddressSpace.sub32 sp n + n = sp) := by
  unfold NearUser AddressSpace.sub32
  simp only [USERTOP] at low small ⊢
  omega

theorem NearUser.align {va : Nat} (near : NearUser va) : NearUser (va / 4 * 4) := by
  unfold NearUser at near ⊢
  simp only [USERTOP] at near ⊢
  omega

theorem pushArguments_kept {image : Image} {d : Nat} {pages : Nat -> Prop} {owner : Nat -> Role}
    (argv : List Argument) :
    forall {s : Vm} {sp : Nat} {ustack : List Nat}, Heap image owner s -> Space owner s d pages ->
      tables s d = kernelTables -> sp ≤ USERTOP -> ustack.length ≤ MAXARG ->
      Program.wp (pushArguments d argv sp ustack)
        (fun result t => Stored owner d pages s t ∧ forall sp' addresses,
          result = some (sp', addresses) -> sp' = stackPointer argv sp ∧ sp' ≤ sp ∧
            addresses.length = ustack.length + argv.length ∧ addresses.length ≤ MAXARG ∧
            KeptOutside d sp' sp s t ∧
            (¬ pages (USERPAGES - 2) -> USERTOP - PGSIZE ≤ sp -> USERTOP - PGSIZE ≤ sp'))
        (fun _ => False) s := by
  induction argv with
  | nil =>
      intro s sp ustack _ space _ _ few
      rw [pushArguments, Program.wp_pure]
      refine ⟨Stored.refl space, fun sp' addresses same => ?_⟩
      rcases Prod.mk.inj (Option.some.inj same) with ⟨rfl, rfl⟩
      exact ⟨rfl, Nat.le_refl _, rfl, few, fun _ _ _ _ => id, fun _ => id⟩
  | cons arg rest ih =>
      intro s sp ustack heap space kernel low _
      rw [pushArguments]
      by_cases many : MAXARG ≤ ustack.length
      · rw [if_pos many, Program.wp_pure]
        exact ⟨Stored.refl space, (by rintro _ _ ⟨⟩)⟩
      · have near := NearUser.sub32 low (show arg.bytes.length + 1 ≤ USERTOP from arg.fits)
        have length : (arg.bytes ++ [0]).length = arg.bytes.length + 1 := List.length_append
        rw [if_neg many, Program.wp_bind]
        generalize place : sub32 sp (arg.bytes.length + 1) = below at near
        have range : below / 4 * 4 < USERTOP -> below / 4 * 4 + (arg.bytes ++ [0]).length ≤ sp ∧
            sp ≤ below / 4 * 4 + (arg.bytes ++ [0]).length + 3 := by
          intro isUser
          have whole := near.2 (by simp only [USERTOP] at isUser ⊢; omega)
          omega
        refine Program.wp_mono (copyout_kept sp heap space kernel near.1.align
          (List.append_ne_nil_of_right_ne_nil _ (List.cons_ne_nil _ _)) range) ?_ (fun _ => id)
        · rintro ok t ⟨stored, pushed⟩
          cases ok with
          | false =>
              rw [if_neg Bool.false_ne_true, Program.wp_pure]
              exact ⟨stored, (by rintro _ _ ⟨⟩)⟩
          | true =>
              have here := pushed rfl
              have longer : (ustack ++ [below / 4 * 4]).length = ustack.length + 1 :=
                List.length_append
              rw [if_pos rfl]
              refine Program.wp_mono (ih (heap.congr stored.freelist) stored.space
                ((tables_of_directory stored.directory).trans kernel) (Nat.le_of_lt here.isUser)
                (by omega)) ?_ (fun _ => id)
              rintro result u ⟨restStored, final⟩
              refine ⟨stored.trans restStored, fun sp' addresses same => ?_⟩
              rcases final sp' addresses same with ⟨isPointer, lower, count, few, kept, stack⟩
              refine ⟨?_, Nat.le_trans lower here.lower, ?_, few,
                fun a b inUser outside holds => ?_, fun gap top => stack gap (here.gap gap top)⟩
              · rw [isPointer, stackPointer, stackPointer, List.foldl_cons, pushArgument, place]
              · rw [count, longer, List.length_cons]
                omega
              · refine kept a b inUser (fun inside => outside ?_) (here.kept a b inUser
                  (fun inside => outside ?_) holds)
                · exact ⟨inside.1, Nat.lt_of_lt_of_le inside.2 here.lower⟩
                · exact ⟨Nat.le_trans lower inside.1, inside.2⟩

theorem wordBytes_length (words : List Nat) : (wordBytes words).length = words.length * 4 := by
  induction words with
  | nil => rfl
  | cons word rest ih =>
      have split : wordBytes (word :: rest) = [Bytes.digit word 0, Bytes.digit word 1,
          Bytes.digit word 2, Bytes.digit word 3] ++ wordBytes rest := rfl
      rw [split, List.length_append, ih, List.length_cons, List.length_cons, List.length_cons,
        List.length_cons, List.length_cons, List.length_nil]
      omega

theorem userStack_length (sp : Nat) (addresses : List Nat) :
    (userStack sp addresses).length = 3 + addresses.length + 1 := by
  unfold userStack
  rw [List.length_append, List.length_append, List.length_cons, List.length_cons, List.length_cons,
    List.length_nil, List.length_cons, List.length_nil]

/-- Copying the arguments succeeds only if they fit, and writes nothing below their
end. -/
theorem copyArguments_kept {image : Image} {owner : Nat -> Role} {s : Vm} {d : Nat}
    {pages : Nat -> Prop} (heap : Heap image owner s) (space : Space owner s d pages)
    (kernel : tables s d = kernelTables) (argv : List Argument) :
    Program.wp (copyArguments d USERTOP argv)
      (fun result t => Stored owner d pages s t ∧ forall sp, result = some sp ->
        sp = argumentsEnd argv ∧ argv.length ≤ MAXARG ∧ Pushed d pages USERTOP sp s t)
      (fun _ => False) s := by
  unfold copyArguments
  refine Program.wp_seq (pushArguments_kept argv heap space kernel (Nat.le_refl _) (Nat.zero_le _))
    ?_
  rintro result t ⟨stored, pushed⟩
  cases result with
  | none =>
      rw [Program.wp_pure]
      exact ⟨stored, nofun⟩
  | some place =>
      rcases place with ⟨sp, addresses⟩
      rcases pushed sp addresses rfl with ⟨isPointer, low, count, few, kept, stack⟩
      rw [List.length_nil, Nat.zero_add] at count
      have length : (wordBytes (userStack sp addresses)).length =
          (3 + addresses.length + 1) * 4 := by
        rw [wordBytes_length, userStack_length]
      have nonempty : wordBytes (userStack sp addresses) ≠ [] := by
        refine List.ne_nil_of_length_pos ?_
        rw [length]
        omega
      have small : (3 + addresses.length + 1) * 4 ≤ USERTOP := by
        simp only [MAXARG, USERTOP] at few ⊢
        omega
      have near := NearUser.sub32 low small
      rw [Program.wp_bind]
      refine Program.wp_mono (copyout_kept sp (heap.congr stored.freelist) stored.space
        ((tables_of_directory stored.directory).trans kernel) near.1 nonempty ?_) ?_ (fun _ => id)
      · intro isUser
        rw [length]
        have whole := near.2 isUser
        omega
      · rintro ok u ⟨restStored, restPushed⟩
        cases ok with
        | false =>
            rw [if_neg Bool.false_ne_true, Program.wp_pure]
            exact ⟨stored.trans restStored, nofun⟩
        | true =>
            have here := restPushed rfl
            rw [if_pos rfl, Program.wp_pure]
            refine ⟨stored.trans restStored, fun last same => ?_⟩
            rw [← Option.some.inj same]
            refine ⟨?_, count ▸ few, here.isUser, Nat.le_trans here.lower low, here.mapped,
              fun a b inUser outside holds => ?_, fun gap top => here.gap gap (stack gap top)⟩
            · rw [argumentsEnd, ← isPointer, count]
            · refine here.kept a b inUser (fun inside => outside ?_) (kept a b inUser
                (fun inside => outside ?_) holds)
              · exact ⟨inside.1, Nat.lt_of_lt_of_le inside.2 low⟩
              · exact ⟨Nat.le_trans here.lower inside.1, inside.2⟩

/-! ## The new image -/

/-- A user page that the process can use. -/
def UserPage (s : Vm) (d v : Nat) : Prop := Present (pte s d v) ∧ pte s d v &&& PTE_U ≠ 0

theorem Space.userPage {owner : Nat -> Role} {s : Vm} {d v : Nat} {pages : Nat -> Prop}
    (space : Space owner s d pages) (isUser : v < USERPAGES) (mapped : pages v) : UserPage s d v :=
  ⟨(space.user v isUser).mpr mapped, (space.access v (userpage_table isUser).2.2).mpr
    ⟨isUser, mapped⟩⟩

/-- The image of a file is in place: the file part of every segment has the bytes of
the file, all of every segment is mapped, the stack is mapped and no segment reaches
into it. -/
structure File.Installed (ip : File) (t : Vm) : Prop where
  bytes : forall ph, ph ∈ ip.allSegments -> forall a, ph.FilePart a ->
    Holds t t.proc.pgdir a (ip.byteAt ph a)
  mapped : forall ph, ph ∈ ip.allSegments -> forall a, ph.va ≤ a -> a < ph.va + ph.memsz ->
    UserPage t t.proc.pgdir (a / PGSIZE)
  stack : UserPage t t.proc.pgdir (USERPAGES - 1)
  apart : forall ph, ph ∈ ip.allSegments -> ph.memsz = 0 ∨ ph.va + ph.memsz ≤ USERTOP - PGSIZE

/-- The two good ends of `exec`. -/
def File.Survived (ip : File) (result : Int) (t : Vm) : Prop :=
  result = -1 ∨ (result = 0 ∧ ip.Installed t)

/-- The bytes of an address space survive every step that does not touch its pages. -/
theorem Space.holds_framed {touches : Role -> Prop} {owner after : Nat -> Role} {s t : Vm} {d : Nat}
    {pages : Nat -> Prop} (space : Space owner s d pages) (framed : Framed touches owner after s t)
    (untouched : forall r, r.Of d -> ¬ touches r) {a : Nat} {b : UInt8}
    (isUser : a / PGSIZE < USERPAGES) (holds : Holds s d a b) : Holds t d a b := by
  have entries := (space.dir.kept (fun p mine => framed.role p (untouched _ mine))
    (fun p structural => framed.contents p (untouched _ (by
      rcases structural with self | ⟨i, table⟩
      · rw [self]
        exact rfl
      · rw [table]
        exact rfl)))).2.2
  have role := space.dir.user _ isUser holds.1
  unfold Holds at holds ⊢
  rw [entries _ (userpage_table isUser).2.2,
    framed.contents _ (untouched _ (by rw [role]; exact rfl))]
  exact holds

/-- Committing keeps the bytes of the new image. -/
theorem commit_keeps {image : Image} {owner : Nat -> Role} {s : Vm} {d : Nat}
    {pages source : Nat -> Prop} (loading : Loading image owner s d pages source)
    (path : List UInt8) (sz entry sp : Nat) :
    Program.wp (commit image path d sz entry sp)
      (fun result t => result = 0 ∧ t.proc.pgdir = d ∧ (Exists fun after => Space after t d pages) ∧
        forall a b, a / PGSIZE < USERPAGES -> Holds s d a b -> Holds t d a b)
      (fun _ => False) s := by
  refine Program.wp_mono (commit_wp loading path sz entry sp) ?_ (fun _ => id)
  rintro result t ⟨isZero, after, _, framed, space, isDir, _⟩
  exact ⟨isZero, isDir, ⟨after, space⟩, fun a b isUser => loading.space.holds_framed framed
    (fun _ => Role.Of.untouched loading.different.symm) isUser⟩

/-- An image whose segments are intact and whose bytes have survived the arguments. -/
theorem File.Intact.installed {ip : File} {argv : List Argument} (intact : ip.Intact argv)
    (low : ip.last ≤ USERTOP - PGSIZE) {after : Nat -> Role} {t : Vm}
    (space : Space after t t.proc.pgdir (Regions ip.last (USERTOP - PGSIZE)))
    (bytes : forall ph, ph ∈ ip.allSegments -> forall a, ph.FilePart a ->
      Holds t t.proc.pgdir a (ip.byteAt ph a)) : ip.Installed t := by
  have below : ceilPage ip.last * PGSIZE ≤ USERTOP - PGSIZE := by
    simp only [ceilPage, PGSIZE, USERTOP] at low ⊢
    omega
  refine ⟨bytes, fun ph member a lower upper => ?_, space.userPage (by decide) (Or.inr ⟨by decide,
    by decide⟩), fun ph member => ?_⟩
  · rcases intact.inside ph member with empty | inside
    · omega
    · refine space.userPage ?_ (Or.inl ⟨?_, ?_⟩)
      · simp only [PGSIZE, USERPAGES, USERTOP] at inside upper below ⊢
        omega
      · simp only [PGSIZE] at inside lower ⊢
        omega
      · exact (Nat.div_lt_iff_lt_mul (by decide)).mpr (Nat.lt_of_lt_of_le upper inside.2)
  · exact (intact.inside ph member).imp_right (fun inside => Nat.le_trans inside.2 below)

theorem bad_survives {image : Image} {owner : Nat -> Role} {s : Vm} {d : Nat} {pages : Nat -> Prop}
    (heap : Heap image owner s) (space : Space owner s d pages) (ip : File) :
    Program.wp (bad image d) ip.Survived (fun _ => False) s := by
  refine Program.wp_mono (bad_wp heap space) ?_ (fun _ => id)
  rintro result t ⟨isMinus, _⟩
  exact Or.inl isMinus

/-- Arguments that have been copied fit. -/
theorem Pushed.fits {d : Nat} {ip : File} {s t : Vm} {argv : List Argument}
    (pushed : Pushed d (Regions ip.last (USERTOP - PGSIZE)) USERTOP (argumentsEnd argv) s t)
    (few : argv.length ≤ MAXARG) : ip.Fits argv := by
  refine ⟨few, pushed.isUser, ?_, fun gap => pushed.gap ?_ (by decide)⟩
  · have stackPage : 1 ≤ (USERTOP - PGSIZE) / PGSIZE := by decide
    have first : 1 ≤ argumentsEnd argv / PGSIZE := by
      rcases pushed.mapped with inImage | inStack
      · exact inImage.1
      · exact Nat.le_trans stackPage inStack.1
    exact (Nat.one_le_div_iff (by decide)).mp first
  · rintro (inImage | inStack)
    · have upper := inImage.2
      omega
    · exact absurd inStack.1 (by decide)

/-- From the arguments on. -/
theorem copyArguments_survives {image : Image} {owner : Nat -> Role} {s : Vm} {d : Nat} {ip : File}
    {source : Nat -> Prop} {argv : List Argument} (path : List UInt8) (entry : Nat)
    (loading : Loading image owner s d (Regions ip.last (USERTOP - PGSIZE)) source)
    (kernel : tables s d = kernelTables) (complete : ip.Complete argv)
    (written : ip.Agree ip.allSegments -> ip.Written s d ip.allSegments) :
    Program.wp (do
        match <- copyArguments d USERTOP argv with
        | none => bad image d
        | some sp => commit image path d (PGROUNDUP ip.last) entry sp)
      ip.Survived (fun _ => False) s := by
  refine Program.wp_seq (copyArguments_kept loading.heap loading.space kernel argv) ?_
  rintro result t ⟨stored, pushed⟩
  have copied := loading.step (stored.within.during _) (loading.heap.congr stored.freelist)
    stored.space
  cases result with
  | none => exact bad_survives copied.heap copied.space ip
  | some sp =>
      rcases pushed sp rfl with ⟨rfl, few, stack⟩
      have intact := complete.intact (stack.fits few)
      have inPlace := written intact.agree
      refine Program.wp_mono (commit_keeps copied path _ entry _) ?_ (fun _ => id)
      rintro result u ⟨isZero, isDir, ⟨last, final⟩, holds⟩
      rw [← isDir] at final
      refine Or.inr ⟨isZero, intact.installed complete.stack final (fun ph member a part => ?_)⟩
      have before := inPlace ph member a part
      rw [isDir]
      refine holds a _ before.1 (stack.kept a _ before.1 (fun inside => ?_) before.2)
      rcases intact.below ph member with empty | below
      · have range := part
        unfold ProgHdr.FilePart at range
        omega
      · exact absurd part.2 (Nat.not_lt.mpr (Nat.le_trans below inside.1))

/-- From the allocation of the stack page on. -/
theorem execStack_survives {image : Image} {owner : Nat -> Role} {s : Vm} {d : Nat} {ip : File}
    {source : Nat -> Prop} {argv : List Argument} (path : List UInt8) (entry : Nat)
    (loading : Loading image owner s d (ImagePages ip.last) source)
    (kernel : tables s d = kernelTables) (complete : ip.Complete argv)
    (written : ip.Agree ip.allSegments -> ip.Written s d ip.allSegments) :
    Program.wp (execStack image path argv d (PGROUNDUP ip.last) entry) ip.Survived
      (fun _ => False) s := by
  unfold execStack
  rw [Program.wp_bind]
  refine Program.wp_mono (wp_both (allocuvm_wp loading.heap loading.space)
    (allocuvm_steady loading.heap loading.space)) ?_ ?_
  · rintro size t ⟨allocated, steady, _, preserves⟩
    cases allocated with
    | tooLarge large => exact absurd large (Nat.lt_irrefl USERTOP)
    | shrinks smaller => exact absurd smaller (by decide)
    | outOfMemory _ _ became _ =>
        rcases became with ⟨after, heap, within, space⟩
        rw [if_pos rfl]
        exact bad_survives heap space ip
    | grown _ _ _ became _ =>
        rcases became with ⟨after, heap, within, space⟩
        have next := loading.step (within.during _) heap
          (space.congr (fun v _ => regions_of_image ip.last v))
        have kept := preserves (by decide)
        rw [if_neg (by decide), Program.wp_bind, Program.wp_modify]
        refine copyArguments_survives path entry
          ⟨next.heap.congr rfl, next.space.of_mem rfl, next.caller.of_mem rfl, next.different⟩
          ((tables_of_directory steady.directory).trans kernel) complete
          (fun agree ph member a part => ?_)
        have before := written agree ph member a part
        exact ⟨before.1, (kept.holds before.1 before.2).of_mem rfl⟩
  · rintro reason ⟨_, _, w, between, mapped⟩
    have lower : USERPAGES - 1 ≤ w := between.1
    have upper := mapped.2
    have order := ceilPage_mono complete.stack
    have page : ceilPage (USERTOP - PGSIZE) = USERPAGES - 1 := by decide
    omega

/-- The new address space before the first segment. -/
theorem setupkvm_loading {image : Image} {owner : Nat -> Role} {s : Vm} {source : Nat -> Prop}
    (heap : Heap image owner s) (caller : Space owner s s.proc.pgdir source) :
    Program.wp (setupkvm image)
      (fun result t => forall d, result = some d -> owner d = .free ∧ Exists fun after =>
        Within d owner after s t ∧ Loading image after t d (ImagePages PGSIZE) source ∧
        tables t d = kernelTables)
      (fun _ => False) s := by
  refine Program.wp_mono (setupkvm_tables heap) ?_ (fun _ => id)
  rintro result t ⟨after, d, notDir, within, nextHeap, outcome⟩ dir same
  subst same
  rcases outcome with ⟨rfl, isFree, space, _, kernel⟩
  have different : dir ≠ s.proc.pgdir := by
    intro same
    rw [same] at notDir
    exact notDir caller.dir.self
  have callerKept := caller.framed within.framed (fun _ => Role.Of.untouched different)
  rw [← within.proc] at callerKept different
  refine ⟨isFree, after, within, ⟨nextHeap, space.congr (fun v _ => ?_), callerKept, different⟩,
    kernel⟩
  exact iff_of_false id (fun inside => absurd inside.2 (Nat.not_lt.mpr inside.1))

/-- Loading the segments of a sound file. -/
theorem File.Sound.segments {ip : File} {argv : List Argument} (sound : ip.Sound argv)
    {image : Image} {owner : Nat -> Role} {s : Vm} {d : Nat} {source : Nat -> Prop}
    (loading : Loading image owner s d (ImagePages PGSIZE) source)
    (kernel : tables s d = kernelTables) :
    Program.wp (loadSegments image d ip ip.elf.phnum ip.elf.phoff PGSIZE)
      (SegmentEnd image owner s d source
        (ip.Possible ip.elf.phnum ip.elf.phoff s.freelist.length PGSIZE)
        (AllPlaced image owner s d source ip [] ip.elf.phnum ip.elf.phoff PGSIZE))
      (fun _ => False) s :=
  loadSegments_placed ip.elf.phnum [] loading kernel (Nat.le_refl _) (by decide) sound.safe nofun

theorem execImage_survives {image : Image} {owner : Nat -> Role} {s : Vm} {source : Nat -> Prop}
    (heap : Heap image owner s) (caller : Space owner s s.proc.pgdir source) {ip : File}
    {argv : List Argument} (sound : ip.Sound argv) (path : List UInt8) :
    Program.wp (execImage image ip path argv) ip.Survived (fun _ => False) s := by
  unfold execImage
  refine Program.wp_seq (setupkvm_loading heap caller) ?_
  intro result t started
  cases result with
  | none => exact Or.inl rfl
  | some d =>
      rcases started d rfl with ⟨_, middle, within, loading, kernel⟩
      refine Program.wp_seq (sound.segments loading kernel) ?_
      intro result u ended
      cases result with
      | none =>
          rcases ended with ⟨after, now, refused⟩
          exact bad_survives refused.loading.heap refused.loading.space ip
      | some last =>
          rcases ended with ⟨after, placed⟩
          have isLast : last = ip.last := placed.isLast
          subst isLast
          exact execStack_survives path ip.elf.entry placed.loading placed.kernel
            (sound.complete placed.loadable) placed.written

/-- `loadSegments`, in the state `s`, comes to a call of `loaduvm` that leads from `before`
to `after`. -/
inductive LoadCall (image : Image) (d : Nat) (ip : File) :
    Nat -> Nat -> Nat -> Vm -> Vm -> Vm -> Prop
  | here {count off sz size : Nat} {s before after : Vm} {ok : Bool} :
      ip.readi off 32 = some 32 -> (ip.ph off).type = ELF_PROG_LOAD ->
      (ip.ph off).filesz ≤ (ip.ph off).memsz ->
      allocuvm image d sz ((ip.ph off).newsz sz) s = .done size before -> size ≠ 0 ->
      loaduvm d (ip.ph off).va ip (ip.ph off).offset (ip.ph off).filesz before = .done ok after ->
      LoadCall image d ip (count + 1) off sz s before after
  | later {count off sz size : Nat} {s t before after : Vm} :
      ip.readi off 32 = some 32 -> loadSegment image d ip (ip.ph off) sz s = .done (some size) t ->
      LoadCall image d ip count ((off + 32) % 2 ^ 32) size t before after ->
      LoadCall image d ip (count + 1) off sz s before after

/-- The state before a call of `loaduvm` for a sound file, and what the call does. -/
theorem LoadCall.stored {image : Image} {d : Nat} {source : Nat -> Prop} {ip : File}
    {count off sz : Nat} {s before after : Vm}
    (call : LoadCall image d ip count off sz s before after) :
    forall {owner : Nat -> Role}, Loading image owner s d (ImagePages sz) source ->
      tables s d = kernelTables -> PGSIZE ≤ sz -> sz ≤ USERTOP -> ip.SafeFrom count off sz ->
      Exists fun middle => Exists fun pages =>
        Within d owner middle s before ∧ Space middle before d pages ∧
        Stored middle d pages before after := by
  induction call with
  | @here count off sz size s before after ok readable isLoad files allocates nonzero loads =>
      intro owner loading kernel start low safe
      have ready := (safe readable).1 isLoad files
      have steady := Program.post_of_done (allocuvm_steady loading.heap loading.space) allocates
      have kernelNow := (tables_of_directory steady.1.directory).trans kernel
      cases Program.post_of_done (allocuvm_wp loading.heap loading.space) allocates with
      | tooLarge _ => exact absurd rfl nonzero
      | outOfMemory _ _ _ _ => exact absurd rfl nonzero
      | shrinks smaller =>
          have same : (ip.ph off).grow sz = sz := by
            rw [ProgHdr.grow, if_neg (not_not_intro isLoad), if_pos smaller]
          have ready := ready (by omega)
          rw [same] at ready
          have filled := Program.post_of_done
            (loaduvm_filled loading.heap loading.space kernel low ready) loads
          exact ⟨owner, _, Within.refl d owner s, loading.space, filled.2.1⟩
      | grown high larger _ became _ =>
          rcases became with ⟨middle, heap, within, space⟩
          have same : (ip.ph off).grow sz = (ip.ph off).newsz sz := by
            rw [ProgHdr.grow, if_neg (not_not_intro isLoad), if_neg (Nat.not_lt.mpr larger)]
          have ready := ready high
          rw [same] at ready
          have grownPages := space.imagePages start larger
          have filled := Program.post_of_done
              (loaduvm_filled heap grownPages kernelNow high ready) loads
          exact ⟨middle, _, within, grownPages, filled.2.1⟩
  | @later count off sz size s t before after readable loaded _ ih =>
      intro owner loading kernel start low safe
      have safeHere := safe readable
      rcases Program.post_of_done
        (loadSegment_placed loading kernel start low safeHere.1) loaded with
        ⟨middle, placed⟩
      have isLast := placed.isLast
      subst isLast
      rcases ih placed.loading placed.kernel (Nat.le_trans start (ProgHdr.le_grow _ sz)) placed.low
        (safeHere.2 placed.loadable) with ⟨last, pages, within, space, stored⟩
      exact ⟨last, pages, placed.within.trans within, space, stored⟩

/-- Each `loaduvm` for a file copies to pages that are mapped for the new image and were
free before, and loading its segments changes no page that was in use before. -/
def File.CopiesConfined (ip : File) (image : Image) (s : Vm) : Prop :=
  ip.accepted = true -> forall d u, setupkvm image s = .done (some d) u ->
    (forall before after, LoadCall image d ip ip.elf.phnum ip.elf.phoff PGSIZE u before after ->
      forall p, after.mem p ≠ before.mem p -> p ∈ s.freelist ∧
        Exists fun v => UserPage before d v ∧ p = PTE_ADDR (pte before d v)) ∧
    forall loaded v, loadSegments image d ip ip.elf.phnum ip.elf.phoff PGSIZE u = .done loaded v ->
      forall p, p ∉ s.freelist -> v.mem p = s.mem p

theorem File.Sound.confined {ip : File} {argv : List Argument} (sound : ip.Sound argv)
    {image : Image} {owner : Nat -> Role} {s : Vm} {source : Nat -> Prop}
    (heap : Heap image owner s) (caller : Space owner s s.proc.pgdir source) :
    ip.CopiesConfined image s := by
  intro _ d u allocates
  rcases Program.post_of_done (setupkvm_loading heap.settle caller.settle) allocates d rfl with
    ⟨isFree, middle, within, loading, kernel⟩
  have untouched : forall p, p ∉ s.freelist ->
      ¬ (settle owner p = .free ∨ (settle owner p).Of d) := by
    rintro p inUse (free | mine)
    · exact inUse ((heap.settle.free p).mpr free)
    · have exists_ := settle_rooted mine
      rw [isFree] at exists_
      cases exists_
  refine ⟨fun before after call p changed => ?_, fun loaded v loads p inUse => ?_⟩
  · rcases call.stored loading kernel (Nat.le_refl _) (by decide) sound.safe with
      ⟨last, pages, later, space, stored⟩
    rcases stored.only p changed with ⟨v, isUser, mapped, frame⟩
    refine ⟨?_, v, space.userPage isUser mapped, frame⟩
    by_contra inUse
    have role := space.dir.user v isUser ((space.user v isUser).mpr mapped)
    have kept := (within.trans later).framed.role p (untouched p inUse)
    rw [← frame, kept] at role
    exact untouched p inUse (Or.inr (by rw [role]; exact rfl))
  · have ended := Program.post_of_done (sound.segments loading kernel) loads
    have rest : Exists fun after => Within d middle after u v := by
      cases loaded with
      | none =>
          rcases ended with ⟨after, now, refused⟩
          exact ⟨after, refused.within⟩
      | some last =>
          rcases ended with ⟨after, placed⟩
          exact ⟨after, placed.within⟩
    rcases rest with ⟨after, later⟩
    exact (within.trans later).framed.contents p (untouched p inUse)

/-- `exec` survives every sound file: it does not panic, it fails or installs the
image, and it copies the file to pages that were free before and to no others. -/
theorem exec_survives {image : Image} {owner : Nat -> Role} {s : Vm} {source : Nat -> Prop}
    (heap : Heap image owner s) (caller : Space owner s s.proc.pgdir source)
    {namei : List UInt8 -> Option File} {path : List UInt8} {ip : File}
    (found : namei path = some ip) {argv : List Argument}
    (sound : ip.accepted = true -> ip.Sound argv) :
    (Exists fun result => Exists fun t =>
      exec image namei path argv s = .done result t ∧ ip.Survived result t) ∧
    ip.CopiesConfined image s := by
  refine ⟨Program.exists_done_of_wp ?_, fun accepted =>
    (sound accepted).confined heap caller accepted⟩
  unfold exec
  rw [found]
  by_cases accepted : ip.accepted = true
  · simp only [if_pos accepted]
    exact execImage_survives heap caller (sound accepted) path
  · simp only [if_neg accepted]
    exact Or.inl rfl

/-! ## A segment that is not aligned -/

/-- With enough memory `exec` panics if the first segment is loadable and not
aligned. -/
theorem exec_unaligned {image : Image} {owner : Nat -> Role} {s : Vm} {source : Nat -> Prop}
    (heap : Heap image owner s) (caller : Space owner s s.proc.pgdir source)
    {namei : List UInt8 -> Option File} {path : List UInt8} {ip : File}
    (found : namei path = some ip) (accepted : ip.accepted = true) {more : Nat}
    (several : ip.elf.phnum = more + 1) (readable : ip.readi ip.elf.phoff 32 = some 32)
    {ph : ProgHdr} (isFirst : ip.ph ip.elf.phoff = ph) (isLoad : ph.type = ELF_PROG_LOAD)
    (files : ph.filesz ≤ ph.memsz) (larger : PGSIZE ≤ ph.newsz PGSIZE)
    (fits : ph.newsz PGSIZE ≤ USERTOP) (unaligned : ph.va % PGSIZE ≠ 0)
    (enough : 13 + ceilPage (ph.newsz PGSIZE) ≤ s.freelist.length) (argv : List Argument) :
    exec image namei path argv s = .panic .loaduvmUnaligned := by
  refine Program.panics_of_wp ?_
  unfold exec
  rw [found]
  simp only [if_pos accepted]
  unfold execImage
  rw [Program.wp_bind]
  refine Program.wp_mono (wp_both (setupkvm_loading heap caller) (setupkvm_wp heap)) ?_
    (fun _ => False.elim)
  rintro result t ⟨started, after, d, _, _, _, outcome⟩
  cases result with
  | none =>
      have few : s.freelist.length < 13 := outcome
      omega
  | some dir =>
      rcases started dir rfl with ⟨_, middle, within, loading, kernel⟩
      have sum : s.freelist.length = t.freelist.length + 13 := outcome.2.2.2
      rw [Program.wp_bind, several, loadSegments, if_neg (not_not_intro readable), isFirst,
        Program.wp_bind, loadSegment, if_neg (not_not_intro isLoad), if_neg (Nat.not_lt.mpr files),
        Program.wp_bind]
      refine Program.wp_mono (allocuvm_wp loading.heap loading.space) ?_ ?_
      · intro size u allocated
        cases allocated with
        | tooLarge large => exact absurd large (Nat.not_lt.mpr fits)
        | shrinks smaller => exact absurd smaller (Nat.not_lt.mpr larger)
        | outOfMemory _ _ _ few => omega
        | grown _ _ _ _ _ =>
            have nonzero : ph.newsz PGSIZE ≠ 0 :=
              Nat.ne_of_gt (Nat.lt_of_lt_of_le (by decide) larger)
            rw [fillSegment, if_neg nonzero, Program.wp_bind, loaduvm, if_pos unaligned,
              Program.wp_stop]
      · rintro reason ⟨_, _, w, between, mapped⟩
        exact absurd (Nat.lt_of_lt_of_le mapped.2 between.1) (Nat.lt_irrefl w)

/-- A program with one segment of four bytes at the address `0x1000 + low`. -/
def oneSegment (low : UInt8) : File where
  size := 88
  bytes := fun i => match i with
    | 0 => 0x7F
    | 1 => 0x45
    | 2 => 0x4C
    | 3 => 0x46
    | 28 => 52
    | 44 => 1
    | 52 => 1
    | 56 => 84
    | 60 => low
    | 61 => 0x10
    | 68 => 4
    | 72 => 4
    | _ => 0
  small := by decide

theorem oneSegment_grow : ((oneSegment 0).ph 52).grow PGSIZE = 8196 := by decide

theorem oneSegment_segments : (oneSegment 0).allSegments = [(oneSegment 0).ph 52] := by
  have count : (oneSegment 0).elf.phnum = 1 := by decide
  have start : (oneSegment 0).elf.phoff = 52 := by decide
  have isLoad : ((oneSegment 0).ph 52).type = ELF_PROG_LOAD := by decide
  rw [File.allSegments, count, start, File.segments, if_pos isLoad, File.segments]

theorem oneSegment_last : (oneSegment 0).last = 8196 := by
  have count : (oneSegment 0).elf.phnum = 1 := by decide
  have start : (oneSegment 0).elf.phoff = 52 := by decide
  rw [File.last, count, start, File.imageEnd, File.imageEnd, oneSegment_grow]

/-- With an aligned segment the file is sound. -/
theorem oneSegment_sound : (oneSegment 0).Sound [] := by
  have count : (oneSegment 0).elf.phnum = 1 := by decide
  have start : (oneSegment 0).elf.phoff = 52 := by decide
  have address : ((oneSegment 0).ph 52).va = 0x1000 := by decide
  have files : ((oneSegment 0).ph 52).filesz = 4 := by decide
  have memory : ((oneSegment 0).ph 52).memsz = 4 := by decide
  refine ⟨?_, fun _ => ⟨by rw [oneSegment_last]; decide, fun _ => ⟨?_, ?_, ?_⟩⟩⟩
  · rw [count, start, File.SafeFrom]
    refine fun _ => ⟨fun _ _ _ => ⟨by rw [address]; decide, fun k below _ => ?_⟩, fun _ => trivial⟩
    rw [files] at below
    have first : k = 0 := Nat.lt_one_iff.mp below
    rw [first, oneSegment_grow, address]
    exact ⟨fun _ => ⟨by decide, by decide⟩, fun _ => by decide⟩
  · intro ph member
    rw [oneSegment_segments, List.mem_singleton] at member
    rw [member, oneSegment_last, address, memory]
    exact Or.inr ⟨by decide, by decide⟩
  · intro one inOne two inTwo a _ _
    rw [oneSegment_segments, List.mem_singleton] at inOne inTwo
    rw [inOne, inTwo]
  · intro ph member
    rw [oneSegment_segments, List.mem_singleton] at member
    rw [member, address, files]
    exact Or.inr (by decide)

theorem exec_survives_oneSegment :
    (Exists fun result => Exists fun t =>
      exec smallKernel (fun _ => some (oneSegment 0)) [] [] (bootSys.vm initcode) = .done result t ∧
        (oneSegment 0).Survived result t) ∧
    (oneSegment 0).CopiesConfined smallKernel (bootSys.vm initcode) :=
  @exec_survives smallKernel bootOwner (bootSys.vm initcode) _ (bootSys_heap initcode)
    (bootSys_space initcode) (fun _ => some (oneSegment 0)) [] (oneSegment 0) rfl []
    (fun _ => oneSegment_sound)

/-- With 200 free pages the kernel panics in `loaduvm`. -/
theorem unaligned_segment_panics :
    Heap smallKernel bootOwner (bootSys.vm initcode) ∧
    Space bootOwner (bootSys.vm initcode) initcode.pgdir (fun v => v = 0) ∧
    (bootSys.vm initcode).freelist.length = 200 ∧
    exec smallKernel (fun _ => some (oneSegment 1)) [] [] (bootSys.vm initcode) =
      .panic .loaduvmUnaligned := by
  have many : (bootSys.vm initcode).freelist.length = 200 := List.length_range'
  have address : ((oneSegment 1).ph 52).va = 0x1001 := by decide
  have files : ((oneSegment 1).ph 52).filesz = 4 := by decide
  have memory : ((oneSegment 1).ph 52).memsz = 4 := by decide
  have size : ((oneSegment 1).ph 52).newsz PGSIZE = 8197 := by
    rw [ProgHdr.newsz, address, memory]
    decide
  refine ⟨bootSys_heap initcode, bootSys_space initcode, many, ?_⟩
  refine @exec_unaligned smallKernel bootOwner (bootSys.vm initcode) _
    (bootSys_heap initcode) (bootSys_space initcode) (fun _ => some (oneSegment 1)) []
    (oneSegment 1) rfl (by decide) 0 (by decide) (by decide) ((oneSegment 1).ph 52)
    (by rw [show (oneSegment 1).elf.phoff = 52 by decide]) (by decide) ?_ ?_ ?_ ?_ ?_ []
  · rw [files, memory]
  · rw [size]
    decide
  · rw [size]
    decide
  · rw [address]
    decide
  · rw [size, many]
    decide

end AddressSpace
end OsProjects
