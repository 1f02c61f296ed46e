import OsProjects.AddressSpace.SoundImage

namespace OsProjects
namespace AddressSpace

open Machine

/-!
# The arguments of `exec`

`exec` packs the argument strings and the words of `main`'s frame from the top of the
stack page downwards.  The stack is one page, and the only check is the one of
`copyout`: every page that a copy touches must be mapped.  A copy that starts in the
stack page stays in it.  The first copy that does not start there is refused if the
page below is not mapped, and otherwise it overwrites the image.
-/

/-! ## One copy -/

/-- The bytes from a user address on. -/
def HoldsBytes (s : Vm) (d a : Nat) (bytes : List UInt8) : Prop :=
  forall k, k < bytes.length -> Holds s d (a + k) (bytes.getD k 0)

/-- The bytes of the image and of the heap: everything below the stack page. -/
def ImageKept (d : Nat) (s t : Vm) : Prop :=
  forall a b, a < USERTOP - PGSIZE -> Holds s d a b -> Holds t d a b

theorem KeptOutside.trans {d lower upper : Nat} {s t u : Vm} (first : KeptOutside d lower upper s t)
    (second : KeptOutside d lower upper t u) : KeptOutside d lower upper s u :=
  fun a b isUser outside holds => second a b isUser outside (first a b isUser outside holds)

theorem KeptOutside.mono {d lower upper less more : Nat} {s t : Vm}
    (kept : KeptOutside d lower upper s t) (below : less ≤ lower) (above : upper ≤ more) :
    KeptOutside d less more s t :=
  fun a b isUser outside holds => kept a b isUser (fun inside => outside
    ⟨Nat.le_trans below inside.1, Nat.lt_of_lt_of_le inside.2 above⟩) holds

theorem KeptOutside.imageKept {d upper : Nat} {s t : Vm}
    (kept : KeptOutside d (USERTOP - PGSIZE) upper s t) : ImageKept d s t := by
  intro a b below holds
  refine kept a b ?_ (fun inside => absurd below (Nat.not_lt.mpr inside.1)) holds
  simp only [USERTOP, PGSIZE, USERPAGES] at below ⊢
  omega

theorem KeptOutside.holdsBytes {d lower upper a : Nat} {s t : Vm} {bytes : List UInt8}
    (kept : KeptOutside d lower upper s t) (holds : HoldsBytes s d a bytes) (above : upper ≤ a)
    (isUser : a + bytes.length ≤ USERTOP) : HoldsBytes t d a bytes := by
  intro k below
  refine kept _ _ ?_ (fun inside => ?_) (holds k below)
  · simp only [USERTOP, PGSIZE, USERPAGES] at isUser ⊢
    omega
  · omega

section Copying

variable {image : Image} {owner : Nat -> Role} {s : Vm} {d va : Nat} {pages : Nat -> Prop}

/-- A copy that starts in a page that is not mapped. -/
theorem copyout_refused (space : Space owner s d pages) (kernel : tables s d = kernelTables)
    (near : NearUser va) {buf : List UInt8} (some_ : buf ≠ [])
    (unmapped : ¬ (va / PGSIZE < USERPAGES ∧ pages (va / PGSIZE))) :
    Program.wp (copyout d va buf) (fun ok t => ok = false ∧ t = s) (fun _ => False) s := by
  rcases near.table with ⟨_, page, member⟩
  unfold copyout
  cases buf with
  | nil => exact absurd rfl some_
  | cons first rest =>
      rw [List.length_cons, copyoutLoop, if_neg some_, Program.wp_bind]
      refine Program.wp_mono (uva2ka_frame space page (table_present kernel member)) ?_
        (fun _ => id)
      rintro pa t ⟨rfl, ⟨rfl, _⟩ | ⟨isUser, mapped, _⟩⟩
      · rw [if_pos rfl, Program.wp_pure]
        exact ⟨rfl, rfl⟩
      · exact absurd ⟨isUser, mapped⟩ unmapped

/-- A copy that starts in a mapped page writes the part in that page, and then goes on
with the next page. -/
theorem copyoutLoop_page (heap : Heap image owner s) (space : Space owner s d pages)
    (kernel : tables s d = kernelTables) (isUser : va / PGSIZE < USERPAGES)
    (mapped : pages (va / PGSIZE)) {fuel : Nat} {buf : List UInt8} (some_ : buf ≠ []) {n : Nat}
    (chunk : min (PGSIZE - va % PGSIZE) buf.length = n)
    {post : Bool -> Vm -> Prop}
    (rest : forall t, Stored owner d pages s t ->
      Filled d (fun a => va ≤ a ∧ a < va + n) (fun a => buf.getD (a - va) 0) s t ->
      Program.wp (copyoutLoop d fuel ((va / PGSIZE + 1) * PGSIZE) (buf.drop n)) post
        (fun _ => False) t) :
    Program.wp (copyoutLoop d (fuel + 1) va buf) post (fun _ => False) s := by
  have near : NearUser va := Or.inl (by
    simp only [PGSIZE, USERPAGES, USERTOP] at isUser ⊢
    omega)
  rcases near.table with ⟨_, page, member⟩
  rw [copyoutLoop, if_neg some_, Program.wp_bind]
  refine Program.wp_mono (uva2ka_frame space page (table_present kernel member)) ?_ (fun _ => id)
  rintro pa t ⟨rfl, ⟨_, unreachable⟩ | ⟨_, _, rfl⟩⟩
  · exact absurd ⟨isUser, mapped⟩ unreachable
  · have role := space.dir.user _ isUser ((space.user _ isUser).mpr mapped)
    have nonzero := Nat.ne_of_gt (heap.page_pos (by rw [role]; exact Role.noConfusion)).1
    have split : va / PGSIZE * PGSIZE + va % PGSIZE = va := Nat.div_add_mod' va PGSIZE
    have fits : va % PGSIZE + n ≤ PGSIZE := by
      have within := Nat.mod_lt va (show 0 < PGSIZE by decide)
      omega
    have next : (PGROUNDDOWN va + PGSIZE) % 2 ^ 32 = (va / PGSIZE + 1) * PGSIZE := by
      simp only [PGROUNDDOWN, PGSIZE, USERPAGES, USERTOP] at isUser ⊢
      omega
    have filled := Filled.splice space isUser mapped fits (fun k => buf.getD k 0)
    rw [split] at filled
    rw [if_neg nonzero, Program.wp_bind, storeBytes_wp, chunk, next]
    exact rest _ (Stored.page space isUser mapped _) filled

/-- A copy inside one mapped page. -/
theorem copyout_inPage (heap : Heap image owner s) (space : Space owner s d pages)
    (kernel : tables s d = kernelTables) (isUser : va / PGSIZE < USERPAGES)
    (mapped : pages (va / PGSIZE)) {buf : List UInt8} (some_ : buf ≠ [])
    (fits : va % PGSIZE + buf.length ≤ PGSIZE) :
    Program.wp (copyout d va buf)
      (fun ok t => ok = true ∧ Stored owner d pages s t ∧
        KeptOutside d va (va + buf.length) s t ∧ HoldsBytes t d va buf)
      (fun _ => False) s := by
  have nonempty : 0 < buf.length := List.length_pos_iff.mpr some_
  rcases Nat.exists_eq_add_of_le' (show 1 ≤ buf.length from nonempty) with ⟨fuel, isLength⟩
  unfold copyout
  rw [isLength]
  refine copyoutLoop_page heap space kernel isUser mapped some_ (n := buf.length)
    (Nat.min_eq_right (by omega)) (fun t stored filled => ?_)
  have done : copyoutLoop d fuel ((va / PGSIZE + 1) * PGSIZE) (buf.drop buf.length) =
      pure true := by
    rw [List.drop_length]
    cases fuel with
    | zero => rfl
    | succ fuel => rw [copyoutLoop, if_pos rfl]
  rw [done, Program.wp_pure]
  refine ⟨rfl, stored, fun a b below outside holds => filled.outside a b below (fun inside =>
    outside (by rw [← isLength]; exact inside)) holds, fun k below => ?_⟩
  have here := filled.inside (va + k) ⟨by omega, by omega⟩
  rw [Nat.add_sub_cancel_left] at here
  exact here

/-- The first byte of a copy that starts in a mapped page is written, and stays. -/
theorem copyout_first (heap : Heap image owner s) (space : Space owner s d pages)
    (kernel : tables s d = kernelTables) (isUser : va / PGSIZE < USERPAGES)
    (mapped : pages (va / PGSIZE)) {buf : List UInt8} (some_ : buf ≠ []) :
    Program.wp (copyout d va buf)
      (fun _ t => Stored owner d pages s t ∧ Holds t d va (buf.getD 0 0)) (fun _ => False) s := by
  have nonempty : 0 < buf.length := List.length_pos_iff.mpr some_
  have within := Nat.mod_lt va (show 0 < PGSIZE by decide)
  have split : va / PGSIZE * PGSIZE + va % PGSIZE = va := Nat.div_add_mod' va PGSIZE
  rcases Nat.exists_eq_add_of_le' (show 1 ≤ buf.length from nonempty) with ⟨fuel, isLength⟩
  unfold copyout
  rw [isLength]
  refine copyoutLoop_page heap space kernel isUser mapped some_ rfl (fun t stored filled => ?_)
  have next : NearUser ((va / PGSIZE + 1) * PGSIZE) := Or.inl (by
    simp only [PGSIZE, USERPAGES, USERTOP] at isUser ⊢
    omega)
  refine Program.wp_mono (copyoutLoop_kept fuel (heap.congr stored.freelist) stored.space
    ((tables_of_directory stored.directory).trans kernel) next) ?_ (fun _ => id)
  rintro _ u ⟨restStored, kept, _⟩
  have first := filled.inside va ⟨Nat.le_refl va, by omega⟩
  rw [Nat.sub_self] at first
  refine ⟨stored.trans restStored, kept va _ isUser (fun inside => ?_) first⟩
  have lower := inside.1
  rw [Nat.succ_mul] at lower
  omega

/-- A copy of bytes that end at the stack pointer or below it writes nothing above. -/
theorem copyout_above (heap : Heap image owner s) (space : Space owner s d pages)
    (kernel : tables s d = kernelTables) (near : NearUser va) {buf : List UInt8} {sp : Nat}
    (reaches : va < USERTOP -> va + buf.length ≤ sp) :
    Program.wp (copyout d va buf)
      (fun _ t => Stored owner d pages s t ∧ KeptOutside d 0 sp s t) (fun _ => False) s := by
  refine Program.wp_mono (copyoutLoop_kept buf.length heap space kernel near) ?_ (fun _ => id)
  rintro _ t ⟨stored, kept, _⟩
  refine ⟨stored, fun a b isUser outside holds => kept a b isUser (fun inside => outside ?_) holds⟩
  have below : va < USERTOP := by
    simp only [PGSIZE, USERPAGES, USERTOP] at isUser ⊢
    omega
  exact ⟨Nat.zero_le a, Nat.lt_of_lt_of_le inside.2 (reaches below)⟩

end Copying

/-! ## The layout -/

/-- Where the strings go. -/
def argumentPlaces : List Argument -> Nat -> List Nat
  | [], _ => []
  | arg :: rest, sp => pushArgument sp arg :: argumentPlaces rest (pushArgument sp arg)

theorem argumentPlaces_length (argv : List Argument) :
    forall sp, (argumentPlaces argv sp).length = argv.length := by
  induction argv with
  | nil => exact fun _ => rfl
  | cons arg rest ih =>
      intro sp
      rw [argumentPlaces, List.length_cons, List.length_cons, ih]

/-- The address lies in the stack page. -/
def InStack (a : Nat) : Prop := USERTOP - PGSIZE ≤ a ∧ a < USERTOP

instance (a : Nat) : Decidable (InStack a) := inferInstanceAs (Decidable (_ ∧ _))

/-- Where the copies start, in their order: the strings and then the words of the
frame. -/
def copyStarts (argv : List Argument) : List Nat :=
  argumentPlaces argv USERTOP ++ [argumentsEnd argv]

/-- Where the first copy starts that does not start in the stack page. -/
def firstOutside (argv : List Argument) : Option Nat :=
  (copyStarts argv).find? (fun a => ¬ InStack a)

/-- The size of a string on the stack, with its terminating zero and with what keeps
the stack pointer aligned. -/
def Argument.size (arg : Argument) : Nat := (arg.bytes.length + 1 + 3) / 4 * 4

/-- The strings and the words of the frame fit in one page. -/
def OnePage (argv : List Argument) : Prop :=
  (argv.map Argument.size).sum + 4 * (argv.length + 4) ≤ PGSIZE

instance (argv : List Argument) : Decidable (OnePage argv) := inferInstanceAs (Decidable (_ ≤ _))

/-- A stack pointer while there is nothing outside the stack page. -/
structure StackTop (sp : Nat) : Prop where
  low : USERTOP - PGSIZE ≤ sp
  high : sp ≤ USERTOP
  aligned : sp % 4 = 0

theorem stackTop_first : StackTop USERTOP := ⟨by decide, by decide, by decide⟩

theorem pushArgument_near {sp : Nat} (high : sp ≤ USERTOP) (arg : Argument) :
    NearUser (pushArgument sp arg) ∧ (pushArgument sp arg < USERTOP ->
      pushArgument sp arg + (arg.bytes.length + 1) ≤ sp ∧
        sp ≤ pushArgument sp arg + (arg.bytes.length + 1) + 3) := by
  have near := NearUser.sub32 high (show arg.bytes.length + 1 ≤ USERTOP from arg.fits)
  unfold pushArgument
  generalize sub32 sp (arg.bytes.length + 1) = below at near
  refine ⟨near.1.align, fun isUser => ?_⟩
  have whole := near.2 (by simp only [USERTOP] at isUser ⊢; omega)
  omega

/-- A string that fits in the stack page takes up its size. -/
theorem StackTop.push_iff {sp : Nat} (top : StackTop sp) (arg : Argument) :
    (InStack (pushArgument sp arg) ↔ USERTOP - PGSIZE + arg.size ≤ sp) ∧
      (InStack (pushArgument sp arg) -> pushArgument sp arg + arg.size = sp) := by
  have low := top.low
  have high := top.high
  have aligned := top.aligned
  have fits := arg.fits
  simp only [InStack, pushArgument, Argument.size, sub32, USERTOP, PGSIZE] at *
  omega

theorem StackTop.push {sp : Nat} {arg : Argument}
    (inside : InStack (pushArgument sp arg)) : StackTop (pushArgument sp arg) :=
  ⟨inside.1, Nat.le_of_lt inside.2, Nat.mul_mod_left _ 4⟩

theorem stackPointer_nil (sp : Nat) : stackPointer [] sp = sp := List.foldl_nil

theorem stackPointer_cons (arg : Argument) (rest : List Argument) (sp : Nat) :
    stackPointer (arg :: rest) sp = stackPointer rest (pushArgument sp arg) :=
  List.foldl_cons

/-- When all strings go into the stack page. -/
theorem places_inside_iff (argv : List Argument) :
    forall {sp : Nat}, StackTop sp ->
      ((forall a, a ∈ argumentPlaces argv sp -> InStack a) ↔
        USERTOP - PGSIZE + (argv.map Argument.size).sum ≤ sp) ∧
      ((forall a, a ∈ argumentPlaces argv sp -> InStack a) ->
        StackTop (stackPointer argv sp) ∧
        stackPointer argv sp + (argv.map Argument.size).sum = sp) := by
  induction argv with
  | nil =>
      intro sp top
      rw [List.map_nil, List.sum_nil, Nat.add_zero, stackPointer_nil]
      exact ⟨iff_of_true nofun top.low, fun _ => ⟨top, Nat.add_zero sp⟩⟩
  | cons arg rest ih =>
      intro sp top
      have first := top.push_iff arg
      rw [argumentPlaces, List.forall_mem_cons, List.map_cons, List.sum_cons]
      by_cases inside : InStack (pushArgument sp arg)
      · have later := ih (.push inside)
        have whole := first.2 inside
        rw [stackPointer_cons, later.1]
        refine ⟨⟨fun both => ?_, fun fits => ⟨inside, ?_⟩⟩, fun both => ?_⟩
        · omega
        · omega
        · have last := later.2 (later.1.mpr both.2)
          exact ⟨last.1, by omega⟩
      · have outside := mt first.1.mpr inside
        exact ⟨iff_of_false (fun both => inside both.1) (by omega),
          fun both => absurd both.1 inside⟩

/-- The words of the frame, when all strings are in the stack page. -/
theorem frame_inside {argv : List Argument} (few : argv.length < MAXARG)
    (inside : forall a, a ∈ argumentPlaces argv USERTOP -> InStack a) :
    (InStack (argumentsEnd argv) ↔ OnePage argv) ∧
      argumentsEnd argv + 4 * (argv.length + 4) = stackPointer argv USERTOP := by
  have last := (places_inside_iff argv stackTop_first).2 inside
  have low := last.1.low
  have high := last.1.high
  have total := last.2
  have place : argumentsEnd argv + 4 * (argv.length + 4) = stackPointer argv USERTOP := by
    simp only [argumentsEnd, sub32, MAXARG, USERTOP, PGSIZE] at few low high ⊢
    omega
  refine ⟨?_, place⟩
  simp only [InStack, OnePage, MAXARG, USERTOP, PGSIZE] at few low high total place ⊢
  omega

/-- The arguments fit in one page exactly when all copies start in the stack page. -/
theorem onePage_iff {argv : List Argument} (few : argv.length < MAXARG) :
    OnePage argv ↔ firstOutside argv = none := by
  have starts : firstOutside argv = none ↔
      (forall a, a ∈ argumentPlaces argv USERTOP -> InStack a) ∧ InStack (argumentsEnd argv) := by
    rw [firstOutside, List.find?_eq_none, copyStarts, List.forall_mem_append,
      List.forall_mem_singleton]
    simp only [decide_eq_true_eq, not_not]
  rw [starts]
  refine ⟨fun fits => ?_, fun both => (frame_inside few both.1).1.mp both.2⟩
  have inside := (places_inside_iff argv stackTop_first).1.mpr (by
    simp only [OnePage, USERTOP, PGSIZE] at fits ⊢
    omega)
  exact ⟨inside, (frame_inside few inside).1.mpr fits⟩

/-- The first string that does not go into the stack page. -/
theorem exists_first_outside {a : Nat} (argv : List Argument) :
    forall {sp : Nat}, (argumentPlaces argv sp).find? (fun a => ¬ InStack a) = some a ->
      Exists fun before => Exists fun arg => Exists fun after => argv = before ++ arg :: after ∧
        (forall x, x ∈ argumentPlaces before sp -> InStack x) ∧
        a = pushArgument (stackPointer before sp) arg := by
  induction argv with
  | nil =>
      intro sp found
      cases found
  | cons arg rest ih =>
      intro sp found
      rw [argumentPlaces] at found
      by_cases inside : InStack (pushArgument sp arg)
      · rw [List.find?_cons_of_neg
          (by rw [decide_eq_true_iff]; exact not_not_intro inside)] at found
        rcases ih found with ⟨before, next, after, rfl, allInside, isPlace⟩
        refine ⟨arg :: before, next, after, rfl, ?_, ?_⟩
        · rw [argumentPlaces, List.forall_mem_cons]
          exact ⟨inside, allInside⟩
        · rw [stackPointer_cons]
          exact isPlace
      · rw [List.find?_cons_of_pos (by rw [decide_eq_true_iff]; exact inside)] at found
        refine ⟨[], arg, rest, rfl, nofun, ?_⟩
        rw [stackPointer_nil]
        exact (Option.some.inj found).symm

/-! ## Pushing the strings -/

section Pushing

variable {image : Image} {owner : Nat -> Role} {d : Nat} {pages : Nat -> Prop}

/-- Pushing two lists of strings, one after the other. -/
theorem pushArguments_append {post : Option (Nat × List Nat) -> Vm -> Prop} {escape : Panic -> Prop}
    (rest argv : List Argument) :
    forall {s : Vm} {sp : Nat} {ustack : List Nat},
      Program.wp (pushArguments d argv sp ustack) (fun result t =>
        match result with
        | none => post none t
        | some (sp', addresses) => Program.wp (pushArguments d rest sp' addresses) post escape t)
        escape s ->
      Program.wp (pushArguments d (argv ++ rest) sp ustack) post escape s := by
  induction argv with
  | nil =>
      intro s sp ustack runs
      exact runs
  | cons arg others ih =>
      intro s sp ustack runs
      rw [pushArguments] at runs
      rw [List.cons_append, pushArguments]
      by_cases many : MAXARG ≤ ustack.length
      · rw [if_pos many] at runs ⊢
        exact runs
      · rw [if_neg many, Program.wp_bind] at runs ⊢
        refine Program.wp_mono runs ?_ (fun _ => id)
        intro ok t continues
        cases ok with
        | false => exact continues
        | true => exact ih continues

/-- Strings that all go into the stack page. -/
theorem pushArguments_inside (stack : pages (USERPAGES - 1)) (argv : List Argument) :
    forall {s : Vm} {sp : Nat} {ustack : List Nat}, Heap image owner s -> Space owner s d pages ->
      tables s d = kernelTables -> StackTop sp -> ustack.length + argv.length ≤ MAXARG ->
      (forall a, a ∈ argumentPlaces argv sp -> InStack a) ->
      Program.wp (pushArguments d argv sp ustack)
        (fun result t => result = some (stackPointer argv sp, ustack ++ argumentPlaces argv sp) ∧
          Stored owner d pages s t ∧ KeptOutside d (stackPointer argv sp) sp s t ∧
          forall pair, pair ∈ argv.zip (argumentPlaces argv sp) ->
            stackPointer argv sp ≤ pair.2 ∧ pair.2 + (pair.1.bytes.length + 1) ≤ sp ∧
              HoldsBytes t d pair.2 (pair.1.bytes ++ [0]))
        (fun _ => False) s := by
  induction argv with
  | nil =>
      intro s sp ustack _ space _ _ _ _
      rw [pushArguments, Program.wp_pure, stackPointer_nil, argumentPlaces, List.append_nil]
      exact ⟨rfl, Stored.refl space, fun _ _ _ _ => id,
        fun _ inNil => absurd inNil List.not_mem_nil⟩
  | cons arg rest ih =>
      intro s sp ustack heap space kernel top few inside
      have length : (arg.bytes ++ [0]).length = arg.bytes.length + 1 := List.length_append
      rw [argumentPlaces, List.forall_mem_cons] at inside
      rw [List.length_cons] at few
      rw [pushArguments, if_neg (by omega), Program.wp_bind, argumentPlaces, stackPointer_cons]
      have range := (pushArgument_near top.high arg).2 inside.1.2
      have next := StackTop.push inside.1
      have placed : pushArgument sp arg = sub32 sp (arg.bytes.length + 1) / 4 * 4 := rfl
      rw [← placed]
      generalize pushArgument sp arg = va at inside range next ⊢
      have page : va / PGSIZE = USERPAGES - 1 := by
        have bounds := inside.1
        simp only [InStack, PGSIZE, USERPAGES, USERTOP] at bounds ⊢
        omega
      have fits : va % PGSIZE + (arg.bytes ++ [0]).length ≤ PGSIZE := by
        have bounds := inside.1
        have high := top.high
        rw [length]
        simp only [InStack, PGSIZE, USERTOP] at bounds high ⊢
        omega
      refine Program.wp_mono
        (copyout_inPage heap space kernel (by rw [page]; decide) (by rw [page]; exact stack)
        (List.append_ne_nil_of_right_ne_nil _ (List.cons_ne_nil _ _)) fits) ?_ (fun _ => id)
      rintro ok t ⟨rfl, stored, kept, written⟩
      rw [if_pos rfl]
      refine Program.wp_mono (ih (heap.congr stored.freelist) stored.space
        ((tables_of_directory stored.directory).trans kernel) next ?_ inside.2) ?_ (fun _ => id)
      · rw [List.length_append, List.length_singleton]
        omega
      · rintro result u ⟨isResult, restStored, restKept, restWritten⟩
        have lower := ((places_inside_iff rest next).2 inside.2).2
        rw [length] at kept
        refine ⟨?_, stored.trans restStored, ?_, ?_⟩
        · rw [isResult, List.append_assoc, List.singleton_append]
        · refine (kept.mono ?_ range.1).trans (restKept.mono (Nat.le_refl _) ?_)
          · omega
          · omega
        · rw [List.zip_cons_cons, List.forall_mem_cons]
          refine ⟨⟨by omega, range.1, restKept.holdsBytes written (Nat.le_refl _) ?_⟩,
            fun pair member => ?_⟩
          · rw [length]
            exact Nat.le_trans range.1 top.high
          · have there := restWritten pair member
            exact ⟨there.1, by omega, there.2.2⟩

/-- Whatever the strings are, nothing above the stack pointer changes. -/
theorem pushArguments_above (argv : List Argument) :
    forall {s : Vm} {sp : Nat} {ustack : List Nat}, Heap image owner s -> Space owner s d pages ->
      tables s d = kernelTables -> sp ≤ USERTOP ->
      Program.wp (pushArguments d argv sp ustack)
        (fun _ t => Stored owner d pages s t ∧ KeptOutside d 0 sp s t) (fun _ => False) s := by
  induction argv with
  | nil =>
      intro s sp ustack _ space _ _
      rw [pushArguments, Program.wp_pure]
      exact ⟨Stored.refl space, fun _ _ _ _ => id⟩
  | cons arg rest ih =>
      intro s sp ustack heap space kernel high
      have length : (arg.bytes ++ [0]).length = arg.bytes.length + 1 := List.length_append
      have near := pushArgument_near high arg
      have placed : pushArgument sp arg = sub32 sp (arg.bytes.length + 1) / 4 * 4 := rfl
      rw [pushArguments]
      by_cases many : MAXARG ≤ ustack.length
      · rw [if_pos many, Program.wp_pure]
        exact ⟨Stored.refl space, fun _ _ _ _ => id⟩
      · rw [if_neg many, Program.wp_bind, ← placed]
        generalize pushArgument sp arg = va at near ⊢
        have reaches : va < USERTOP -> va + (arg.bytes ++ [0]).length ≤ sp ∧
            sp ≤ va + (arg.bytes ++ [0]).length + 3 := by
          rw [length]
          exact near.2
        refine Program.wp_mono (wp_both (copyout_kept _ heap space kernel near.1
          (List.append_ne_nil_of_right_ne_nil _ (List.cons_ne_nil _ _)) reaches)
          (copyout_above heap space kernel near.1 (fun below => (reaches below).1))) ?_
          (fun _ => id)
        rintro ok t ⟨⟨_, pushed⟩, stored, kept⟩
        cases ok with
        | false =>
            rw [if_neg Bool.false_ne_true, Program.wp_pure]
            exact ⟨stored, kept⟩
        | true =>
            have here := pushed rfl
            rw [if_pos rfl]
            refine Program.wp_mono (ih (heap.congr stored.freelist) stored.space
              ((tables_of_directory stored.directory).trans kernel) (Nat.le_of_lt here.isUser)) ?_
              (fun _ => id)
            rintro _ u ⟨restStored, restKept⟩
            exact ⟨stored.trans restStored, kept.trans (restKept.mono (Nat.le_refl 0) here.lower)⟩

/-- The first string that does not go into the stack page goes to a page that is not
mapped. -/
theorem pushArguments_refused (stack : pages (USERPAGES - 1)) {argv : List Argument} {a : Nat}
    (few : argv.length ≤ MAXARG)
    (found : (argumentPlaces argv USERTOP).find? (fun a => ¬ InStack a) = some a)
    (unmapped : ¬ (a / PGSIZE < USERPAGES ∧ pages (a / PGSIZE))) {s : Vm}
    (heap : Heap image owner s) (space : Space owner s d pages)
    (kernel : tables s d = kernelTables) :
    Program.wp (pushArguments d argv USERTOP [])
      (fun result t => result = none ∧ Stored owner d pages s t ∧ ImageKept d s t)
      (fun _ => False) s := by
  rcases exists_first_outside argv found with ⟨before, arg, after, rfl, inside, rfl⟩
  have top := ((places_inside_iff before stackTop_first).2 inside).1
  rw [List.length_append, List.length_cons] at few
  refine pushArguments_append (arg :: after) before
    (Program.wp_mono (pushArguments_inside stack before heap space kernel stackTop_first
    (by rw [List.length_nil]; omega) inside) ?_ (fun _ => id))
  rintro result t ⟨rfl, stored, kept, _⟩
  have near := (pushArgument_near top.high arg).1
  have placed : pushArgument (stackPointer before USERTOP) arg =
    sub32 (stackPointer before USERTOP) (arg.bytes.length + 1) / 4 * 4 := rfl
  have count : (argumentPlaces before USERTOP).length < MAXARG := by
    rw [argumentPlaces_length]
    omega
  dsimp only
  rw [List.nil_append, pushArguments, if_neg (Nat.not_le.mpr count), ← placed, Program.wp_bind]
  refine Program.wp_mono (copyout_refused stored.space
    ((tables_of_directory stored.directory).trans kernel) near
    (List.append_ne_nil_of_right_ne_nil _ (List.cons_ne_nil _ _)) unmapped) ?_ (fun _ => id)
  rintro ok u ⟨rfl, rfl⟩
  rw [if_neg Bool.false_ne_true, Program.wp_pure]
  exact ⟨rfl, stored, (kept.mono top.low (Nat.le_refl _)).imageKept⟩

/-- The first string that does not go into the stack page goes to a page of the image. -/
theorem pushArguments_overwrites (stack : pages (USERPAGES - 1)) {argv : List Argument} {a : Nat}
    (few : argv.length ≤ MAXARG)
    (found : (argumentPlaces argv USERTOP).find? (fun a => ¬ InStack a) = some a)
    (isUser : a / PGSIZE < USERPAGES) (mapped : pages (a / PGSIZE)) :
    Exists fun b => forall {s : Vm}, Heap image owner s -> Space owner s d pages ->
      tables s d = kernelTables ->
      Program.wp (pushArguments d argv USERTOP [])
        (fun result t => Stored owner d pages s t ∧ Holds t d a b ∧
          forall sp addresses, result = some (sp, addresses) -> sp ≤ a)
        (fun _ => False) s := by
  rcases exists_first_outside argv found with ⟨before, arg, after, rfl, inside, rfl⟩
  have top := ((places_inside_iff before stackTop_first).2 inside).1
  rw [List.length_append, List.length_cons] at few
  refine ⟨(arg.bytes ++ [0]).getD 0 0, fun {s} heap space kernel => ?_⟩
  refine pushArguments_append (arg :: after) before
    (Program.wp_mono (pushArguments_inside stack before heap space kernel stackTop_first
    (by rw [List.length_nil]; omega) inside) ?_ (fun _ => id))
  rintro result t ⟨rfl, stored, _⟩
  have placed : pushArgument (stackPointer before USERTOP) arg =
    sub32 (stackPointer before USERTOP) (arg.bytes.length + 1) / 4 * 4 := rfl
  have count : (argumentPlaces before USERTOP).length < MAXARG := by
    rw [argumentPlaces_length]
    omega
  have kernelNow := (tables_of_directory stored.directory).trans kernel
  dsimp only
  rw [List.nil_append, pushArguments, if_neg (Nat.not_le.mpr count), ← placed, Program.wp_bind]
  generalize pushArgument (stackPointer before USERTOP) arg = a at isUser mapped ⊢
  refine Program.wp_mono (copyout_first (heap.congr stored.freelist) stored.space kernelNow isUser
    mapped (List.append_ne_nil_of_right_ne_nil _ (List.cons_ne_nil _ _))) ?_ (fun _ => id)
  rintro ok u ⟨copied, first⟩
  have all := stored.trans copied
  cases ok with
  | false =>
      rw [if_neg Bool.false_ne_true, Program.wp_pure]
      exact ⟨all, first, (by rintro _ _ ⟨⟩)⟩
  | true =>
      have low : a ≤ USERTOP := by
        simp only [PGSIZE, USERPAGES, USERTOP] at isUser ⊢
        omega
      have kernelLast := (tables_of_directory all.directory).trans kernel
      have heapLast := heap.congr (t := u) all.freelist
      rw [if_pos rfl]
      refine Program.wp_mono (wp_both (pushArguments_above after heapLast all.space kernelLast low)
        (pushArguments_kept after heapLast all.space kernelLast low (by
          rw [List.length_append, argumentPlaces_length, List.length_singleton]
          omega))) ?_ (fun _ => id)
      rintro result v ⟨⟨rest, kept⟩, _, pushed⟩
      refine ⟨all.trans rest, kept a _ isUser (fun inside => Nat.lt_irrefl a inside.2) first,
        fun sp addresses same => (pushed sp addresses same).2.1⟩

end Pushing

/-! ## The frame of `main` -/

/-- The word at a user address. -/
def HoldsWord (s : Vm) (d a w : Nat) : Prop :=
  forall k, k < 4 -> Holds s d (a + k) (Bytes.digit w k)

theorem wordBytes_getD (words : List Nat) :
    forall {i k : Nat}, i < words.length -> k < 4 ->
      (wordBytes words).getD (4 * i + k) 0 = Bytes.digit (words.getD i 0) k := by
  induction words with
  | nil =>
      intro i k below _
      exact absurd below (Nat.not_lt_zero i)
  | cons word rest ih =>
      intro i k below small
      have split : wordBytes (word :: rest) = Bytes.digit word 0 :: Bytes.digit word 1 ::
        Bytes.digit word 2 :: Bytes.digit word 3 :: wordBytes rest := rfl
      rw [split]
      cases i with
      | zero =>
          rw [Nat.mul_zero, Nat.zero_add, List.getD_cons_zero]
          match k, small with
          | 0, _ | 1, _ | 2, _ | 3, _ => rfl
      | succ i =>
          have shifted : 4 * (i + 1) + k = 4 * i + k + 1 + 1 + 1 + 1 := by omega
          rw [shifted, List.getD_cons_succ, List.getD_cons_succ, List.getD_cons_succ,
            List.getD_cons_succ, List.getD_cons_succ]
          exact ih (Nat.lt_of_succ_lt_succ below) small

theorem HoldsBytes.word {s : Vm} {d a i : Nat} {words : List Nat}
    (holds : HoldsBytes s d a (wordBytes words)) (below : i < words.length) :
    HoldsWord s d (a + 4 * i) (words.getD i 0) := by
  intro k small
  rw [← wordBytes_getD words below small, Nat.add_assoc]
  refine holds (4 * i + k) ?_
  rw [wordBytes_length]
  omega

/-- What `main` finds when the stack pointer is `sp`: a return address, the number of
arguments and the address `list` of their list, which ends with a null pointer and
whose entries are the addresses of the strings.  All of it is in the stack page. -/
structure Received (s : Vm) (d sp : Nat) (argv : List Argument) (list : Nat)
    (addresses : List Nat) : Prop where
  frame : USERTOP - PGSIZE ≤ sp ∧ sp + 12 ≤ USERTOP
  returns : HoldsWord s d sp 0xffffffff
  count : HoldsWord s d (sp + 4) argv.length
  pointer : HoldsWord s d (sp + 8) list
  listed : USERTOP - PGSIZE ≤ list ∧ list + 4 * (argv.length + 1) ≤ USERTOP
  length : addresses.length = argv.length
  entries : forall i, i < argv.length -> HoldsWord s d (list + 4 * i) (addresses.getD i 0)
  null : HoldsWord s d (list + 4 * argv.length) 0
  strings : forall pair, pair ∈ argv.zip addresses -> USERTOP - PGSIZE ≤ pair.2 ∧
    pair.2 + (pair.1.bytes.length + 1) ≤ USERTOP ∧ HoldsBytes s d pair.2 (pair.1.bytes ++ [0])

/-- The words that `exec` writes are the frame of `main`. -/
theorem received_of_words {s : Vm} {d sp : Nat} {argv : List Argument} {addresses : List Nat}
    (length : addresses.length = argv.length) (low : USERTOP - PGSIZE ≤ sp)
    (high : sp + 4 * (argv.length + 4) ≤ USERTOP)
    (words : HoldsBytes s d sp (wordBytes (userStack (sp + 4 * (argv.length + 4)) addresses)))
    (strings : forall pair, pair ∈ argv.zip addresses -> USERTOP - PGSIZE ≤ pair.2 ∧
      pair.2 + (pair.1.bytes.length + 1) ≤ USERTOP ∧ HoldsBytes s d pair.2 (pair.1.bytes ++ [0])) :
    Received s d sp argv (sp + 12) addresses := by
  have count : (userStack (sp + 4 * (argv.length + 4)) addresses).length = argv.length + 4 := by
    rw [userStack_length, length]
    omega
  have list : sub32 (sp + 4 * (argv.length + 4)) ((addresses.length + 1) * 4) = sp + 12 := by
    rw [length]
    simp only [sub32, USERTOP] at high ⊢
    omega
  have split : userStack (sp + 4 * (argv.length + 4)) addresses =
      0xffffffff :: argv.length :: (sp + 12) :: (addresses ++ [0]) := by
    rw [userStack, list, length]
    rfl
  rw [split] at words count
  have entry : forall i, i ≤ argv.length -> HoldsWord s d (sp + 12 + 4 * i)
      ((addresses ++ [0]).getD i 0) := by
    intro i below
    have word := words.word (i := i + 1 + 1 + 1) (by rw [count]; omega)
    rw [List.getD_cons_succ, List.getD_cons_succ, List.getD_cons_succ,
      show sp + 4 * (i + 1 + 1 + 1) = sp + 12 + 4 * i by omega] at word
    exact word
  have first := words.word (i := 0) (by rw [count]; omega)
  have second := words.word (i := 0 + 1) (by rw [count]; omega)
  have third := words.word (i := 0 + 1 + 1) (by rw [count]; omega)
  rw [List.getD_cons_zero, Nat.mul_zero, Nat.add_zero] at first
  rw [List.getD_cons_succ, List.getD_cons_zero] at second
  rw [List.getD_cons_succ, List.getD_cons_succ, List.getD_cons_zero] at third
  refine ⟨⟨low, by omega⟩, first, second, third, ⟨by omega, by omega⟩, length,
    fun i below => ?_, ?_, strings⟩
  · have word := entry i (Nat.le_of_lt below)
    rw [List.getD_eq_getElem?_getD, List.getElem?_append_left (by rw [length]; exact below),
      ← List.getD_eq_getElem?_getD] at word
    exact word
  · have word := entry argv.length (Nat.le_refl _)
    rw [List.getD_eq_getElem?_getD, List.getElem?_append_right (by rw [length]), length,
      Nat.sub_self] at word
    exact word

/-! ## Copying all arguments -/

section Copies

variable {image : Image} {owner : Nat -> Role} {d : Nat} {pages : Nat -> Prop}
  {argv : List Argument}

theorem frameBytes_length (sp : Nat) (addresses : List Nat) :
    (wordBytes (userStack sp addresses)).length = 4 * (addresses.length + 4) := by
  rw [wordBytes_length, userStack_length]
  omega

theorem frameBytes_ne_nil (sp : Nat) (addresses : List Nat) :
    wordBytes (userStack sp addresses) ≠ [] := by
  refine List.ne_nil_of_length_pos ?_
  rw [frameBytes_length]
  omega

/-- The place of the frame, below strings that are all in the stack page. -/
theorem frame_place (argv : List Argument) : sub32 (stackPointer argv USERTOP)
    ((3 + (argumentPlaces argv USERTOP).length + 1) * 4) = argumentsEnd argv := by
  rw [argumentPlaces_length, argumentsEnd]

/-- Arguments that fit in one page. -/
theorem copyArguments_inside {s : Vm} (stack : pages (USERPAGES - 1)) (few : argv.length < MAXARG)
    (fits : OnePage argv) (heap : Heap image owner s) (space : Space owner s d pages)
    (kernel : tables s d = kernelTables) :
    Program.wp (copyArguments d USERTOP argv)
      (fun result t => result = some (argumentsEnd argv) ∧ Stored owner d pages s t ∧
        ImageKept d s t ∧ Received t d (argumentsEnd argv) argv (argumentsEnd argv + 12)
          (argumentPlaces argv USERTOP))
      (fun _ => False) s := by
  have inside : forall a, a ∈ argumentPlaces argv USERTOP -> InStack a := by
    refine (places_inside_iff argv stackTop_first).1.mpr ?_
    simp only [OnePage, USERTOP, PGSIZE] at fits ⊢
    omega
  have top := ((places_inside_iff argv stackTop_first).2 inside).1
  have frame := frame_inside few inside
  have inPage := frame.1.mpr fits
  unfold copyArguments
  refine Program.wp_seq (pushArguments_inside stack argv heap space kernel stackTop_first
    (by rw [List.length_nil]; omega) inside) ?_
  rintro result t ⟨rfl, stored, kept, strings⟩
  dsimp only
  rw [List.nil_append, frame_place, Program.wp_bind]
  have length := frameBytes_length (stackPointer argv USERTOP) (argumentPlaces argv USERTOP)
  have nonempty := frameBytes_ne_nil (stackPointer argv USERTOP) (argumentPlaces argv USERTOP)
  have words : wordBytes
      (userStack (stackPointer argv USERTOP) (argumentPlaces argv USERTOP)) = wordBytes
      (userStack (argumentsEnd argv + 4 * (argv.length + 4)) (argumentPlaces argv USERTOP)) := by
    rw [frame.2]
  rw [argumentPlaces_length] at length
  have high := top.high
  have low := top.low
  rw [← frame.2] at strings kept high low
  generalize argumentsEnd argv = sp at inPage words strings kept high low ⊢
  have page : sp / PGSIZE = USERPAGES - 1 := by
    simp only [InStack, PGSIZE, USERPAGES, USERTOP] at inPage ⊢
    omega
  refine Program.wp_mono (copyout_inPage (heap.congr stored.freelist) stored.space
    ((tables_of_directory stored.directory).trans kernel) (by rw [page]; decide)
    (by rw [page]; exact stack) nonempty ?_) ?_ (fun _ => id)
  · rw [length]
    simp only [InStack, PGSIZE, USERTOP] at inPage high ⊢
    omega
  · rintro ok u ⟨rfl, restStored, restKept, written⟩
    rw [length] at restKept
    rw [words] at written
    rw [if_pos rfl, Program.wp_pure]
    refine ⟨rfl, stored.trans restStored, ?_, received_of_words (argumentPlaces_length argv USERTOP)
      inPage.1 high written (fun pair member => ?_)⟩
    · exact KeptOutside.imageKept ((kept.mono low (Nat.le_refl _)).trans
        (restKept.mono inPage.1 high))
    · have there := strings pair member
      refine ⟨Nat.le_trans low there.1, there.2.1, restKept.holdsBytes there.2.2 there.1 ?_⟩
      rw [List.length_append, List.length_singleton]
      exact there.2.1

/-- Where the first copy outside the stack page is made. -/
theorem firstOutside_cases {a : Nat} (found : firstOutside argv = some a) :
    (argumentPlaces argv USERTOP).find? (fun a => ¬ InStack a) = some a ∨
      ((forall x, x ∈ argumentPlaces argv USERTOP -> InStack x) ∧ argumentsEnd argv = a ∧
        ¬ InStack a) := by
  rw [firstOutside, copyStarts, List.find?_append] at found
  cases strings : (argumentPlaces argv USERTOP).find? (fun a => ¬ InStack a) with
  | some x =>
      rw [strings, Option.some_or] at found
      exact Or.inl found
  | none =>
      rw [strings, Option.none_or] at found
      have outside := List.find?_some found
      have member := List.mem_of_find?_eq_some found
      rw [List.find?_eq_none] at strings
      rw [decide_eq_true_iff] at outside
      refine Or.inr ⟨fun x inPlaces => ?_, (List.mem_singleton.mp member).symm, outside⟩
      have here := strings x inPlaces
      rw [decide_eq_true_iff, not_not] at here
      exact here

/-- The address of the frame has a page table. -/
theorem frame_near (few : argv.length < MAXARG)
    (inside : forall a, a ∈ argumentPlaces argv USERTOP -> InStack a) :
    NearUser (argumentsEnd argv) := by
  have top := ((places_inside_iff argv stackTop_first).2 inside).1
  have place := (frame_inside few inside).2
  have high := top.high
  exact Or.inl (by omega)

/-- The first copy that does not start in the stack page starts in a page that is not
mapped. -/
theorem copyArguments_refused {s : Vm} {a : Nat} (stack : pages (USERPAGES - 1))
    (few : argv.length < MAXARG) (found : firstOutside argv = some a)
    (unmapped : ¬ (a / PGSIZE < USERPAGES ∧ pages (a / PGSIZE))) (heap : Heap image owner s)
    (space : Space owner s d pages) (kernel : tables s d = kernelTables) :
    Program.wp (copyArguments d USERTOP argv)
      (fun result t => result = none ∧ Stored owner d pages s t ∧ ImageKept d s t)
      (fun _ => False) s := by
  unfold copyArguments
  rcases firstOutside_cases found with inStrings | ⟨inside, rfl, _⟩
  · refine Program.wp_seq
      (pushArguments_refused stack (Nat.le_of_lt few) inStrings unmapped heap space kernel) ?_
    rintro result t ⟨rfl, stored, kept⟩
    rw [Program.wp_pure]
    exact ⟨rfl, stored, kept⟩
  · have top := ((places_inside_iff argv stackTop_first).2 inside).1
    refine Program.wp_seq (pushArguments_inside stack argv heap space kernel stackTop_first
      (by rw [List.length_nil]; omega) inside) ?_
    rintro result t ⟨rfl, stored, kept, _⟩
    dsimp only
    rw [List.nil_append, frame_place, Program.wp_bind]
    refine Program.wp_mono (copyout_refused stored.space
      ((tables_of_directory stored.directory).trans kernel) (frame_near few inside)
      (frameBytes_ne_nil _ _) unmapped) ?_ (fun _ => id)
    rintro ok u ⟨rfl, rfl⟩
    rw [if_neg Bool.false_ne_true, Program.wp_pure]
    exact ⟨rfl, stored, (kept.mono top.low (Nat.le_refl _)).imageKept⟩

/-- The first copy that does not start in the stack page starts in a mapped page: it
puts there a byte that depends on the arguments only. -/
theorem copyArguments_overwrites {a : Nat} (stack : pages (USERPAGES - 1))
    (few : argv.length < MAXARG) (found : firstOutside argv = some a)
    (isUser : a / PGSIZE < USERPAGES) (mapped : pages (a / PGSIZE)) :
    Exists fun b => forall {s : Vm}, Heap image owner s -> Space owner s d pages ->
      tables s d = kernelTables ->
      Program.wp (copyArguments d USERTOP argv) (fun _ t => Holds t d a b) (fun _ => False) s := by
  rcases firstOutside_cases found with inStrings | ⟨inside, rfl, _⟩
  · rcases @pushArguments_overwrites image owner d pages stack argv a (Nat.le_of_lt few) inStrings
      isUser mapped with ⟨b, runs⟩
    refine ⟨b, fun {s} heap space kernel => ?_⟩
    unfold copyArguments
    refine Program.wp_seq (wp_both (runs heap space kernel)
      (pushArguments_kept argv heap space kernel (Nat.le_refl _) (Nat.zero_le _))) ?_
    rintro result t ⟨⟨stored, written, below⟩, _, pushed⟩
    cases result with
    | none => exact written
    | some place =>
        rcases place with ⟨sp, addresses⟩
        rcases pushed sp addresses rfl with ⟨_, low, _, count, _⟩
        have lower := below sp addresses rfl
        have small : (3 + addresses.length + 1) * 4 ≤ USERTOP := by
          simp only [MAXARG, USERTOP] at count ⊢
          omega
        have near := NearUser.sub32 low small
        dsimp only
        rw [Program.wp_bind]
        have reaches : sub32 sp ((3 + addresses.length + 1) * 4) < USERTOP -> sub32 sp
            ((3 + addresses.length + 1) * 4) + (wordBytes (userStack sp addresses)).length ≤ a := by
          intro isLow
          have whole := near.2 isLow
          rw [frameBytes_length]
          omega
        refine Program.wp_mono (copyout_above (heap.congr stored.freelist) stored.space
          ((tables_of_directory stored.directory).trans kernel) near.1 reaches) ?_ (fun _ => id)
        rintro ok u ⟨_, kept⟩
        have still := kept a b isUser (fun inside => Nat.lt_irrefl a inside.2) written
        cases ok with
        | false => exact still
        | true => exact still
  · refine
      ⟨(wordBytes (userStack (stackPointer argv USERTOP) (argumentPlaces argv USERTOP))).getD 0 0,
      fun {s} heap space kernel => ?_⟩
    unfold copyArguments
    refine Program.wp_seq (pushArguments_inside stack argv heap space kernel stackTop_first
      (by rw [List.length_nil]; omega) inside) ?_
    rintro result t ⟨rfl, stored, _⟩
    dsimp only
    rw [List.nil_append, frame_place, Program.wp_bind]
    refine Program.wp_mono (copyout_first (heap.congr stored.freelist) stored.space
      ((tables_of_directory stored.directory).trans kernel) isUser mapped (frameBytes_ne_nil _ _))
      ?_ (fun _ => id)
    rintro ok u ⟨_, written⟩
    cases ok with
    | false => exact written
    | true => exact written

end Copies

/-! ## Files that can be loaded -/

/-- A file all of whose segments can be loaded, with an image that ends below the stack
page. -/
structure File.Valid (ip : File) : Prop where
  accepted : ip.accepted = true
  loadable : ip.Loadable ip.elf.phnum ip.elf.phoff PGSIZE
  safe : ip.SafeFrom ip.elf.phnum ip.elf.phoff PGSIZE
  below : ip.last ≤ USERTOP - PGSIZE

/-- The last chunk of a segment with a file part copies something. -/
theorem File.copies_last {ip : File} {offset sz : Nat} (nonempty : sz ≠ 0)
    (found : ip.chunks offset sz (ceilPage sz) 0 = true) : Exists fun k => k + 1 = ceilPage sz ∧
      ip.chunks offset sz k 0 = true ∧ ip.Copies offset sz (k * PGSIZE) := by
  have positive : 0 < ceilPage sz := by
    simp only [ceilPage, PGSIZE]
    omega
  rcases Nat.exists_eq_add_of_le' (show 1 ≤ ceilPage sz from positive) with ⟨k, isCount⟩
  rw [isCount, File.chunks_succ, Bool.and_eq_true, Nat.zero_add, File.chunk, beq_iff_eq] at found
  refine ⟨k, isCount.symm, found.1, _, found.2, ?_⟩
  unfold chunkSize
  by_cases last : sz - k * PGSIZE < PGSIZE
  · rw [if_pos last]
    simp only [ceilPage, PGSIZE] at isCount ⊢
    omega
  · rw [if_neg last]
    decide

theorem ProgHdr.grow_le {ip : File} {ph : ProgHdr} {sz : Nat} (low : sz ≤ USERTOP)
    (loadable : ip.loadable ph sz) : ph.grow sz ≤ USERTOP := by
  unfold ProgHdr.grow
  by_cases skipped : ph.type ≠ ELF_PROG_LOAD
  · rw [if_pos skipped]
    exact low
  · rw [if_neg skipped]
    split
    · exact low
    · exact (loadable (not_not.mp skipped)).2.1

/-- A safe segment that can be loaded lies in user memory. -/
theorem ProgHdr.confined_of_safe {ip : File} {ph : ProgHdr} {sz : Nat} (low : sz ≤ USERTOP)
    (loadable : ip.loadable ph sz)
    (safe : ph.type = ELF_PROG_LOAD -> ip.SegmentSafe ph (ph.grow sz)) : ph.Confined := by
  intro isLoad
  by_cases empty : ph.filesz = 0
  · exact Or.inl empty
  · have fits := loadable isLoad
    have pages := pagesBelow_eq 0 ph.filesz
    rw [Nat.zero_mul, Nat.sub_zero] at pages
    rw [pages] at fits
    rcases safe isLoad with ⟨aligned, chunks⟩
    rcases File.copies_last empty fits.2.2 with ⟨k, isCount, found, copies⟩
    have inImage := (chunks k (by omega) found).1 copies
    have top := Nat.lt_of_lt_of_le inImage.2 (ceilPage_le_userpages (ProgHdr.grow_le low loadable))
    refine Or.inr ?_
    simp only [ceilPage, PGSIZE, USERPAGES, USERTOP] at aligned isCount top ⊢
    omega

theorem File.confined_of_safe {ip : File} (count : Nat) :
    forall {off sz : Nat}, sz ≤ USERTOP -> ip.Loadable count off sz -> ip.SafeFrom count off sz ->
      ip.Confined count off := by
  induction count with
  | zero => exact fun _ _ _ => trivial
  | succ count ih =>
      intro off sz low loadable safe
      have here := safe loadable.1
      have rest := here.2 loadable.2.1
      refine ⟨ProgHdr.confined_of_safe low loadable.2.1 (fun isLoad => ?_),
        ih (ProgHdr.grow_le low loadable.2.1) loadable.2.2 rest⟩
      have fits := loadable.2.1 isLoad
      exact here.1 isLoad fits.1 fits.2.1

/-! ## The whole call -/

/-- `exec` has loaded the file into `d` and allocated the stack page, and is going to
copy the arguments in the state `t`. -/
def Prepared (image : Image) (ip : File) (s : Vm) (d : Nat) (t : Vm) : Prop :=
  Exists fun empty => Exists fun loaded => Exists fun stacked =>
    setupkvm image s = .done (some d) empty ∧
    loadSegments image d ip ip.elf.phnum ip.elf.phoff PGSIZE empty = .done (some ip.last) loaded ∧
    allocuvm image d (USERTOP - PGSIZE) USERTOP loaded = .done USERTOP stacked ∧
    t = { stacked with proc := stacked.proc.withStack }

theorem Prepared.unique {image : Image} {ip : File} {s t u : Vm} {d e : Nat}
    (one : Prepared image ip s d t) (two : Prepared image ip s e u) : d = e ∧ t = u := by
  rcases one with ⟨empty, loaded, stacked, first, second, third, rfl⟩
  rcases two with ⟨empty', loaded', stacked', first', second', third', rfl⟩
  rw [first] at first'
  injection first' with sameDir sameEmpty
  rw [← Option.some.inj sameDir, ← sameEmpty, second] at second'
  injection second' with _ sameLoaded
  rw [← Option.some.inj sameDir, ← sameLoaded, third] at third'
  injection third' with _ sameStacked
  rw [sameStacked]
  exact ⟨Option.some.inj sameDir, rfl⟩

/-- The rest of `exec`, in a state in which it is prepared. -/
theorem Prepared.exec {image : Image} {ip : File} {s t : Vm} {d : Nat}
    (prepared : Prepared image ip s d t) {namei : List UInt8 -> Option File} {path : List UInt8}
    (found : namei path = some ip) (accepted : ip.accepted = true) (argv : List Argument) :
    exec image namei path argv s = (do
      match <- copyArguments d USERTOP argv with
      | none => bad image d
      | some sp => commit image path d (PGROUNDUP ip.last) ip.elf.entry sp : VmProgram Int) t := by
  rcases prepared with ⟨empty, loaded, stacked, first, second, third, rfl⟩
  have nonzero : USERTOP ≠ 0 := by decide
  unfold AddressSpace.exec
  rw [found]
  simp only [if_pos accepted]
  unfold execImage
  rw [Program.bind_done first]
  dsimp only
  rw [Program.bind_done second]
  dsimp only
  unfold execStack
  rw [Program.bind_done third, if_neg nonzero]
  rfl

/-- With enough memory a valid file is prepared. -/
theorem File.Valid.prepared {image : Image} {owner : Nat -> Role} {s : Vm} {source : Nat -> Prop}
    {ip : File} (valid : ip.Valid) (heap : Heap image owner s)
    (caller : Space owner s s.proc.pgdir source)
    (enough : 13 + ceilPage ip.last ≤ s.freelist.length) :
    Exists fun d => Exists fun t =>
      Prepared image ip s d t ∧
      Exists fun after =>
        Loading image after t d (Regions ip.last (USERTOP - PGSIZE)) source ∧
        tables t d = kernelTables := by
  have confined := File.confined_of_safe ip.elf.phnum (by decide) valid.loadable valid.safe
  rcases Program.exists_done_of_wp (wp_both (setupkvm_loading heap caller) (setupkvm_wp heap)) with
    ⟨result, empty, first, started, _, dir, _, _, _, outcome⟩
  cases result with
  | none =>
      have few : s.freelist.length < 13 := outcome
      omega
  | some d =>
      rcases started d rfl with ⟨_, middle, _, loading, kernel⟩
      have sum : s.freelist.length = empty.freelist.length + 13 := outcome.2.2.2
      rcases Program.exists_done_of_wp (wp_both (loadSegments_placed ip.elf.phnum [] loading kernel
        (Nat.le_refl _) (by decide) valid.safe nofun) (loadSegments_wp ip _ loading (Nat.le_refl _)
        (by decide) confined)) with ⟨result, loaded, second, ended, _, _, _, _, counted⟩
      have single : ceilPage PGSIZE = 1 := rfl
      have whole : ip.imageEnd ip.elf.phnum ip.elf.phoff PGSIZE = ip.last := rfl
      rw [whole, single] at counted
      cases result with
      | none => exact absurd ⟨valid.loadable, by omega⟩ counted
      | some last =>
          rcases ended with ⟨after, placed⟩
          have isLast : last = ip.last := placed.isLast
          subst isLast
          have loadSum := counted.2.2.2.2
          have stacked : Program.wp (allocuvm image d (USERTOP - PGSIZE) USERTOP)
              (fun size t => size = USERTOP ∧ Exists fun last =>
                Loading image last t d (Regions ip.last (USERTOP - PGSIZE)) source ∧
                tables t d = kernelTables) (fun _ => False) loaded := by
            refine Program.wp_mono (wp_both (allocuvm_wp placed.loading.heap placed.loading.space)
              (allocuvm_steady placed.loading.heap placed.loading.space)) ?_ ?_
            · rintro size t ⟨allocated, steady, _⟩
              cases allocated with
              | tooLarge large => exact absurd large (Nat.lt_irrefl USERTOP)
              | shrinks smaller => exact absurd smaller (by decide)
              | outOfMemory _ _ _ few =>
                  rw [show ceilPage USERTOP - ceilPage (USERTOP - PGSIZE) = 1 by decide] at few
                  omega
              | grown _ _ _ became _ =>
                  rcases became with ⟨last, nextHeap, within, space⟩
                  exact ⟨rfl, last, placed.loading.step (within.during _) nextHeap
                    (space.congr (fun v _ => regions_of_image ip.last v)),
                    (tables_of_directory steady.directory).trans placed.kernel⟩
            · rintro reason ⟨_, _, w, between, mapped⟩
              have lower : USERPAGES - 1 ≤ w := between.1
              have upper := mapped.2
              have order := ceilPage_mono valid.below
              have page : ceilPage (USERTOP - PGSIZE) = USERPAGES - 1 := by decide
              omega
          rcases Program.exists_done_of_wp stacked with ⟨_, t, third, rfl, last, next, kernelNow⟩
          exact ⟨d, _, ⟨empty, loaded, t, first, second, third, rfl⟩, last,
            ⟨next.heap.congr rfl, next.space.of_mem rfl, next.caller.of_mem rfl, next.different⟩,
            kernelNow⟩

/-- The pages of the image with other contents. -/
structure Refilled (d : Nat) (t u : Vm) : Prop where
  freelist : u.freelist = t.freelist
  memory : forall p, (forall v, v < USERPAGES -> Present (pte t d v) -> PTE_ADDR (pte t d v) ≠ p) ->
    u.mem p = t.mem p

/-- `exec` passes its arguments intact.  If they fit in one page then it returns 0, `main`
finds them and the image is as it was loaded, and otherwise it returns -1.  In no case
does copying them change a byte of the image, whatever is in it. -/
def ArgumentsIntact (image : Image) (namei : List UInt8 -> Option File) (path : List UInt8)
    (argv : List Argument) (ip : File) (s : Vm) : Prop :=
  Exists fun d => Exists fun t => Prepared image ip s d t ∧
    (OnePage argv -> Exists fun u => exec image namei path argv s = .done 0 u ∧
      u.proc.pgdir = d ∧ ImageKept d t u ∧ Exists fun list => Exists fun addresses =>
        Received u d u.proc.tf.esp.toNat argv list addresses) ∧
    (¬ OnePage argv -> Exists fun u => exec image namei path argv s = .done (-1) u) ∧
    forall u, Refilled d t u -> forall result v, copyArguments d USERTOP argv u = .done result v ->
      ImageKept d u v

/-- The first copy that leaves the stack page, if there is one, does not start in a page
of the image. -/
def File.Spared (ip : File) (argv : List Argument) : Prop :=
  forall a, firstOutside argv = some a -> ¬ ImagePages ip.last (a / PGSIZE)

theorem KeptOutside.holdsWord {d a w : Nat} {s t : Vm} (kept : KeptOutside d 0 0 s t)
    (holds : HoldsWord s d a w) (isUser : a + 4 ≤ USERTOP) : HoldsWord t d a w := by
  intro k small
  refine kept _ _ ?_ (fun inside => Nat.not_lt_zero _ inside.2) (holds k small)
  simp only [PGSIZE, USERPAGES, USERTOP] at isUser ⊢
  omega

theorem Received.kept {s t : Vm} {d sp list : Nat} {argv : List Argument} {addresses : List Nat}
    (received : Received s d sp argv list addresses) (kept : KeptOutside d 0 0 s t) :
    Received t d sp argv list addresses := by
  have frame := received.frame
  have listed := received.listed
  refine ⟨frame, kept.holdsWord received.returns (by omega),
    kept.holdsWord received.count (by omega), kept.holdsWord received.pointer (by omega), listed,
    received.length, fun i below => ?_, ?_, fun pair member => ?_⟩
  · exact kept.holdsWord (received.entries i below) (by omega)
  · exact kept.holdsWord received.null (by omega)
  · have there := received.strings pair member
    refine ⟨there.1, there.2.1, kept.holdsBytes there.2.2 (Nat.zero_le _) ?_⟩
    rw [List.length_append, List.length_singleton]
    exact there.2.1

/-- Committing keeps all bytes, and sets the stack pointer. -/
theorem commit_received {image : Image} {owner : Nat -> Role} {s : Vm} {d : Nat}
    {pages source : Nat -> Prop} (loading : Loading image owner s d pages source)
    (path : List UInt8) (sz entry sp : Nat) :
    Program.wp (commit image path d sz entry sp)
      (fun result t => result = 0 ∧ t.proc.pgdir = d ∧ KeptOutside d 0 0 s t ∧ ImageKept d s t ∧
        t.proc.tf.esp = UInt32.ofNat sp)
      (fun _ => False) s := by
  have pointer : Program.wp (commit image path d sz entry sp)
      (fun _ t => t.proc.tf.esp = UInt32.ofNat sp) (fun _ => False) s := by
    unfold commit
    rw [Program.wp_bind, Program.wp_read, Program.wp_bind, Program.wp_modify]
    refine Program.wp_seq (freevm_wp (loading.heap.congr rfl) (loading.caller.of_mem rfl)) ?_
    rintro _ t ⟨_, _, within, _⟩
    rw [Program.wp_pure, within.proc]
  refine Program.wp_mono (wp_both (commit_keeps loading path sz entry sp) pointer) ?_ (fun _ => id)
  rintro result t ⟨⟨isZero, isDir, _, holds⟩, isPointer⟩
  refine ⟨isZero, isDir, fun a b isUser _ => holds a b isUser,
    fun a b below => holds a b ?_, isPointer⟩
  simp only [PGSIZE, USERPAGES, USERTOP] at below ⊢
  omega

section Call

variable {image : Image} {owner : Nat -> Role} {t u : Vm} {d : Nat} {source : Nat -> Prop}
  {ip : File} {argv : List Argument}

theorem stack_mapped (last : Nat) : Regions last (USERTOP - PGSIZE) (USERPAGES - 1) :=
  Or.inr ⟨by decide, by decide⟩

/-- An image with other contents has the same mappings. -/
theorem Refilled.space {pages : Nat -> Prop} (refilled : Refilled d t u)
    (space : Space owner t d pages) : Space owner u d pages := by
  refine space.kept (fun _ _ => rfl)
    (fun p structural => refilled.memory p (fun v isUser present same => ?_))
  have role := space.dir.user v isUser present
  rw [same] at role
  rw [role] at structural
  rcases structural with self | ⟨i, table⟩
  · cases self
  · cases table

theorem Refilled.kernel {pages : Nat -> Prop} (refilled : Refilled d t u)
    (space : Space owner t d pages) (kernel : tables t d = kernelTables) :
    tables u d = kernelTables := by
  refine (tables_of_directory (refilled.memory d (fun v isUser present same => ?_))).trans kernel
  have role := space.dir.user v isUser present
  rw [same, space.dir.self] at role
  cases role

/-- Outside the stack page, the pages that are mapped are those of the image. -/
theorem mapped_iff_image {a last : Nat} (low : last ≤ USERTOP - PGSIZE) (outside : ¬ InStack a) :
    (a / PGSIZE < USERPAGES ∧ Regions last (USERTOP - PGSIZE) (a / PGSIZE)) ↔
      ImagePages last (a / PGSIZE) := by
  have order := ceilPage_mono low
  simp only [InStack, Regions, ImagePages, ceilPage, PGSIZE, USERPAGES, USERTOP] at *
  omega

theorem firstOutside_outside {a : Nat} (found : firstOutside argv = some a) : ¬ InStack a := by
  have outside := List.find?_some found
  rw [decide_eq_true_iff] at outside
  exact outside

/-- A call whose arguments fit. -/
theorem exec_receives {s : Vm} {namei : List UInt8 -> Option File} {path : List UInt8}
    (prepared : Prepared image ip s d t) (found : namei path = some ip) (valid : ip.Valid)
    (loading : Loading image owner t d (Regions ip.last (USERTOP - PGSIZE)) source)
    (kernel : tables t d = kernelTables) (few : argv.length < MAXARG) (fits : OnePage argv) :
    Exists fun u => exec image namei path argv s = .done 0 u ∧ u.proc.pgdir = d ∧ ImageKept d t u ∧
      Exists fun list => Exists fun addresses =>
        Received u d u.proc.tf.esp.toNat argv list addresses := by
  have runs : Program.wp (do
      match <- copyArguments d USERTOP argv with
      | none => bad image d
      | some sp => commit image path d (PGROUNDUP ip.last) ip.elf.entry sp : VmProgram Int)
      (fun result u => result = 0 ∧ u.proc.pgdir = d ∧ ImageKept d t u ∧
        Exists fun list => Exists fun addresses =>
          Received u d u.proc.tf.esp.toNat argv list addresses) (fun _ => False) t := by
    refine Program.wp_seq (copyArguments_inside (stack_mapped ip.last) few fits loading.heap
      loading.space kernel) ?_
    rintro result m ⟨rfl, stored, image, received⟩
    have copied := loading.step (stored.within.during _) (loading.heap.congr stored.freelist)
      stored.space
    refine Program.wp_mono (commit_received copied path _ _ _) ?_ (fun _ => id)
    rintro result u ⟨isZero, isDir, kept, imageAfter, isPointer⟩
    have place : u.proc.tf.esp.toNat = argumentsEnd argv := by
      rw [isPointer, toNat_ofNat_of_le]
      have frame := received.frame
      omega
    rw [place]
    exact ⟨isZero, isDir, fun a b below holds => imageAfter a b below (image a b below holds), _, _,
      received.kept kept⟩
  rw [prepared.exec found valid.accepted argv]
  rcases Program.exists_done_of_wp runs with ⟨_, u, ran, rfl, rest⟩
  exact ⟨u, ran, rest⟩

/-- A call whose first copy outside the stack page is refused. -/
theorem exec_refuses {s : Vm} {namei : List UInt8 -> Option File} {path : List UInt8} {a : Nat}
    (prepared : Prepared image ip s d t) (isFile : namei path = some ip) (valid : ip.Valid)
    (loading : Loading image owner t d (Regions ip.last (USERTOP - PGSIZE)) source)
    (kernel : tables t d = kernelTables) (few : argv.length < MAXARG)
    (found : firstOutside argv = some a) (spared : ¬ ImagePages ip.last (a / PGSIZE)) :
    Exists fun u => exec image namei path argv s = .done (-1) u := by
  have unmapped := mt (mapped_iff_image valid.below (firstOutside_outside found)).mp spared
  have runs : Program.wp (do
      match <- copyArguments d USERTOP argv with
      | none => bad image d
      | some sp => commit image path d (PGROUNDUP ip.last) ip.elf.entry sp : VmProgram Int)
      (fun result _ => result = -1) (fun _ => False) t := by
    refine Program.wp_seq (copyArguments_refused
      (stack_mapped ip.last) few found unmapped loading.heap loading.space kernel) ?_
    rintro result m ⟨rfl, stored, _⟩
    refine Program.wp_mono (bad_wp (loading.heap.congr stored.freelist) stored.space) ?_
      (fun _ => id)
    exact fun _ _ => And.left
  rw [prepared.exec isFile valid.accepted argv]
  rcases Program.exists_done_of_wp runs with ⟨_, u, ran, rfl⟩
  exact ⟨u, ran⟩

/-- Copying arguments of a spared image. -/
theorem copyArguments_spares (valid : ip.Valid) (heap : Heap image owner u)
    (space : Space owner u d (Regions ip.last (USERTOP - PGSIZE)))
    (kernel : tables u d = kernelTables) (few : argv.length < MAXARG) (spared : ip.Spared argv) :
    Program.wp (copyArguments d USERTOP argv) (fun _ v => ImageKept d u v) (fun _ => False) u := by
  by_cases fits : OnePage argv
  · refine Program.wp_mono (copyArguments_inside (stack_mapped ip.last) few fits heap space kernel)
      ?_ (fun _ => id)
    exact fun _ _ done => done.2.2.1
  · rcases Option.ne_none_iff_exists'.mp (mt (onePage_iff few).mpr fits) with ⟨a, found⟩
    have unmapped := mt (mapped_iff_image valid.below (firstOutside_outside found)).mp
        (spared a found)
    refine Program.wp_mono (copyArguments_refused
      (stack_mapped ip.last) few found unmapped heap space kernel) ?_ (fun _ => id)
    exact fun _ _ done => done.2.2

/-- Copying arguments that overwrite some image. -/
theorem copyArguments_spoils {a : Nat} (valid : ip.Valid) (heap : Heap image owner t)
    (space : Space owner t d (Regions ip.last (USERTOP - PGSIZE)))
    (kernel : tables t d = kernelTables) (few : argv.length < MAXARG)
    (found : firstOutside argv = some a) (inImage : ImagePages ip.last (a / PGSIZE)) :
    Exists fun u =>
      Refilled d t u ∧
      Exists fun result => Exists fun v =>
        copyArguments d USERTOP argv u = .done result v ∧ ¬ ImageKept d u v := by
  have outside := firstOutside_outside found
  have mapped := (mapped_iff_image valid.below outside).mpr inImage
  rcases @copyArguments_overwrites image owner d _ argv a (stack_mapped ip.last) few found mapped.1
    mapped.2 with ⟨b, runs⟩
  have offset : a % PGSIZE + 1 ≤ PGSIZE := Nat.mod_lt a (by decide)
  have filled := Filled.splice space mapped.1 mapped.2 offset (fun _ => b + 1)
  have stored := Stored.page space mapped.1 mapped.2
    ((t.mem (PTE_ADDR (pte t d (a / PGSIZE)))).splice (a % PGSIZE) 1 (fun _ => b + 1))
  generalize refilled : t.withPage (PTE_ADDR (pte t d (a / PGSIZE))) ((t.mem (PTE_ADDR
    (pte t d (a / PGSIZE)))).splice (a % PGSIZE) 1 (fun _ => b + 1)) = u at filled stored
  have split : a / PGSIZE * PGSIZE + a % PGSIZE = a := Nat.div_add_mod' a PGSIZE
  have before := filled.inside a ⟨by omega, by omega⟩
  refine ⟨u, ⟨stored.freelist, fun p notUser => ?_⟩, ?_⟩
  · rw [← refilled]
    exact Vm.withPage_mem_of_ne _ _ (fun same => notUser _ mapped.1
      ((space.user _ mapped.1).mpr mapped.2) same.symm)
  · rcases Program.exists_done_of_wp (runs (heap.congr stored.freelist) stored.space
      ((tables_of_directory stored.directory).trans kernel)) with ⟨result, v, ran, after⟩
    refine ⟨result, v, ran, fun kept => ?_⟩
    have low : a < USERTOP - PGSIZE := by
      simp only [InStack, PGSIZE, USERPAGES, USERTOP] at outside mapped ⊢
      omega
    have still := kept a _ low before
    have same : b + 1 = b := still.2.symm.trans after.2
    have value := congrArg UInt8.toNat same
    have small := b.toNat_lt
    rw [UInt8.toNat_add, UInt8.toNat_one] at value
    omega

end Call

/-- `exec` passes its arguments intact exactly when the first copy that leaves the stack
page does not start in a page of the image. -/
theorem exec_arguments_intact_iff {image : Image} {owner : Nat -> Role} {s : Vm}
    {source : Nat -> Prop} (heap : Heap image owner s) (caller : Space owner s s.proc.pgdir source)
    {namei : List UInt8 -> Option File} {path : List UInt8} {ip : File}
    (found : namei path = some ip) (valid : ip.Valid)
    (enough : 13 + ceilPage ip.last ≤ s.freelist.length) {argv : List Argument}
    (few : argv.length < MAXARG) : ArgumentsIntact image namei path argv ip s ↔ ip.Spared argv := by
  rcases valid.prepared heap caller enough with ⟨d, t, prepared, after, loading, kernel⟩
  constructor
  · rintro ⟨e, u, again, _, _, kept⟩ a outside inImage
    rcases prepared.unique again with ⟨rfl, rfl⟩
    rcases copyArguments_spoils valid loading.heap loading.space kernel few outside inImage with
      ⟨v, refilled, result, w, ran, spoiled⟩
    exact spoiled (kept v refilled result w ran)
  · intro spared
    refine ⟨d, t, prepared, exec_receives prepared found valid loading kernel few, fun large => ?_,
      fun u refilled result v ran => ?_⟩
    · rcases Option.ne_none_iff_exists'.mp (mt (onePage_iff few).mpr large) with ⟨a, outside⟩
      exact exec_refuses prepared found valid loading kernel few outside (spared a outside)
    · have spares := copyArguments_spares valid (loading.heap.congr refilled.freelist)
        (refilled.space loading.space) (refilled.kernel loading.space kernel) few spared
      have kept := Program.post_of_done spares ran
      exact kept

theorem oneSegment_valid : (oneSegment 0).Valid := by
  have count : (oneSegment 0).elf.phnum = 1 := by decide
  have start : (oneSegment 0).elf.phoff = 52 := by decide
  refine ⟨by decide, ?_, oneSegment_sound.safe, by rw [oneSegment_last]; decide⟩
  rw [count, start, File.Loadable]
  exact ⟨by decide, fun _ => ⟨by decide, by decide, by decide⟩, trivial⟩

/-- The arguments "sh", "-c" and "ls". -/
def commandLine : List Argument :=
  [⟨[115, 104], by decide⟩, ⟨[45, 99], by decide⟩, ⟨[108, 115], by decide⟩]

theorem exec_arguments_intact_iff_commandLine :
    ArgumentsIntact smallKernel (fun _ => some (oneSegment 0)) [] commandLine (oneSegment 0)
      (bootSys.vm initcode) := by
  have many : (bootSys.vm initcode).freelist.length = 200 := List.length_range'
  have enough : 13 + ceilPage (oneSegment 0).last ≤ (bootSys.vm initcode).freelist.length := by
    rw [oneSegment_last, many]
    decide
  have few : commandLine.length < MAXARG := by decide
  have inside : firstOutside commandLine = none := by decide
  refine (@exec_arguments_intact_iff smallKernel bootOwner (bootSys.vm initcode) _
    (bootSys_heap initcode) (bootSys_space initcode) (fun _ => some (oneSegment 0)) []
    (oneSegment 0) rfl oneSegment_valid enough commandLine few).mpr (fun a outside => ?_)
  rw [inside] at outside
  exact nomatch outside

/-! ## An argument that overwrites the image -/

/-- A copy to mapped pages succeeds. -/
theorem copyout_reachable {image : Image} {owner : Nat -> Role} {s : Vm} {d va : Nat}
    {pages : Nat -> Prop} (heap : Heap image owner s) (space : Space owner s d pages)
    (low : va < 2 ^ 32) {buf : List UInt8} (reachable : Reachable pages va buf.length) :
    Program.wp (copyout d va buf) (fun ok t => ok = true ∧ Copied owner s d pages t)
      (fun _ => False) s := by
  refine Program.wp_mono (copyout_wp heap space low buf) ?_ (fun _ stopped => stopped.2.1 reachable)
  rintro ok t ⟨copied, delivered⟩
  exact ⟨delivered.reachable reachable, copied⟩

theorem wideSegment_size : 88 ≤ 140 * 512 := by decide

/-- A program whose image ends where the stack page begins. -/
def wideSegment : File where
  size := 88
  bytes := fun i => match i with
    | 0 => 0x7F
    | 1 => 0x45
    | 2 => 0x4C
    | 3 => 0x46
    | 28 => 52
    | 44 => 1
    | 52 => 1
    | 56 => 84
    | 61 => 0x10
    | 68 => 4
    | 73 => 0xD0
    | 74 => 9
    | _ => 0
  small := wideSegment_size

theorem wideSegment_grow : (wideSegment.ph 52).grow PGSIZE = USERTOP - PGSIZE := by decide

theorem wideSegment_last : wideSegment.last = USERTOP - PGSIZE := by
  have count : wideSegment.elf.phnum = 1 := by decide
  have start : wideSegment.elf.phoff = 52 := by decide
  rw [File.last, count, start, File.imageEnd, File.imageEnd, wideSegment_grow]

theorem wideSegment_valid : wideSegment.Valid := by
  have count : wideSegment.elf.phnum = 1 := by decide
  have start : wideSegment.elf.phoff = 52 := by decide
  have address : (wideSegment.ph 52).va = 0x1000 := by decide
  have files : (wideSegment.ph 52).filesz = 4 := by decide
  refine ⟨by decide, ?_, ?_, by rw [wideSegment_last]⟩
  · rw [count, start, File.Loadable]
    exact ⟨by decide, fun _ => ⟨by decide, by decide, by decide⟩, trivial⟩
  · rw [count, start, File.SafeFrom]
    refine fun _ => ⟨fun _ _ _ => ⟨by rw [address]; decide, fun k below _ => ?_⟩, fun _ => trivial⟩
    rw [files] at below
    have first : k = 0 := Nat.lt_one_iff.mp below
    rw [first, wideSegment_grow, address]
    exact ⟨fun _ => ⟨by decide, by decide⟩, fun _ => by decide⟩

theorem longArgument_length : longArgument.bytes.length = 5000 := List.length_replicate

/-- In an image that reaches up to the stack page, everything above the first page is
mapped. -/
theorem wide_reachable {va len : Nat} (low : PGSIZE ≤ va) (high : va + len ≤ USERTOP) :
    Reachable (Regions (USERTOP - PGSIZE) (USERTOP - PGSIZE)) va len := by
  intro v lower upper
  have pages : ceilPage (USERTOP - PGSIZE) = 159 := by decide
  have stack : (USERTOP - PGSIZE) / PGSIZE = 159 := by decide
  rw [Regions, pages, stack]
  simp only [PGSIZE, USERPAGES, USERTOP] at low high lower upper ⊢
  omega

/-- A single argument that goes with its frame into a page above the first one. -/
structure Argument.Lands (arg : Argument) (va sp : Nat) : Prop where
  place : pushArgument USERTOP arg = va
  string : va + (arg.bytes.length + 1) ≤ USERTOP
  frame : sub32 va 20 = sp
  words : sp + 20 ≤ va
  low : PGSIZE ≤ sp

theorem copyArguments_wide {image : Image} {owner : Nat -> Role} {s : Vm} {d va sp : Nat}
    (heap : Heap image owner s)
    (space : Space owner s d (Regions (USERTOP - PGSIZE) (USERTOP - PGSIZE))) {arg : Argument}
    (lands : arg.Lands va sp) :
    Program.wp (copyArguments d USERTOP [arg])
      (fun result t => result ≠ none ∧
        Copied owner s d (Regions (USERTOP - PGSIZE) (USERTOP - PGSIZE)) t) (fun _ => False) s := by
  have placed : sub32 USERTOP (arg.bytes.length + 1) / 4 * 4 = va := lands.place
  have string := lands.string
  have words := lands.words
  have low := lands.low
  have length : (arg.bytes ++ [0]).length = arg.bytes.length + 1 := List.length_append
  have size : (wordBytes (userStack va ([] ++ [va]))).length = 20 := frameBytes_length _ _
  have small : va < 2 ^ 32 ∧ sp < 2 ^ 32 := by
    simp only [USERTOP] at string
    omega
  have few : ¬ MAXARG ≤ ([] : List Nat).length := by decide
  unfold copyArguments
  rw [Program.wp_bind, pushArguments, if_neg few, placed, Program.wp_bind]
  refine Program.wp_mono (copyout_reachable heap space small.1 (wide_reachable (by omega) (by
    rw [length]
    exact string))) ?_ (fun _ => id)
  rintro ok t ⟨rfl, copied⟩
  have frame : sub32 va ((3 + ([] ++ [va]).length + 1) * 4) = sp := lands.frame
  rw [if_pos rfl, pushArguments, Program.wp_pure]
  dsimp only
  rw [frame, Program.wp_bind]
  refine Program.wp_mono (copyout_reachable (heap.congr copied.2.1) copied.2.2 small.2
    (wide_reachable low (by
      rw [size]
      omega))) ?_ (fun _ => id)
  rintro ok u ⟨rfl, restCopied⟩
  rw [if_pos rfl, Program.wp_pure]
  exact ⟨Option.some_ne_none _, copied.trans restCopied⟩

/-- If the image reaches up to the stack page then `exec` returns 0 for such an
argument, whether it fits in one page or not. -/
theorem exec_wide {image : Image} {owner : Nat -> Role} {s : Vm} {source : Nat -> Prop}
    (heap : Heap image owner s) (caller : Space owner s s.proc.pgdir source)
    {namei : List UInt8 -> Option File} {path : List UInt8} {ip : File}
    (found : namei path = some ip) (valid : ip.Valid) (reaches : ip.last = USERTOP - PGSIZE)
    (enough : 13 + ceilPage ip.last ≤ s.freelist.length) {arg : Argument} {va sp : Nat}
    (lands : arg.Lands va sp) : Exists fun t => exec image namei path [arg] s = .done 0 t := by
  rcases valid.prepared heap caller enough with ⟨d, t, prepared, after, loading, _⟩
  have runs : Program.wp (do
      match <- copyArguments d USERTOP [arg] with
      | none => bad image d
      | some sp => commit image path d (PGROUNDUP ip.last) ip.elf.entry sp : VmProgram Int)
      (fun result _ => result = 0) (fun _ => False) t := by
    have space := loading.space
    rw [reaches] at space
    refine Program.wp_seq (copyArguments_wide loading.heap space lands) ?_
    rintro result u ⟨succeeds, within, sameList, copied⟩
    have next := loading.step (within.during _) (loading.heap.congr sameList) copied
    cases result with
    | none => exact absurd rfl succeeds
    | some sp =>
        exact Program.wp_mono (commit_wp next path _ _ sp) (fun _ _ => And.left) (fun _ => id)
  rw [prepared.exec found valid.accepted [arg]]
  rcases Program.exists_done_of_wp runs with ⟨_, u, ran, rfl⟩
  exact ⟨u, ran⟩

theorem longArgument_lands : longArgument.Lands 650356 650336 := by
  refine ⟨?_, ?_, by decide, by decide, by decide⟩
  · rw [pushArgument, longArgument_length]
    decide
  · rw [longArgument_length]
    decide

/-- An argument of more than a page is written over the end of the image, and `exec`
returns 0. -/
theorem long_argument_overwrites_image :
    Heap smallKernel bootOwner (bootSys.vm initcode) ∧
    Space bootOwner (bootSys.vm initcode) initcode.pgdir (fun v => v = 0) ∧ wideSegment.Valid ∧
    13 + ceilPage wideSegment.last ≤ (bootSys.vm initcode).freelist.length ∧
    ¬ OnePage [longArgument] ∧ Exists fun t =>
      exec smallKernel (fun _ => some wideSegment) [] [longArgument] (bootSys.vm initcode) =
        .done 0 t := by
  have many : (bootSys.vm initcode).freelist.length = 200 := List.length_range'
  have enough : 13 + ceilPage wideSegment.last ≤ (bootSys.vm initcode).freelist.length := by
    rw [wideSegment_last, many]
    decide
  have large : ¬ OnePage [longArgument] := by
    rw [OnePage, List.map_singleton, List.sum_singleton, Argument.size, longArgument_length]
    decide
  exact ⟨bootSys_heap initcode, bootSys_space initcode,
    wideSegment_valid, enough, large, exec_wide (bootSys_heap initcode)
    (bootSys_space initcode) rfl wideSegment_valid wideSegment_last enough longArgument_lands⟩

end AddressSpace
end OsProjects
