import Mathlib.Data.List.Range
import Mathlib.Tactic.IntervalCases
import OsProjects.AddressSpace.Exec

namespace OsProjects
namespace AddressSpace

open Machine

/-!
# How `exec` ends

Copying the arguments writes user pages of the new address space only, whatever
the strings are.  With that, `exec` has three outcomes: it fails and the caller
keeps its address space, with or without a new value of `sz2`; or it succeeds and
the caller has the new address space.
-/

/-- `walkpgdir` without allocation, for any page. -/
theorem walkpgdir_lookup {s : Vm} {d v : Nat} (low : v < 2 ^ 20)
    {post : Option (Nat × Nat) -> Vm -> Prop} {escape : Panic -> Prop}
    (found : Present (pde s d (v / 1024)) ->
      post (some (PTE_ADDR (pde s d (v / 1024)), v % 1024)) s)
    (missing : ¬ Present (pde s d (v / 1024)) -> post none s) :
    Program.wp (walkpgdir d (v * PGSIZE) false) post escape s := by
  have index : PDX (v * PGSIZE) = v / 1024 := by simp only [PDX, PGSIZE]; omega
  have offset : PTX (v * PGSIZE) = v % 1024 := by simp only [PTX, PGSIZE]; omega
  unfold walkpgdir
  rw [Program.wp_bind, Program.wp_read, index, offset]
  by_cases table : Present (pde s d (v / 1024))
  · rw [if_pos (show Present ((s.mem d).word (v / 1024)) from table)]
    exact found table
  · rw [if_neg (show ¬ Present ((s.mem d).word (v / 1024)) from table), if_neg Bool.false_ne_true]
    exact missing table

/-- `uva2ka` finds the mapped user pages and nothing else. -/
theorem uva2ka_wp {owner : Nat -> Role} {s : Vm} {d v : Nat} {pages : Nat -> Prop}
    (space : Space owner s d pages) (low : v < 2 ^ 20) :
    Program.wp (uva2ka d (v * PGSIZE))
      (fun pa t => t = s ∧ ((pa = 0 ∧ ¬ (v < USERPAGES ∧ pages v)) ∨
        (v < USERPAGES ∧ pages v ∧ owner pa = .user d v)))
      (fun reason => reason = .nullPte ∧ USERPAGES ≤ v) s := by
  have access := space.access v low
  unfold uva2ka
  rw [Program.wp_bind]
  refine walkpgdir_lookup low (fun table => ?_)
    (fun missing => ⟨rfl, Nat.le_of_not_lt (fun isUser => ?_)⟩)
  · rw [Program.wp_bind, Program.wp_read, ← pte_of_present table]
    by_cases reachable : v < USERPAGES ∧ pages v
    · have present := (space.user v reachable.1).mpr reachable.2
      rw [if_neg (not_not_intro present), if_neg (access.mpr reachable), Program.wp_pure]
      exact ⟨rfl, Or.inr ⟨reachable.1, reachable.2, space.dir.user v reachable.1 present⟩⟩
    · have supervisor : pte s d v &&& PTE_U = 0 := not_not.mp (mt access.mp reachable)
      by_cases present : Present (pte s d v)
      · rw [if_neg (not_not_intro present), if_pos supervisor, Program.wp_pure]
        exact ⟨rfl, Or.inl ⟨rfl, reachable⟩⟩
      · rw [if_pos present, Program.wp_pure]
        exact ⟨rfl, Or.inl ⟨rfl, reachable⟩⟩
  · rw [(userpage_table isUser).1] at missing
    exact missing space.table

@[simp] theorem storeBytes_wp {pa0 at_ n : Nat} {buf : List UInt8} {post : Unit -> Vm -> Prop}
    {escape : Panic -> Prop} {s : Vm} :
    Program.wp (storeBytes pa0 at_ n buf) post escape s ↔
      post ⟨⟩ (s.withPage pa0 ((s.mem pa0).splice at_ n (fun k => buf.getD k 0))) := Iff.rfl

/-- What copying into the new address space keeps. -/
def Copied (owner : Nat -> Role) (s : Vm) (d : Nat) (pages : Nat -> Prop) (t : Vm) : Prop :=
  Within d owner owner s t ∧ t.freelist = s.freelist ∧ Space owner t d pages

theorem Copied.refl {owner : Nat -> Role} {s : Vm} {d : Nat} {pages : Nat -> Prop}
    (space : Space owner s d pages) : Copied owner s d pages s :=
  ⟨Within.refl d owner s, rfl, space⟩

theorem Copied.trans {owner : Nat -> Role} {s t u : Vm} {d : Nat} {pages : Nat -> Prop}
    (first : Copied owner s d pages t) (second : Copied owner t d pages u) :
    Copied owner s d pages u :=
  ⟨first.1.trans second.1, second.2.1.trans first.2.1, second.2.2⟩

/-- The addresses `[va, va + len)` lie in mapped pages. -/
def Reachable (pages : Nat -> Prop) (va len : Nat) : Prop :=
  forall v, va / PGSIZE ≤ v -> v * PGSIZE < va + len -> v < USERPAGES ∧ pages v

/-- The rest of a reachable range, after one iteration of `copyout`. -/
theorem Reachable.next {pages : Nat -> Prop} {va len : Nat} (reachable : Reachable pages va len)
    (isUser : va / PGSIZE < USERPAGES) :
    Reachable pages ((PGROUNDDOWN va + PGSIZE) % 2 ^ 32)
      (len - min (PGSIZE - va % PGSIZE) len) := by
  intro v lower upper
  have split : va / PGSIZE * PGSIZE + va % PGSIZE = va := Nat.div_add_mod' va PGSIZE
  have next : (PGROUNDDOWN va + PGSIZE) % 2 ^ 32 = (va / PGSIZE + 1) * PGSIZE := by
    simp only [PGROUNDDOWN, PGSIZE, USERPAGES, USERTOP] at isUser ⊢
    omega
  rw [next] at lower upper
  rw [Nat.mul_div_cancel _ (by decide)] at lower
  have inside : v * PGSIZE < va + len := by
    simp only [PGSIZE] at lower upper split ⊢
    omega
  exact reachable v (by omega) inside

/-- The address lies in a user page that is not mapped. -/
def Unmapped (pages : Nat -> Prop) (va : Nat) : Prop :=
  va / PGSIZE < USERPAGES ∧ ¬ pages (va / PGSIZE)

/-- What a call of `copyout` says about the mapping: a reachable range is copied,
and a range that starts in an unmapped page is refused. -/
structure Delivered (pages : Nat -> Prop) (va : Nat) (buf : List UInt8) (ok : Bool) : Prop where
  reachable : Reachable pages va buf.length -> ok = true
  unmapped : Unmapped pages va -> buf ≠ [] -> ok = false

theorem copyoutLoop_wp {image : Image} {d : Nat} {pages : Nat -> Prop} {owner : Nat -> Role}
    (fuel : Nat) :
    forall {s : Vm} {va : Nat} {buf : List UInt8}, Heap image owner s -> Space owner s d pages ->
      va < 2 ^ 32 -> buf.length ≤ fuel ->
      Program.wp (copyoutLoop d fuel va buf)
        (fun ok t => Copied owner s d pages t ∧ Delivered pages va buf ok)
        (fun reason => reason = .nullPte ∧ ¬ Reachable pages va buf.length ∧ ¬ Unmapped pages va)
        s := by
  induction fuel with
  | zero =>
      intro s va buf _ space _ bound
      rw [copyoutLoop, Program.wp_pure]
      exact ⟨Copied.refl space, fun _ => rfl, fun _ nonempty =>
        absurd (List.length_eq_zero_iff.mp (Nat.le_zero.mp bound)) nonempty⟩
  | succ fuel ih =>
      intro s va buf heap space low bound
      rw [copyoutLoop]
      by_cases done : buf = []
      · rw [if_pos done, Program.wp_pure]
        exact ⟨Copied.refl space, fun _ => rfl, fun _ nonempty => absurd done nonempty⟩
      · have nonempty : 0 < buf.length := List.length_pos_iff.mpr done
        have within : va % PGSIZE < PGSIZE := Nat.mod_lt va (by decide)
        have inPage : va / PGSIZE * PGSIZE ≤ va := Nat.div_mul_le_self va PGSIZE
        have page : va / PGSIZE < 2 ^ 20 := by simp only [PGSIZE]; omega
        have firstPage : Reachable pages va buf.length -> va / PGSIZE < USERPAGES ∧
            pages (va / PGSIZE) := fun reachable => reachable _ (Nat.le_refl _) (by omega)
        rw [if_neg done, Program.wp_bind]
        refine Program.wp_mono (uva2ka_wp space page) ?_ ?_
        · rintro pa t ⟨rfl, ⟨rfl, unreachable⟩ | ⟨isUser, mapped, role⟩⟩
          · rw [if_pos rfl, Program.wp_pure]
            exact ⟨Copied.refl space, fun reachable => absurd (firstPage reachable) unreachable,
              fun _ _ => rfl⟩
          · have managed : owner pa ≠ .other := by rw [role]; exact Role.noConfusion
            have stored : Copied owner t d pages (t.withPage pa ((t.mem pa).splice (va % PGSIZE)
                (min (PGSIZE - va % PGSIZE) buf.length) (fun k => buf.getD k 0))) :=
              ⟨Within.store owner t (by rw [role]; exact rfl) _, rfl, space.store_user role _⟩
            rw [if_neg (Nat.ne_of_gt (heap.page_pos managed).1), Program.wp_bind, storeBytes_wp]
            refine Program.wp_mono
              (ih (heap.congr rfl) stored.2.2 (Nat.mod_lt _ (by decide)) ?_) ?_ ?_
            · rw [List.length_drop]
              omega
            · rintro ok w ⟨rest, delivered⟩
              refine ⟨stored.trans rest, fun reachable => delivered.reachable ?_,
                fun unmapped => absurd mapped unmapped.2⟩
              rw [List.length_drop]
              exact reachable.next isUser
            · rintro reason ⟨isNull, unreachable, _⟩
              refine ⟨isNull, fun reachable => unreachable ?_, fun unmapped => unmapped.2 mapped⟩
              rw [List.length_drop]
              exact reachable.next isUser
        · rintro reason ⟨isNull, high⟩
          refine ⟨isNull, fun reachable => ?_,
            fun unmapped => absurd unmapped.1 (Nat.not_lt.mpr high)⟩
          exact absurd (firstPage reachable).1 (Nat.not_lt.mpr high)

theorem copyout_wp {image : Image} {owner : Nat -> Role} {s : Vm} {d va : Nat} {pages : Nat -> Prop}
    (heap : Heap image owner s) (space : Space owner s d pages) (low : va < 2 ^ 32)
    (buf : List UInt8) :
    Program.wp (copyout d va buf)
      (fun ok t => Copied owner s d pages t ∧ Delivered pages va buf ok)
      (fun reason => reason = .nullPte ∧ ¬ Reachable pages va buf.length ∧ ¬ Unmapped pages va) s :=
  copyoutLoop_wp buf.length heap space low (Nat.le_refl _)

theorem sub32_lt (a b : Nat) : sub32 a b < 2 ^ 32 := Nat.mod_lt _ (by decide)

/-- The first argument starts in a user page that is not mapped. -/
def Overlong (pages : Nat -> Prop) (sp : Nat) : List Argument -> Prop
  | [] => False
  | arg :: _ => Unmapped pages (sub32 sp (arg.bytes.length + 1) / 4 * 4)

theorem pushArguments_wp {image : Image} {owner : Nat -> Role} {d : Nat} {pages : Nat -> Prop}
    (argv : List Argument) :
    forall {s : Vm} (sp : Nat) (ustack : List Nat), Heap image owner s -> Space owner s d pages ->
      Program.wp (pushArguments d argv sp ustack)
        (fun result t => Copied owner s d pages t ∧ (argv = [] -> result = some (sp, ustack)) ∧
          (Overlong pages sp argv -> result = none))
        (fun reason => reason = .nullPte ∧ argv ≠ [] ∧ ¬ Overlong pages sp argv) s := by
  induction argv with
  | nil =>
      intro s sp ustack _ space
      rw [pushArguments, Program.wp_pure]
      exact ⟨Copied.refl space, fun _ => rfl, False.elim⟩
  | cons arg rest ih =>
      intro s sp ustack heap space
      rw [pushArguments]
      by_cases many : MAXARG ≤ ustack.length
      · rw [if_pos many, Program.wp_pure]
        exact ⟨Copied.refl space, nofun, fun _ => rfl⟩
      · rw [if_neg many, Program.wp_bind]
        have low : sub32 sp (arg.bytes.length + 1) / 4 * 4 < 2 ^ 32 :=
          Nat.lt_of_le_of_lt (Nat.div_mul_le_self _ 4) (sub32_lt _ _)
        have nonempty : arg.bytes ++ [0] ≠ [] := List.append_ne_nil_of_right_ne_nil _ (by decide)
        refine Program.wp_mono (copyout_wp heap space low (arg.bytes ++ [0])) ?_
          (fun _ stopped => ⟨stopped.1, List.cons_ne_nil _ _, stopped.2.2⟩)
        rintro ok t ⟨copied, delivered⟩
        cases ok with
        | false =>
            rw [if_neg Bool.false_ne_true, Program.wp_pure]
            exact ⟨copied, nofun, fun _ => rfl⟩
        | true =>
            have mapped : ¬ Overlong pages sp (arg :: rest) := fun overlong =>
              Bool.false_ne_true (delivered.unmapped overlong nonempty).symm
            rw [if_pos rfl]
            refine Program.wp_mono (ih _ _ (heap.congr copied.2.1) copied.2.2) ?_
              (fun _ stopped => ⟨stopped.1, List.cons_ne_nil _ _, mapped⟩)
            rintro result u ⟨restCopied, _⟩
            exact ⟨copied.trans restCopied, nofun,
              fun overlong => absurd overlong mapped⟩

/-- Without arguments the stack page is enough. -/
theorem stack_reachable {pages : Nat -> Prop} (stack : pages (USERPAGES - 1)) :
    Reachable pages (sub32 USERTOP 16) (wordBytes (userStack USERTOP [])).length := by
  intro v lower upper
  have length : (wordBytes (userStack USERTOP [])).length = 16 := rfl
  have address : sub32 USERTOP 16 = 159 * PGSIZE + 4080 := by decide
  rw [length, address] at upper
  rw [address] at lower
  have here : v = USERPAGES - 1 := by
    simp only [PGSIZE, USERPAGES, USERTOP] at lower upper ⊢
    omega
  rw [here]
  exact ⟨by decide, stack⟩

theorem copyArguments_wp {image : Image} {owner : Nat -> Role} {s : Vm} {d : Nat}
    {pages : Nat -> Prop} (heap : Heap image owner s) (space : Space owner s d pages)
    (stack : pages (USERPAGES - 1)) (argv : List Argument) :
    Program.wp (copyArguments d USERTOP argv)
      (fun result t => Copied owner s d pages t ∧ (argv = [] -> result ≠ none) ∧
        (Overlong pages USERTOP argv -> result = none))
      (fun reason => reason = .nullPte ∧ argv ≠ [] ∧ ¬ Overlong pages USERTOP argv) s := by
  unfold copyArguments
  refine Program.wp_seq (pushArguments_wp argv USERTOP [] heap space) ?_
  rintro result t ⟨copied, whenEmpty, whenOverlong⟩
  cases result with
  | none =>
      rw [Program.wp_pure]
      exact ⟨copied, fun empty => (nomatch whenEmpty empty), fun _ => rfl⟩
  | some place =>
      rcases place with ⟨sp, addresses⟩
      have notOverlong : ¬ Overlong pages USERTOP argv := fun overlong =>
        nomatch whenOverlong overlong
      have reachable : argv = [] -> Reachable pages (sub32 sp ((3 + addresses.length + 1) * 4))
          (wordBytes (userStack sp addresses)).length := by
        intro empty
        have same := Prod.mk.inj (Option.some.inj (whenEmpty empty))
        rw [same.1, same.2]
        exact stack_reachable stack
      rw [Program.wp_bind]
      refine Program.wp_mono (copyout_wp (heap.congr copied.2.1) copied.2.2 (sub32_lt _ _) _) ?_
        (fun _ stopped => ⟨stopped.1, fun empty => stopped.2.1 (reachable empty), notOverlong⟩)
      rintro ok u ⟨restCopied, delivered⟩
      cases ok with
      | true =>
          rw [if_pos rfl, Program.wp_pure]
          exact ⟨copied.trans restCopied, fun _ => Option.some_ne_none _,
            fun overlong => absurd overlong notOverlong⟩
      | false =>
          rw [if_neg Bool.false_ne_true, Program.wp_pure]
          exact ⟨copied.trans restCopied, fun empty =>
            absurd (delivered.reachable (reachable empty)) Bool.false_ne_true, fun _ => rfl⟩

/-! ## Outcomes -/

/-- The end of the image of a file. -/
def File.last (ip : File) : Nat := ip.imageEnd ip.elf.phnum ip.elf.phoff PGSIZE

/-- With `free` pages the image can be built completely: thirteen pages for the
kernel part, one for each page of the image and one for the stack. -/
def File.Buildable (ip : File) (free : Nat) : Prop :=
  ip.accepted = true ∧ ip.Loadable ip.elf.phnum ip.elf.phoff PGSIZE ∧ 13 + ceilPage ip.last ≤ free

/-- The process after the stack page has been allocated. -/
def Proc.withStack (p : Proc) : Proc := { p with sz2 := UInt32.ofNat (USERTOP - PGSIZE) }

/-- How `exec` ends, for an image that ends at `last` and that can be built
completely or not. -/
inductive Ended (image : Image) (owner : Nat -> Role) (s : Vm) (argv : List Argument)
    (last : Nat) (buildable : Prop) : Int -> Vm -> Prop
  | early {after : Nat -> Role} {d : Nat} {t : Vm} : owner d ≠ .dir d -> Heap image after t ->
      Beside d s.proc.pgdir owner after s t -> t.proc = s.proc -> ¬ buildable ->
      Ended image owner s argv last buildable (-1) t
  | late {after : Nat -> Role} {d : Nat} {t : Vm} : owner d ≠ .dir d -> Heap image after t ->
      Beside d s.proc.pgdir owner after s t -> t.proc = s.proc.withStack -> buildable ->
      argv ≠ [] -> Ended image owner s argv last buildable (-1) t
  | replaced {after : Nat -> Role} {d : Nat} {t : Vm} : owner d ≠ .dir d -> Heap image after t ->
      Framed (fun r => r = .free ∨ r.Of d ∨ r.Of s.proc.pgdir) owner after s t ->
      Space after t d (Regions last (USERTOP - PGSIZE)) ->
      t.proc.pgdir = d -> t.proc.sz = UInt32.ofNat (PGROUNDUP last) ->
      t.proc.sz2 = UInt32.ofNat (USERTOP - PGSIZE) -> t.proc.killed = s.proc.killed ->
      buildable -> ¬ Overlong (Regions last (USERTOP - PGSIZE)) USERTOP argv ->
      last ≤ USERTOP -> s.freelist.length ≤ t.freelist.length + 13 + ceilPage last ->
      Ended image owner s argv last buildable 0 t

/-- How `exec` stops the machine.  A file without segments and a list of arguments
that is empty or too long do not. -/
structure Stopped (ip : File) (argv : List Argument) (reason : Panic) : Prop where
  remap : reason = .remap -> USERPAGES ≤ ceilPage ip.last
  arguments : reason = .nullPte ->
    argv ≠ [] ∧ ¬ Overlong (Regions ip.last (USERTOP - PGSIZE)) USERTOP argv
  loading : reason ≠ .remap -> reason ≠ .nullPte -> ip.elf.phnum ≠ 0

theorem bad_wp {image : Image} {owner : Nat -> Role} {s : Vm} {d : Nat} {pages : Nat -> Prop}
    (heap : Heap image owner s) (space : Space owner s d pages) :
    Program.wp (bad image d)
      (fun result t =>
        result = -1 ∧ Exists fun after => Heap image after t ∧ Within d owner after s t)
      (fun _ => False) s := by
  unfold bad
  refine Program.wp_seq (freevm_wp heap space) ?_
  rintro _ t ⟨after, freedHeap, within, _⟩
  rw [Program.wp_pure]
  exact ⟨rfl, after, freedHeap, within⟩

/-- The pages of the new process. -/
theorem regions_of_image (last v : Nat) :
    ImagePages last v ∨ Between (USERTOP - PGSIZE) USERTOP v ↔
      Regions last (USERTOP - PGSIZE) v := by
  have stack : Between (USERTOP - PGSIZE) USERTOP v ↔
      (USERTOP - PGSIZE) / PGSIZE ≤ v ∧ v < USERPAGES := by
    simp only [Between, show ceilPage (USERTOP - PGSIZE) = (USERTOP - PGSIZE) / PGSIZE from rfl,
      show ceilPage USERTOP = USERPAGES from rfl]
  rw [stack]
  exact Iff.rfl

theorem commit_wp {image : Image} {owner : Nat -> Role} {s : Vm} {d : Nat}
    {pages source : Nat -> Prop} (loading : Loading image owner s d pages source)
    (path : List UInt8) (sz entry sp : Nat) :
    Program.wp (commit image path d sz entry sp)
      (fun result t => result = 0 ∧ Exists fun after => Heap image after t ∧
        Framed (fun r => r = .free ∨ r.Of s.proc.pgdir) owner after s t ∧ Space after t d pages ∧
        t.proc.pgdir = d ∧ t.proc.sz = UInt32.ofNat sz ∧ t.proc.sz2 = s.proc.sz2 ∧
        t.proc.killed = s.proc.killed ∧ s.freelist.length ≤ t.freelist.length)
      (fun _ => False) s := by
  unfold commit
  rw [Program.wp_bind, Program.wp_read, Program.wp_bind, Program.wp_modify]
  refine Program.wp_seq (freevm_wp (loading.heap.congr rfl) (loading.caller.of_mem rfl)) ?_
  rintro _ t ⟨after, heap, within, grown⟩
  rw [Program.wp_pure]
  have space : Space owner { s with proc := { s.proc with
      name := processName path, pgdir := d, sz := UInt32.ofNat sz,
      tf := { eip := UInt32.ofNat entry, esp := UInt32.ofNat sp } } } d pages :=
    loading.space.of_mem rfl
  refine ⟨rfl, after, heap, ⟨within.framed.role, within.framed.contents⟩,
    space.framed within.framed (fun _ => Role.Of.untouched loading.different.symm), ?_⟩
  rw [within.proc]
  exact ⟨rfl, rfl, rfl, rfl, grown⟩

/-- Freeing the caller's space after the new one has been built. -/
theorem Beside.replace {d e : Nat} {owner middle after : Nat -> Role} {s t u : Vm}
    (first : Beside d e owner middle s t)
    (second : Framed (fun r => r = .free ∨ r.Of e) middle after t u) :
    Framed (fun r => r = .free ∨ r.Of d ∨ r.Of e) owner after s u := by
  refine ⟨fun p untouched => ?_, fun p untouched => ?_⟩
  · have same := first.role p (fun touched => untouched (touched.imp_right Or.inl))
    rw [second.role p (by rw [same]; exact fun touched => untouched (touched.imp_right Or.inr)),
      same]
  · have same := first.role p (fun touched => untouched (touched.imp_right Or.inl))
    rw [second.contents p (by rw [same]; exact fun touched => untouched (touched.imp_right Or.inr)),
      first.contents p (fun touched => untouched (touched.imp_right Or.inl)) (fun zero => ?_)]
    rw [zero] at untouched
    exact untouched (Or.inr (Or.inr rfl))

/-- From the arguments on, in a state where the stack page is mapped. -/
theorem copyArguments_ended {image : Image} {owner middle : Nat -> Role}
    {s t : Vm} {d : Nat} {ip : File} {source : Nat -> Prop} {buildable : Prop}
    (argv : List Argument) (path : List UInt8) (entry : Nat) (notDir : owner d ≠ .dir d)
    (beside : Beside d s.proc.pgdir owner middle s t) (proc : t.proc = s.proc.withStack)
    (loading : Loading image middle t d (Regions ip.last (USERTOP - PGSIZE)) source)
    (low : ip.last ≤ USERTOP) (sum : s.freelist.length = t.freelist.length + 13 + ceilPage ip.last)
    (holds : buildable) : Program.wp (do
        match <- copyArguments d USERTOP argv with
        | none => bad image d
        | some sp => commit image path d (PGROUNDUP ip.last) entry sp)
      (Ended image owner s argv ip.last buildable)
      (Stopped ip argv) t := by
  have stack : Regions ip.last (USERTOP - PGSIZE) (USERPAGES - 1) :=
    Or.inr ⟨by decide, by decide⟩
  rw [Program.wp_bind]
  refine Program.wp_mono (copyArguments_wp loading.heap loading.space stack argv) ?_ ?_
  · rintro result u ⟨⟨within, sameList, space⟩, succeeds, fails⟩
    have next := loading.step (within.during _) (loading.heap.congr sameList) space
    have sameDir : u.proc.pgdir = s.proc.pgdir := by rw [within.proc, proc, Proc.withStack]
    have copied := beside.trans (within.during s.proc.pgdir).toBeside
    cases result with
    | none =>
        refine Program.wp_mono (bad_wp next.heap next.space) ?_ (fun _ => False.elim)
        rintro _ w ⟨rfl, after, heap, freed⟩
        refine .late notDir heap (copied.trans (freed.during s.proc.pgdir).toBeside) ?_ holds
          (fun empty => succeeds empty rfl)
        rw [freed.proc, within.proc, proc]
    | some sp =>
        refine Program.wp_mono (commit_wp next path _ entry sp) ?_ (fun _ => False.elim)
        rintro _ w ⟨rfl, after, heap, framed, committed, isDir, isSz, isSz2, isKilled, grown⟩
        rw [sameDir] at framed
        refine .replaced notDir heap (copied.replace framed) committed isDir isSz ?_ ?_ holds
          (fun overlong => nomatch fails overlong) low ?_
        · rw [isSz2, within.proc, proc, Proc.withStack]
        · rw [isKilled, within.proc, proc, Proc.withStack]
        · rw [sameList] at grown
          omega
  · rintro reason ⟨rfl, nonempty, notOverlong⟩
    exact ⟨nofun, fun _ => ⟨nonempty, notOverlong⟩,
      fun _ notNull => absurd rfl notNull⟩

theorem execStack_wp {image : Image} {owner middle : Nat -> Role} {s t : Vm} {d : Nat} {ip : File}
    {source : Nat -> Prop} {buildable : Prop} (argv : List Argument) (path : List UInt8)
    (entry : Nat) (notDir : owner d ≠ .dir d) (during : During d s.proc.pgdir owner middle s t)
    (loading : Loading image middle t d (ImagePages ip.last) source) (low : ip.last ≤ USERTOP)
    (sum : s.freelist.length + 1 = t.freelist.length + 13 + ceilPage ip.last)
    (enough : buildable ↔ 13 + ceilPage ip.last ≤ s.freelist.length) :
    Program.wp (execStack image path argv d (PGROUNDUP ip.last) entry)
      (Ended image owner s argv ip.last buildable)
      (Stopped ip argv) t := by
  have single : ceilPage USERTOP - ceilPage (USERTOP - PGSIZE) = 1 := by decide
  unfold execStack
  rw [Program.wp_bind]
  refine Program.wp_mono (allocuvm_wp loading.heap loading.space) ?_ ?_
  · intro size u allocated
    cases allocated with
    | tooLarge large => exact absurd large (Nat.lt_irrefl USERTOP)
    | shrinks smaller => exact absurd smaller (by decide)
    | grown _ _ _ became fewer =>
        rcases became with ⟨after, heap, within, space⟩
        rw [single] at fewer
        have next := loading.step (within.during _) heap
          (space.congr (fun v _ => regions_of_image ip.last v))
        have whole := during.toBeside.trans (within.during s.proc.pgdir).toBeside
        rw [if_neg (by decide), Program.wp_bind, Program.wp_modify]
        refine copyArguments_ended argv path entry notDir ⟨whole.role, whole.contents⟩ ?_
          ⟨next.heap.congr rfl, next.space.of_mem rfl, next.caller.of_mem rfl, next.different⟩ low
          ?_ (enough.mpr (by omega))
        · show Proc.withStack u.proc = s.proc.withStack
          rw [within.proc, during.proc]
        · show s.freelist.length = u.freelist.length + 13 + ceilPage ip.last
          omega
    | outOfMemory _ _ became few =>
        rcases became with ⟨after, heap, within, space⟩
        rw [single] at few
        rw [if_pos rfl]
        refine Program.wp_mono (bad_wp heap space) ?_ (fun _ => False.elim)
        rintro _ w ⟨rfl, last', freedHeap, freed⟩
        have all := (during.trans (within.during _)).trans (freed.during _)
        exact .early notDir freedHeap all.toBeside all.proc (fun holds => by
          have needed := enough.mp holds
          omega)
  · rintro reason ⟨rfl, _, w, between, mapped⟩
    refine ⟨fun _ => ?_, nofun, fun notRemap => absurd rfl notRemap⟩
    have lower : USERPAGES - 1 ≤ w := between.1
    have upper := mapped.2
    have positive : 0 < USERPAGES := by decide
    omega

theorem stopped_loading {ip : File} {argv : List Argument} {reason : Panic}
    (panic : LoadPanic reason) (segments : ip.elf.phnum ≠ 0) : Stopped ip argv reason := by
  refine ⟨fun isRemap => ?_, fun isNull => ?_, fun _ _ => segments⟩
  · rcases panic with isTrap | isUnaligned
    · exact nomatch isTrap.symm.trans isRemap
    · exact nomatch isUnaligned.symm.trans isRemap
  · rcases panic with isTrap | isUnaligned
    · exact nomatch isTrap.symm.trans isNull
    · exact nomatch isUnaligned.symm.trans isNull

theorem execImage_wp {image : Image} {owner : Nat -> Role} {s : Vm} {source : Nat -> Prop}
    (heap : Heap image owner s) (caller : Space owner s s.proc.pgdir source) {ip : File}
    (accepted : ip.accepted = true) (confined : ip.Confined ip.elf.phnum ip.elf.phoff)
    (argv : List Argument) (path : List UInt8) :
    Program.wp (execImage image ip path argv)
      (Ended image owner s argv ip.last (ip.Buildable s.freelist.length))
      (Stopped ip argv) s := by
  have atLeast : 1 ≤ ceilPage ip.last :=
    ceilPage_mono (ip.le_imageEnd ip.elf.phnum ip.elf.phoff PGSIZE)
  unfold execImage
  rw [Program.wp_bind]
  refine Program.wp_mono (setupkvm_wp heap) ?_ (fun _ => False.elim)
  rintro result t ⟨middle, d, notDir, within, middleHeap, outcome⟩
  cases result with
  | none =>
      have few : s.freelist.length < 13 := outcome
      rw [Program.wp_pure]
      refine .early notDir middleHeap (within.during _).toBeside within.proc (fun buildable => ?_)
      have needed := buildable.2.2
      omega
  | some dir =>
      rcases outcome with ⟨rfl, _, space, sum⟩
      have different : dir ≠ s.proc.pgdir := by
        intro same
        rw [same] at notDir
        exact notDir caller.dir.self
      have callerKept := caller.framed within.framed (fun _ => Role.Of.untouched different)
      rw [← within.proc] at callerKept different
      have loading : Loading image middle t dir (ImagePages PGSIZE) source := by
        refine ⟨middleHeap, space.congr (fun v _ => ?_), callerKept, different⟩
        refine iff_of_false id (fun inside => ?_)
        exact absurd inside.2 (Nat.not_lt.mpr inside.1)
      have first : ceilPage PGSIZE = 1 := rfl
      rw [Program.wp_bind]
      refine Program.wp_mono (loadSegments_wp ip _ loading (Nat.le_refl _) (by decide) confined) ?_
        (fun reason stopped => stopped_loading stopped.1 stopped.2)
      rintro result u ⟨after, now, loadDuring, next, loaded⟩
      rw [within.proc] at loadDuring
      have during := (within.during s.proc.pgdir).trans loadDuring
      cases result with
      | none =>
          refine Program.wp_mono (bad_wp next.heap next.space) ?_ (fun _ => False.elim)
          rintro _ w ⟨rfl, last', freedHeap, freed⟩
          have all := during.trans (freed.during _)
          refine .early notDir freedHeap all.toBeside all.proc
            (fun buildable => loaded ⟨buildable.2.1, ?_⟩)
          have needed := buildable.2.2
          rw [File.last] at needed
          omega
      | some size =>
          rcases loaded with ⟨rfl, loadable, low, rfl, loadSum⟩
          refine execStack_wp argv path ip.elf.entry notDir during next low ?_ ?_
          · rw [File.last]
            omega
          · exact ⟨fun buildable => buildable.2.2, fun enough => ⟨accepted, loadable, enough⟩⟩

/-- Everything `exec` does with a file whose segments lie in user memory. -/
theorem exec_wp {image : Image} {owner : Nat -> Role} {s : Vm} {source : Nat -> Prop}
    (heap : Heap image owner s) (caller : Space owner s s.proc.pgdir source)
    {namei : List UInt8 -> Option File} {path : List UInt8} {ip : File}
    (found : namei path = some ip) (confined : ip.Confined ip.elf.phnum ip.elf.phoff)
    (argv : List Argument) :
    Program.wp (exec image namei path argv)
      (Ended image owner s argv ip.last (ip.Buildable s.freelist.length)) (Stopped ip argv) s := by
  unfold exec
  rw [found]
  by_cases accepted : ip.accepted = true
  · simp only [if_pos accepted]
    exact execImage_wp heap caller accepted confined argv path
  · simp only [if_neg accepted]
    rw [Program.wp_pure]
    exact .early heap.zero_not_dir heap ((Within.refl 0 owner s).during _).toBeside rfl
      (fun buildable => accepted buildable.1)

/-! ## A program without segments -/

/-- The smallest executable file: a header and nothing else. -/
def emptyProgram : File where
  size := 52
  bytes := fun i => match i with
    | 0 => 0x7F
    | 1 => 0x45
    | 2 => 0x4C
    | 3 => 0x46
    | _ => 0
  small := by decide

theorem emptyProgram_phnum : emptyProgram.elf.phnum = 0 := by decide

theorem emptyProgram_last : emptyProgram.last = PGSIZE := by
  rw [File.last, emptyProgram_phnum, File.imageEnd]

theorem emptyProgram_confined :
    emptyProgram.Confined emptyProgram.elf.phnum emptyProgram.elf.phoff := by
  rw [emptyProgram_phnum]
  exact trivial

theorem emptyProgram_buildable {free : Nat} (enough : 14 ≤ free) : emptyProgram.Buildable free := by
  refine ⟨by decide, ?_, ?_⟩
  · rw [emptyProgram_phnum]
    exact trivial
  · rw [emptyProgram_last]
    exact enough

/-- Executing it with no argument or one that is too long does not panic. -/
theorem exec_emptyProgram {image : Image} {owner : Nat -> Role} {s : Vm} {source : Nat -> Prop}
    (heap : Heap image owner s) (caller : Space owner s s.proc.pgdir source) (path : List UInt8)
    (argv : List Argument)
    (predictable : argv = [] ∨ Overlong (Regions PGSIZE (USERTOP - PGSIZE)) USERTOP argv) :
    Exists fun result => Exists fun t =>
      exec image (fun _ => some emptyProgram) path argv s = .done result t ∧
      Ended image owner s argv PGSIZE (emptyProgram.Buildable s.freelist.length) result t := by
  have ended := @exec_wp image owner s source heap caller (fun _ => some emptyProgram) path
    emptyProgram rfl emptyProgram_confined argv
  rw [emptyProgram_last] at ended
  refine Program.exists_done_of_wp
    (Program.wp_mono ended (fun _ _ => id) (fun reason stopped => ?_))
  by_cases isRemap : reason = .remap
  · have impossible := stopped.remap isRemap
    rw [emptyProgram_last] at impossible
    exact absurd impossible (by decide)
  · by_cases isNull : reason = .nullPte
    · have neither := stopped.arguments isNull
      rw [emptyProgram_last] at neither
      exact predictable.elim neither.1 neither.2
    · exact stopped.loading isRemap isNull emptyProgram_phnum

/-! ## An argument that is too long -/

/-- A kernel of two megabytes. -/
def smallKernel : Image where
  data := 0x180
  end_ := 0x200000
  data_low := by decide
  data_high := by decide
  end_pos := by decide

/-- A machine with one process of two pages: the directory is page 512, the table page
513, and the pages `first` and `second` of the process are the pages 514 and 515. -/
def twoPages (first second : Nat) (contents : Nat -> Page) (free : Nat) (proc : Proc) : Vm where
  mem := fun p =>
    if p = 512 then (Bytes.fill 0).setWord 0 (513 * PGSIZE ||| 7)
    else if p = 513 then
      ((Bytes.fill 0).setWord first (514 * PGSIZE ||| 7)).setWord second (515 * PGSIZE ||| 7)
    else contents p
  freelist := List.range' 516 free
  proc := proc

def twoPagesOwner (first second free p : Nat) : Role :=
  if p = 512 then .dir 512
  else if p = 513 then .table 512 0
  else if p = 514 then .user 512 first
  else if p = 515 then .user 512 second
  else if 516 ≤ p ∧ p < 516 + free then .free
  else .other

section TwoPages

variable {first second free : Nat} {contents : Nat -> Page} {proc : Proc}

theorem twoPages_heap (few : free ≤ 1000) :
    Heap smallKernel (twoPagesOwner first second free)
      (twoPages first second contents free proc) := by
  refine ⟨fun p => ?_, List.nodup_range', fun p managed => ?_⟩
  · have listed : p ∈ (twoPages first second contents free proc).freelist ↔
        516 ≤ p ∧ p < 516 + free := by
      show p ∈ List.range' 516 free ↔ _
      rw [List.mem_range'_1]
    rw [listed]
    unfold twoPagesOwner
    split_ifs <;> simp_all
  · show 0x200000 ≤ p * PGSIZE ∧ p * PGSIZE < PHYSTOP
    have bounds : 512 ≤ p ∧ p < 516 + free := by
      unfold twoPagesOwner at managed
      split_ifs at managed <;> first | omega | exact absurd rfl managed
    simp only [PGSIZE, PHYSTOP]
    omega

theorem twoPages_space {pages : Nat -> Prop} (order : first < second) (small : second < USERPAGES)
    (exactly : forall v, pages v ↔ v = first ∨ v = second) (directory : proc.pgdir = 512) :
    Space (twoPagesOwner first second free) (twoPages first second contents free proc)
      proc.pgdir pages := by
  have words : forall v, v ≤ second -> 4 * v + 4 ≤ PGSIZE := by
    intro v below
    simp only [USERPAGES, USERTOP, PGSIZE] at small ⊢
    omega
  rw [directory]
  refine @Space.of_table (twoPagesOwner first second free)
    (twoPages first second contents free proc) 512 513 _ (fun v => if v = first then 514
    else 515) rfl rfl (by decide) rfl (fun v _ mapped => ?_) (fun v below missing => ?_)
  · rcases (exactly v).mp mapped with rfl | rfl
    · rw [if_pos rfl]
      exact ⟨(Bytes.word_setWord_of_ne _ _ (Nat.ne_of_lt order)).trans
        (Bytes.word_setWord_self _ (words v (Nat.le_of_lt order)) (by decide)), rfl⟩
    · rw [if_neg (Nat.ne_of_gt order)]
      exact ⟨Bytes.word_setWord_self _ (words v (Nat.le_refl v)) (by decide), rfl⟩
  · rw [exactly] at missing
    have firstUser : first < USERPAGES := Nat.lt_trans order small
    have notFirst : v ≠ first := fun same => missing ⟨by omega, Or.inl same⟩
    have notSecond : v ≠ second := fun same => missing ⟨by omega, Or.inr same⟩
    show (((Bytes.fill 0).setWord first (514 * PGSIZE ||| 7)).setWord second
      (515 * PGSIZE ||| 7)).word v = 0
    rw [Bytes.word_setWord_of_ne _ _ notSecond, Bytes.word_setWord_of_ne _ _ notFirst,
      Bytes.word_fill_zero]

end TwoPages

/-- A process whose stack has grown to two pages, in a machine with fourteen free
pages. -/
def grownStack : Vm := twoPages 158 159 (fun _ => Bytes.fill 0) 14 {
  sz := 0x1000, sz2 := 0x9E000, pgdir := 512, tf := { eip := 0, esp := 0x9E800 },
  killed := false, name := [] }

def grownStackOwner : Nat -> Role := twoPagesOwner 158 159 14

theorem grownStack_heap : Heap smallKernel grownStackOwner grownStack := twoPages_heap (by decide)

theorem grownStack_space :
    Space grownStackOwner grownStack grownStack.proc.pgdir (Regions 0x1000 0x9E000) := by
  refine twoPages_space (by decide) (by decide) (fun v => ?_) rfl
  simp only [Regions, ceilPage, PGSIZE, USERPAGES, USERTOP]
  omega

theorem grownStack_absent {v : Nat} (low : v < 158) :
    ¬ Present (pte grownStack grownStack.proc.pgdir v) := by
  intro present
  have mapped := (grownStack_space.user v (Nat.lt_trans low (by decide))).mp present
  simp only [Regions, ceilPage, PGSIZE] at mapped
  omega

/-- An argument of more than a page. -/
def longArgument : Argument where
  bytes := List.replicate 5000 65
  fits := by
    rw [List.length_replicate]
    decide

end AddressSpace
end OsProjects
