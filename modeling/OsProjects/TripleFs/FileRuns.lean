import OsProjects.Machine.Transition
import OsProjects.TripleFs.CallsInOrder
import Mathlib.Data.List.Perm.Basic

namespace OsProjects
namespace TripleFs

open Machine

/-!
# Runs of system calls

Processes make system calls one after the other.  Each process has a current directory,
and open files may be shared between descriptors and processes; `close` stands for the call
that drops the last descriptor of an open file.  Everything that refers to an inode between
two calls is an open file or a current directory, so the reference counts of the inode
cache are known exactly.
-/

/-- The open files and the current directories of the processes. -/
structure Tables where
  files : List File
  cwds : List Nat

namespace Tables

/-- Everything that refers to an inode. -/
def holders (t : Tables) : List Nat := t.files.map File.ip ++ t.cwds

def refs (t : Tables) (ip : Nat) : Nat := t.holders.count ip

/-- Run a program with the current directory of a process. -/
def inProcess (t : Tables) (p : Nat) (run : Nat -> Fs Tables) : Fs Tables :=
  match t.cwds[p]? with
  | none => pure t
  | some cwd => run cwd

/-- Run a program with an open file. -/
def onFile (t : Tables) (fd : Nat) (run : File -> Fs Tables) : Fs Tables :=
  match t.files[fd]? with
  | none => pure t
  | some f => run f

end Tables

/-- The system calls that use the file system.  A process is a place in the list of current
directories, an open file one in the list of open files. -/
inductive SystemCall
  | userinit
  | fork (p : Nat)
  | exit (p : Nat)
  | link (p : Nat) (old new : List UInt8)
  | unlink (p : Nat) (path : List UInt8)
  | openFile (p : Nat) (path : List UInt8) (omode : Nat) (place : Bool)
  | mkdir (p : Nat) (path : List UInt8)
  | mknod (p : Nat) (path : List UInt8) (major minor : Nat)
  | chdir (p : Nat) (path : List UInt8)
  | read (fd n : Nat)
  | write (fd : Nat) (src : List UInt8)
  | close (fd : Nat)

/-- What a call does, and the tables that it leaves. -/
def SystemCall.program (devsw : Devsw) (behind : Nat -> Nat -> UInt8) (t : Tables) :
    SystemCall -> Fs Tables
  | .userinit => do
      match <- namei 0 [slash] with
      | none => pure t
      | some ip => pure { t with cwds := ip :: t.cwds }
  | .fork p => t.inProcess p fun cwd => do
      let ip <- idup cwd
      pure { t with cwds := ip :: t.cwds }
  | .exit p => t.inProcess p fun cwd => do
      iput cwd
      pure { t with cwds := t.cwds.eraseIdx p }
  | .link p old new => t.inProcess p fun cwd => do
      let _ <- sys_link devsw behind cwd old new
      pure t
  | .unlink p path => t.inProcess p fun cwd => do
      let _ <- sys_unlink devsw behind cwd path
      pure t
  | .openFile p path omode place => t.inProcess p fun cwd => do
      match <- sys_open devsw behind cwd path omode place with
      | none => pure t
      | some f => pure { t with files := f :: t.files }
  | .mkdir p path => t.inProcess p fun cwd => do
      let _ <- sys_mkdir devsw behind cwd path
      pure t
  | .mknod p path major minor => t.inProcess p fun cwd => do
      let _ <- sys_mknod devsw behind cwd path major minor
      pure t
  | .chdir p path => t.inProcess p fun cwd => do
      match <- sys_chdir cwd path with
      | none => pure t
      | some ip => pure { t with cwds := t.cwds.set p ip }
  | .read fd n => t.onFile fd fun f => do
      let result <- fileread devsw behind f n
      pure { t with files := t.files.set fd result.1 }
  | .write fd src => t.onFile fd fun f => do
      let result <- filewrite devsw f src
      pure { t with files := t.files.set fd result.1 }
  | .close fd => t.onFile fd fun f => do
      iput f.ip
      pure { t with files := t.files.eraseIdx fd }

/-- The call does not make a mirrored file longer than 46 blocks. -/
def SystemCall.Short (t : Tables) (k : Kernel) : SystemCall -> Prop
  | .write fd src => forall f, t.files[fd]? = some f -> f.Short k src.length
  | _ => True

/-- The file system between two calls. -/
structure Session where
  store : Store Kernel
  tables : Tables

/-- A call, with the memory behind the buffers of reads. -/
abbrev CallEvent : Type := SystemCall × (Nat -> Nat -> UInt8)

/-- The session after a call that does not stop the kernel. -/
def Session.next (devsw : Devsw) (s : Session) (event : CallEvent) : Option Session :=
  match exec (event.1.program devsw event.2 s.tables) s.store with
  | .done tables store => some ⟨store, tables⟩
  | .panic _ => none

/-- The disk does not fill up during the call, and mirrored files stay within 46 blocks. -/
structure Allowed (sb : Superblock) (devsw : Devsw) (s : Session) (event : CallEvent) : Prop where
  roomy : Throughout (withRoom sb sb.size).room (event.1.program devsw event.2 s.tables) s.store
  short : event.1.Short s.tables s.store.mem

instance (t : Tables) (k : Kernel) : (call : SystemCall) -> Decidable (call.Short t k)
  | .write fd src =>
      decidable_of_iff (forall f, f ∈ t.files[fd]? -> (k.icache f.ip).copy.type = T_MIRRORED ->
        f.off ≤ (k.icache f.ip).copy.logical_size -> f.off + src.length ≤ 46 * BSIZE) Iff.rfl
  | .userinit | .fork _ | .exit _ | .link .. | .unlink .. | .openFile .. | .mkdir .. | .mknod ..
  | .chdir .. | .read .. | .close _ => .isTrue trivial

/-- The session after a call that is allowed because the block `b` stays free. -/
def Session.tested (sb : Superblock) (b : Nat) (devsw : Devsw) (s : Session) (event : CallEvent) :
    Option Session :=
  if b < sb.size ∧ event.1.Short s.tables s.store.mem then
    match execTested (fun disk =>
      !used sb disk b) (event.1.program devsw event.2 s.tables) s.store with
    | some (tables, store) => some ⟨store, tables⟩
    | none => none
  else none

theorem Session.tested_sound {sb : Superblock} {b : Nat} {devsw : Devsw} {s t : Session}
    {event : CallEvent} (stepped : s.tested sb b devsw event = some t) :
    Allowed sb devsw s event ∧ s.next devsw event = some t := by
  unfold Session.tested at stepped
  split at stepped
  · rename_i checks
    have free : forall disk, (!used sb disk b) = true -> (withRoom sb sb.size).room disk :=
      fun disk passes => NotFull.roomy ⟨b, checks.1, (Bool.not_eq_true' _).mp passes⟩
    split at stepped
    · rename_i tables store ran
      rcases execTested_sound free ran with ⟨ended, roomy⟩
      refine ⟨⟨roomy, checks.2⟩, ?_⟩
      rw [Session.next, ended]
      exact stepped
    · exact nomatch stepped
  · exact nomatch stepped

/-! ## Counting references -/

section Counting

variable {t u : Tables} {f g : File} {fd p ip cwd : Nat}

/-- One more of those that refer to an inode. -/
theorem refs_of_perm (perm : t.holders.Perm (ip :: u.holders)) : t.refs = more u.refs ip := by
  refine funext (fun jp => ?_)
  unfold Tables.refs more
  rw [perm.count_eq, List.count_cons]
  by_cases here : jp = ip
  · rw [if_pos here, here, beq_self_eq_true, if_pos rfl]
  · rw [if_neg here, beq_eq_false_iff_ne.mpr (fun same => here same.symm),
      if_neg Bool.false_ne_true, Nat.add_zero]

theorem refs_file : Tables.refs { t with files := f :: t.files } = more t.refs f.ip :=
  refs_of_perm (List.Perm.refl _)

theorem refs_cwd : Tables.refs { t with cwds := ip :: t.cwds } = more t.refs ip :=
  refs_of_perm List.perm_middle

theorem files_perm (found : t.files[fd]? = some f) : t.files.Perm (f :: t.files.eraseIdx fd) := by
  rcases List.getElem?_eq_some_iff.mp found with ⟨below, same⟩
  rw [← same]
  exact (List.getElem_cons_eraseIdx_perm below).symm

theorem cwds_perm (found : t.cwds[p]? = some cwd) : t.cwds.Perm (cwd :: t.cwds.eraseIdx p) := by
  rcases List.getElem?_eq_some_iff.mp found with ⟨below, same⟩
  rw [← same]
  exact (List.getElem_cons_eraseIdx_perm below).symm

theorem refs_close (found : t.files[fd]? = some f) :
    t.refs = more (Tables.refs { t with files := t.files.eraseIdx fd }) f.ip :=
  refs_of_perm (((files_perm found).map File.ip).append_right t.cwds)

theorem refs_exit (found : t.cwds[p]? = some cwd) :
    t.refs = more (Tables.refs { t with cwds := t.cwds.eraseIdx p }) cwd :=
  refs_of_perm (((cwds_perm found).append_left _).trans List.perm_middle)

/-- A file that keeps its inode. -/
theorem refs_set (found : t.files[fd]? = some f) (same : g.ip = f.ip) :
    Tables.refs { t with files := t.files.set fd g } = t.refs := by
  rcases List.getElem?_eq_some_iff.mp found with ⟨below, _⟩
  rw [refs_close found, ← same]
  exact refs_of_perm (((List.set_perm_cons_eraseIdx below g).map File.ip).append_right t.cwds)

theorem refs_chdir (found : t.cwds[p]? = some cwd) :
    Tables.refs { t with cwds := t.cwds.set p ip } =
      more (Tables.refs { t with cwds := t.cwds.eraseIdx p }) ip := by
  rcases List.getElem?_eq_some_iff.mp found with ⟨below, _⟩
  exact refs_of_perm (((List.set_perm_cons_eraseIdx below ip).append_left _).trans List.perm_middle)

theorem held_file (member : f ∈ t.files) : 0 < t.refs f.ip :=
  List.count_pos_iff.mpr (List.mem_append_left _ (List.mem_map_of_mem member))

theorem held_cwd (member : cwd ∈ t.cwds) : 0 < t.refs cwd :=
  List.count_pos_iff.mpr (List.mem_append_right _ member)

end Counting

/-! ## A call -/

/-- The kernel is in order between two calls. -/
structure Served (sb : Superblock) (tidy : Prop) (t : Tables) (d : Device BSIZE Kernel) : Prop where
  order : InOrder sb tidy t.refs ∅ d
  fit : forall f, f ∈ t.files -> f.Fit d.mem

section Calls

variable {sb : Superblock} {tidy : Prop} {escape : Stop FsPanic -> Prop} {t u : Tables}
  {refs hold : Nat -> Nat} {d e : Device BSIZE Kernel}

open BlockProgram

/-- What is known of a file that is open is still true if its inode is kept. -/
theorem File.Fit.kept {f : File} {k l : Kernel} (fit : f.Fit k) (keeps : Keeps hold k l)
    (held : 0 < hold f.ip) : f.Fit l := by
  intro writable
  rcases fit writable with ⟨valid, type⟩
  rcases (keeps f.ip held).valid valid with ⟨validNow, same⟩
  exact ⟨validNow, by rw [same]; exact type⟩

namespace Served

/-- The open files are still open. -/
theorem stays (served : Served sb tidy t d) (stays : Stays sb tidy refs hold ∅ d e)
    (refs_ : u.refs = refs) (files : forall f, f ∈ u.files -> f ∈ t.files)
    (held : forall f, f ∈ u.files -> 0 < hold f.ip) : Served sb tidy u e := by
  refine ⟨?_, fun f member => (served.fit f (files f member)).kept stays.keeps (held f member)⟩
  rw [refs_]
  exact stays.order

theorem same (served : Served sb tidy t d) (stays : Stays sb tidy t.refs t.refs ∅ d e) :
    Served sb tidy t e :=
  served.stays stays rfl (fun _ member => member) (fun _ member => held_file member)

/-- An open file moves on. -/
theorem moved {fd : Nat} {f g : File} (served : Served sb tidy t d) (found : t.files[fd]? = some f)
    (moved : f.Moved g) (stays : Stays sb tidy t.refs t.refs ∅ d e) :
    Served sb tidy { t with files := t.files.set fd g } e := by
  rcases moved with ⟨same, writable⟩
  have member := List.mem_of_getElem? found
  refine ⟨?_, fun h inside => ?_⟩
  · rw [refs_set found same]
    exact stays.order
  · rcases List.mem_or_eq_of_mem_set inside with old | new
    · exact (served.fit h old).kept stays.keeps (held_file old)
    · have fit := (served.fit f member).kept stays.keeps (held_file member)
      unfold File.Fit at fit ⊢
      rw [new, same, writable]
      exact fit

theorem inProcess {p : Nat} {run : Nat -> Fs Tables} (served : Served sb tidy t d)
    (runs : forall cwd, t.cwds[p]? = some cwd ->
      (run cwd).wp (withRoom sb sb.size) (fun u e => Served sb tidy u e) escape d) :
    (t.inProcess p run).wp (withRoom sb sb.size) (fun u e => Served sb tidy u e) escape d := by
  unfold Tables.inProcess
  split
  · exact served
  · rename_i cwd found
    exact runs cwd found

theorem onFile {fd : Nat} {run : File -> Fs Tables} (served : Served sb tidy t d)
    (runs : forall f, t.files[fd]? = some f ->
      (run f).wp (withRoom sb sb.size) (fun u e => Served sb tidy u e) escape d) :
    (t.onFile fd run).wp (withRoom sb sb.size) (fun u e => Served sb tidy u e) escape d := by
  unfold Tables.onFile
  split
  · exact served
  · rename_i f found
    exact runs f found

/-- A call that leaves the tables as they are. -/
theorem unchanged {p : Nat} {run : Nat -> Fs Int}
    (served : Served sb tidy t d) (runs : forall cwd, 0 < t.refs cwd ->
      (run cwd).wp (withRoom sb sb.size) (fun _ e => Stays sb tidy t.refs t.refs ∅ d e) escape d) :
    (t.inProcess p fun cwd => do
      let _ <- run cwd
      pure t).wp (withRoom sb sb.size) (fun u e => Served sb tidy u e) escape d := by
  refine served.inProcess (fun cwd found => ?_)
  refine wp_bind.mpr (wp_mono (runs cwd (held_cwd (List.mem_of_getElem? found))) ?_
    (fun _ stopped => stopped))
  exact fun _ _ stays => served.same stays

end Served

/-- Every system call leaves the kernel in order. -/
theorem SystemCall.program_wp (served : Served sb tidy t d) (tolerates : Tolerates escape)
    (call : SystemCall) (short : call.Short t d.mem) (devsw : Devsw)
    (behind : Nat -> Nat -> UInt8) :
    (call.program devsw behind t).wp (withRoom sb sb.size) (fun u e => Served sb tidy u e)
      escape d := by
  have order := served.order
  cases call with
  | userinit =>
      refine wp_seq (order.namei_wp tolerates (Or.inl rfl)) ?_
      rintro (_ | ip) e given
      · exact served.same given
      · exact served.stays given refs_cwd (fun _ member => member)
          (fun _ member => held_file member)
  | fork p =>
      refine served.inProcess (fun cwd found => ?_)
      refine wp_seq (order.idup_wp (held_cwd (List.mem_of_getElem? found))) ?_
      rintro ip e ⟨rfl, stays⟩
      exact served.stays stays refs_cwd (fun _ member => member) (fun _ member => held_file member)
  | exit p =>
      refine served.inProcess (fun cwd found => ?_)
      rw [refs_exit found] at order
      refine wp_seq (order.iput_wp tolerates
        (fun inside => absurd inside (Finset.notMem_empty cwd))) ?_
      intro _ e dropped
      exact served.stays dropped rfl (fun _ member => member)
        (fun _ member => @held_file { t with cwds := t.cwds.eraseIdx p } _ member)
  | link p old new =>
      exact served.unchanged (fun cwd held => order.sys_link_wp tolerates held devsw behind)
  | unlink p path =>
      exact served.unchanged (fun cwd held => order.sys_unlink_wp tolerates held devsw behind)
  | openFile p path omode place =>
      refine served.inProcess (fun cwd found => ?_)
      refine wp_seq (order.sys_open_wp tolerates
        (held_cwd (List.mem_of_getElem? found)) devsw behind) ?_
      rintro (_ | f) e opened
      · exact served.same opened
      · refine ⟨?_, fun g member => ?_⟩
        · rw [refs_file]
          exact opened.1.order
        · rcases List.mem_cons.mp member with new | old
          · rw [new]
            exact opened.2
          · exact (served.fit g old).kept opened.1.keeps (held_file old)
  | mkdir p path =>
      exact served.unchanged
        (fun cwd held => order.makeNode_wp tolerates held (by decide) devsw behind 0 0)
  | mknod p path major minor =>
      exact served.unchanged
        (fun cwd held => order.makeNode_wp tolerates held (by decide) devsw behind major minor)
  | chdir p path =>
      refine served.inProcess (fun cwd found => ?_)
      have both := order
      rw [refs_exit found] at both
      refine wp_seq (both.sys_chdir_wp tolerates) ?_
      rintro (_ | ip) e moved
      · have still : Stays sb tidy (more _ cwd) (more _ cwd) ∅ d e := moved
        rw [← refs_exit found] at still
        exact served.same still
      · exact served.stays moved (refs_chdir found) (fun _ member => member)
          (fun _ member => @held_file { t with cwds := t.cwds.eraseIdx p } _ member)
  | read fd n =>
      refine served.onFile (fun f found => ?_)
      have held := held_file (List.mem_of_getElem? found)
      refine wp_seq (order.fileread_wp tolerates held devsw behind n) ?_
      rintro result e ⟨moved, stays⟩
      exact served.moved found moved stays
  | write fd src =>
      refine served.onFile (fun f found => ?_)
      have member := List.mem_of_getElem? found
      refine wp_seq (order.filewrite_wp tolerates (held_file member) (served.fit f member)
        (short f found) devsw) ?_
      rintro result e ⟨moved, stays⟩
      exact served.moved found moved stays
  | close fd =>
      refine served.onFile (fun f found => ?_)
      rw [refs_close found] at order
      refine wp_seq (order.iput_wp tolerates
        (fun inside => absurd inside (Finset.notMem_empty f.ip))) ?_
      intro _ e dropped
      exact served.stays dropped rfl (fun g member => List.mem_of_mem_eraseIdx member)
        (fun _ member => @held_file { t with files := t.files.eraseIdx fd } _ member)

end Calls

/-! ## Runs -/

section Runs

variable {sb : Superblock} {tidy : Prop} {devsw : Devsw} {start : Session -> Prop} {s t : Session}
  {event : CallEvent}

/-- The kernel is in order between two calls. -/
def Session.Served (sb : Superblock) (tidy : Prop) (s : Session) : Prop :=
  Exists fun d => Shows s.store d ∧ TripleFs.Served sb tidy s.tables d

/-- The kernel stops with a panic that is not that of `bfree`. -/
def Quits (reason : Stop FsPanic) : Prop :=
  Exists fun panic => reason = .panic panic ∧ panic ≠ .freeingFreeBlock

theorem tolerates_quits : Tolerates Quits := fun panic other => ⟨panic, rfl, other⟩

/-- A call ends with the kernel in order, or it stops the kernel with a panic that is not
that of `bfree`. -/
theorem Session.Served.call (served : s.Served sb tidy) (allowed : Allowed sb devsw s event) :
    Program.wp (exec (event.1.program devsw event.2 s.tables))
      (fun tables store => Session.Served sb tidy ⟨store, tables⟩) Quits s.store := by
  rcases served with ⟨d, shows, served⟩
  have short := allowed.short
  rw [shows.mem] at short
  have ran := exec_sound shows allowed.roomy
      (SystemCall.program_wp served tolerates_quits event.1 short devsw event.2)
  refine Program.wp_mono ran ?_ (fun _ stopped => stopped)
  rintro tables store ⟨e, showsNow, after⟩
  exact ⟨e, showsNow, after⟩

theorem Session.Served.next (served : s.Served sb tidy) (allowed : Allowed sb devsw s event)
    (stepped : s.next devsw event = some t) : t.Served sb tidy := by
  have call := served.call allowed
  unfold Program.wp at call
  unfold Session.next at stepped
  split at stepped
  · rename_i tables store ended
    rw [ended] at call
    rw [← Option.some.inj stepped]
    exact call
  · exact nomatch stepped

/-- The kernel is in order after every sequence of calls. -/
theorem served_reached (initially : forall s, start s -> s.Served sb tidy)
    (reached : Reachable (Session.next devsw) start (Allowed sb devsw) s) : s.Served sb tidy :=
  reached.invariant initially (fun _ _ _ served allowed stepped => served.next allowed stepped)

end Runs

end TripleFs
end OsProjects
