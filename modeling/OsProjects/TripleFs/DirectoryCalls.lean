import OsProjects.TripleFs.DirectoryMap

namespace OsProjects
namespace TripleFs

open Machine

/-!
# Sequences of calls on a directory

Looking names up, adding entries and removing them, one call after the other, against what
the same calls do to a finite map.
-/

/-- A call on a directory. -/
inductive DirCall
  | lookup (name : Nat -> UInt8)
  | link (name : Nat -> UInt8) (inum : Nat)
  | unlink (name : Nat -> UInt8)

namespace DirCall

/-- The program of a call.  A lookup delivers the number of the inode that `dirlookup` has
found. -/
def program (devsw : Devsw) (behind : Nat -> Nat -> UInt8) (dp : Nat) : DirCall -> Fs Int
  | .lookup name => do
      match <- dirlookup dp name with
      | none => pure 0
      | some (ip, _) => do
          let e <- getInode ip
          iput ip
          pure (e.inum : Int)
  | .link name inum => dirlink devsw behind dp name inum
  | .unlink name => removeEntry devsw dp name

/-- One call after the other. -/
def programs (devsw : Devsw) (behind : Nat -> Nat -> UInt8) (dp : Nat) :
    List DirCall -> Fs (List Int)
  | [] => pure []
  | call :: calls => do
      let result <- call.program devsw behind dp
      let results <- programs devsw behind dp calls
      pure (result :: results)

/-! ## Calls on a finite map -/

def resultOn (m : List UInt8 -> Option Nat) : DirCall -> Int
  | .lookup name => ((m (nameKey name)).getD 0 : Nat)
  | .link name _ => if m (nameKey name) = none then 0 else -1
  | .unlink name => if m (nameKey name) = none then -1 else 0

/-- What is stored of a number is a `ushort`, and an entry with zero is not in use. -/
def mapAfter (m : List UInt8 -> Option Nat) : DirCall -> List UInt8 -> Option Nat
  | .lookup _ => m
  | .link name inum =>
      if m (nameKey name) = none ∧ inum % 2 ^ 16 ≠ 0 then
        Function.update m (nameKey name) (some (inum % 2 ^ 16))
      else m
  | .unlink name => Function.update m (nameKey name) none

def resultsOn : (List UInt8 -> Option Nat) -> List DirCall -> List Int
  | _, [] => []
  | m, call :: calls => call.resultOn m :: resultsOn (call.mapAfter m) calls

def mapAfterAll (m : List UInt8 -> Option Nat) (calls : List DirCall) : List UInt8 -> Option Nat :=
  calls.foldl (fun m call => call.mapAfter m) m

end DirCall

/-! ## What there is to see of a directory -/

/-- The entry is in use. -/
def InUse (s : Store Kernel) (dp k : Nat) : Prop :=
  direntSize * k < (s.mem.icache dp).copy.logical_size ∧ inumAt s.disk (s.mem.icache dp).copy k ≠ 0

/-- The name of an entry, as far as it is stored. -/
def entryKey (s : Store Kernel) (dp k : Nat) : List UInt8 :=
  nameKey (nameAt s.disk (s.mem.icache dp).copy k)

/-- The entries in use of the directory are the map. -/
structure IsMap (s : Store Kernel) (dp : Nat) (m : List UInt8 -> Option Nat) : Prop where
  once : forall j k, InUse s dp j -> InUse s dp k -> entryKey s dp j = entryKey s dp k -> j = k
  entry : forall key inum, m key = some inum ↔ Exists fun k => InUse s dp k ∧
    entryKey s dp k = key ∧ inumAt s.disk (s.mem.icache dp).copy k = inum

/-- Nothing has changed on the disk or in the directory's inode. -/
def Untouched (s t : Store Kernel) (dp : Nat) : Prop :=
  t.disk = s.disk ∧ t.mem.icache dp = s.mem.icache dp

/-- No byte of the directory outside the entry `k` has changed. -/
def OnlyAt (s t : Store Kernel) (dp k : Nat) : Prop :=
  (s.mem.icache dp).copy.logical_size ≤ (t.mem.icache dp).copy.logical_size ∧
  forall x, x < (s.mem.icache dp).copy.logical_size -> x / direntSize ≠ k ->
    fileByte t.disk (t.mem.icache dp).copy x = fileByte s.disk (s.mem.icache dp).copy x

/-- What a call may change. -/
def DirCall.Changes (m : List UInt8 -> Option Nat) (s t : Store Kernel) (dp : Nat) : DirCall -> Prop
  | .lookup _ => Untouched s t dp
  | .link name _ =>
      (m (nameKey name) ≠ none -> Untouched s t dp) ∧
      (m (nameKey name) = none -> Exists fun k => ¬ InUse s dp k ∧ OnlyAt s t dp k)
  | .unlink name =>
      (m (nameKey name) = none -> Untouched s t dp) ∧
      (m (nameKey name) ≠ none -> Exists fun k => InUse s dp k ∧ entryKey s dp k = nameKey name ∧
      OnlyAt s t dp k)

section Views

variable {sb : Superblock} {ends : Nat} {enough : (Nat -> Bool) -> (Nat -> Nat) -> Prop}
  {s t : Store Kernel} {d e : Device BSIZE Kernel} {dp k : Nat} {m : List UInt8 -> Option Nat}

/-- The block of an entry before the end. -/
theorem Directory.block_of_lt (within : direntSize * k < (d.mem.icache dp).copy.logical_size) :
    k / 32 * BSIZE < (d.mem.icache dp).copy.logical_size := by
  simp only [direntSize] at within
  simp only [BSIZE]
  omega

theorem Directory.inUse_iff (dir : Directory sb ends enough d dp) (shows : Shows s d) :
    InUse s dp k ↔ inumOf (dirBytes sb d dp) k ≠ 0 := by
  unfold InUse
  rw [shows.disk, shows.mem]
  constructor
  · rintro ⟨within, live⟩
    rw [dir.inumAt (block_of_lt within)] at live
    exact live
  · intro live
    have within := dir.within live
    rw [dir.inumAt (block_of_lt within)]
    exact ⟨within, live⟩

theorem Directory.entryKey (dir : Directory sb ends enough d dp) (shows : Shows s d)
    (live : inumOf (dirBytes sb d dp) k ≠ 0) :
    TripleFs.entryKey s dp k = keyOf (dirBytes sb d dp) k := by
  unfold TripleFs.entryKey
  rw [shows.disk, shows.mem, dir.nameAt (block_of_lt (dir.within live))]

theorem Directory.isMap_iff (dir : Directory sb ends enough d dp) (shows : Shows s d) :
    IsMap s dp m ↔ Represents (dirBytes sb d dp) m := by
  have number : forall k, inumOf (dirBytes sb d dp) k ≠ 0 ->
      TripleFs.inumAt s.disk (s.mem.icache dp).copy k = inumOf (dirBytes sb d dp) k := by
    intro k live
    rw [shows.disk, shows.mem, dir.inumAt (block_of_lt (dir.within live))]
  have same : forall key inum, (Exists fun k => InUse s dp k ∧ TripleFs.entryKey s dp k = key ∧
      TripleFs.inumAt s.disk (s.mem.icache dp).copy k = inum) ↔
      Exists fun k => inumOf (dirBytes sb d dp) k ≠ 0 ∧ keyOf (dirBytes sb d dp) k = key ∧
        inumOf (dirBytes sb d dp) k = inum := by
    intro key inum
    refine exists_congr fun k => ?_
    rw [dir.inUse_iff shows]
    refine and_congr_right fun live => ?_
    rw [dir.entryKey shows live, number k live]
  constructor
  · rintro ⟨once, entry⟩
    refine ⟨fun j k liveJ liveK equal => ?_, fun key inum => (entry key inum).trans (same key inum)⟩
    refine once j k ((dir.inUse_iff shows).mpr liveJ) ((dir.inUse_iff shows).mpr liveK) ?_
    rw [dir.entryKey shows liveJ, dir.entryKey shows liveK]
    exact equal
  · rintro ⟨once, entry⟩
    refine ⟨fun j k inJ inK equal => ?_,
      fun key inum => (entry key inum).trans (same key inum).symm⟩
    have liveJ := (dir.inUse_iff shows).mp inJ
    have liveK := (dir.inUse_iff shows).mp inK
    rw [dir.entryKey shows liveJ, dir.entryKey shows liveK] at equal
    exact once j k liveJ liveK equal

theorem Directory.fileByte (dir : Directory sb ends enough d dp) {x : Nat}
    (below : x < (d.mem.icache dp).copy.logical_size) :
    TripleFs.fileByte d.disk (d.mem.icache dp).copy x = dirBytes sb d dp x := by
  unfold TripleFs.fileByte
  rw [dir.file.works.disk (dir.file.covered x below)]
  rfl

/-- A write of an entry changes no other byte. -/
theorem Directory.onlyAt {src : List UInt8} (dir : Directory sb ends enough d dp)
    (dirNow : Directory sb ends enough e dp) (shows : Shows s d) (shown : Shows t e)
    (put : EntryPut sb d e dp k src) : OnlyAt s t dp k := by
  unfold OnlyAt
  rw [shows.disk, shows.mem, shown.disk, shown.mem]
  refine ⟨put.grows, fun x below different => ?_⟩
  rw [dirNow.fileByte (Nat.lt_of_lt_of_le below put.grows), dir.fileByte below, put.bytes]
  refine if_neg ?_
  rintro ⟨lower, upper⟩
  refine different ?_
  simp only [direntSize] at upper ⊢
  omega

end Views

/-! ## One call -/

section Calls

variable {limits : Limits BSIZE} {sb : Superblock} {ends : Nat} {escape : Stop FsPanic -> Prop}
  {enough : (Nat -> Bool) -> (Nat -> Nat) -> Prop} {s t : Store Kernel} {d e : Device BSIZE Kernel}
  {dp : Nat} {m : List UInt8 -> Option Nat} {call : DirCall}

open BlockProgram

/-- What a call does, on the device. -/
structure DirCall.Done (sb : Superblock) (ends : Nat)
    (enough : (Nat -> Bool) -> (Nat -> Nat) -> Prop) (m : List UInt8 -> Option Nat)
    (d e : Device BSIZE Kernel) (dp : Nat) (call : DirCall) (result : Int) : Prop where
  dir : Directory sb ends enough e dp
  represents : Represents (dirBytes sb e dp) (call.mapAfter m)
  free : StillFree d e
  short : (e.mem.icache dp).copy.logical_size ≤ (d.mem.icache dp).copy.logical_size + direntSize
  result : result = call.resultOn m
  changes : forall s t, Shows s d -> Shows t e -> call.Changes m s t dp

theorem untouched_of_shows (shows : Shows s d) (shown : Shows t e) (disk : e.disk = d.disk)
    (entry : e.mem.icache dp = d.mem.icache dp) : Untouched s t dp := by
  unfold Untouched
  rw [shows.disk, shows.mem, shown.disk, shown.mem]
  exact ⟨disk, entry⟩

theorem Directory.lookup_wp (terms : Terms limits sb ends escape enough)
    (dir : Directory sb ends enough d dp) (represents : Represents (dirBytes sb d dp) m)
    (free : SlotFree d.mem ∨ escape (.panic .igetNoInodes)) (devsw : Devsw)
    (behind : Nat -> Nat -> UInt8) (name : Nat -> UInt8) :
    ((DirCall.lookup name).program devsw behind dp).wp limits
      (fun result e => DirCall.Done sb ends enough m d e dp (.lookup name) result) escape d := by
  unfold DirCall.program
  refine wp_seq (dir.dirlookup_wp terms represents free) ?_
  rintro found e (⟨absent, rfl, rfl⟩ | ⟨k, ip, present, live, _, rfl, got, rfl⟩)
  · refine ⟨dir, represents, id, Nat.le_add_right _ _, ?_,
      fun s t shows shown => untouched_of_shows shows shown rfl rfl⟩
    rw [DirCall.resultOn, absent]
    rfl
  · generalize isNumber : inumOf (dirBytes sb d dp) k = inum at *
    have here : (d.mem.adjust ip (Inode.gotten inum)).icache ip = Inode.gotten inum
        (d.mem.icache ip) :=
      Kernel.adjust_self _
    have number : (Inode.gotten inum (d.mem.icache ip)).inum = inum := by
      unfold Inode.gotten
      split
      · rename_i held
        rcases (Kernel.find_spec got).2 with ⟨_, cached⟩ | idle
        · exact cached
        · omega
      · rfl
    refine wp_bind.mpr (wp_getMem ?_)
    refine wp_bind.mpr (iput_wp ?_ ?_)
    · rw [show (d.withMem (d.mem.adjust ip (Inode.gotten inum))).mem.icache ip = _ from here]
      exact Inode.shared_gotten _
    · have dropped := @Directory.dropped sb ends enough d dp dir ip inum
      have entry := dir.got_and_put ip inum
      rw [← Kernel.adjust_adjust] at dropped entry
      refine ⟨dropped.1, ?_, dropped.2.2, ?_, ?_,
        fun s t shows shown => untouched_of_shows shows shown rfl entry⟩
      · have bytes := dropped.2.1
        exact bytes.symm ▸ represents
      · exact Nat.le_trans (Nat.le_of_eq (congrArg (fun e : Inode => e.copy.logical_size) entry))
          (Nat.le_add_right _ _)
      · rw [DirCall.resultOn, present]
        show (((d.mem.adjust ip (Inode.gotten inum)).icache ip).inum : Int) = (inum : Int)
        rw [here, number]

theorem Directory.link_wp (terms : Terms limits sb ends escape enough)
    (dir : Directory sb ends enough d dp) (represents : Represents (dirBytes sb d dp) m)
    (free : SlotFree d.mem ∨ escape (.panic .igetNoInodes))
    (full : MAXFILE * BSIZE < (d.mem.icache dp).copy.logical_size + direntSize ->
      escape (.panic .dirlink))
    (devsw : Devsw) (behind : Nat -> Nat -> UInt8) (name : Nat -> UInt8) (inum : Nat) :
    ((DirCall.link name inum).program devsw behind dp).wp limits
      (fun result e => DirCall.Done sb ends enough m d e dp (.link name inum) result) escape d := by
  refine wp_mono (dir.dirlink_wp terms represents free full devsw behind inum) ?_
    (fun _ stopped => stopped)
  rintro result e ⟨dirNow, still,
    ⟨present, rfl, disk, entry, bytes⟩ | ⟨absent, rfl, k, unused, put⟩⟩
  · refine ⟨dirNow, ?_, still, ?_, ?_, fun s t shows shown =>
      ⟨fun _ => untouched_of_shows shows shown disk entry, fun absent => absurd absent present⟩⟩
    · rw [DirCall.mapAfter, if_neg (fun both => present both.1), bytes]
      exact represents
    · rw [entry]
      exact Nat.le_add_right _ _
    · rw [DirCall.resultOn, if_neg present]
  · have number := @inumOf_dirent (dirBytes sb d dp) k inum name
    have key := @keyOf_dirent (dirBytes sb d dp) k inum name
    rw [← put.bytes] at number key
    refine ⟨dirNow, ?_, still, put.short, ?_, fun s t shows shown =>
      ⟨fun present => absurd absent present, fun _ => ?_⟩⟩
    · have only := @onlyEntry_putEntry (dirBytes sb d dp) k (dirent inum name)
      rw [← put.bytes] at only
      rw [DirCall.mapAfter]
      by_cases some_ : inum % 2 ^ 16 = 0
      · rw [if_neg (fun both => both.2 some_)]
        exact represents.keep only unused (number.trans some_)
      · have inserted := represents.insert only unused absent (by rw [number]; exact some_) key
        rw [number] at inserted
        rw [if_pos ⟨absent, some_⟩]
        exact inserted
    · rw [DirCall.resultOn, if_pos absent]
    · refine ⟨k, fun inUse => ?_, dir.onlyAt dirNow shows shown put⟩
      exact (dir.inUse_iff shows).mp inUse unused

theorem Directory.unlink_wp (terms : Terms limits sb ends escape enough)
    (dir : Directory sb ends enough d dp) (represents : Represents (dirBytes sb d dp) m)
    (free : SlotFree d.mem ∨ escape (.panic .igetNoInodes)) (devsw : Devsw)
    (behind : Nat -> Nat -> UInt8) (name : Nat -> UInt8) :
    ((DirCall.unlink name).program devsw behind dp).wp limits
      (fun result e => DirCall.Done sb ends enough m d e dp (.unlink name) result) escape d := by
  refine wp_mono (dir.removeEntry_wp terms represents free devsw) ?_ (fun _ stopped => stopped)
  rintro result e ⟨dirNow, still, ⟨absent, rfl, rfl⟩ | ⟨present, rfl, k, live, named, put⟩⟩
  · refine ⟨dirNow, ?_, still, Nat.le_add_right _ _, ?_, fun s t shows shown =>
      ⟨fun _ => untouched_of_shows shows shown rfl rfl, fun present => absurd absent present⟩⟩
    · rw [DirCall.mapAfter, ← absent, Function.update_eq_self]
      exact represents
    · rw [DirCall.resultOn, if_pos absent]
  · refine ⟨dirNow, ?_, still, put.short, ?_,
      fun s t shows shown => ⟨fun absent => absurd absent present, fun _ => ?_⟩⟩
    · have only := @onlyEntry_putEntry (dirBytes sb d dp) k (List.replicate direntSize 0)
      have cleared := @inumOf_cleared (dirBytes sb d dp) k
      rw [← put.bytes] at only cleared
      rw [DirCall.mapAfter, ← named]
      exact represents.erase only live cleared
    · rw [DirCall.resultOn, if_neg present]
    · refine ⟨k, (dir.inUse_iff shows).mpr live, ?_, dir.onlyAt dirNow shows shown put⟩
      rw [dir.entryKey shows live, named]

theorem Directory.call_wp (terms : Terms limits sb ends escape enough)
    (dir : Directory sb ends enough d dp) (represents : Represents (dirBytes sb d dp) m)
    (free : SlotFree d.mem ∨ escape (.panic .igetNoInodes))
    (full : MAXFILE * BSIZE < (d.mem.icache dp).copy.logical_size + direntSize ->
      escape (.panic .dirlink))
    (devsw : Devsw) (behind : Nat -> Nat -> UInt8) :
    (call.program devsw behind dp).wp limits
      (fun result e => DirCall.Done sb ends enough m d e dp call result) escape d := by
  cases call with
  | lookup name => exact dir.lookup_wp terms represents free devsw behind name
  | link name inum => exact dir.link_wp terms represents free full devsw behind name inum
  | unlink name => exact dir.unlink_wp terms represents free devsw behind name

end Calls

/-! ## Sequences -/

section Runs

variable {room : (Nat -> Block) -> Prop} {sb : Superblock} {ends : Nat}
  {escape : Stop FsPanic -> Prop} {enough : (Nat -> Bool) -> (Nat -> Nat) -> Prop} {dp : Nat}
  {devsw : Devsw} {behind : Nat -> Nat -> UInt8}

/-- The results of a sequence of calls are those on the map, and the directory is the map
that the calls lead to. -/
theorem directory_run (terms : Terms ⟨NBUF, room⟩ sb ends escape enough) (calls : List DirCall) :
    forall {s : Store Kernel} {d : Device BSIZE Kernel} {m : List UInt8 -> Option Nat}, Shows s d ->
      Directory sb ends enough d dp -> Represents (dirBytes sb d dp) m ->
      (MAXFILE * BSIZE < (d.mem.icache dp).copy.logical_size + direntSize * calls.length ->
        escape (.panic .dirlink)) ->
      SlotFree d.mem ∨ escape (.panic .igetNoInodes) ->
      Throughout room (DirCall.programs devsw behind dp calls) s ->
      Program.wp (exec (DirCall.programs devsw behind dp calls))
        (fun results t => Exists fun e =>
          Shows t e ∧ Directory sb ends enough e dp ∧
          Represents (dirBytes sb e dp) (DirCall.mapAfterAll m calls) ∧ StillFree d e ∧
          (e.mem.icache dp).copy.logical_size ≤
            (d.mem.icache dp).copy.logical_size + direntSize * calls.length ∧
          results = DirCall.resultsOn m calls)
        escape s := by
  induction calls with
  | nil =>
      intro s d m shows dir represents _ _ _
      exact ⟨d, shows, dir, represents, id, Nat.le_add_right _ _, rfl⟩
  | cons call calls ih =>
      intro s d m shows dir represents full free roomy
      have length :
          direntSize * (call :: calls).length = direntSize + direntSize * calls.length := by
        rw [List.length_cons, Nat.mul_succ, Nat.add_comm]
      rw [length] at full ⊢
      refine wp_exec_cons roomy (fun roomyFirst => exec_sound shows roomyFirst
        (dir.call_wp terms represents free (fun atEnd => full (by omega)) devsw behind)) ?_
      rintro result t ⟨e, shown, done⟩ _ roomyRest
      have short := done.short
      refine Program.wp_mono (ih shown done.dir done.represents (fun atEnd => full (by omega))
        (free.imp_left done.free) roomyRest) ?_ (fun _ stopped => stopped)
      rintro results u ⟨f, shownToo, dirLast, representsLast, still, shortLast, same⟩
      exact ⟨f, shownToo, dirLast, representsLast, still ∘ done.free, by omega,
        by rw [same, done.result]; rfl⟩

end Runs

/-! ## A directory is a finite map -/

/-- Where `count` calls may stop: no block is left, the directory may reach its largest
size, or the cache of inodes is full from the beginning. -/
def DirStop (s : Store Kernel) (dp count : Nat) (reason : Stop FsPanic) : Prop :=
  reason = .panic .ballocOutOfBlocks ∨
  reason = .panic .dirlink ∧
    MAXFILE * BSIZE < (s.mem.icache dp).copy.logical_size + direntSize * count ∨
  reason = .panic .igetNoInodes ∧ ¬ SlotFree s.mem

section DirectoryAsMap

variable {sb : Superblock} {ends dp : Nat} {devsw : Devsw} {behind : Nat -> Nat -> UInt8}
  {s : Store Kernel} {d : Device BSIZE Kernel} {m : List UInt8 -> Option Nat} {calls : List DirCall}

/-- Calls on a directory have the results of the same calls on a finite map.  The entries
in use are that map afterwards, and in every state so reached a call changes nothing but
the entry that it writes. -/
theorem directory_is_map (scans : ends ≤ scanned sb) (fits : ends ≤ 2 ^ 32) (shows : Shows s d)
    (dir : Directory sb ends (fun bits _ => Roomy sb ends bits) d dp) (isMap : IsMap s dp m)
    (roomy : Throughout (fun disk => Roomy sb ends (marked sb disk))
      (DirCall.programs devsw behind dp calls) s) :
    Program.wp (exec (DirCall.programs devsw behind dp calls))
      (fun results t =>
        results = DirCall.resultsOn m calls ∧ IsMap t dp (DirCall.mapAfterAll m calls) ∧
        forall call : DirCall,
          Throughout (fun disk => Roomy sb ends (marked sb disk))
            (call.program devsw behind dp) t ->
          Program.wp (exec (call.program devsw behind dp))
            (fun result u =>
              result = call.resultOn (DirCall.mapAfterAll m calls) ∧
              IsMap u dp (call.mapAfter (DirCall.mapAfterAll m calls)) ∧
              call.Changes (DirCall.mapAfterAll m calls) t u dp)
            (DirStop s dp (calls.length + 1)) t)
      (DirStop s dp calls.length) s := by
  have free : forall count, SlotFree d.mem ∨ DirStop s dp count (.panic .igetNoInodes) := by
    intro count
    rw [← shows.mem]
    by_cases slot : SlotFree s.mem
    · exact Or.inl slot
    · exact Or.inr (Or.inr (Or.inr ⟨rfl, slot⟩))
  have full : forall count,
      MAXFILE * BSIZE < (d.mem.icache dp).copy.logical_size + direntSize * count ->
      DirStop s dp count (.panic .dirlink) := by
    intro count atEnd
    rw [← shows.mem] at atEnd
    exact Or.inr (Or.inl ⟨rfl, atEnd⟩)
  refine Program.wp_mono (directory_run (Terms.roomy scans fits (Or.inl rfl)) calls shows dir
    ((dir.isMap_iff shows).mp isMap) (full _) (free _) roomy) ?_ (fun _ stopped => stopped)
  rintro results t ⟨e, shown, dirNow, represents, still, short, same⟩
  refine ⟨same, (dirNow.isMap_iff shown).mpr represents, fun call roomyCall => ?_⟩
  refine Program.wp_mono (exec_sound shown roomyCall
    (dirNow.call_wp (Terms.roomy scans fits (Or.inl rfl)) represents ((free _).imp_left still)
    (fun atEnd => full (calls.length + 1) ?_) devsw behind)) ?_ (fun _ stopped => stopped)
  · rw [Nat.mul_succ]
    omega
  · rintro result u ⟨f, shownToo, done⟩
    exact ⟨done.result, (done.dir.isMap_iff shownToo).mpr done.represents,
      done.changes t u shown shownToo⟩

/-! ### The blank disk -/

/-- A kernel that has this inode in its cache and no other one. -/
def alone (type : Nat) : Kernel :=
  ⟨fun ip => if ip = 0 then ⟨1, 1, true, true, noBlocks type⟩
    else ⟨0, 0, false, false, Dinode.blank⟩⟩

/-- The store with an empty directory. -/
def blankDirectory : Store Kernel := ⟨blankDisk, binit, alone T_DIR⟩

theorem slotFree_alone (type : Nat) : SlotFree (alone type) := ⟨1, by decide, rfl⟩

theorem shows_blankDirectory : Shows blankDirectory (fresh blankDisk (alone T_DIR)) :=
  shows_binit _ _

/-- The empty directory on the blank disk. -/
theorem directory_blank {enough : (Nat -> Bool) -> (Nat -> Nat) -> Prop} {ends : Nat}
    (supply : enough (marked blankSuper blankDisk) (fun _ => 0)) :
    Directory blankSuper ends enough (fresh blankDisk (alone T_DIR)) 0 := by
  have empty := @emptyFile_blank enough ends T_DIR (by decide) supply
  have works := @Works.withMem blankSuper ends enough (fresh blankDisk (created T_DIR)) 0
      (alone T_DIR) empty.works rfl rfl
  have bytes : forall x, dirBytes blankSuper (fresh blankDisk (alone T_DIR)) 0 x = 0 := by
    intro x
    have empty : (work blankSuper (fresh blankDisk (alone T_DIR)) 0).slot
        (1, Volume.place (x / BSIZE)) = 0 := by
      refine (works.1.addressOf (x / BSIZE)).symm.trans ?_
      unfold addressOf
      exact ite_eq_left_iff.mpr (fun _ => rfl)
    have blank : (work blankSuper (fresh blankDisk (alone T_DIR)) 0).content 1 (x / BSIZE) =
        Bytes.fill 0 := if_pos empty
    show ((work blankSuper (fresh blankDisk (alone T_DIR)) 0).content 1 (x / BSIZE)).get
      (x % BSIZE) = 0
    rw [blank]
    exact Bytes.get_fill 0 (Nat.mod_lt _ (by decide))
  refine ⟨⟨works.1, ⟨by decide, by decide⟩, Nat.zero_le _,
    fun x below => absurd below (Nat.not_lt_zero x)⟩, rfl, Nat.one_pos, rfl, fun k _ => ?_⟩
  rw [inumOf, bytes, bytes]
  rfl

theorem isMap_blank : IsMap blankDirectory 0 (fun _ => none) := by
  have none_ : forall k, ¬ InUse blankDirectory 0 k := fun k inUse => Nat.not_lt_zero _ inUse.1
  exact ⟨fun j _ inUse => absurd inUse (none_ j),
    fun _ _ => iff_of_false nofun (fun ⟨k, inUse, _⟩ => none_ k inUse)⟩

/-- Two calls on it return, whatever they are. -/
theorem exec_blankDirectory (devsw : Devsw) (behind : Nat -> Nat -> UInt8) {calls : List DirCall}
    (few : calls.length ≤ 2) :
    Exists fun t =>
      exec (DirCall.programs devsw behind 0 calls) blankDirectory =
        .done (DirCall.resultsOn (fun _ => none) calls) t := by
  have terms := @Terms.plenty blankSuper 200 (fun _ => False) (by decide) (by decide)
  have dir := @directory_blank (Plenty 200) 200 plenty_blank
  have short : direntSize * calls.length < MAXFILE * BSIZE :=
    Nat.lt_of_le_of_lt (Nat.mul_le_mul_left direntSize few) (by decide)
  have size : ((fresh blankDisk (alone T_DIR)).mem.icache 0).copy.logical_size = 0 := rfl
  have full : ¬ MAXFILE * BSIZE < ((fresh blankDisk (alone T_DIR)).mem.icache 0).copy.logical_size +
      direntSize * calls.length := by
    rw [size]
    omega
  rcases Program.exists_done_of_wp (directory_run terms calls shows_blankDirectory dir
    ((dir.isMap_iff shows_blankDirectory).mp isMap_blank) (fun atEnd => full atEnd)
    (Or.inl (slotFree_alone _)) (throughout_true _ _)) with
    ⟨results, t, ended, e, _, _, _, _, _, rfl⟩
  exact ⟨t, ended⟩

/-- A name of one character. -/
def oneLetter : Nat -> UInt8 := charsOf [97]

/-- Add a name to the empty directory and look it up. -/
theorem directory_is_map_oneName :
    Exists fun t =>
      exec (DirCall.programs noDevices (fun _ _ => 0) 0 [.link oneLetter 7, .lookup oneLetter])
        blankDirectory =
        .done [0, 7] t := by
  have results : DirCall.resultsOn (fun _ => none) [DirCall.link oneLetter 7, .lookup oneLetter] =
      [0, 7] := by
    simp [DirCall.resultsOn, DirCall.resultOn, DirCall.mapAfter]
  have run := @directory_is_map blankSuper (scanned blankSuper) 0 noDevices
      (fun _ _ => 0) blankDirectory _ _ [.link oneLetter 7, .lookup oneLetter] (Nat.le_refl _)
      (by decide) shows_blankDirectory (directory_blank (roomy_blank _)) isMap_blank
      (throughout_blank _ _)
  rcases exec_blankDirectory noDevices (fun _ _ => 0)
    (show [DirCall.link oneLetter 7, .lookup oneLetter].length ≤ 2 from Nat.le_refl 2) with
    ⟨t, ended⟩
  unfold Program.wp at run
  rw [ended] at run
  refine ⟨t, ?_⟩
  rw [ended, run.1, results]

/-- A number that is a multiple of `2 ^ 16` is stored as zero, so that the entry is not in
use. -/
theorem long_number_lost :
    ¬ forall (sb : Superblock) (ends dp : Nat) (devsw : Devsw) (behind : Nat -> Nat -> UInt8)
      (s : Store Kernel) (d : Device BSIZE Kernel) (m : List UInt8 -> Option Nat)
      (name : Nat -> UInt8) (inum : Nat),
      ends ≤ scanned sb -> ends ≤ 2 ^ 32 -> Shows s d ->
      Directory sb ends (fun bits _ => Roomy sb ends bits) d dp -> IsMap s dp m -> name 0 ≠ 0 ->
      inum ≠ 0 -> inum < 2 ^ 32 -> m (nameKey name) = none ->
      Throughout (fun disk => Roomy sb ends (marked sb disk))
        (DirCall.programs devsw behind dp [.link name inum, .lookup name]) s ->
      Program.wp (exec (DirCall.programs devsw behind dp [.link name inum, .lookup name]))
        (fun results _ => results = [0, (inum : Int)]) (DirStop s dp 2) s := by
  intro always
  have run := always blankSuper (scanned blankSuper) 0 noDevices
      (fun _ _ => 0) blankDirectory _ _ oneLetter (2 ^ 16) (Nat.le_refl _)
      (by decide) shows_blankDirectory (directory_blank (roomy_blank _)) isMap_blank (by decide)
      (by decide) (by decide) rfl (throughout_blank _ _)
  rcases exec_blankDirectory noDevices (fun _ _ => 0)
    (show [DirCall.link oneLetter (2 ^ 16), .lookup oneLetter].length ≤ 2 from Nat.le_refl 2) with
    ⟨t, ended⟩
  unfold Program.wp at run
  rw [ended] at run
  have results : DirCall.resultsOn (fun _ => none) [DirCall.link oneLetter (2 ^ 16),
      .lookup oneLetter] = [0, 0] := by
    simp [DirCall.resultsOn, DirCall.resultOn, DirCall.mapAfter]
  rw [results] at run
  exact absurd (show ([0, 0] : List Int) = [0, ((2 ^ 16 : Nat) : Int)] from run) (by decide)

end DirectoryAsMap

end TripleFs
end OsProjects
