import OsProjects.TripleFs.MirroredFiles

namespace OsProjects
namespace TripleFs

open Machine

/-!
# Sequences of calls on one file

`readi` and `writei` on a file that starts empty, one call after the other, against what
the same calls do to a list of bytes.  A plain file is such a list.  A mirrored file is
one as long as no read gives up, and its copies stay equal in any case.
-/

/-- A call on a file.  A read comes with the memory behind the buffers. -/
inductive FileCall
  | write (src : List UInt8) (off : Nat)
  | read (behind : Nat -> Nat -> UInt8) (off n : Nat)

namespace FileCall

/-- Offsets and lengths are of the type `uint`. -/
def Proper : FileCall -> Prop
  | .write src off => off < 2 ^ 32 ∧ src.length < 2 ^ 32
  | .read _ off n => off < 2 ^ 32 ∧ n < 2 ^ 32

def program (devsw : Devsw) (ip : Nat) : FileCall -> Fs (Int × List UInt8)
  | .write src off => do
      let value <- writei devsw ip src off
      pure (value, [])
  | .read behind off n => readi devsw behind ip off n

/-- One call after the other. -/
def programs (devsw : Devsw) (ip : Nat) : List FileCall -> Fs (List (Int × List UInt8))
  | [] => pure []
  | call :: calls => do
      let result <- call.program devsw ip
      let results <- programs devsw ip calls
      pure (result :: results)

/-! ## Calls on a list of bytes -/

/-- The call is refused, because it begins behind the end or its range wraps around. -/
def Refused (content : List UInt8) (off n : Nat) : Prop := content.length < off ∨ 2 ^ 32 ≤ off + n

instance (content : List UInt8) (off n : Nat) : Decidable (Refused content off n) := instDecidableOr

def resultOn (content : List UInt8) : FileCall -> Int × List UInt8
  | .write src off => if Refused content off src.length then (-1, []) else ((src.length : Int), [])
  | .read _ off n => readResult content off n

def contentAfter (content : List UInt8) : FileCall -> List UInt8
  | .write src off => if Refused content off src.length then content else spliced content off src
  | .read _ _ _ => content

theorem contentAfter_write {content src : List UInt8} {off : Nat}
    (accepted : ¬ Refused content off src.length) :
    (write src off).contentAfter content = spliced content off src :=
  if_neg accepted

def resultsOn : List UInt8 -> List FileCall -> List (Int × List UInt8)
  | _, [] => []
  | content, call :: calls => call.resultOn content :: resultsOn (call.contentAfter content) calls

/-- The file stays within 46 blocks. -/
def Within : List UInt8 -> List FileCall -> Prop
  | _, [] => True
  | content, call :: calls =>
      (call.contentAfter content).length ≤ 46 * BSIZE ∧ Within (call.contentAfter content) calls

/-! ## Reads that give up -/

/-- Each pair of copies is told apart in some block of the range. -/
def GivesUp (disk : Nat -> Block) (c : Dinode) : FileCall -> Prop
  | .write _ _ => False
  | .read behind off n =>
      off ≤ c.logical_size ∧ off + n < 2 ^ 32 ∧ AllToldApart behind disk c off (clipped c off n)

/-- No read finds the copies so. -/
def NeverGivesUp (devsw : Devsw) (ip : Nat) : List FileCall -> Store Kernel -> Prop
  | [], _ => True
  | call :: calls, s => ¬ call.GivesUp s.disk (s.mem.icache ip).copy ∧
      After (exec (call.program devsw ip) s) (fun _ t => NeverGivesUp devsw ip calls t)

end FileCall

/-- An empty file on a sound volume. -/
structure EmptyFile (sb : Superblock) (ends : Nat) (enough : (Nat -> Bool) -> (Nat -> Nat) -> Prop)
    (type : Nat) (d : Device BSIZE Kernel) (ip : Nat) : Prop where
  works : Works sb ends enough d ip
  type : (d.mem.icache ip).copy.type = type
  size : (d.mem.icache ip).copy.logical_size = 0
  addrs : forall i, (d.mem.icache ip).copy.addrs i = 0

section Starting

variable {sb : Superblock} {ends type : Nat} {enough : (Nat -> Bool) -> (Nat -> Nat) -> Prop}
  {d : Device BSIZE Kernel} {ip : Nat}

theorem EmptyFile.hasBytes (empty : EmptyFile sb ends enough type d ip) (copies : Nat) :
    HasBytes sb d ip copies [] :=
  ⟨empty.size, fun _ below => absurd below (Nat.not_lt_zero _)⟩

theorem EmptyFile.mirrorFile (empty : EmptyFile sb ends enough T_MIRRORED d ip) :
    MirrorFile sb ends enough d ip := by
  have blank : forall bn, (work sb d ip).content (d.mem.icache ip).inum bn = Bytes.fill 0 := by
    intro bn
    have none_ : (work sb d ip).slot ((d.mem.icache ip).inum, Volume.place bn) = 0 := by
      rw [← empty.works.addressOf]
      unfold addressOf
      rw [empty.addrs, empty.addrs, if_pos rfl, ite_self]
    exact if_pos none_
  refine ⟨empty.works, empty.type, ?_, fun x below => ?_,
    fun bn other _ => (blank bn).trans (blank other).symm⟩
  · rw [empty.size]
    exact Nat.zero_le _
  · rw [empty.size] at below
    exact absurd below (Nat.not_lt_zero x)

theorem EmptyFile.plainFile (empty : EmptyFile sb ends enough T_FILE d ip) :
    PlainFile sb ends enough d ip := by
  refine ⟨empty.works, ?_, ?_, fun x below => ?_⟩
  · rw [empty.type]
    decide
  · rw [empty.size]
    exact Nat.zero_le _
  · rw [empty.size] at below
    exact absurd below (Nat.not_lt_zero x)

end Starting

/-! ## One call -/

section Calls

variable {limits : Limits BSIZE} {sb : Superblock} {ends : Nat} {escape : Stop FsPanic -> Prop}
  {enough : (Nat -> Bool) -> (Nat -> Nat) -> Prop} {d : Device BSIZE Kernel} {ip off n : Nat}
  {content : List UInt8} {call : FileCall}

open BlockProgram

/-- The test in `readi` and `writei`. -/
theorem refused_iff (size : (d.mem.icache ip).copy.logical_size = content.length)
    (offFits : off < 2 ^ 32) (fits : n < 2 ^ 32) :
    ((d.mem.icache ip).copy.logical_size < off ∨ (off + n) % 2 ^ 32 < off) ↔
      FileCall.Refused content off n := by
  unfold FileCall.Refused
  rw [size]
  omega

theorem readi_refused_wp {post : Int × List UInt8 -> Device BSIZE Kernel -> Prop}
    {behind : Nat -> Nat -> UInt8} (type : (d.mem.icache ip).copy.type ≠ T_DEV)
    (refused : (d.mem.icache ip).copy.logical_size < off ∨ (off + n) % 2 ^ 32 < off) (devsw : Devsw)
    (holds : post (-1, []) d) : (readi devsw behind ip off n).wp limits post escape d := by
  unfold readi
  refine wp_bind.mpr (wp_getMem ?_)
  rw [if_neg type, if_pos refused]
  exact holds

theorem writei_refused_wp {post : Int -> Device BSIZE Kernel -> Prop} {src : List UInt8}
    (type : (d.mem.icache ip).copy.type ≠ T_DEV)
    (refused : (d.mem.icache ip).copy.logical_size < off ∨ (off + src.length) % 2 ^ 32 < off)
    (devsw : Devsw) (holds : post (-1) d) : (writei devsw ip src off).wp limits post escape d := by
  unfold writei
  refine wp_bind.mpr (wp_getMem ?_)
  rw [if_neg type, if_pos refused]
  exact holds

/-- A call on a mirrored file. -/
theorem mirrored_call_wp (terms : Terms limits sb ends escape enough)
    (file : MirrorFile sb ends enough d ip) (bytes : HasBytes sb d ip 3 content)
    (proper : call.Proper)
    (within : (call.contentAfter content).length ≤ 46 * BSIZE ∨ escape (.panic .outOfBounds))
    (devsw : Devsw) :
    (call.program devsw ip).wp limits
      (fun result e =>
        MirrorFile sb ends enough e ip ∧ HasBytes sb e ip 3 (call.contentAfter content) ∧
        (call.GivesUp d.disk (d.mem.icache ip).copy -> result = (-1, [])) ∧
        (¬ call.GivesUp d.disk (d.mem.icache ip).copy -> result = call.resultOn content))
      escape d := by
  have size := bytes.size
  have notDev : (d.mem.icache ip).copy.type ≠ T_DEV := by
    rw [file.type]
    decide
  cases call with
  | write src off =>
      have refused := @refused_iff d ip off src.length content size proper.1 proper.2
      simp only [FileCall.program, FileCall.GivesUp, FileCall.contentAfter,
        FileCall.resultOn] at within ⊢
      by_cases isRefused : FileCall.Refused content off src.length
      · simp only [if_pos isRefused]
        refine wp_bind.mpr (writei_refused_wp notDev (refused.mpr isRefused) devsw ?_)
        exact ⟨file, bytes, fun none_ => none_.elim, fun _ => rfl⟩
      · simp only [if_neg isRefused] at within ⊢
        unfold FileCall.Refused at isRefused
        have offLe : off ≤ content.length := by omega
        have small := file.size
        refine wp_bind.mpr (wp_mono (writei_mirrored_wp terms file.works devsw file.type (by omega)
          (by omega) (by omega) (fun beyond => ?_)) ?_ (fun _ stopped => stopped))
        · refine within.resolve_left (fun short => ?_)
          rw [length_spliced offLe] at short
          unfold grownSize at short
          split at short <;> omega
        · rintro value e ⟨low, same, written, present⟩
          refine ⟨file.written (by omega) low written present, bytes.written offLe written
            (fun x => ?_) (fun x => ?_), fun none_ => none_.elim, fun _ => by rw [same]⟩
          · have block : x / BSIZE * 3 / 3 = x / BSIZE := Nat.mul_div_cancel _ (by decide)
            unfold Requested
            rw [block, block_position]
          · have block : x / BSIZE * 3 / 3 = x / BSIZE := Nat.mul_div_cancel _ (by decide)
            unfold mirrorValue
            rw [block, block_position]
  | read behind off n =>
      have refused := @refused_iff d ip off n content size proper.1 proper.2
      simp only [FileCall.program, FileCall.GivesUp, FileCall.contentAfter, FileCall.resultOn]
      by_cases isRefused : FileCall.Refused content off n
      · refine readi_refused_wp notDev (refused.mpr isRefused) devsw ⟨file, bytes, ?_, fun _ => ?_⟩
        · rintro ⟨offLe, fits, _⟩
          unfold FileCall.Refused at isRefused
          omega
        · rw [readResult]
          exact (if_pos isRefused).symm
      · have accepted := isRefused
        unfold FileCall.Refused at accepted
        refine wp_mono (file.readi_wp bytes terms.buffers (show off ≤ content.length by omega)
          (show off + n < 2 ^ 32 by omega) devsw behind) ?_ (fun _ stopped => stopped)
        rintro result e ⟨rfl, gaveUp, went⟩
        exact ⟨file, bytes, fun gives => gaveUp gives.2.2,
          fun gives => went (fun all => gives ⟨by omega, by omega, all⟩)⟩

/-- A call on a plain file. -/
theorem plain_call_wp (terms : Terms limits sb ends escape enough)
    (file : PlainFile sb ends enough d ip) (bytes : HasBytes sb d ip 1 content)
    (proper : call.Proper) (within : (call.contentAfter content).length ≤ MAXFILE * BSIZE)
    (devsw : Devsw) :
    (call.program devsw ip).wp limits
      (fun result e =>
        PlainFile sb ends enough e ip ∧ HasBytes sb e ip 1 (call.contentAfter content) ∧
        result = call.resultOn content)
      escape d := by
  have size := bytes.size
  cases call with
  | write src off =>
      have refused := @refused_iff d ip off src.length content size proper.1 proper.2
      simp only [FileCall.program, FileCall.contentAfter, FileCall.resultOn] at within ⊢
      by_cases isRefused : FileCall.Refused content off src.length
      · simp only [if_pos isRefused]
        exact wp_bind.mpr (writei_refused_wp file.plain.1 (refused.mpr isRefused) devsw
          ⟨file, bytes, rfl⟩)
      · simp only [if_neg isRefused] at within ⊢
        unfold FileCall.Refused at isRefused
        have offLe : off ≤ content.length := by omega
        have small := file.size
        have low : off + src.length ≤ MAXFILE * BSIZE ∧ off ≤ MAXFILE * BSIZE := by
          rw [length_spliced offLe] at within
          unfold grownSize at within
          split at within <;> omega
        have whole : min src.length (MAXFILE * BSIZE - off) = src.length := by omega
        refine wp_bind.mpr (wp_mono (writei_plain_wp terms file.works devsw file.plain
          (by omega) low.2 (by omega)) ?_ (fun _ stopped => stopped))
        rw [whole]
        rintro value e ⟨same, written, present⟩
        refine ⟨file.written (by omega) low.1 written present,
          bytes.written offLe written (fun x => ?_) (fun x => ?_), by rw [same]⟩
        · unfold Requested
          rw [Nat.mul_one, block_position]
        · unfold plainValue
          rw [Nat.mul_one, block_position]
  | read behind off n =>
      simp only [FileCall.program, FileCall.contentAfter, FileCall.resultOn]
      refine wp_mono (readi_present file.works.quiet (Nat.lt_trans (by decide) terms.buffers)
        (file.stores bytes) devsw behind proper.1 proper.2) ?_ (fun _ stopped => stopped)
      rintro result e ⟨rfl, same⟩
      exact ⟨file, bytes, same⟩

end Calls

/-! ## Sequences -/

namespace FileCall

def contentAfterAll (content : List UInt8) (calls : List FileCall) : List UInt8 :=
  calls.foldl (fun content call => call.contentAfter content) content

end FileCall

section Runs

variable {room : (Nat -> Block) -> Prop} {sb : Superblock} {ends : Nat}
  {escape : Stop FsPanic -> Prop} {enough : (Nat -> Bool) -> (Nat -> Nat) -> Prop} {ip : Nat}
  {devsw : Devsw}

/-- A sequence of calls on a mirrored file.  The results are those on a list of bytes
exactly if no read gives up. -/
theorem mirrored_run (terms : Terms ⟨NBUF, room⟩ sb ends escape enough) (calls : List FileCall) :
    forall {s : Store Kernel} {d : Device BSIZE Kernel} {content : List UInt8}, Shows s d ->
      MirrorFile sb ends enough d ip -> HasBytes sb d ip 3 content ->
      (forall call, call ∈ calls -> call.Proper) ->
      FileCall.Within content calls ∨ escape (.panic .outOfBounds) ->
      Throughout room (FileCall.programs devsw ip calls) s ->
      Program.wp (exec (FileCall.programs devsw ip calls))
        (fun results t => Exists fun e =>
          Shows t e ∧ MirrorFile sb ends enough e ip ∧
          HasBytes sb e ip 3 (FileCall.contentAfterAll content calls) ∧
          (results = FileCall.resultsOn content calls ↔ FileCall.NeverGivesUp devsw ip calls s))
        escape s := by
  induction calls with
  | nil =>
      intro s d content shows file bytes _ _ _
      exact ⟨d, shows, file, bytes, iff_of_true rfl trivial⟩
  | cons call calls ih =>
      intro s d content shows file bytes proper within roomy
      refine wp_exec_cons roomy
        (fun roomyFirst => exec_sound shows roomyFirst (mirrored_call_wp terms file bytes
        (proper call List.mem_cons_self) (within.imp_left (fun inside => inside.1)) devsw)) ?_
      rintro result t ⟨e, shown, fileNow, bytesNow, gaveUp, went⟩ ended roomyRest
      have rest := ih shown fileNow bytesNow (fun later inside => proper later
          (List.mem_cons_of_mem call inside)) (within.imp_left (fun inside => inside.2)) roomyRest
      unfold Program.wp at rest ⊢
      cases endedToo : exec (FileCall.programs devsw ip calls) t with
      | panic reason =>
          rw [endedToo] at rest
          exact rest
      | done results u =>
          rw [endedToo] at rest
          rcases rest with ⟨f, shownToo, fileLast, bytesLast, same⟩
          refine ⟨f, shownToo, fileLast, bytesLast, ?_⟩
          rw [← shows.disk, ← shows.mem] at gaveUp went
          unfold FileCall.NeverGivesUp FileCall.resultsOn
          rw [ended, List.cons.injEq, same]
          refine and_congr_left fun _ => ⟨fun equal gives => ?_, fun stays => went stays⟩
          have refused := gaveUp gives
          rw [equal] at refused
          cases call with
          | write src off => exact gives
          | read behind off n =>
              have accepted : ¬ (content.length < off ∨ 2 ^ 32 ≤ off + n) := by
                have size := bytes.size
                rw [← shows.mem] at size
                have offLe := gives.1
                have fits := gives.2.1
                omega
              have value := congrArg Prod.fst refused
              simp only [FileCall.resultOn, readResult, if_neg accepted] at value
              omega

/-- A sequence of calls on a plain file. -/
theorem plain_run (terms : Terms ⟨NBUF, room⟩ sb ends escape enough) (calls : List FileCall) :
    forall {s : Store Kernel} {d : Device BSIZE Kernel} {content : List UInt8}, Shows s d ->
      PlainFile sb ends enough d ip -> HasBytes sb d ip 1 content ->
      (forall call, call ∈ calls -> call.Proper) -> FileCall.Within content calls ->
      Throughout room (FileCall.programs devsw ip calls) s ->
      Program.wp (exec (FileCall.programs devsw ip calls))
        (fun results _ => results = FileCall.resultsOn content calls) escape s := by
  have room46 : 46 * BSIZE ≤ MAXFILE * BSIZE := by decide
  induction calls with
  | nil =>
      intro s d content _ _ _ _ _ _
      exact rfl
  | cons call calls ih =>
      intro s d content shows file bytes proper within roomy
      refine wp_exec_cons roomy (fun roomyFirst => exec_sound shows roomyFirst
        (plain_call_wp terms file bytes (proper call List.mem_cons_self)
          (Nat.le_trans within.1 room46) devsw)) ?_
      rintro result t ⟨e, shown, fileNow, bytesNow, rfl⟩ _ roomyRest
      have rest := ih shown fileNow bytesNow
          (fun later inside => proper later (List.mem_cons_of_mem call inside)) within.2 roomyRest
      unfold Program.wp at rest ⊢
      cases endedToo : exec (FileCall.programs devsw ip calls) t with
      | panic reason =>
          rw [endedToo] at rest
          exact rest
      | done results u =>
          rw [endedToo] at rest
          rw [rest]
          rfl

end Runs

/-- What has returned has not panicked. -/
theorem ne_panic_of_done {Panic State Value : Type} {outcome : Outcome Panic State Value}
    {value : Value} {state : State} {reason : Panic} (returned : outcome = .done value state) :
    outcome ≠ .panic reason := by
  rw [returned]
  exact nofun

/-! ## A blank disk -/

/-- A disk of 200 blocks with eight unused inodes.  The first data block is block 5. -/
def blankDisk (sector : Nat) : Block :=
  if sector = 1 then ((Bytes.fill 0 : Block).setWord 0 200).setWord 2 8
  else if sector = 4 then (Bytes.fill 0 : Block).splice 0 1 (fun _ => 31)
  else Bytes.fill 0

def blankSuper : Superblock := ⟨200, 0, 8⟩

/-- An inode in memory that has no blocks. -/
def noBlocks (type : Nat) : Dinode := { Dinode.blank with type := type, nlink := 1 }

theorem noBlocks_fits {type : Nat} (short : type < 2 ^ 16) : (noBlocks type).Fits :=
  ⟨short, Nat.two_pow_pos 16, Nat.two_pow_pos 16, (show 1 < 2 ^ 16 by decide), Nat.two_pow_pos 32,
    fun _ => Nat.two_pow_pos 32, fun _ _ => rfl⟩

/-- A kernel that has just created such an inode. -/
def created (type : Nat) : Kernel := ⟨fun _ => ⟨1, 1, true, true, noBlocks type⟩⟩

theorem superblock_blankDisk : superblock (blankDisk 1) = blankSuper := by
  have first : blankDisk 1 = ((Bytes.fill 0 : Block).setWord 0 200).setWord 2 8 := rfl
  have word : ∀ i, i < 3 -> (blankDisk 1).word i = if i = 2 then 8
      else if i = 0 then 200 else 0 := by
    intro i small
    rw [first]
    by_cases last : i = 2
    · rw [last, Bytes.word_setWord_self _ (by decide) (by decide)]
      rfl
    · rw [Bytes.word_setWord_of_ne _ _ last, if_neg last]
      by_cases here : i = 0
      · rw [here, Bytes.word_setWord_self _ (by decide) (by decide)]
        rfl
      · rw [Bytes.word_setWord_of_ne _ _ here, if_neg here, Bytes.word_fill_zero]
  unfold superblock
  rw [word 0 (by decide), word 1 (by decide), word 2 (by decide)]
  rfl

theorem getDinode_fill (slot : Nat) : getDinode (Bytes.fill 0) slot = Dinode.blank := by
  unfold getDinode
  ext i
  · exact Bytes.number_fill_zero _ _
  · exact Bytes.number_fill_zero _ _
  · exact Bytes.number_fill_zero _ _
  · exact Bytes.number_fill_zero _ _
  · exact Bytes.number_fill_zero _ _
  · simp only [Bytes.number_fill_zero, ite_self, Dinode.blank]

theorem volume_blankDisk :
    blankSuper.volume blankDisk = ⟨fun _ => Dinode.blank, fun _ => Bytes.fill 0⟩ := by
  refine Volume.ext (funext fun i => ?_) (funext fun b => ?_)
  · by_cases below : i < blankSuper.ninodes
    · have sector : blankDisk (IBLOCK i) = Bytes.fill 0 := by
        have small : i < 8 := below
        have place : IBLOCK i = 2 := by
          simp only [IBLOCK, IPB]
          omega
        rw [place]
        rfl
      rw [Superblock.inode_below below, sector]
      exact getDinode_fill _
    · exact if_neg below
  · by_cases above : blankSuper.dataStart ≤ b
    · have large : 5 ≤ b := above
      rw [Superblock.block_above above]
      unfold blankDisk
      rw [if_neg (by omega), if_neg (by omega)]
    · exact if_neg above

/-- The first five blocks are in use. -/
theorem marked_blankDisk {b : Nat} (low : b < scanned blankSuper) :
    marked blankSuper blankDisk b = decide (b < 5) := by
  have small : b < BPB := low
  have place : BBLOCK b blankSuper.ninodes = 4 := by
    have none_ : b / BPB = 0 := Nat.div_eq_of_lt small
    unfold BBLOCK
    rw [none_]
    rfl
  have bitmap : blankDisk 4 = (Bytes.fill 0 : Block).splice 0 1 (fun _ => UInt8.ofNat 31) := rfl
  unfold marked
  rw [decide_eq_true low, Bool.true_and]
  unfold used
  rw [place, Nat.mod_eq_of_lt small, bitmap, bit_splice _ _ _ (by decide) small]
  by_cases first : b / 8 = 0
  · have short : b < 8 := by omega
    rw [if_pos first, Nat.mod_eq_of_lt short]
    exact Nat.testBit_two_pow_sub_one 5 b
  · have large : ¬ b < 5 := by omega
    have inside : b / 8 < BSIZE := by
      simp only [BPB, BSIZE] at small ⊢
      omega
    rw [if_neg first, decide_eq_false large]
    unfold bit
    rw [Bytes.get_fill 0 inside]
    exact Nat.zero_testBit _

theorem emptyFile_blank {enough : (Nat -> Bool) -> (Nat -> Nat) -> Prop} {ends type : Nat}
    (short : type < 2 ^ 16) (supply : enough (marked blankSuper blankDisk) (fun _ => 0)) :
    EmptyFile blankSuper ends enough type (fresh blankDisk (created type)) 0 := by
  have isWork : work blankSuper (fresh blankDisk (created type)) 0 =
      (⟨fun _ => Dinode.blank, fun _ => Bytes.fill 0⟩ : Volume).setInode 1 (noBlocks type) := by
    unfold work
    rw [show (fresh blankDisk (created type)).disk = blankDisk from rfl, volume_blankDisk]
    rfl
  have addrs : forall i j,
      ((work blankSuper (fresh blankDisk (created type)) 0).inode i).addrs j = 0 := by
    intro i j
    rw [isWork]
    by_cases here : i = 1
    · rw [here, Volume.inode_setInode_self]
      rfl
    · rw [Volume.inode_setInode_of_ne _ here]
      rfl
  have slots : forall s, (work blankSuper (fresh blankDisk (created type)) 0).slot s = 0 := by
    intro s
    unfold Volume.slot
    rw [addrs, addrs, if_pos rfl, ite_self]
  have own : ownSlots blankSuper (fresh blankDisk (created type)) 0 = fun _ => 0 :=
    funext fun j => slots _
  refine ⟨⟨quiet_fresh _ _, superblock_blankDisk, (show 1 < 8 by decide),
    ⟨⟨fun b before => ?_, fun s stored => absurd (slots s) stored, fun s _ stored =>
    absurd (slots s) stored, fun b _ _ _ => ?_⟩, fun i => ?_⟩, ?_⟩, rfl, rfl, fun _ => rfl⟩
  · have low : b < 5 := before
    have inside : b < scanned blankSuper := Nat.lt_trans low (by decide)
    exact (marked_blankDisk inside).trans (decide_eq_true low)
  · rw [isWork]
    rfl
  · rw [isWork]
    by_cases here : i = 1
    · rw [here, Volume.inode_setInode_self]
      exact noBlocks_fits short
    · rw [Volume.inode_setInode_of_ne _ here]
      exact (⟨by decide, by decide, by decide, by decide, by decide, fun _ => Nat.two_pow_pos 32,
        fun _ _ => rfl⟩ : Dinode.blank.Fits)
  · rw [own]
    exact supply

/-- There are more than enough blocks for one file. -/
theorem plenty_blank : Plenty 200 (marked blankSuper blankDisk) (fun _ => 0) := by
  refine ⟨fun _ _ => rfl, List.range' 5 150, List.nodup_range', by rw [List.length_range']; decide,
    fun b inside => ?_⟩
  have range := List.mem_range'_1.mp inside
  have low : b < scanned blankSuper := Nat.lt_of_lt_of_le range.2 (by decide)
  refine ⟨by omega, by omega, Or.inl ?_⟩
  rw [marked_blankDisk low]
  exact decide_eq_false (by omega)

/-- The store with this disk. -/
def blankStore (type : Nat) : Store Kernel := ⟨blankDisk, binit, created type⟩

theorem shows_blank (type : Nat) : Shows (blankStore type) (fresh blankDisk (created type)) :=
  shows_binit _ _

theorem roomy_blank (disk : Nat -> Block) :
    Roomy blankSuper (scanned blankSuper) (marked blankSuper disk) :=
  Or.inr (Nat.le_refl _)

theorem throughout_blank {Value : Type} (program : Fs Value) (s : Store Kernel) :
    Throughout (fun disk => Roomy blankSuper (scanned blankSuper) (marked blankSuper disk))
      program s :=
  throughout_of_forall roomy_blank program s

/-- Calls on an empty mirrored file of that disk. -/
theorem exec_blank_mirrored (devsw : Devsw) {calls : List FileCall}
    (proper : forall call, call ∈ calls -> call.Proper) (within : FileCall.Within [] calls) :
    Exists fun results => Exists fun t => Exists fun e =>
      exec (FileCall.programs devsw 0 calls) (blankStore T_MIRRORED) = .done results t ∧ Shows t e ∧
      MirrorFile blankSuper 200 (Plenty 200) e 0 ∧
      HasBytes blankSuper e 0 3 (FileCall.contentAfterAll [] calls) := by
  have terms := @Terms.plenty blankSuper 200 (fun _ => False) (by decide) (by decide)
  have empty := @emptyFile_blank (Plenty 200) 200 T_MIRRORED (by decide) plenty_blank
  rcases Program.exists_done_of_wp (mirrored_run terms calls (shows_blank _) empty.mirrorFile
    (empty.hasBytes 3) proper (Or.inl within) (throughout_true _ _)) with
    ⟨results, t, ended, e, shown, file, bytes, _⟩
  exact ⟨results, t, e, ended, shown, file, bytes⟩

theorem exec_blank_plain (devsw : Devsw) {calls : List FileCall}
    (proper : forall call, call ∈ calls -> call.Proper) (within : FileCall.Within [] calls) :
    Exists fun t =>
      exec (FileCall.programs devsw 0 calls) (blankStore T_FILE) =
        .done (FileCall.resultsOn [] calls) t := by
  have terms := @Terms.plenty blankSuper 200 (fun _ => False) (by decide) (by decide)
  have empty := @emptyFile_blank (Plenty 200) 200 T_FILE (by decide) plenty_blank
  rcases Program.exists_done_of_wp (plain_run terms calls (shows_blank _) empty.plainFile
    (empty.hasBytes 1) proper within (throughout_true _ _)) with ⟨results, t, ended, rfl⟩
  exact ⟨t, ended⟩

/-! ## Mirrors that never diverge -/

section EmptyFiles

variable {sb sbToo : Superblock} {ends endsToo : Nat} {ip ipToo : Nat} {devsw : Devsw}
  {s t : Store Kernel} {d e : Device BSIZE Kernel} {calls : List FileCall}
  {results : List (Int × List UInt8)}

/-- What a sequence of calls makes of an empty mirrored file, if it returns. -/
theorem exists_mirrorFile (scans : ends ≤ scanned sb) (fits : ends ≤ 2 ^ 32) (shows : Shows s d)
    (empty : EmptyFile sb ends (fun bits _ => Roomy sb ends bits) T_MIRRORED d ip)
    (proper : forall call, call ∈ calls -> call.Proper)
    (roomy : Throughout (fun disk => Roomy sb ends (marked sb disk))
      (FileCall.programs devsw ip calls) s)
    (ended : exec (FileCall.programs devsw ip calls) s = .done results t) :
    Exists fun e =>
      Shows t e ∧ MirrorFile sb ends (fun bits _ => Roomy sb ends bits) e ip ∧
      HasBytes sb e ip 3 (FileCall.contentAfterAll [] calls) := by
  have terms := @Terms.roomy sb ends (fun _ => True) scans fits trivial
  rcases Program.post_of_done (mirrored_run terms calls shows empty.mirrorFile
    (empty.hasBytes 3) proper (Or.inr trivial) roomy) ended with ⟨e, shown, file, bytes, _⟩
  exact ⟨e, shown, file, bytes⟩

/-- Whatever the calls, each block of the file has three copies, and they are equal.
`Roomy` is no restriction when `ends` is all that `balloc` looks at. -/
theorem copies_stay_equal (scans : ends ≤ scanned sb) (fits : ends ≤ 2 ^ 32) (shows : Shows s d)
    (empty : EmptyFile sb ends (fun bits _ => Roomy sb ends bits) T_MIRRORED d ip)
    (proper : forall call, call ∈ calls -> call.Proper)
    (roomy : Throughout (fun disk => Roomy sb ends (marked sb disk))
      (FileCall.programs devsw ip calls) s)
    (ended : exec (FileCall.programs devsw ip calls) s = .done results t) {k : Nat}
    (inside : Touches 0 (t.mem.icache ip).copy.logical_size k) {i j : Nat} (first : i < 3)
    (second : j < 3) :
    copyAt t.disk (t.mem.icache ip).copy k i ≠ 0 ∧
    t.disk (copyAt t.disk (t.mem.icache ip).copy k i) =
      t.disk (copyAt t.disk (t.mem.icache ip).copy k j) := by
  rcases exists_mirrorFile scans fits shows empty proper roomy ended with ⟨e, shown, file, _⟩
  rw [shown.disk, shown.mem] at *
  have whole : 0 + (e.mem.icache ip).copy.logical_size ≤ (e.mem.icache ip).copy.logical_size := by
    omega
  exact ⟨file.mirrored.of_touches whole inside first, file.equal inside first second⟩

/-- The copies of a file of one byte. -/
theorem copies_stay_equal_oneByte :
    Exists fun results => Exists fun t =>
      exec (FileCall.programs noDevices 0 [.write [7] 0]) (blankStore T_MIRRORED) =
        .done results t ∧
      forall i j, i < 3 -> j < 3 ->
        copyAt t.disk (t.mem.icache 0).copy 0 i ≠ 0 ∧
        t.disk (copyAt t.disk (t.mem.icache 0).copy 0 i) =
          t.disk (copyAt t.disk (t.mem.icache 0).copy 0 j) := by
  have proper : forall call, call ∈ [FileCall.write [7] 0] -> call.Proper := by
    intro call inside
    rw [List.mem_singleton.mp inside]
    exact ⟨by decide, by decide⟩
  rcases exec_blank_mirrored noDevices proper ⟨by decide, trivial⟩ with
    ⟨results, t, e, ended, shown, _, bytes⟩
  have size := bytes.size
  rw [← shown.mem] at size
  have inside : Touches 0 (t.mem.icache 0).copy.logical_size 0 :=
    ⟨0, Nat.le_refl 0, by rw [size]; decide, rfl⟩
  exact ⟨results, t, ended, fun i j first second => copies_stay_equal (Nat.le_refl _)
    (by decide) (shows_blank _) (emptyFile_blank (by decide) (roomy_blank _)) proper
    (throughout_blank _ _) ended inside first second⟩

/-! ## Mirrored files like plain files -/

/-- As long as the disk does not become full and the file stays within 46 blocks, a
sequence of calls on an empty mirrored file has the same results as on an empty plain
file exactly if no read finds each pair of copies told apart. -/
theorem same_results_iff (scans : ends ≤ scanned sb) (fits : ends ≤ 2 ^ 32)
    (scansToo : endsToo ≤ scanned sbToo) (fitsToo : endsToo ≤ 2 ^ 32) (shows : Shows s d)
    (showsToo : Shows t e)
    (mirrored : EmptyFile sb ends (fun bits _ => Roomy sb ends bits) T_MIRRORED d ip)
    (plain : EmptyFile sbToo endsToo (fun bits _ => Roomy sbToo endsToo bits) T_FILE e ipToo)
    (proper : forall call, call ∈ calls -> call.Proper) (within : FileCall.Within [] calls)
    (roomy : Throughout (fun disk => Roomy sb ends (marked sb disk))
      (FileCall.programs devsw ip calls) s)
    (roomyToo : Throughout (fun disk => Roomy sbToo endsToo (marked sbToo disk))
      (FileCall.programs devsw ipToo calls) t)
    (enough : exec (FileCall.programs devsw ip calls) s ≠ .panic (.panic .ballocOutOfBlocks))
    (enoughToo : exec (FileCall.programs devsw ipToo calls) t ≠ .panic
      (.panic .ballocOutOfBlocks)) :
    (Exists fun results => Exists fun u => Exists fun v =>
      exec (FileCall.programs devsw ip calls) s = .done results u ∧
      exec (FileCall.programs devsw ipToo calls) t = .done results v) ↔
      FileCall.NeverGivesUp devsw ip calls s := by
  have terms := @Terms.roomy sb ends
      (fun reason => reason = .panic .ballocOutOfBlocks) scans fits rfl
  have termsToo := @Terms.roomy sbToo endsToo
      (fun reason => reason = .panic .ballocOutOfBlocks) scansToo fitsToo rfl
  have run := @mirrored_run _ _ _ _ _ ip devsw terms calls s d [] shows mirrored.mirrorFile
      (mirrored.hasBytes 3) proper (Or.inl within) roomy
  have runToo := @plain_run _ _ _ _ _ ipToo devsw termsToo calls t e [] showsToo plain.plainFile
      (plain.hasBytes 1) proper within roomyToo
  unfold Program.wp at run runToo
  cases ended : exec (FileCall.programs devsw ip calls) s with
  | panic reason =>
      rw [ended] at run enough
      exact absurd (congrArg Outcome.panic run) enough
  | done results u =>
      cases endedToo : exec (FileCall.programs devsw ipToo calls) t with
      | panic reason =>
          rw [endedToo] at runToo enoughToo
          exact absurd (congrArg Outcome.panic runToo) enoughToo
      | done others v =>
          rw [ended] at run
          rw [endedToo] at runToo
          rcases run with ⟨_, _, _, _, same⟩
          rw [← same]
          constructor
          · rintro ⟨both, _, _, here, there⟩
            injection here with here
            injection there with there
            rw [here, ← there, runToo]
          · intro equal
            refine ⟨results, u, v, rfl, ?_⟩
            rw [runToo, equal]

/-- A read of at most one block compares nothing behind the buffers, so it does not
give up on equal copies. -/
theorem MirrorFile.not_givesUp {enough : (Nat -> Bool) -> (Nat -> Nat) -> Prop}
    {behind : Nat -> Nat -> UInt8} {off n : Nat} (file : MirrorFile sb ends enough d ip)
    (short : n ≤ BSIZE) : ¬ (FileCall.read behind off n).GivesUp d.disk (d.mem.icache ip).copy := by
  rintro ⟨offLe, _, all⟩
  have within : clipped (d.mem.icache ip).copy off n ≤ n ∧
      off + clipped (d.mem.icache ip).copy off n ≤ (d.mem.icache ip).copy.logical_size := by
    unfold clipped
    omega
  rcases all .firstSecond with ⟨k, ⟨x, _, upper, block⟩, y, below, apart, _⟩
  have inside : Touches 0 (d.mem.icache ip).copy.logical_size k :=
    ⟨x, Nat.zero_le x, by omega, block⟩
  have position : y < BSIZE := by omega
  refine apart ?_
  unfold copyMemory memoryFrom
  rw [if_pos position, if_pos position, file.equal inside (by decide)
    (show Pair.firstSecond.right < 3 by decide)]

/-- The memory behind the buffer of a sector. -/
def differentBehind (sector _position : Nat) : UInt8 := UInt8.ofNat sector

/-- A first write to the mirrored file of the blank disk. -/
theorem exec_blank_write {src : List UInt8} (uint : src.length < 2 ^ 32)
    (short : src.length ≤ 46 * BSIZE) :
    Exists fun result => Exists fun t => Exists fun e =>
      exec ((FileCall.write src 0).program noDevices 0) (blankStore T_MIRRORED) = .done result t ∧
      Shows t e ∧ MirrorFile blankSuper 200 (Plenty 200) e 0 ∧ HasBytes blankSuper e 0 3 src := by
  have accepted : ¬ FileCall.Refused [] 0 src.length := by
    unfold FileCall.Refused
    rw [List.length_nil]
    omega
  have after : (FileCall.write src 0).contentAfter [] = src := by
    rw [FileCall.contentAfter_write accepted]
    unfold spliced
    rw [List.take_nil, List.drop_nil, List.append_nil, List.nil_append]
  have terms := @Terms.plenty blankSuper 200 (fun _ => False) (by decide) (by decide)
  have empty := @emptyFile_blank (Plenty 200) 200 T_MIRRORED (by decide) plenty_blank
  rcases Program.exists_done_of_wp (exec_sound (shows_blank T_MIRRORED) (throughout_true _ _)
    (@mirrored_call_wp _ _ _ _ _ _ 0 _ (.write src 0) terms empty.mirrorFile
    (empty.hasBytes 3) ⟨by decide, uint⟩ (Or.inl (by rw [after]; exact short)) noDevices)) with
    ⟨result, t, ended, e, shown, file, bytes, _⟩
  rw [after] at bytes
  exact ⟨result, t, e, ended, shown, file, bytes⟩

/-- Two bytes are written and read, whatever is behind the buffers. -/
def writeAndRead : List FileCall := [.write [7, 8] 0, .read differentBehind 0 2]

/-- Both calls have the same results. -/
theorem same_results_iff_writeAndRead : Exists fun results => Exists fun u => Exists fun v =>
    exec (FileCall.programs noDevices 0 writeAndRead) (blankStore T_MIRRORED) = .done results u ∧
    exec (FileCall.programs noDevices 0 writeAndRead) (blankStore T_FILE) = .done results v := by
  have proper : forall call, call ∈ writeAndRead -> call.Proper := by
    intro call inside
    rcases List.mem_cons.mp inside with rfl | inside
    · exact ⟨by decide, by decide⟩
    · rw [List.mem_singleton.mp inside]
      exact ⟨by decide, by decide⟩
  have within : FileCall.Within [] writeAndRead := ⟨by decide, by decide, trivial⟩
  rcases exec_blank_mirrored noDevices proper within with ⟨_, t, _, ended, _⟩
  rcases exec_blank_plain noDevices proper within with ⟨u, endedToo⟩
  refine (same_results_iff (Nat.le_refl _) (by decide) (Nat.le_refl _) (by decide) (shows_blank _)
    (shows_blank _) (emptyFile_blank (by decide) (roomy_blank _)) (emptyFile_blank (by decide)
    (roomy_blank _)) proper within (throughout_blank _ _) (throughout_blank _ _) ?_ ?_).mpr
    ⟨fun none_ => none_, ?_⟩
  · exact ne_panic_of_done ended
  · exact ne_panic_of_done endedToo
  · rcases @exec_blank_write [7, 8] (by decide) (by decide) with ⟨_, v, e, wrote, shown, file, _⟩
    rw [wrote]
    refine ⟨?_, ?_⟩
    · rw [shown.disk, shown.mem]
      exact file.not_givesUp (by decide)
    · unfold After
      split <;> exact trivial

/-- Two blocks without NUL bytes are written, and then they are read at once. -/
def twoBlocks : List FileCall := [.write (List.replicate 1024 1) 0, .read differentBehind 0 1024]

/-- The comparison of the copies of the first block goes on behind the buffers. -/
theorem givesUp_twoBlocks {e : Device BSIZE Kernel} {enough : (Nat -> Bool) -> (Nat -> Nat) -> Prop}
    (file : MirrorFile blankSuper 200 enough e 0)
    (bytes : HasBytes blankSuper e 0 3 (List.replicate 1024 1)) :
    (FileCall.read differentBehind 0 1024).GivesUp e.disk (e.mem.icache 0).copy := by
  have size := bytes.size
  rw [List.length_replicate] at size
  have length : clipped (e.mem.icache 0).copy 0 1024 = 1024 := by
    unfold clipped
    rw [size]
    rfl
  have block : Touches 0 1024 0 := ⟨0, by decide, by decide, rfl⟩
  have inside : Touches 0 (e.mem.icache 0).copy.logical_size 0 :=
    ⟨0, by decide, by rw [size]; decide, rfl⟩
  have present : forall j, j < 3 -> copyAt e.disk (e.mem.icache 0).copy 0 j ≠ 0 := fun j copy =>
    file.mirrored.of_touches (show 0 + (e.mem.icache 0).copy.logical_size ≤ _ by omega) inside copy
  have low : forall j, j < 3 -> copyAt e.disk (e.mem.icache 0).copy 0 j < 200 := by
    intro j copy
    have stored := present j copy
    unfold copyAt at stored ⊢
    rw [file.works.addressOf] at stored ⊢
    exact (file.works.sound.ledger.stored _ stored).2.1
  have ones : forall j, j < 3 -> forall y, y < BSIZE ->
      copyMemory differentBehind e.disk (e.mem.icache 0).copy 0 j y = 1 := by
    intro j copy y below
    have short : y < 1024 := Nat.lt_trans below (by decide)
    have byte := file.copy_byte bytes (show y < (List.replicate 1024 (1 : UInt8)).length by
      rw [List.length_replicate]
      exact short) copy
    rw [Nat.div_eq_of_lt below, Nat.mod_eq_of_lt below, List.getD_replicate _ short] at byte
    unfold copyMemory memoryFrom
    rw [if_pos below]
    exact byte
  refine ⟨Nat.zero_le _, by decide,
    fun pair => ⟨0, by rw [length]; exact block, BSIZE, by rw [length]; decide, ?_, ?_⟩⟩
  · have copies : pair.left < 3 ∧ pair.right < 3 ∧ pair.left ≠ pair.right := by
      cases pair <;> decide
    have first := low _ copies.1
    have second := low _ copies.2.1
    unfold copyMemory memoryFrom
    rw [if_neg (Nat.lt_irrefl _), if_neg (Nat.lt_irrefl _)]
    intro same
    have equal := congrArg UInt8.toNat same
    unfold differentBehind at equal
    rw [UInt8.toNat_ofNat', UInt8.toNat_ofNat', Nat.mod_eq_of_lt (by omega),
      Nat.mod_eq_of_lt (by omega)] at equal
    have place := file.mirrored.apart _ _ (present _ copies.1) equal
    omega
  · intro y below
    have copies : pair.left < 3 ∧ pair.right < 3 := by cases pair <;> decide
    rw [ones _ copies.1 y below, ones _ copies.2 y below]
    exact ⟨rfl, by decide⟩

theorem not_neverGivesUp_twoBlocks :
    ¬ FileCall.NeverGivesUp noDevices 0 twoBlocks (blankStore T_MIRRORED) := by
  intro never
  have uint : (List.replicate 1024 (1 : UInt8)).length < 2 ^ 32 ∧
      (List.replicate 1024 (1 : UInt8)).length ≤ 46 * BSIZE := by
    rw [List.length_replicate]
    decide
  have gives := fun e => @givesUp_twoBlocks e (Plenty 200)
  unfold twoBlocks at never
  -- The bytes are kept abstract, so that nothing evaluates the write.
  generalize List.replicate 1024 (1 : UInt8) = src at never uint gives
  rcases exec_blank_write uint.1 uint.2 with ⟨result, t, e, ended, shown, file, bytes⟩
  have rest := never.2
  rw [ended] at rest
  have refused := rest.1
  rw [shown.disk, shown.mem] at refused
  exact refused (gives e file bytes)

/-- A mirrored file of two blocks cannot be read at once. -/
theorem two_blocks_not_read :
    ¬ forall (sb sbToo : Superblock) (ends endsToo ip ipToo : Nat) (devsw : Devsw)
      (s t : Store Kernel) (d e : Device BSIZE Kernel) (calls : List FileCall),
      ends ≤ scanned sb -> ends ≤ 2 ^ 32 -> endsToo ≤ scanned sbToo -> endsToo ≤ 2 ^ 32 ->
      Shows s d -> Shows t e ->
      EmptyFile sb ends (fun bits _ => Roomy sb ends bits) T_MIRRORED d ip ->
      EmptyFile sbToo endsToo (fun bits _ => Roomy sbToo endsToo bits) T_FILE e ipToo ->
      (forall call, call ∈ calls -> call.Proper) -> FileCall.Within [] calls ->
      Throughout (fun disk => Roomy sb ends (marked sb disk))
        (FileCall.programs devsw ip calls) s ->
      Throughout (fun disk => Roomy sbToo endsToo (marked sbToo disk))
        (FileCall.programs devsw ipToo calls) t ->
      exec (FileCall.programs devsw ip calls) s ≠ .panic (.panic .ballocOutOfBlocks) ->
      exec (FileCall.programs devsw ipToo calls) t ≠ .panic (.panic .ballocOutOfBlocks) ->
      Exists fun results => Exists fun u => Exists fun v =>
        exec (FileCall.programs devsw ip calls) s = .done results u ∧
        exec (FileCall.programs devsw ipToo calls) t = .done results v := by
  intro always
  have proper : forall call, call ∈ twoBlocks -> call.Proper := by
    intro call inside
    unfold twoBlocks at inside
    rcases List.mem_cons.mp inside with rfl | inside
    · exact ⟨by decide, by rw [List.length_replicate]; decide⟩
    · rw [List.mem_singleton.mp inside]
      exact ⟨by decide, by decide⟩
  have after : (FileCall.write (List.replicate 1024 1) 0).contentAfter [] =
      List.replicate 1024 1 := by
    have accepted : ¬ FileCall.Refused [] 0 (List.replicate 1024 (1 : UInt8)).length := by
      rw [List.length_replicate]
      decide
    rw [FileCall.contentAfter_write accepted]
    unfold spliced
    rw [List.take_nil, List.drop_nil, List.append_nil, List.nil_append]
  have short : (List.replicate 1024 (1 : UInt8)).length ≤ 46 * BSIZE := by
    rw [List.length_replicate]
    decide
  have within : FileCall.Within [] twoBlocks := by
    refine ⟨?_, ?_, trivial⟩
    · rw [after]
      exact short
    · rw [after]
      exact short
  have never := not_neverGivesUp_twoBlocks
  -- The calls are kept abstract from here on, so that nothing evaluates them.
  generalize twoBlocks = calls at proper within never
  rcases exec_blank_mirrored noDevices proper within with ⟨_, _, _, ended, _⟩
  rcases exec_blank_plain noDevices proper within with ⟨_, endedToo⟩
  rcases always blankSuper blankSuper (scanned blankSuper) (scanned blankSuper) 0 0 noDevices
    (blankStore T_MIRRORED) (blankStore T_FILE) _ _ calls (Nat.le_refl _)
    (by decide) (Nat.le_refl _) (by decide) (shows_blank _) (shows_blank _)
    (emptyFile_blank (by decide) (roomy_blank _)) (emptyFile_blank (by decide) (roomy_blank _))
    proper within (throughout_blank _ _) (throughout_blank _ _) (ne_panic_of_done ended)
    (ne_panic_of_done endedToo) with ⟨results, u, v, here, there⟩
  have terms := @Terms.plenty blankSuper 200 (fun _ => False) (by decide) (by decide)
  have empty := @emptyFile_blank (Plenty 200) 200 T_MIRRORED (by decide) plenty_blank
  rcases Program.post_of_done (mirrored_run terms calls (shows_blank _) empty.mirrorFile
    (empty.hasBytes 3) proper (Or.inl within) (throughout_true _ _)) here with ⟨_, _, _, _, exactly⟩
  rw [endedToo] at there
  injection there with there
  exact never (exactly.mp there.symm)

/-! ## The capacity of a mirrored file -/

/-- The first `count` bytes of `src` are in all three copies, and no other byte of a copy
has changed. -/
structure StoredInAll (s t : Store Kernel) (ip : Nat) (src : List UInt8) (off count : Nat) :
    Prop where
  length : count ≤ src.length
  copies : forall x, x < count -> forall j, j < 3 ->
    copyAt t.disk (t.mem.icache ip).copy ((off + x) / BSIZE) j ≠ 0 ∧
    (t.disk (copyAt t.disk (t.mem.icache ip).copy ((off + x) / BSIZE) j)).get
    ((off + x) % BSIZE) = src.getD x 0
  others : forall k j y, j < 3 -> y < BSIZE -> copyAt s.disk (s.mem.icache ip).copy k j ≠ 0 ->
    ¬ Requested off count k y -> (t.disk (copyAt t.disk (t.mem.icache ip).copy k j)).get y =
      (s.disk (copyAt s.disk (s.mem.icache ip).copy k j)).get y

/-- A write stays inside the arrays of addresses and returns the number of bytes that it
has stored. -/
structure WriteSafe (devsw : Devsw) (ip : Nat) (src : List UInt8) (off : Nat) (s : Store Kernel) :
    Prop where
  inside : exec (writei devsw ip src off) s ≠ .panic (.panic .outOfBounds)
  mapped : exec (writei devsw ip src off) s ≠ .panic (.panic .bmapOutOfRange)
  stored : forall value t, exec (writei devsw ip src off) s = .done value t ->
    Exists fun count : Nat => value = (count : Int) ∧ StoredInAll s t ip src off count

theorem MirrorFile.storedInAll {enough : (Nat -> Bool) -> (Nat -> Nat) -> Prop} {src : List UInt8}
    {off : Nat} (file : MirrorFile sb ends enough d ip)
    (written : Written sb ends enough d e ip (mirrorValue src off)
      (fun bn y => Requested off src.length (bn / 3) y) (MirrorSlot off src.length)
      (grownSize (d.mem.icache ip).copy.logical_size off src.length))
    (present : forall k, Touches off src.length k ->
      forall j, j < 3 -> (work sb e ip).slot ((d.mem.icache ip).inum, Volume.place (k * 3 + j)) ≠ 0)
    (shows : Shows s d) (shown : Shows t e) : StoredInAll s t ip src off src.length := by
  have inum := written.inum
  rw [← inum] at present
  refine ⟨Nat.le_refl _, fun x below j small => ?_, fun k j y small below stored miss => ?_⟩
  · have there := present _ ⟨off + x, by omega, by omega, rfl⟩ j small
    have block : ((off + x) / BSIZE * 3 + j) / 3 = (off + x) / BSIZE := by omega
    have within := Nat.mod_lt (off + x) (show 0 < BSIZE by decide)
    have hit : Requested off src.length (((off + x) / BSIZE * 3 + j) / 3) ((off + x) % BSIZE) := by
      unfold Requested
      rw [block, block_position]
      omega
    have byte := written.edited.written _ _ within hit
    unfold mirrorValue at byte
    rw [block, block_position, Nat.add_sub_cancel_left, ← inum] at byte
    rw [shown.disk, shown.mem]
    unfold copyAt
    refine ⟨?_, ?_⟩
    · rw [written.works.addressOf]
      exact there
    · rw [written.works.disk there]
      exact byte
  · rw [shows.disk, shows.mem] at stored ⊢
    rw [shown.disk, shown.mem]
    unfold copyAt at stored ⊢
    rw [file.works.addressOf] at stored
    have kept := written.edited.stays _ stored
    rw [← inum] at kept
    have now : (work sb e ip).slot ((e.mem.icache ip).inum, Volume.place (k * 3 + j)) ≠ 0 := by
      rw [kept, inum]
      exact stored
    have block : (k * 3 + j) / 3 = k := by omega
    rw [file.works.disk stored, written.works.disk now, inum]
    exact written.edited.kept _ y below (block.symm ▸ miss)

/-- A write to a mirrored file. -/
theorem exec_writei_mirrored {room : (Nat -> Block) -> Prop}
    {enough : (Nat -> Bool) -> (Nat -> Nat) -> Prop} {escape : Stop FsPanic -> Prop}
    {src : List UInt8} {off : Nat} (terms : Terms ⟨NBUF, room⟩ sb ends escape enough)
    (shows : Shows s d) (file : MirrorFile sb ends enough d ip)
    (offLe : off ≤ (s.mem.icache ip).copy.logical_size) (short : off + src.length < 2 ^ 32)
    (roomy : Throughout room (writei devsw ip src off) s)
    (beyond : 46 * BSIZE < off + src.length -> escape (.panic .outOfBounds)) :
    Program.wp (exec (writei devsw ip src off))
      (fun value t =>
        off + src.length ≤ 46 * BSIZE ∧ value = (src.length : Int) ∧
        StoredInAll s t ip src off src.length)
      escape s := by
  have size := file.size
  rw [shows.mem] at offLe
  refine Program.wp_mono (exec_sound shows roomy
    (writei_mirrored_wp terms file.works devsw file.type offLe (by omega) short beyond)) ?_
    (fun _ stopped => stopped)
  rintro value t ⟨e, shown, low, same, written, present⟩
  exact ⟨low, same, file.storedInAll written present shows shown⟩

/-- In every state that calls on an empty mirrored file lead to, a write that stays
within 46 blocks is safe, and one that does not is unsafe unless the disk becomes full
before. -/
theorem writeSafe_iff (scans : ends ≤ scanned sb) (fits : ends ≤ 2 ^ 32) (shows : Shows s d)
    (empty : EmptyFile sb ends (fun bits _ => Roomy sb ends bits) T_MIRRORED d ip)
    (proper : forall call, call ∈ calls -> call.Proper)
    (roomy : Throughout (fun disk => Roomy sb ends (marked sb disk))
      (FileCall.programs devsw ip calls) s)
    (ended : exec (FileCall.programs devsw ip calls) s = .done results t) {src : List UInt8}
    {off : Nat} (offLe : off ≤ (t.mem.icache ip).copy.logical_size)
    (short : off + src.length < 2 ^ 32)
    (roomyToo : Throughout (fun disk => Roomy sb ends (marked sb disk))
      (writei devsw ip src off) t) :
    (off + src.length ≤ 46 * BSIZE -> WriteSafe devsw ip src off t) ∧
    (exec (writei devsw ip src off) t ≠ .panic (.panic .ballocOutOfBlocks) ->
      WriteSafe devsw ip src off t -> off + src.length ≤ 46 * BSIZE) := by
  rcases exists_mirrorFile scans fits shows empty proper roomy ended with ⟨e, shown, file, _⟩
  constructor
  · intro low
    have terms := @Terms.roomy sb ends
        (fun reason => reason = .panic .ballocOutOfBlocks) scans fits rfl
    have wrote := exec_writei_mirrored terms shown file offLe short roomyToo
      (fun beyond => absurd low (Nat.not_le.mpr beyond))
    unfold Program.wp at wrote
    refine ⟨fun stopped => ?_, fun stopped => ?_, fun value u returned => ?_⟩
    · rw [stopped] at wrote
      exact nomatch wrote
    · rw [stopped] at wrote
      exact nomatch wrote
    · rw [returned] at wrote
      exact ⟨src.length, wrote.2.1, wrote.2.2⟩
  · intro notFull safe
    have terms := @Terms.roomy sb ends (fun reason => reason = .panic .ballocOutOfBlocks ∨
        reason = .panic .outOfBounds) scans fits (Or.inl rfl)
    have wrote := exec_writei_mirrored terms shown file offLe short roomyToo
      (fun _ => Or.inr rfl)
    unfold Program.wp at wrote
    cases outcome : exec (writei devsw ip src off) t with
    | done value u =>
        rw [outcome] at wrote
        exact wrote.1
    | panic reason =>
        rw [outcome] at wrote notFull
        rcases wrote with full | outside
        · exact absurd (congrArg Outcome.panic full) notFull
        · rw [outside] at outcome
          exact absurd outcome safe.inside

/-- One byte is safe. -/
theorem writeSafe_iff_oneByte : WriteSafe noDevices 0 [7] 0 (blankStore T_MIRRORED) :=
  (@writeSafe_iff blankSuper (scanned blankSuper) 0 noDevices (blankStore T_MIRRORED)
    (blankStore T_MIRRORED) _ [] [] (Nat.le_refl _) (by decide) (shows_blank _) (emptyFile_blank
    (by decide) (roomy_blank _)) (fun _ none_ => nomatch none_) (throughout_blank _ _) rfl [7] 0
    (Nat.le_refl _) (by decide) (throughout_blank _ _)).1 (by decide)

/-- A write that passes the checks but goes beyond 46 blocks indexes the indirect block
behind its last entry. -/
theorem write_beyond_entries :
    ¬ forall (sb : Superblock) (ends ip : Nat) (devsw : Devsw) (s t : Store Kernel)
      (d : Device BSIZE Kernel) (calls : List FileCall) (results : List (Int × List UInt8))
      (src : List UInt8) (off : Nat),
      ends ≤ scanned sb -> ends ≤ 2 ^ 32 -> Shows s d ->
      EmptyFile sb ends (fun bits _ => Roomy sb ends bits) T_MIRRORED d ip ->
      (forall call, call ∈ calls -> call.Proper) ->
      Throughout (fun disk => Roomy sb ends (marked sb disk))
        (FileCall.programs devsw ip calls) s ->
      exec (FileCall.programs devsw ip calls) s = .done results t ->
      off ≤ (t.mem.icache ip).copy.logical_size -> off + src.length < 2 ^ 32 ->
      Throughout (fun disk => Roomy sb ends (marked sb disk)) (writei devsw ip src off) t ->
      WriteSafe devsw ip src off t := by
  intro always
  have length : (List.replicate (46 * BSIZE + 1) (1 : UInt8)).length = 46 * BSIZE + 1 :=
    List.length_replicate
  generalize List.replicate (46 * BSIZE + 1) (1 : UInt8) = src at length
  have short : 0 + src.length < 2 ^ 32 := by
    rw [length]
    decide
  have safe := always blankSuper (scanned blankSuper) 0 noDevices (blankStore T_MIRRORED)
      (blankStore T_MIRRORED) _ [] [] src 0 (Nat.le_refl _) (by decide) (shows_blank _)
      (emptyFile_blank (by decide) (roomy_blank _)) (fun _ none_ => nomatch none_)
      (throughout_blank _ _) rfl (Nat.le_refl _) short (throughout_blank _ _)
  have terms := @Terms.plenty blankSuper 200 (fun reason => reason = .panic .outOfBounds)
      (by decide) (by decide)
  have empty := @emptyFile_blank (Plenty 200) 200 T_MIRRORED (by decide) plenty_blank
  have wrote := @exec_writei_mirrored blankSuper 200 0 noDevices
      (blankStore T_MIRRORED) _ _ _ _ src 0 terms (shows_blank _) empty.mirrorFile
      (Nat.le_refl _) short (throughout_true _ _) (fun _ => rfl)
  unfold Program.wp at wrote
  cases outcome : exec (writei noDevices 0 src 0) (blankStore T_MIRRORED) with
  | done value t =>
      rw [outcome] at wrote
      have low := wrote.1
      omega
  | panic reason =>
      rw [outcome] at wrote
      rw [wrote] at outcome
      exact safe.inside outcome

end EmptyFiles

end TripleFs
end OsProjects
