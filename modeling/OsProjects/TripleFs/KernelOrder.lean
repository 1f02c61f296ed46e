import OsProjects.TripleFs.DirectoryMap
import OsProjects.TripleFs.Truncation

namespace OsProjects
namespace TripleFs

open Machine

/-!
# The kernel between two steps of a call

Looking up a name may take a block for a hole of a directory, and nobody copies the inode
to the disk then.  When the last reference to the inode is dropped the block is forgotten;
it stays in use for good.  So the inodes on the disk lag behind the live volume by some
addresses.

Directories need more than block ownership.  `dirlookup` looks at whole blocks, and it
hands every number that it finds to `iget`, so an entry must never name an inode that the
disk has no room for, and there must be nothing behind the end of a directory.

On a disk without holes nothing is forgotten: what the kernel sees is what the disk has,
and every block in use is in a slot.
-/

/-- The file of the inode is zero behind its end, and the entries in it name inodes of the disk. -/
structure Listed (sb : Superblock) (v : Volume) (i : Nat) : Prop where
  zeros : forall x, (v.inode i).logical_size ≤ x -> v.byte i x = 0
  named : forall k, inumOf (v.byte i) k < sb.ninodes

/-- Directories are in order, and mirrored files stay within the blocks that `mbmap` can reach. -/
structure Proper (sb : Superblock) (v : Volume) : Prop where
  listed : forall i, (v.inode i).type = T_DIR -> Listed sb v i
  limits : forall i, (v.inode i).type = T_MIRRORED -> (v.inode i).logical_size ≤ 46 * BSIZE

/-- The inodes on the disk have everything but some of the addresses. -/
structure Lags (sb : Superblock) (v : Volume) (d : Device BSIZE Kernel) : Prop where
  heads : forall i, (sb.volume d.disk).inode i =
    { v.inode i with addrs := ((sb.volume d.disk).inode i).addrs }
  addrs : forall i j, j ≤ NDIRECT -> ((sb.volume d.disk).inode i).addrs j ≠ 0 ->
    (v.inode i).addrs j = ((sb.volume d.disk).inode i).addrs j

/-- The disk has all that the kernel sees, files have no holes, and no block is lost. -/
structure Neat (sb : Superblock) (v : Volume) (d : Device BSIZE Kernel) : Prop where
  saved : (sb.volume d.disk).inode = v.inode
  whole : forall i, Covers v i 0 (v.inode i).logical_size (copiesOf (v.inode i).type)
  complete : Ledger.Complete sb.dataStart sb.size v.slot (marked sb d.disk)
  unused : forall i, (v.inode i).type = 0 -> forall m, v.slot (i, m) = 0

/-- The state of the file system when no block is held; `tidy` says whether the disk has no
holes. -/
structure Settled (sb : Superblock) (tidy : Prop) (v : Volume) (d : Device BSIZE Kernel) :
    Prop where
  secure : Secure sb sb.size v ∅ d
  lags : Lags sb v d
  proper : Proper sb v
  root : ROOTINO < sb.ninodes
  neat : tidy -> Neat sb v d

/-- The cache of inodes has `refs` references, and those in `locked` are locked. -/
structure Counted (refs : Nat -> Nat) (locked : Finset Nat) (k : Kernel) : Prop where
  counts : forall ip, (k.icache ip).ref = refs ip
  places : forall ip, 0 < refs ip -> ip < NINODE
  locks : forall ip, ip ∈ locked ↔ 0 < refs ip ∧ (k.icache ip).busy = true
  typed : forall ip, (k.icache ip).Active -> (k.icache ip).copy.type ≠ 0

/-- The kernel is in order. -/
structure InOrder (sb : Superblock) (tidy : Prop) (refs : Nat -> Nat) (locked : Finset Nat)
    (d : Device BSIZE Kernel) : Prop where
  settled : Exists fun v => Settled sb tidy v d
  counted : Counted refs locked d.mem

/-- The entry still has its inode, and what has been read stays read. -/
structure Inode.Keeps (e f : Inode) : Prop where
  inum : f.inum = e.inum
  valid : e.valid = true -> f.valid = true ∧ f.copy.type = e.copy.type

/-- The entries that `hold` refers to are kept. -/
def Keeps (hold : Nat -> Nat) (k l : Kernel) : Prop :=
  forall ip, 0 < hold ip -> (k.icache ip).Keeps (l.icache ip)

/-- One reference more. -/
def more (refs : Nat -> Nat) (ip jp : Nat) : Nat := if jp = ip then refs jp + 1 else refs jp

/-! ## References -/

section Counting

variable {refs hold few : Nat -> Nat} {locked : Finset Nat} {k l m : Kernel} {ip jp : Nat}

theorem more_self : more refs ip ip = refs ip + 1 := if_pos rfl

theorem more_of_ne (other : jp ≠ ip) : more refs ip jp = refs jp := if_neg other

theorem le_more (refs : Nat -> Nat) (ip jp : Nat) : refs jp ≤ more refs ip jp := by
  unfold more
  split <;> omega

theorem more_comm (refs : Nat -> Nat) (ip jp : Nat) :
    more (more refs ip) jp = more (more refs jp) ip := by
  refine funext (fun x => ?_)
  unfold more
  by_cases here : x = ip
  · simp only [if_pos here]
    split <;> rfl
  · simp only [if_neg here]

theorem Inode.Keeps.refl (e : Inode) : e.Keeps e := ⟨rfl, fun valid => ⟨valid, rfl⟩⟩

theorem Inode.Keeps.trans {e f g : Inode} (first : e.Keeps f) (second : f.Keeps g) : e.Keeps g := by
  refine ⟨second.inum.trans first.inum, fun valid => ?_⟩
  rcases first.valid valid with ⟨between, type⟩
  rcases second.valid between with ⟨after, typeToo⟩
  exact ⟨after, typeToo.trans type⟩

theorem Keeps.refl (hold : Nat -> Nat) (k : Kernel) : Keeps hold k k :=
  fun _ _ => Inode.Keeps.refl _

theorem Keeps.trans (first : Keeps hold k l) (second : Keeps hold l m) : Keeps hold k m :=
  fun ip held => (first ip held).trans (second ip held)

theorem Keeps.fewer (keeps : Keeps hold k l) (fewer : forall ip, few ip ≤ hold ip) :
    Keeps few k l :=
  fun ip held => keeps ip (Nat.lt_of_lt_of_le held (fewer ip))

theorem Keeps.less (keeps : Keeps (more hold ip) k l) : Keeps hold k l :=
  keeps.fewer (le_more hold ip)

/-- Changing entries that `hold` does not refer to, and others so that they are kept. -/
theorem Keeps.adjust {change : Inode -> Inode}
    (kept : 0 < hold ip -> (k.icache ip).Keeps (change (k.icache ip))) :
    Keeps hold k (k.adjust ip change) := by
  intro jp held
  by_cases here : jp = ip
  · rw [here] at held ⊢
    rw [Kernel.adjust_self]
    exact kept held
  · rw [Kernel.adjust_of_ne _ here]
    exact Inode.Keeps.refl _

end Counting

/-! ## Forgetting addresses -/

/-- The volume has lost some addresses. -/
structure Volume.Sheds (v w : Volume) : Prop where
  heads : forall i, w.inode i = { v.inode i with addrs := (w.inode i).addrs }
  addrs : forall i j, j ≤ NDIRECT -> (w.inode i).addrs j ≠ 0 ->
    (v.inode i).addrs j = (w.inode i).addrs j
  blocks : w.block = v.block

section Shedding

variable {sb : Superblock} {tidy : Prop} {ends : Nat} {v w : Volume} {bits : Nat -> Bool}
  {d : Device BSIZE Kernel} {i : Nat}

namespace Volume.Sheds

theorem slot (sheds : v.Sheds w) (s : Nat × Nat) : w.slot s = v.slot s ∨ w.slot s = 0 := by
  rcases s with ⟨i, j⟩
  by_cases direct : j ≤ NDIRECT
  · rw [slot_direct direct, slot_direct direct]
    by_cases none_ : (w.inode i).addrs j = 0
    · exact Or.inr none_
    · exact Or.inl (sheds.addrs i j direct none_).symm
  · have entry : j = NDIRECT + 1 + (j - (NDIRECT + 1)) := by omega
    rw [entry]
    by_cases none_ : (w.inode i).addrs NDIRECT = 0
    · exact Or.inr (slot_entry_empty none_ _)
    · have same := sheds.addrs i NDIRECT (Nat.le_refl _) none_
      rw [slot_entry none_, slot_entry (by rw [same]; exact none_), sheds.blocks, same]
      exact Or.inl rfl

theorem stored (sheds : v.Sheds w) {s : Nat × Nat} (left : w.slot s ≠ 0) : w.slot s = v.slot s :=
  (sheds.slot s).resolve_right left

theorem type (sheds : v.Sheds w) (i : Nat) : (w.inode i).type = (v.inode i).type := by
  rw [sheds.heads]

theorem size (sheds : v.Sheds w) (i : Nat) :
    (w.inode i).logical_size = (v.inode i).logical_size := by
  rw [sheds.heads]

theorem content (sheds : v.Sheds w) (i bn : Nat) :
    w.content i bn = v.content i bn ∨ w.content i bn = Bytes.fill 0 := by
  rcases sheds.slot (i, place bn) with same | none_
  · exact Or.inl (content_congr same (fun _ => by rw [sheds.blocks]))
  · exact Or.inr (if_pos none_)

theorem owns (sheds : v.Sheds w) (owns : v.Owns sb ends bits) (fits : forall i, (w.inode i).Fits) :
    w.Owns sb ends bits := by
  refine ⟨⟨owns.ledger.reserved, fun s left => ?_, fun s t left same => ?_, fun _ _ _ _ => rfl⟩,
    fits⟩
  · have kept := sheds.stored left
    rw [kept] at left ⊢
    exact owns.ledger.stored s left
  · have kept := sheds.stored left
    have keptToo := sheds.stored (s := t) (by rw [← same]; exact left)
    refine owns.ledger.once s t (by rw [← kept]; exact left) ?_
    rw [← kept, ← keptToo, same]

theorem loose (sheds : v.Sheds w) {s : Nat} (loose : v.Loose sb bits s) : w.Loose sb bits s := by
  refine loose.mono loose.2.1 (fun t same => ⟨?_, sheds.type t.1⟩)
  have above := loose.1
  have large := dataStart_large sb
  rw [← sheds.stored (by rw [same]; omega), same]

/-- A block that is lost was a row of zeros at least since then. -/
theorem listed (sheds : v.Sheds w) (root : 0 < sb.ninodes) (listed : Listed sb v i) :
    Listed sb w i := by
  refine ⟨fun x behind => ?_, fun k => ?_⟩
  · rw [sheds.size] at behind
    unfold Volume.byte
    rcases sheds.content i (x / BSIZE) with same | zeros
    · rw [same]
      exact listed.zeros x behind
    · rw [zeros, Bytes.get_fill 0 (Nat.mod_lt x (by decide))]
  · have now := inumOf_blocks (b := w.byte i) (fun x => rfl) k
    have before := inumOf_blocks (b := v.byte i) (fun x => rfl) k
    rw [now]
    rcases sheds.content i (k / 32) with same | zeros
    · rw [same, ← before]
      exact listed.named k
    · rw [zeros, Bytes.number_fill_zero]
      exact root

theorem proper (sheds : v.Sheds w) (root : 0 < sb.ninodes) (proper : Proper sb v) :
    Proper sb w := by
  refine ⟨fun i directory => ?_, fun i mirrored => ?_⟩
  · rw [sheds.type] at directory
    exact sheds.listed root (proper.listed i directory)
  · rw [sheds.type] at mirrored
    rw [sheds.size]
    exact proper.limits i mirrored

end Volume.Sheds

theorem Superblock.inode_fits (disk : Nat -> Block) (i : Nat) :
    ((sb.volume disk).inode i).Fits := by
  show (if i < sb.ninodes then _ else _ : Dinode).Fits
  split
  · exact getDinode_fits _ _
  · exact ⟨by decide, by decide, by decide, by decide, by decide, fun _ => Nat.two_pow_pos 32,
      fun _ _ => rfl⟩

/-- The cache of inodes has other entries, but those that have been read are as before. -/
theorem Settled.recache {k : Kernel} (settled : Settled sb tidy v d)
    (cached : forall ip, (k.icache ip).Active -> v.inode (k.icache ip).inum = (k.icache ip).copy)
    (apart : k.Apart)
    (numbers : forall ip, 0 < (k.icache ip).ref -> (k.icache ip).inum < sb.ninodes) :
    Exists fun w => Settled sb tidy w (d.withMem k) := by
  classical
  have owning := settled.secure.owning
  generalize isVolume :
    (⟨fun i => if Exists fun ip => (k.icache ip).Active ∧ (k.icache ip).inum = i then v.inode i
    else (sb.volume d.disk).inode i, v.block⟩ : Volume) = w
  have inode : forall i, w.inode i = v.inode i ∨ w.inode i = (sb.volume d.disk).inode i := by
    intro i
    rw [← isVolume]
    exact ite_eq_or_eq _ _ _
  have block : w.block = v.block := by
    rw [← isVolume]
  have sheds : v.Sheds w := by
    refine ⟨fun i => ?_, fun i j below left => ?_, block⟩
    · rcases inode i with same | same
      · rw [same]
      · rw [same]
        exact settled.lags.heads i
    · rcases inode i with same | same
      · rw [same]
      · rw [same] at left ⊢
        exact settled.lags.addrs i j below left
  have live : Live sb (d.withMem k) w := by
    refine ⟨fun ip active => ?_, fun i none_ => ?_, block.trans owning.live.blocks⟩
    · refine Eq.trans ?_ (cached ip active)
      rw [← isVolume]
      exact if_pos ⟨ip, active, rfl⟩
    · rw [← isVolume]
      exact if_neg (fun ⟨ip, active, same⟩ => none_ ip active same)
  have fits : forall i, (w.inode i).Fits := by
    intro i
    rcases inode i with same | same
    · rw [same]
      exact owning.owns.fits i
    · rw [same]
      exact Superblock.inode_fits d.disk i
  have root := Nat.lt_of_le_of_lt (Nat.zero_le _) settled.root
  refine ⟨w, ⟨⟨owning.isSuper, owning.scans, live, apart, numbers, sheds.owns owning.owns fits,
    (owning.lends.withMem k).weaken (fun s loose => sheds.loose loose)⟩, ?_, settled.secure.roomy,
    fun s inside => absurd inside (Finset.notMem_empty s)⟩, ⟨fun i => ?_, fun i j below left => ?_⟩,
    sheds.proper root settled.proper, settled.root, fun isTidy => ?_⟩
  · unfold Volume.Blank
    rw [block]
    exact settled.secure.blank
  · rw [sheds.heads i]
    exact settled.lags.heads i
  · rcases inode i with same | same
    · rw [same]
      exact settled.lags.addrs i j below left
    · rw [same]
      rfl
  · have neat := settled.neat isTidy
    have same : w = v := Volume.ext (funext
        (fun i => (inode i).elim id (fun other => other.trans (congrFun neat.saved i)))) block
    rw [same]
    exact ⟨neat.saved, neat.whole, neat.complete, neat.unused⟩

end Shedding

/-! ## Taking and dropping references -/

section Referring

variable {limits : Limits BSIZE} {sb : Superblock} {tidy : Prop} {escape : Stop FsPanic -> Prop}
  {refs after : Nat -> Nat} {locked lockedToo : Finset Nat} {k : Kernel} {d e : Device BSIZE Kernel}
  {ip inum : Nat}

open BlockProgram

/-- Only the entry `ip` changes. -/
theorem Counted.adjust {change : Inode -> Inode} (counted : Counted refs locked k)
    (others : forall jp, jp ≠ ip -> after jp = refs jp)
    (count : (change (k.icache ip)).ref = after ip) (place : 0 < after ip -> ip < NINODE)
    (lock : ip ∈ lockedToo ↔ 0 < after ip ∧ (change (k.icache ip)).busy = true)
    (locks : forall jp, jp ≠ ip -> (jp ∈ lockedToo ↔ jp ∈ locked))
    (typed : (change (k.icache ip)).Active -> (change (k.icache ip)).copy.type ≠ 0) :
    Counted after lockedToo (k.adjust ip change) := by
  refine ⟨fun jp => ?_, fun jp referred => ?_, fun jp => ?_, fun jp active => ?_⟩
  · by_cases here : jp = ip
    · rw [here, Kernel.adjust_self, count]
    · rw [Kernel.adjust_of_ne _ here, others jp here, counted.counts]
  · by_cases here : jp = ip
    · rw [here] at referred ⊢
      exact place referred
    · rw [others jp here] at referred
      exact counted.places jp referred
  · by_cases here : jp = ip
    · rw [here, Kernel.adjust_self]
      exact lock
    · rw [Kernel.adjust_of_ne _ here, locks jp here, others jp here]
      exact counted.locks jp
  · by_cases here : jp = ip
    · rw [here, Kernel.adjust_self] at active ⊢
      exact typed active
    · rw [Kernel.adjust_of_ne _ here] at active ⊢
      exact counted.typed jp active

namespace InOrder

theorem referred (order : InOrder sb tidy refs locked d) :
    0 < (d.mem.icache ip).ref ↔ 0 < refs ip := by
  rw [order.counted.counts]

theorem number (order : InOrder sb tidy refs locked d) (held : 0 < refs ip) :
    (d.mem.icache ip).inum < sb.ninodes := by
  rcases order.settled with ⟨v, settled⟩
  exact settled.secure.owning.numbers ip (order.referred.mpr held)

theorem alone (order : InOrder sb tidy refs locked d) (held : 0 < refs ip) {jp : Nat}
    (other : jp ≠ ip) (heldToo : 0 < refs jp) :
    (d.mem.icache jp).inum ≠ (d.mem.icache ip).inum := by
  rcases order.settled with ⟨v, settled⟩
  exact fun same => other
    (settled.secure.owning.apart jp ip (order.referred.mpr heldToo) (order.referred.mpr held) same)

theorem isSuper (order : InOrder sb tidy refs locked d) : superblock (d.disk 1) = sb := by
  rcases order.settled with ⟨v, settled⟩
  exact settled.secure.owning.isSuper

theorem root (order : InOrder sb tidy refs locked d) : ROOTINO < sb.ninodes := by
  rcases order.settled with ⟨v, settled⟩
  exact settled.root

theorem idle (order : InOrder sb tidy refs locked d) : d.busy = 0 := by
  rcases order.settled with ⟨v, settled⟩
  exact settled.secure.owning.lends.count

theorem resting (order : InOrder sb tidy refs locked d) {s : Nat} (low : s < sb.dataStart) :
    d.Resting s := by
  rcases order.settled with ⟨v, settled⟩
  exact settled.secure.owning.resting_low low

/-- An entry of the cache changes. -/
theorem adjust (order : InOrder sb tidy refs locked d) (change : Inode -> Inode)
    (alone : 0 < (change (d.mem.icache ip)).ref -> forall jp, jp ≠ ip -> 0 < refs jp ->
      (d.mem.icache jp).inum ≠ (change (d.mem.icache ip)).inum)
    (numbered : 0 < (change (d.mem.icache ip)).ref -> (change (d.mem.icache ip)).inum < sb.ninodes)
    (copied : (change (d.mem.icache ip)).Active ->
      (d.mem.icache ip).Active ∧ (change (d.mem.icache ip)).inum = (d.mem.icache ip).inum ∧
        (change (d.mem.icache ip)).copy = (d.mem.icache ip).copy ∨
      ¬ (d.mem.icache ip).Active ∧
        (change (d.mem.icache ip)).copy = (sb.volume d.disk).inode (change (d.mem.icache ip)).inum)
    (counted : Counted after lockedToo (d.mem.adjust ip change)) :
    InOrder sb tidy after lockedToo (d.withMem (d.mem.adjust ip change)) := by
  rcases order.settled with ⟨v, settled⟩
  have owning := settled.secure.owning
  refine ⟨settled.recache (fun jp active => ?_) (fun i j referred referredToo same => ?_)
    (fun jp referred => ?_), counted⟩
  · by_cases here : jp = ip
    · rw [here, Kernel.adjust_self] at active ⊢
      rcases copied active with ⟨before, inum, copy⟩ | ⟨before, copy⟩
      · rw [inum, copy]
        exact owning.live.cached ip before
      · rw [copy]
        refine owning.live.others _ (fun other activeToo same => ?_)
        by_cases there : other = ip
        · rw [there] at activeToo
          exact before activeToo
        · exact alone active.1 other there (order.referred.mp activeToo.1) same
    · rw [Kernel.adjust_of_ne _ here] at active ⊢
      exact owning.live.cached jp active
  · by_cases here : i = ip
    · by_cases there : j = ip
      · rw [here, there]
      · rw [here, Kernel.adjust_self] at referred same
        rw [Kernel.adjust_of_ne _ there] at referredToo same
        exact absurd same.symm (alone referred j there (order.referred.mp referredToo))
    · rw [Kernel.adjust_of_ne _ here] at referred same
      by_cases there : j = ip
      · rw [there, Kernel.adjust_self] at referredToo same
        exact absurd same (alone referredToo i here (order.referred.mp referred))
      · rw [Kernel.adjust_of_ne _ there] at referredToo same
        exact owning.apart i j referred referredToo same
  · by_cases here : jp = ip
    · rw [here, Kernel.adjust_self] at referred ⊢
      exact numbered referred
    · rw [Kernel.adjust_of_ne _ here] at referred ⊢
      exact owning.numbers jp referred

/-- The entry of an inode that is referred to changes, but neither the inode nor its copy. -/
theorem same (order : InOrder sb tidy refs locked d) (change : Inode -> Inode) (after : Nat -> Nat)
    (lockedToo : Finset Nat) (held : 0 < refs ip)
    (inum : (change (d.mem.icache ip)).inum = (d.mem.icache ip).inum)
    (valid : (change (d.mem.icache ip)).valid = (d.mem.icache ip).valid)
    (copy : (change (d.mem.icache ip)).copy = (d.mem.icache ip).copy)
    (count : (change (d.mem.icache ip)).ref = after ip)
    (others : forall jp, jp ≠ ip -> after jp = refs jp)
    (lock : ip ∈ lockedToo ↔ 0 < after ip ∧ (change (d.mem.icache ip)).busy = true)
    (locks : forall jp, jp ≠ ip -> (jp ∈ lockedToo ↔ jp ∈ locked)) :
    InOrder sb tidy after lockedToo (d.withMem (d.mem.adjust ip change)) ∧
    forall hold, Keeps hold d.mem (d.mem.adjust ip change) := by
  have active : (change (d.mem.icache ip)).Active -> (d.mem.icache ip).Active := fun active =>
    ⟨order.referred.mpr held, valid.symm.trans active.2⟩
  refine ⟨order.adjust change (fun _ jp other heldToo => ?_) (fun _ => ?_)
    (fun now => Or.inl ⟨active now, inum, copy⟩) (order.counted.adjust others count
    (fun _ => order.counted.places ip held) lock locks (fun now => ?_)),
    fun hold => Keeps.adjust (fun _ => ⟨inum, fun before => ⟨valid.trans before, by rw [copy]⟩⟩)⟩
  · rw [inum]
    exact order.alone held other heldToo
  · rw [inum]
    exact order.number held
  · rw [copy]
    exact order.counted.typed ip (active now)

end InOrder

/-- Every panic but the one of `bfree` may stop the kernel. -/
def Tolerates (escape : Stop FsPanic -> Prop) : Prop :=
  forall reason, reason ≠ .freeingFreeBlock -> escape (.panic reason)

/-- What is known of the kernel afterwards, if the entries that `hold` refers to matter. -/
structure Stays (sb : Superblock) (tidy : Prop) (refs hold : Nat -> Nat) (locked : Finset Nat)
    (d e : Device BSIZE Kernel) : Prop where
  order : InOrder sb tidy refs locked e
  keeps : Keeps hold d.mem e.mem

/-- The inode has been locked, and it is in memory. -/
structure Locks (sb : Superblock) (tidy : Prop) (refs : Nat -> Nat) (locked : Finset Nat) (ip : Nat)
    (d e : Device BSIZE Kernel) : Prop where
  stays : Stays sb tidy refs refs (insert ip locked) d e
  active : (e.mem.icache ip).Active
  out : ip ∉ locked
  kept : (d.mem.icache ip).valid = true -> (e.mem.icache ip).copy = (d.mem.icache ip).copy
  read : (d.mem.icache ip).valid = false ->
    (e.mem.icache ip).copy = (sb.volume d.disk).inode (d.mem.icache ip).inum

theorem Kernel.find_alone (found : k.find inum = some ip) (idle : (k.icache ip).ref = 0) {jp : Nat}
    (below : jp < NINODE) (referred : 0 < (k.icache jp).ref) : (k.icache jp).inum ≠ inum := by
  intro same
  unfold Kernel.find at found
  split at found
  · rename_i _ other cached
    have holds := List.find?_some cached
    have referredNow := (of_decide_eq_true holds).1
    rw [Option.some.inj found] at referredNow
    omega
  · rename_i none_
    exact List.find?_eq_none.mp none_ jp (List.mem_range.mpr below)
      (decide_eq_true ⟨referred, same⟩)

namespace InOrder

/-- `iget` refers to the inode. -/
theorem iget_wp (order : InOrder sb tidy refs locked d)
    (tolerates : Tolerates escape) (below : inum < sb.ninodes) :
    (iget inum).wp limits (fun ip e => Stays sb tidy (more refs ip) refs locked d e ∧
      (e.mem.icache ip).inum = inum ∧ e.disk = d.disk ∧ ((e.mem.icache ip).valid = true ->
      (d.mem.icache ip).Active ∧ (d.mem.icache ip).inum = inum)) escape d := by
  refine wp_mono (iget_reads (fun _ => tolerates _ (by decide))).wp ?_ (fun _ stopped => stopped)
  rintro ip e ⟨found, rfl⟩
  have others : forall jp, jp ≠ ip -> more refs ip jp = refs jp := fun jp other => more_of_ne other
  have inum_ : (((d.mem.adjust ip (Inode.gotten inum)).icache ip)) =
      (d.mem.icache ip).gotten inum := Kernel.adjust_self _
  rcases (Kernel.find_spec found).2 with ⟨referred, cached⟩ | idle
  · have held := order.referred.mp referred
    have gotten : (d.mem.icache ip).gotten inum =
        { d.mem.icache ip with ref := (d.mem.icache ip).ref + 1 } := if_pos referred
    have lock := order.counted.locks ip
    have kept := order.same (Inode.gotten inum) (more refs ip) locked held
      (by rw [gotten]) (by rw [gotten]) (by rw [gotten])
      (by rw [gotten, more_self, ← order.counted.counts]) others
      (by rw [gotten, lock, more_self]; exact and_congr_left' (by omega)) (fun _ _ => Iff.rfl)
    refine ⟨⟨kept.1, kept.2 refs⟩, ?_, rfl, fun valid => ⟨⟨referred, ?_⟩, cached⟩⟩
    · show ((d.mem.adjust ip (Inode.gotten inum)).icache ip).inum = inum
      rw [inum_, gotten]
      exact cached
    · have validNow : ((d.mem.icache ip).gotten inum).valid = true := inum_ ▸ valid
      rw [gotten] at validNow
      exact validNow
  · have none_ : refs ip = 0 := by rw [← order.counted.counts, idle]
    have gotten : (d.mem.icache ip).gotten inum =
        { d.mem.icache ip with inum := inum, ref := 1, busy := false, valid := false } :=
      if_neg (by omega)
    have unlocked : ip ∉ locked :=
      fun inside => absurd ((order.counted.locks ip).mp inside).1 (by omega)
    have inactive : ¬ ((d.mem.icache ip).gotten inum).Active := by
      rw [gotten]
      exact fun active => nomatch active.2
    refine ⟨⟨order.adjust (Inode.gotten inum) (fun _ jp _ heldToo => ?_) (fun _ => ?_)
      (fun active => absurd active inactive) (order.counted.adjust others ?_ (fun _ =>
      (Kernel.find_spec found).1) ?_ (fun _ _ => Iff.rfl) (fun active => absurd active inactive)),
      Keeps.adjust (fun held => ?_)⟩, ?_, rfl, fun valid => ?_⟩
    · rw [gotten]
      exact Kernel.find_alone found idle (order.counted.places jp heldToo)
        (order.referred.mpr heldToo)
    · rw [gotten]
      exact below
    · rw [gotten, more_self, none_]
    · rw [gotten]
      exact iff_of_false unlocked (fun both => nomatch both.2)
    · omega
    · show ((d.mem.adjust ip (Inode.gotten inum)).icache ip).inum = inum
      rw [inum_, gotten]
    · have validNow : ((d.mem.icache ip).gotten inum).valid = true := inum_ ▸ valid
      rw [gotten] at validNow
      exact nomatch validNow

/-- `idup` refers to an inode once more. -/
theorem idup_wp (order : InOrder sb tidy refs locked d) (held : 0 < refs ip) :
    (idup ip).wp limits (fun jp e => jp = ip ∧ Stays sb tidy (more refs ip) refs locked d e)
      escape d := by
  refine wp_mono idup_reads.wp ?_ (fun _ stopped => stopped)
  rintro jp e ⟨same, rfl⟩
  have kept := order.same (fun e => { e with ref := e.ref + 1 }) (more refs ip) locked held rfl
      rfl rfl (by rw [more_self, ← order.counted.counts]) (fun jp other => more_of_ne other)
      (by rw [order.counted.locks ip, more_self]; exact and_congr_left' (by omega))
      (fun _ _ => Iff.rfl)
  exact ⟨same, kept.1, kept.2 refs⟩

/-- `iunlock` unlocks an inode. -/
theorem iunlock_wp (order : InOrder sb tidy refs locked d) (tolerates : Tolerates escape) :
    (iunlock ip).wp limits (fun _ e => Stays sb tidy refs refs (locked.erase ip) d e) escape d := by
  by_cases inside : ip ∈ locked
  · rcases (order.counted.locks ip).mp inside with ⟨held, busy⟩
    refine (iunlock_reads busy (order.referred.mpr held) ?_).wp
    have kept := order.same Inode.unlocked refs (locked.erase ip) held rfl rfl rfl
        (order.counted.counts ip) (fun _ _ => rfl)
        (iff_of_false (Finset.notMem_erase ip locked) (fun both => nomatch both.2))
        (fun jp other => by rw [Finset.mem_erase]; exact and_iff_right other)
    exact ⟨kept.1, kept.2 refs⟩
  · have free : (!(d.mem.icache ip).busy || decide ((d.mem.icache ip).ref < 1)) = true := by
      by_cases held : 0 < refs ip
      · have idle : (d.mem.icache ip).busy = false := by
          by_contra busy
          exact inside ((order.counted.locks ip).mpr ⟨held, Bool.not_eq_false _ ▸ busy⟩)
        rw [idle]
        rfl
      · rw [decide_eq_true (by rw [order.counted.counts]; omega), Bool.or_true]
    unfold iunlock
    refine wp_bind.mpr (wp_getMem ?_)
    rw [free]
    exact tolerates _ (by decide)

/-- `ilock` locks an inode and reads it. -/
theorem ilock_wp (order : InOrder sb tidy refs locked d) (tolerates : Tolerates escape)
    (space : 0 < limits.capacity) (held : 0 < refs ip) :
    (ilock ip).wp limits (fun _ e => Locks sb tidy refs locked ip d e) escape d := by
  have referred := order.referred.mpr held
  have numbered := order.number held
  cases busy : (d.mem.icache ip).busy with
  | true =>
      unfold ilock
      refine wp_bind.mpr (wp_getMem ?_)
      rw [if_neg (by omega), busy, if_pos rfl]
      exact tolerates _ (by decide)
  | false =>
      have roomy : d.busy < limits.capacity := by
        rw [order.idle]
        exact space
      have disk : diskInode d.disk (d.mem.icache ip).inum = (sb.volume d.disk).inode
          (d.mem.icache ip).inum :=
        (Superblock.inode_below numbered).symm
      refine (ilock_resting (order.resting (Superblock.IBLOCK_lt_dataStart numbered)) roomy referred
        busy (fun _ _ => tolerates _ (by decide)) (fun typed => ?_)).wp
      have copy : (d.mem.icache ip).valid = true ->
          ((d.mem.icache ip).locked d.disk).copy = (d.mem.icache ip).copy :=
        fun valid => if_pos valid
      have read : (d.mem.icache ip).valid = false ->
          ((d.mem.icache ip).locked d.disk).copy = diskInode d.disk (d.mem.icache ip).inum :=
        fun unread => if_neg (by rw [unread]; exact Bool.false_ne_true)
      have lock : ip ∈ insert ip locked ↔ 0 < refs ip ∧
          ((d.mem.icache ip).locked d.disk).busy = true :=
        iff_of_true (Finset.mem_insert_self ip locked) ⟨held, rfl⟩
      have locks : forall jp, jp ≠ ip -> (jp ∈ insert ip locked ↔ jp ∈ locked) := fun jp other => by
        rw [Finset.mem_insert]
        exact or_iff_right other
      refine ⟨⟨order.adjust (Inode.locked d.disk) (fun _ jp other heldToo => order.alone held
        other heldToo) (fun _ => numbered) (fun _ => ?_) (order.counted.adjust (fun _ _ => rfl)
        (order.counted.counts ip) (order.counted.places ip) lock locks (fun _ => ?_)),
        Keeps.adjust (fun _ => ⟨rfl, fun valid => ⟨rfl, by rw [copy valid]⟩⟩)⟩, ?_,
        fun inside => ?_, fun valid => ?_, fun unread => ?_⟩
      · cases valid : (d.mem.icache ip).valid with
        | true => exact Or.inl ⟨⟨referred, valid⟩, rfl, copy valid⟩
        | false =>
            refine Or.inr ⟨fun active => ?_, (read valid).trans disk⟩
            exact Bool.false_ne_true (valid.symm.trans active.2)
      · cases valid : (d.mem.icache ip).valid with
        | true =>
            rw [copy valid]
            exact order.counted.typed ip ⟨referred, valid⟩
        | false =>
            rw [read valid]
            exact typed.resolve_left (by rw [valid]; exact Bool.false_ne_true)
      · show ((d.mem.adjust ip (Inode.locked d.disk)).icache ip).Active
        rw [Kernel.adjust_self]
        exact ⟨referred, rfl⟩
      · rw [((order.counted.locks ip).mp inside).2] at busy
        exact nomatch busy
      · show ((d.mem.adjust ip (Inode.locked d.disk)).icache ip).copy = _
        rw [Kernel.adjust_self, copy valid]
      · show ((d.mem.adjust ip (Inode.locked d.disk)).icache ip).copy = _
        rw [Kernel.adjust_self, read unread, disk]

end InOrder

end Referring

end TripleFs
end OsProjects
