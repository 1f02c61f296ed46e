import OsProjects.TripleFs.ImageReading
import OsProjects.TripleFs.Growth

namespace OsProjects
namespace TripleFs

open Machine

/-!
# References to inodes

`iget`, `idup` and `iput` count the references to an entry of the inode cache, `ilock` and
`iunlock` hold it, and `ilock` reads the inode when the entry is not valid yet.
-/

/-- The inode on the disk. -/
def diskInode (disk : Nat -> Block) (inum : Nat) : Dinode :=
  getDinode (disk (IBLOCK inum)) (inum % IPB)

/-- The entry of the cache after `iget`. -/
def Inode.gotten (inum : Nat) (e : Inode) : Inode :=
  if 0 < e.ref then
    { e with ref := e.ref + 1 }
  else { e with inum := inum, ref := 1, busy := false, valid := false }

/-- The entry after `iput`, if the inode is not discarded. -/
def Inode.put (e : Inode) : Inode := { e with ref := e.ref - 1 }

/-- The entry after `ilock`. -/
def Inode.locked (disk : Nat -> Block) (e : Inode) : Inode :=
  { e with busy := true, valid := true, copy := if e.valid then e.copy else diskInode disk e.inum }

/-- The entry after `iunlock`. -/
def Inode.unlocked (e : Inode) : Inode := { e with busy := false }

/-- An entry of the cache that nobody refers to. -/
def SlotFree (k : Kernel) : Prop := Exists fun ip => ip < NINODE ∧ (k.icache ip).ref = 0

section Cache

variable {k : Kernel} {inum ip : Nat}

theorem Kernel.find_spec (found : k.find inum = some ip) :
    ip < NINODE ∧ (0 < (k.icache ip).ref ∧ (k.icache ip).inum = inum ∨ (k.icache ip).ref = 0) := by
  unfold Kernel.find at found
  split at found
  · rename_i _ other cached
    have same := Option.some.inj found
    rw [same] at cached
    have holds := List.find?_some cached
    exact ⟨List.mem_range.mp (List.mem_of_find?_eq_some cached), Or.inl (of_decide_eq_true holds)⟩
  · have holds := List.find?_some found
    exact ⟨List.mem_range.mp (List.mem_of_find?_eq_some found), Or.inr (of_decide_eq_true holds)⟩

theorem SlotFree.find (free : SlotFree k) (inum : Nat) : k.find inum ≠ none := by
  rcases free with ⟨ip, below, idle⟩
  unfold Kernel.find
  split
  · exact nofun
  · intro none_
    exact List.find?_eq_none.mp none_ ip (List.mem_range.mpr below) (decide_eq_true idle)

/-- `iget` and then `iput` change at most an entry that nobody refers to. -/
theorem SlotFree.adjust {change : Inode -> Inode} (free : SlotFree k)
    (keeps : (k.icache ip).ref = 0 -> (change (k.icache ip)).ref = 0) :
    SlotFree (k.adjust ip change) := by
  rcases free with ⟨other, below, idle⟩
  refine ⟨other, below, ?_⟩
  by_cases here : other = ip
  · rw [here] at idle ⊢
    rw [Kernel.adjust_self]
    exact keeps idle
  · rw [Kernel.adjust_of_ne _ here]
    exact idle

end Cache

/-- The entry after `iget` and `iput`. -/
theorem Inode.put_gotten {inum : Nat} {e : Inode} (held : 0 < e.ref) : (e.gotten inum).put = e := by
  unfold Inode.gotten
  rw [if_pos held]
  rfl

theorem Inode.ref_put_gotten {inum : Nat} {e : Inode} (idle : e.ref = 0) :
    (e.gotten inum).put.ref = 0 := by
  unfold Inode.gotten
  rw [if_neg (by omega)]
  rfl

/-- A reference that `iget` has given is not the last one to a valid entry. -/
theorem Inode.shared_gotten {inum : Nat} (e : Inode) :
    ¬ ((e.gotten inum).ref = 1 ∧ (e.gotten inum).valid = true) := by
  unfold Inode.gotten
  split
  · rintro ⟨one, _⟩
    have two : e.ref + 1 = 1 := one
    omega
  · exact fun both => nomatch both.2

section References

variable {limits : Limits BSIZE} {escape : Stop FsPanic -> Prop} {d : Device BSIZE Kernel}
  {ip inum : Nat} {post : Unit -> Device BSIZE Kernel -> Prop}

open BlockProgram

/-- Only what a change does to the entry matters. -/
theorem Kernel.adjust_congr {k : Kernel} {change other : Inode -> Inode}
    (same : change (k.icache ip) = other (k.icache ip)) :
    k.adjust ip change = k.adjust ip other := by
  simp only [Kernel.adjust, same]

theorem iget_reads (full : d.mem.find inum = none -> escape (.panic .igetNoInodes)) :
    (iget inum).Reads limits (fun ip e => d.mem.find inum = some ip ∧
      e = d.withMem (d.mem.adjust ip (Inode.gotten inum))) escape d := by
  unfold iget
  refine reads_bind (reads_getMem ?_)
  cases found : d.mem.find inum with
  | none => exact reads_stop (full found)
  | some ip => exact reads_bind (reads_putMem (reads_pure ⟨rfl, rfl⟩))

theorem idup_reads : (idup ip).Reads limits (fun result e => result = ip ∧
    e = d.withMem (d.mem.adjust ip (fun e => { e with ref := e.ref + 1 }))) escape d :=
  reads_bind (reads_putMem (reads_pure ⟨rfl, rfl⟩))

/-- `iput`, if the inode has links or is referred to elsewhere. -/
theorem iput_reads (stays : ¬ ((d.mem.icache ip).ref = 1 ∧ (d.mem.icache ip).valid = true ∧
      (d.mem.icache ip).copy.nlink = 0)) (holds : post () (d.withMem (d.mem.adjust ip Inode.put))) :
    (iput ip).Reads limits post escape d := by
  unfold iput
  refine reads_bind (reads_getMem ?_)
  rw [if_neg stays]
  exact reads_putMem holds

/-- In particular after another `iget`. -/
theorem iput_wp (shared : ¬ ((d.mem.icache ip).ref = 1 ∧ (d.mem.icache ip).valid = true))
    (holds : post () (d.withMem (d.mem.adjust ip Inode.put))) : (iput ip).wp limits post escape d :=
  (iput_reads (fun all => shared ⟨all.1, all.2.1⟩) holds).wp

theorem iunlock_reads (locked : (d.mem.icache ip).busy = true)
    (referred : 0 < (d.mem.icache ip).ref)
    (holds : post () (d.withMem (d.mem.adjust ip Inode.unlocked))) :
    (iunlock ip).Reads limits post escape d := by
  unfold iunlock
  refine reads_bind (reads_getMem ?_)
  have busy : (!(d.mem.icache ip).busy || decide ((d.mem.icache ip).ref < 1)) = false := by
    rw [locked, decide_eq_false (by omega)]
    rfl
  rw [busy]
  exact reads_putMem holds

/-- `iunlockput`, if the inode has links or is referred to elsewhere; `k` is the memory in
between. -/
theorem iunlockput_reads {k : Kernel} (locked : (d.mem.icache ip).busy = true)
    (referred : 0 < (d.mem.icache ip).ref) (between : d.mem.adjust ip Inode.unlocked = k)
    (stays : ¬ ((k.icache ip).ref = 1 ∧ (k.icache ip).valid = true ∧ (k.icache ip).copy.nlink = 0))
    (holds : post () (d.withMem (k.adjust ip Inode.put))) :
    (iunlockput ip).Reads limits post escape d := by
  unfold iunlockput
  refine reads_bind (iunlock_reads locked referred ?_)
  rw [between]
  exact iput_reads stays holds

theorem ilock_resting (resting : d.Resting (IBLOCK (d.mem.icache ip).inum))
    (roomy : d.busy < limits.capacity) (referred : 0 < (d.mem.icache ip).ref)
    (free : (d.mem.icache ip).busy = false)
    (noType : (d.mem.icache ip).valid = false ->
      (diskInode d.disk (d.mem.icache ip).inum).type = 0 -> escape (.panic .ilockNoType))
    (holds : (d.mem.icache ip).valid = true ∨ (diskInode d.disk (d.mem.icache ip).inum).type ≠ 0 ->
      post () (d.withMem (d.mem.adjust ip (Inode.locked d.disk)))) :
    (ilock ip).Reads limits post escape d := by
  unfold ilock
  refine reads_bind (reads_getMem ?_)
  rw [if_neg (by omega), free, if_neg Bool.false_ne_true]
  refine reads_bind (reads_putMem ?_)
  cases valid : (d.mem.icache ip).valid with
  | true =>
      rw [if_pos rfl]
      have same := @Kernel.adjust_congr ip d.mem (fun e => { e with busy := true })
          (Inode.locked d.disk) (by
        unfold Inode.locked
        rw [valid, if_pos rfl])
      rw [same]
      exact reads_pure (holds (Or.inl valid))
  | false =>
      rw [if_neg Bool.false_ne_true]
      generalize isFirst : d.mem.adjust ip (fun e => { e with busy := true }) = first
      have rests : forall mem, (d.withMem mem).Resting (IBLOCK (d.mem.icache ip).inum) :=
        fun _ => ⟨resting.idle, resting.clean⟩
      refine reads_bind (reads_bread (rests first) roomy ?_)
      refine reads_bind (reads_look Device.held_hold_self ?_)
      refine reads_bind (reads_putMem ?_)
      refine reads_bind (reads_brelse Device.held_hold_self ?_)
      refine reads_bind (reads_putMem ?_)
      have released : forall second, (((d.withMem first).hold (IBLOCK (d.mem.icache ip).inum)
          ((d.withMem first).disk (IBLOCK (d.mem.icache ip).inum))).withMem second).release
          (IBLOCK (d.mem.icache ip).inum) = d.withMem second := fun second =>
        Device.release_hold (rests second)
      have last : (first.adjust ip (fun e =>
          { e with
            copy := getDinode (d.disk (IBLOCK (d.mem.icache ip).inum)) (e.inum % IPB) })).adjust ip
          (fun e => { e with valid := true }) = d.mem.adjust ip (Inode.locked d.disk) := by
        rw [← isFirst, Kernel.adjust_adjust, Kernel.adjust_adjust]
        refine Kernel.adjust_congr ?_
        unfold Inode.locked
        rw [valid, if_neg Bool.false_ne_true]
        rfl
      rw [released]
      by_cases none_ : (diskInode d.disk (d.mem.icache ip).inum).type = 0
      · have stops : (getDinode ((d.withMem first).disk (IBLOCK (d.mem.icache ip).inum))
            ((d.mem.icache ip).inum % IPB)).type = 0 := none_
        rw [if_pos stops]
        exact reads_stop (noType valid none_)
      · have goes : ¬ (getDinode ((d.withMem first).disk (IBLOCK (d.mem.icache ip).inum))
            ((d.mem.icache ip).inum % IPB)).type = 0 := none_
        rw [if_neg goes]
        rw [← last] at holds
        exact reads_pure (holds (Or.inr none_))

theorem ilock_reads (quiet : Quiet d) (space : 0 < limits.capacity)
    (referred : 0 < (d.mem.icache ip).ref) (free : (d.mem.icache ip).busy = false)
    (noType : (d.mem.icache ip).valid = false ->
      (diskInode d.disk (d.mem.icache ip).inum).type = 0 -> escape (.panic .ilockNoType))
    (holds : post () (d.withMem (d.mem.adjust ip (Inode.locked d.disk)))) :
    (ilock ip).Reads limits post escape d :=
  ilock_resting (quiet.resting _) (by rw [quiet.idle]; exact space) referred free noType
    (fun _ => holds)

end References

end TripleFs
end OsProjects
