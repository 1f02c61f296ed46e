import OsProjects.UserPrograms.Allocator

namespace OsProjects
namespace UserPrograms

open Machine

/-!
# The calls of `malloc`

`malloc` looks at every free block before it asks the kernel, and what it gets from there is
enough, so it goes around at most twice.  Its block comes out of the ring, or off the end of a
free block, and the other blocks in use keep their contents.
-/

variable {base : Nat} {h : Heap} {nodes live : Finset Nat} {b p q n : Nat}

/-- What `malloc` leaves behind when it returns the block at `b`. -/
structure Allocated (base : Nat) (h after : Heap) (nodes live : Finset Nat) (b n : Nat) : Prop where
  arena : Arena base after nodes (insert b live)
  joined : Joined base after nodes
  fresh : b ∉ live
  size : after.size b = n
  spares : Spares h after live

theorem Spares.sizes {after : Heap} (arena : Arena base h nodes live) (spares : Spares h after live)
    (inUse : b ∈ live) : after.size b = h.size b := by
  have some := arena.packed.positive b (Arena.block inUse) (ne_of_gt (arena.above b inUse))
  have same := spares b 0 inUse some
  rw [Nat.add_zero] at same
  rw [Heap.size, same, Heap.size]

theorem Spares.trans {middle after : Heap} (arena : Arena base h nodes live)
    (first : Spares h middle live) (second : Spares middle after live) : Spares h after live := by
  intro c i inUse inside
  rw [second c i inUse (by rw [first.sizes arena inUse]; exact inside)]
  exact first c i inUse inside

/-- A free block of the right size goes out of the ring. -/
theorem carve_whole (arena : Arena base h nodes live) (joined : Joined base h nodes)
    (inside : q ∈ nodes) (some : 0 < n) (fits : h.size (h.ptr q) = n) :
    Exists fun nodes =>
      Allocated base h { h.put q (h.ptr (h.ptr q)) (h.size q) with freep := q } nodes live
        (h.ptr q) n := by
  have there := arena.ring.closed inside
  have notBase : h.ptr q ≠ base := by
    intro same
    rw [same, arena.bottom] at fits
    omega
  have after := arena.ring.lt_ptr inside notBase
  have fresh : h.ptr q ∉ live := Finset.disjoint_left.mp arena.away there
  have ptr : (({ h.put q (h.ptr (h.ptr q)) (h.size q) with freep := q } : Heap)).ptr =
      Function.update h.ptr q (h.ptr (h.ptr q)) :=
    Heap.ptr_put
  have sizes : (({ h.put q (h.ptr (h.ptr q)) (h.size q) with freep := q } : Heap)).size =
      h.size := by
    show (h.put q (h.ptr (h.ptr q)) (h.size q)).size = _
    rw [Heap.size_put, Function.update_eq_self]
  have same : nodes.erase (h.ptr q) ∪ insert (h.ptr q) live = nodes ∪ live := by
    rw [Finset.union_insert, ← Finset.insert_union, Finset.insert_erase there]
  refine ⟨nodes.erase (h.ptr q), ⟨?_, Finset.mem_erase.mpr ⟨ne_of_lt after, inside⟩, ?_, arena.low,
    fun x inUse => ?_, ?_, ?_, ?_, arena.bounded⟩, fun x y first second real touch => ?_, fresh, ?_,
    fun c i inUse within => ?_⟩
  · rw [ptr]
    exact arena.ring.remove inside notBase
  · rw [sizes]
    exact arena.bottom
  · rcases Finset.mem_insert.mp inUse with rfl | inUse
    · exact lt_of_le_of_ne (arena.ring.least _ there) notBase.symm
    · exact arena.above x inUse
  · rw [sizes, same]
    exact arena.packed
  · rw [Finset.disjoint_insert_right]
    exact ⟨Finset.notMem_erase _ _, arena.away.mono_left (Finset.erase_subset _ _)⟩
  · rw [sizes, same]
    exact arena.total
  · rw [sizes] at touch
    exact joined x y (Finset.mem_of_mem_erase first) (Finset.mem_of_mem_erase second) real touch
  · rw [sizes]
    exact fits
  · refine Heap.cell_put_of_ne (arena.ne_header (Arena.node inside) inUse ?_ within)
    rintro rfl
    exact Finset.disjoint_left.mp arena.away inside inUse

/-- The end of a larger free block becomes the new block. -/
theorem carve_end (arena : Arena base h nodes live) (joined : Joined base h nodes)
    (inside : q ∈ nodes) (there : p ∈ nodes) (some : 0 < n) (fewer : n < h.size p) :
    Exists fun nodes => Allocated base h
      { (h.put p (h.ptr p) (h.size p - n)).put (p + (h.size p - n))
          ((h.put p (h.ptr p) (h.size p - n)).ptr (p + (h.size p - n))) n with
        freep := q } nodes live (p + (h.size p - n)) n := by
  have positive : 0 < h.size p - n := by omega
  have shorter : h.size p - n < h.size p := by omega
  have fresh := arena.packed.fresh_inside (Arena.node there) positive shorter
  have low := arena.ring.least p there
  generalize final : ({ (h.put p (h.ptr p) (h.size p - n)).put (p + (h.size p - n))
      ((h.put p (h.ptr p) (h.size p - n)).ptr (p + (h.size p - n))) n with freep := q } : Heap) =
        after
  have ptr : after.ptr = h.ptr := by
    rw [← final]
    show ((h.put p (h.ptr p) (h.size p - n)).put _ _ n).ptr = _
    rw [Heap.ptr_put, Function.update_eq_self, Heap.ptr_put, Function.update_eq_self]
  have sizes : after.size = Function.update (Function.update h.size p (h.size p - n))
      (p + (h.size p - n)) (h.size p - (h.size p - n)) := by
    rw [← final]
    show ((h.put p (h.ptr p) (h.size p - n)).put _ _ n).size = _
    rw [Heap.size_put, Heap.size_put, Nat.sub_sub_self (Nat.le_of_lt fewer)]
  have brk : after.brk = h.brk := by
    rw [← final]
    rfl
  have same : nodes ∪ insert (p + (h.size p - n)) live = insert (p + (h.size p - n))
      (nodes ∪ live) := Finset.union_insert ..
  have others : forall x, x ∈ nodes -> x ≠ p -> after.size x = h.size x := by
    intro x known different
    rw [sizes, Function.update_of_ne, Function.update_of_ne different]
    rintro rfl
    exact fresh (Arena.node known)
  have own : after.size p = h.size p - n := by
    rw [sizes, Function.update_of_ne (by omega), Function.update_self]
  refine ⟨nodes, ⟨?_, ?_, ?_, ?_, fun x inUse => ?_, ?_, ?_, ?_, ?_⟩,
    fun x y first second real touch => ?_, fun inUse => fresh (Arena.block inUse), ?_,
    fun c i inUse within => ?_⟩
  · rw [ptr]
    exact arena.ring
  · rw [← final]
    exact inside
  · rw [others base arena.ring.base_mem]
    · exact arena.bottom
    · rintro rfl
      rw [arena.bottom] at fewer
      omega
  · rw [brk]
    exact arena.low
  · rcases Finset.mem_insert.mp inUse with rfl | inUse
    · omega
    · exact arena.above x inUse
  · rw [sizes, same, brk]
    exact arena.packed.divide (Arena.node there) positive shorter
  · rw [Finset.disjoint_insert_right]
    exact ⟨fun inUse => fresh (Arena.node inUse), arena.away⟩
  · rw [sizes, same, Packed.sum_divide arena.packed (Arena.node there) positive shorter, ← final]
    exact arena.total
  · rw [brk]
    exact arena.bounded
  · by_cases mine : x = p
    · rw [mine, own] at touch
      exact fresh (touch ▸ Arena.node second)
    · rw [others x first mine] at touch
      exact joined x y first second real touch
  · rw [sizes, Function.update_self]
    omega
  · have different : p ≠ c := by
      rintro rfl
      exact Finset.disjoint_left.mp arena.away there inUse
    rw [← final]
    show ((h.put p (h.ptr p) (h.size p - n)).put _ _ n).cell (c + i) = _
    rw [Heap.cell_put_of_ne (arena.packed.ne_of_inside (Arena.block inUse)
      (Arena.node there) different.symm within shorter),
      Heap.cell_put_of_ne (arena.ne_header (Arena.node there) inUse different within)]

theorem carve_spec (arena : Arena base h nodes live) (joined : Joined base h nodes)
    (inside : q ∈ nodes) (some : 0 < n) (fits : n ≤ h.size (h.ptr q)) :
    Exists fun b => Exists fun nodes =>
      (h.carve n q (h.ptr q)).2 = b + 1 ∧
      Allocated base h (h.carve n q (h.ptr q)).1 nodes live b n := by
  rw [Heap.carve]
  split
  next whole =>
    rcases carve_whole arena joined inside some whole with ⟨nodes, allocated⟩
    exact ⟨_, nodes, rfl, allocated⟩
  next different =>
    rcases carve_end arena joined inside (arena.ring.closed inside)
      some (lt_of_le_of_ne fits (Ne.symm different)) with ⟨nodes, allocated⟩
    exact ⟨_, nodes, rfl, allocated⟩

/-- What `malloc` asks the kernel for. -/
def request (n : Nat) : Nat := if n < 4096 then 4096 else n

/-- What `morecore` leaves behind when the kernel gives memory. -/
structure Grown (base : Nat) (h after : Heap) (nodes live : Finset Nat) (n : Nat) : Prop where
  arena : Arena base after nodes live
  joined : Joined base after nodes
  spares : Spares h after live
  room : Exists fun x => x ∈ nodes ∧ n ≤ after.size x

theorem sbrk_cases (n : Nat) (reply : Option Nat) : h.sbrk n reply = none ∨
    Exists fun hp => h.brk ≤ hp ∧ hp + n ≤ addressLimit ∧
      h.sbrk n reply = some (hp, { h with brk := hp + n, granted := h.granted + n }) := by
  cases reply with
  | none => exact Or.inl rfl
  | some hp =>
      by_cases fits : h.brk ≤ hp ∧ hp + n ≤ addressLimit
      · exact Or.inr ⟨hp, fits.1, fits.2, if_pos fits⟩
      · exact Or.inl (if_neg fits)

/-- The memory from the kernel, as one block in use. -/
def extended (h : Heap) (hp n : Nat) : Heap :=
  { h with
    cell := Function.update h.cell hp { h.cell hp with size := n }
    brk := hp + n
    granted := h.granted + n }

theorem extended_spec (arena : Arena base h nodes live) {hp : Nat} (beyond : h.brk ≤ hp)
    (some : 0 < n) (fits : hp + n ≤ addressLimit) :
    Arena base (extended h hp n) nodes (insert hp live) ∧ hp ∉ live ∧
    Spares h (extended h hp n) live ∧ (extended h hp n).size hp = n ∧
    (extended h hp n).size = Function.update h.size hp n := by
  have ptr : (extended h hp n).ptr = h.ptr := by
    funext x
    by_cases same : x = hp
    · simp only [Heap.ptr, extended, same, Function.update_self]
    · simp only [Heap.ptr, extended, Function.update_of_ne same]
  have sizes : (extended h hp n).size = Function.update h.size hp n := by
    funext x
    by_cases same : x = hp
    · simp only [Heap.size, extended, same, Function.update_self]
    · simp only [Heap.size, extended, Function.update_of_ne same]
  have fresh : hp ∉ nodes ∪ live := by
    intro inside
    by_cases real : hp = base
    · have low := arena.low
      omega
    · have within := arena.packed.within hp inside
      have positive := arena.packed.positive hp inside real
      omega
  have same : nodes ∪ insert hp live = insert hp (nodes ∪ live) := Finset.union_insert ..
  have low := arena.low
  refine ⟨⟨?_, arena.start, ?_, Nat.lt_of_lt_of_le low
    (Nat.le_trans beyond (Nat.le_add_right hp n)), fun x inUse => ?_, ?_, ?_, ?_, fits⟩,
    fun inUse => fresh (Arena.block inUse), fun c i inUse within => ?_, ?_, sizes⟩
  · rw [ptr]
    exact arena.ring
  · rw [sizes, Function.update_of_ne (by omega)]
    exact arena.bottom
  · rcases Finset.mem_insert.mp inUse with rfl | inUse
    · omega
    · exact arena.above x inUse
  · rw [sizes, same]
    exact arena.packed.grow beyond fresh some (Nat.le_refl _)
  · rw [Finset.disjoint_insert_right]
    exact ⟨fun inUse => fresh (Arena.node inUse), arena.away⟩
  · rw [sizes, same, Finset.sum_insert fresh, Function.update_self,
      Finset.sum_update_of_notMem fresh, arena.total]
    exact Nat.add_comm _ _
  · have limit := arena.packed.within c (Arena.block inUse)
    exact Function.update_of_ne (by omega) ..
  · rw [sizes, Function.update_self]

theorem morecore_refused {n : Nat} {reply : Option Nat}
    (refused : h.sbrk (request n) reply = none) : h.morecore n reply = some none := by
  have sbrk : h.sbrk (if n < 4096 then 4096 else n) reply = none := refused
  unfold Heap.morecore
  dsimp only
  rw [sbrk]

theorem morecore_given {n hp : Nat} {reply : Option Nat} (given : h.sbrk (request n) reply =
      some (hp, { h with brk := hp + request n, granted := h.granted + request n })) :
    h.morecore n reply = ((extended h hp (request n)).free (hp + 1)).map some := by
  have sbrk : h.sbrk (if n < 4096 then 4096 else n) reply = _ := given
  unfold Heap.morecore
  dsimp only
  rw [sbrk]
  rfl

theorem morecore_spec (arena : Arena base h nodes live) (joined : Joined base h nodes) (n : Nat)
    (reply : Option Nat) :
    (h.sbrk (request n) reply = none ∧ h.morecore n reply = some none) ∨
    Exists fun after =>
      h.morecore n reply = some (some after) ∧
      Exists fun nodes => Grown base h after nodes live n := by
  have enough : n ≤ request n := by
    rw [request]
    split <;> omega
  have some : 0 < request n := by
    rw [request]
    split <;> omega
  rcases @sbrk_cases h (request n) reply with refused | ⟨hp, beyond, fits, given⟩
  · exact Or.inl ⟨refused, morecore_refused refused⟩
  · rw [morecore_given given]
    rcases extended_spec arena beyond some fits with ⟨grown, fresh, spares, size, sizes⟩
    have still : Joined base (extended h hp (request n)) nodes := by
      intro x y first second real touch
      have different : x ≠ hp := by
        rintro rfl
        exact Finset.disjoint_left.mp grown.away first (Finset.mem_insert_self x live)
      rw [sizes, Function.update_of_ne different] at touch
      exact joined x y first second real touch
    rcases free_spec grown still fresh with ⟨after, freed, nodes, freedSpec⟩
    refine Or.inr ⟨after, ?_, nodes, freedSpec.arena, freedSpec.joined,
      spares.trans arena freedSpec.spares, ?_⟩
    · rw [freed]
      rfl
    · rcases freedSpec.room with ⟨x, inside, room⟩
      rw [size] at room
      exact ⟨x, inside, Nat.le_trans enough room⟩

/-! ### The loop -/

/-- What the loop of `malloc` does after a whole round. -/
def refill (n left : Nat) (h : Heap) (replies : List (Option Nat)) : Option (Heap × Nat) :=
  match h.morecore n (replies.headD none) with
  | none => none
  | some none => some (h, 0)
  | some (some h) => Heap.search n left h h.freep (h.ptr h.freep) replies.tail

/-- One round finds a block that is large enough, or looks at all blocks. -/
theorem search_round (arena : Arena base h nodes live) (n : Nat) (replies : List (Option Nat))
    {rounds : Nat} {q p : Nat} {seen : Finset Nat} (inside : q ∈ nodes) (follows : h.ptr q = p)
    (known : forall x, x ∈ seen -> x ∈ nodes ∧ h.size x < n)
    (closed : forall x, x ∈ seen -> h.ptr x ∈ seen ∨ h.ptr x = p)
    (begun : h.ptr h.freep ∈ seen ∨ h.ptr h.freep = p) (enough : stepsTo nodes h.freep p < rounds) :
    (Exists fun prevp =>
      prevp ∈ nodes ∧ n ≤ h.size (h.ptr prevp) ∧
      Heap.search n rounds h q p replies = some (h.carve n prevp (h.ptr prevp))) ∨
    ((forall x, x ∈ nodes -> h.size x < n) ∧
     Exists fun left =>
       rounds ≤ left + stepsTo nodes h.freep p + 1 ∧
       Heap.search n rounds h q p replies = refill n left h replies) := by
  induction rounds generalizing q p seen with
  | zero => exact absurd enough (Nat.not_lt_zero _)
  | succ rounds ih =>
      have there : p ∈ nodes := follows ▸ arena.ring.closed inside
      by_cases fits : n ≤ h.size p
      · refine Or.inl ⟨q, inside, by rw [follows]; exact fits, ?_⟩
        rw [Heap.search, if_pos fits, follows]
      have small := Nat.lt_of_not_le fits
      by_cases back : p = h.freep
      · have all : forall x, x ∈ nodes -> x ∈ insert p seen := by
          intro x known'
          refine arena.ring.mem_of_closed (fun y seenToo => ?_) ⟨p, Finset.mem_insert_self p seen⟩
            (fun y seenToo => ?_) known'
          · rcases Finset.mem_insert.mp seenToo with rfl | seenToo
            · exact there
            · exact (known y seenToo).1
          · rcases Finset.mem_insert.mp seenToo with rfl | seenToo
            · rw [back]
              exact begun.elim (fun one => Finset.mem_insert_of_mem (back ▸ one))
                (fun one => by rw [one, back]; exact Finset.mem_insert_self _ _)
            · exact (closed y seenToo).elim Finset.mem_insert_of_mem
                (fun one => one ▸ Finset.mem_insert_self _ _)
        refine Or.inr ⟨fun x known' => ?_, rounds, by omega, ?_⟩
        · rcases Finset.mem_insert.mp (all x known') with rfl | seenToo
          · exact small
          · exact (known x seenToo).2
        · rw [Heap.search, if_neg fits, if_pos back]
          rfl
      · have nearer := arena.ring.stepsTo_ptr there arena.start back
        have step : Heap.search n (rounds + 1) h q p replies = Heap.search n rounds h p
            (h.ptr p) replies := by
          rw [Heap.search, if_neg fits, if_neg back]
        rw [step]
        have rest := @ih p (h.ptr p) (insert p seen) there rfl (fun x seenToo => ?_)
            (fun x seenToo => ?_) ?_ (by omega)
        · rcases rest with found | ⟨all, left, bound, same⟩
          · exact Or.inl found
          · exact Or.inr ⟨all, left, by omega, same⟩
        · rcases Finset.mem_insert.mp seenToo with rfl | seenToo
          · exact ⟨there, small⟩
          · exact known x seenToo
        · rcases Finset.mem_insert.mp seenToo with rfl | seenToo
          · exact Or.inr rfl
          · exact Or.inl ((closed x seenToo).elim Finset.mem_insert_of_mem
              (fun one => one ▸ Finset.mem_insert_self _ _))
        · exact Or.inl (begun.elim Finset.mem_insert_of_mem
            (fun one => one ▸ Finset.mem_insert_self _ _))

/-- `malloc` returns a block, or 0 when no free block is large enough and the kernel refuses. -/
theorem search_spec (arena : Arena base h nodes live) (joined : Joined base h nodes)
    (positive : 0 < n) (replies : List (Option Nat)) :
    (Heap.search n rounds h h.freep (h.ptr h.freep) replies = some (h, 0) ∧
     (forall x, x ∈ nodes -> h.size x < n) ∧ h.sbrk (request n) (replies.headD none) = none) ∨
    Exists fun after => Exists fun b => Exists fun nodes =>
      Heap.search n rounds h h.freep (h.ptr h.freep) replies = some (after, b + 1) ∧
      Allocated base h after nodes live b n := by
  have enough := stepsTo_lt_rounds arena h.freep (h.ptr h.freep)
  rcases @search_round base h nodes live arena n replies rounds h.freep
    (h.ptr h.freep) ∅ arena.start rfl (fun x none => absurd none (Finset.notMem_empty x))
    (fun x none => absurd none (Finset.notMem_empty x)) (Or.inr rfl) (by omega) with
    ⟨q, inside, fits, found⟩ | ⟨small, left, bound, refilled⟩
  · rcases carve_spec arena joined inside positive fits with ⟨b, after, address, allocated⟩
    refine Or.inr ⟨_, b, after, ?_, allocated⟩
    rw [found, ← address]
  · rw [refilled, refill]
    rcases morecore_spec arena joined n (replies.headD none) with
      ⟨refused, none⟩ | ⟨grown, got, nodes', spec⟩
    · rw [none]
      exact Or.inl ⟨rfl, small, refused⟩
    · rw [got]
      refine Or.inr ?_
      have again := stepsTo_lt_rounds spec.arena grown.freep (grown.ptr grown.freep)
      have many := stepsTo_lt_rounds arena h.freep (h.ptr h.freep)
      rcases @search_round base grown nodes' live spec.arena n replies.tail left grown.freep
        (grown.ptr grown.freep) ∅ spec.arena.start rfl
        (fun x none => absurd none (Finset.notMem_empty x))
        (fun x none => absurd none (Finset.notMem_empty x)) (Or.inr rfl) (by omega) with
        ⟨q, inside, fits, found⟩ | ⟨small, _⟩
      · rcases carve_spec spec.arena spec.joined inside positive fits with
          ⟨b, after, address, allocated⟩
        refine ⟨_, b, after, ?_, allocated.arena, allocated.joined, allocated.fresh, allocated.size,
          spec.spares.trans arena allocated.spares⟩
        show Heap.search n left grown grown.freep (grown.ptr grown.freep) replies.tail = _
        rw [found, ← address]
      · rcases spec.room with ⟨x, inside, room⟩
        exact absurd room (Nat.not_le_of_lt (small x inside))

end UserPrograms
end OsProjects
