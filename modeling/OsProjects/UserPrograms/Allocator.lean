import OsProjects.Machine.SortedRing
import OsProjects.Machine.Packing

namespace OsProjects
namespace UserPrograms

open Machine

/-!
# `malloc` and `free`

The free blocks are a ring in ascending order, in which a static header of size 0 comes
first.  A block begins with a header, and sizes and addresses are in units of a header.
`free` looks for the place of a block in the ring and joins it to its neighbours; `malloc`
goes once around, from where the last call stopped, and asks the kernel for more when no
block is large enough.

Both loops get a bound on their rounds.  That the bound is never reached is a theorem.
-/

/-- `union header`. -/
structure Header where
  ptr : Nat
  size : Nat

structure Heap where
  /-- The memory of the process; what is no header is data. -/
  cell : Nat -> Header
  /-- `freep`, or 0. -/
  freep : Nat
  /-- The end of the memory of the process. -/
  brk : Nat
  /-- How much `sbrk` has given; no code reads it. -/
  granted : Nat

/-- The units of the 32-bit address space. -/
def addressLimit : Nat := 2 ^ 29

/-- A bound on the rounds of the loops. -/
def rounds : Nat := 2 ^ 32

namespace Heap

def ptr (h : Heap) (p : Nat) : Nat := (h.cell p).ptr

def size (h : Heap) (p : Nat) : Nat := (h.cell p).size

/-- Write a header. -/
def put (h : Heap) (p ptr size : Nat) : Heap :=
  { h with cell := Function.update h.cell p ⟨ptr, size⟩ }

/-- The loop of `free`. -/
def findPlace (h : Heap) (bp : Nat) : Nat -> Nat -> Option Nat
  | 0, _ => none
  | rounds + 1, p =>
      if p < bp ∧ bp < h.ptr p then some p
      else if h.ptr p ≤ p ∧ (p < bp ∨ bp < h.ptr p) then some p
      else findPlace h bp rounds (h.ptr p)

/-- `free`, after the loop. -/
def link (h : Heap) (bp p : Nat) : Heap :=
  let h :=
    if bp + h.size bp = h.ptr p then h.put bp (h.ptr (h.ptr p)) (h.size bp + h.size (h.ptr p))
    else h.put bp (h.ptr p) (h.size bp)
  let h :=
    if p + h.size p = bp then h.put p (h.ptr bp) (h.size p + h.size bp)
    else h.put p bp (h.size p)
  { h with freep := p }

def free (h : Heap) (ap : Nat) : Option Heap :=
  let bp := ap - 1
  (h.findPlace bp rounds h.freep).map (fun p => h.link bp p)

/-- `sbrk`: the memory that the kernel answers with begins at or after the end of the old one. -/
def sbrk (h : Heap) (n : Nat) (reply : Option Nat) : Option (Nat × Heap) :=
  match reply with
  | none => none
  | some p =>
      if h.brk ≤ p ∧ p + n ≤ addressLimit then
        some (p, { h with brk := p + n, granted := h.granted + n }) else none

/-- `morecore`; the outer `none` is a loop that does not end. -/
def morecore (h : Heap) (nu : Nat) (reply : Option Nat) : Option (Option Heap) :=
  let nu := if nu < 4096 then 4096 else nu
  match h.sbrk nu reply with
  | none => some none
  | some (hp, h) =>
      (({ h with cell := Function.update h.cell hp { h.cell hp with size := nu } }).free
        (hp + 1)).map some

/-- The block at `p`, which follows `prevp`, is large enough. -/
def carve (h : Heap) (nunits prevp p : Nat) : Heap × Nat :=
  if h.size p = nunits then ({ h.put prevp (h.ptr p) (h.size prevp) with freep := prevp }, p + 1)
  else
    let rest := h.put p (h.ptr p) (h.size p - nunits)
    let q := p + (h.size p - nunits)
    ({ rest.put q (rest.ptr q) nunits with freep := prevp }, q + 1)

/-- The loop of `malloc`, with the answers that `sbrk` is going to get. -/
def search (nunits : Nat) : Nat -> Heap -> Nat -> Nat -> List (Option Nat) -> Option (Heap × Nat)
  | 0, _, _, _, _ => none
  | rounds + 1, h, prevp, p, replies =>
      if nunits ≤ h.size p then some (h.carve nunits prevp p)
      else if p = h.freep then
        match h.morecore nunits (replies.headD none) with
        | none => none
        | some none => some (h, 0)
        | some (some h) => search nunits rounds h h.freep (h.ptr h.freep) replies.tail
      else search nunits rounds h p (h.ptr p) replies

/-- The block with its header, in 32-bit arithmetic. -/
def nunits (nbytes : Nat) : Nat := (nbytes + 7) % 2 ^ 32 / 8 + 1

/-- The first call makes the ring of the static header. -/
def ready (base : Nat) (h : Heap) : Heap :=
  if h.freep = 0 then { h.put base base 0 with freep := base } else h

/-- `malloc`, with the address of the static header. -/
def malloc (base : Nat) (h : Heap) (nbytes : Nat) (replies : List (Option Nat)) :
    Option (Heap × Nat) :=
  let h := h.ready base
  search (nunits nbytes) rounds h h.freep (h.ptr h.freep) replies

section Put

variable {h : Heap} {p q ptr size : Nat}

theorem ptr_put : (h.put p ptr size).ptr = Function.update h.ptr p ptr := by
  funext x
  by_cases same : x = p
  · simp only [Heap.ptr, put, same, Function.update_self]
  · simp only [Heap.ptr, put, Function.update_of_ne same]

theorem size_put : (h.put p ptr size).size = Function.update h.size p size := by
  funext x
  by_cases same : x = p
  · simp only [Heap.size, put, same, Function.update_self]
  · simp only [Heap.size, put, Function.update_of_ne same]

theorem cell_put_of_ne (different : q ≠ p) : (h.put p ptr size).cell q = h.cell q :=
  Function.update_of_ne different ..

theorem put_put {ptr' size' : Nat} : (h.put p ptr size).put p ptr' size' = h.put p ptr' size' := by
  simp only [put, Function.update_idem]

theorem put_comm {ptr' size' : Nat} (different : p ≠ q) :
    (h.put p ptr size).put q ptr' size' = (h.put q ptr' size').put p ptr size := by
  simp only [put, Function.update_comm different]

end Put

/-- The block at `b` is linked in after `p`, with a successor and a size. -/
def splice (h : Heap) (b p next size : Nat) : Heap :=
  { (h.put b next size).put p b (h.size p) with freep := p }

section Splice

variable {h : Heap} {b p next size : Nat}

theorem ptr_splice :
    (h.splice b p next size).ptr = Function.update (Function.update h.ptr b next) p b := by
  show ((h.put b next size).put p b (h.size p)).ptr = _
  rw [ptr_put, ptr_put]

theorem size_splice (different : p ≠ b) :
    (h.splice b p next size).size = Function.update h.size b size := by
  show ((h.put b next size).put p b (h.size p)).size = _
  rw [size_put, size_put, Function.update_comm different.symm, Function.update_eq_self]

theorem splice_put (different : p ≠ b) {next' size' : Nat} :
    (h.splice b p next size).put b next' size' = h.splice b p next' size' := by
  show { ((h.put b next size).put p b (h.size p)).put b next' size' with freep := p } =
    h.splice b p next' size'
  rw [put_comm different, put_put]
  rfl

/-- `free` splices the block in, with its successor if they touch, and joins the result to the
predecessor if they touch. -/
theorem link_eq (different : p ≠ b) : h.link b p =
    let next := if b + h.size b = h.ptr p then h.ptr (h.ptr p) else h.ptr p
    let size := if b + h.size b = h.ptr p then h.size b + h.size (h.ptr p) else h.size b
    if p + h.size p = b then (h.splice b p next size).put p next (h.size p + size)
      else h.splice b p next size := by
  have first : (if b + h.size b = h.ptr p then h.put b (h.ptr (h.ptr p))
      (h.size b + h.size (h.ptr p))
      else h.put b (h.ptr p) (h.size b)) =
      h.put b (if b + h.size b = h.ptr p then h.ptr (h.ptr p) else h.ptr p)
        (if b + h.size b = h.ptr p then h.size b + h.size (h.ptr p) else h.size b) := by
    split <;> rfl
  rw [link, first]
  generalize (if b + h.size b = h.ptr p then h.ptr (h.ptr p) else h.ptr p) = next
  generalize (if b + h.size b = h.ptr p then h.size b + h.size (h.ptr p) else h.size b) = size
  have sizes : (h.put b next size).size p = h.size p := by
    rw [size_put, Function.update_of_ne different]
  have ownSize : (h.put b next size).size b = size := by
    rw [size_put, Function.update_self]
  have ownPtr : (h.put b next size).ptr b = next := by
    rw [ptr_put, Function.update_self]
  simp only [sizes, ownSize, ownPtr, splice]
  split
  next =>
    have again : ({ (h.put b next size).put p b (h.size p) with freep := p } : Heap).put
        p next (h.size p + size) =
        { ((h.put b next size).put p b (h.size p)).put p next (h.size p + size) with freep := p } :=
      rfl
    rw [again, put_put]
  next => rfl

end Splice
end Heap

/-- The free blocks and the blocks in use. -/
structure Arena (base : Nat) (h : Heap) (nodes live : Finset Nat) : Prop where
  ring : SortedRing h.ptr nodes base
  start : h.freep ∈ nodes
  bottom : h.size base = 0
  low : base < h.brk
  above : forall x, x ∈ live -> base < x
  packed : Packed h.size (nodes ∪ live) base h.brk
  away : Disjoint nodes live
  total : ∑ x ∈ nodes ∪ live, h.size x = h.granted
  bounded : h.brk ≤ addressLimit

/-- The only free blocks that touch are the allowed ones. -/
def Touching (allowed : Nat -> Nat -> Prop) (base : Nat) (h : Heap) (nodes : Finset Nat) : Prop :=
  forall x y, x ∈ nodes -> y ∈ nodes -> x ≠ base -> x + h.size x = y -> allowed x y

/-- No two free blocks touch. -/
def Joined (base : Nat) (h : Heap) (nodes : Finset Nat) : Prop :=
  Touching (fun _ _ => False) base h nodes

/-- A step leaves the blocks in use alone, with their headers. -/
def Spares (before after : Heap) (live : Finset Nat) : Prop :=
  forall b i, b ∈ live -> i < before.size b -> after.cell (b + i) = before.cell (b + i)

namespace Arena

variable {base : Nat} {h after : Heap} {nodes live : Finset Nat} {b p x y : Nat}

theorem node (inside : x ∈ nodes) : x ∈ nodes ∪ live := Finset.mem_union_left _ inside

theorem block (inside : x ∈ live) : x ∈ nodes ∪ live := Finset.mem_union_right _ inside

/-- The header of another block is not in a block in use. -/
theorem ne_header (arena : Arena base h nodes live) (header : x ∈ nodes ∪ live) (inUse : b ∈ live)
    (different : x ≠ b) {i : Nat} (inside : i < h.size b) : b + i ≠ x := by
  rcases Nat.lt_or_gt_of_ne different with lower | higher
  · omega
  · have apart := arena.packed.apart b x (block inUse) header higher
    omega

/-- The block of a call of `free` becomes a free block after `p`. -/
theorem insert (arena : Arena base h nodes (insert b live)) (out : b ∉ live)
    (precedes : Precedes nodes p b) :
    Arena base (h.splice b p (h.ptr p) (h.size b)) (insert b nodes) live := by
  have sizes : (h.splice b p (h.ptr p) (h.size b)).size = h.size := by
    rw [Heap.size_splice (ne_of_lt precedes.below), Function.update_eq_self]
  have same : Insert.insert b nodes ∪ live = nodes ∪ Insert.insert b live := by
    rw [Finset.insert_union, Finset.union_insert]
  refine ⟨?_, Finset.mem_insert_of_mem precedes.mem, ?_, arena.low,
    fun x inside => arena.above x (Finset.mem_insert_of_mem inside), ?_, ?_, ?_, arena.bounded⟩
  · rw [Heap.ptr_splice]
    exact arena.ring.insert precedes
  · rw [sizes]
    exact arena.bottom
  · rw [sizes, same]
    exact arena.packed
  · rw [Finset.disjoint_insert_left]
    exact ⟨out, arena.away.mono_right (Finset.subset_insert b live)⟩
  · rw [sizes, same]
    exact arena.total

/-- A free block takes in its successor, which begins where it ends. -/
theorem absorb (arena : Arena base h nodes live) (inside : x ∈ nodes) (real : x ≠ base)
    (touch : x + h.size x = h.ptr x) (started : h.freep ≠ h.ptr x) :
    Arena base (h.put x (h.ptr (h.ptr x)) (h.size x + h.size (h.ptr x)))
      (nodes.erase (h.ptr x)) live := by
  have positive := arena.packed.positive x (node inside) real
  have low := arena.ring.least x inside
  have notLast : h.ptr x ≠ base := by omega
  have there := arena.ring.closed inside
  have different : x ≠ h.ptr x := by omega
  have same : nodes.erase (h.ptr x) ∪ live = (nodes ∪ live).erase (h.ptr x) := by
    rw [Finset.erase_union_distrib, Finset.erase_eq_of_notMem
      (Finset.disjoint_left.mp arena.away there)]
  refine ⟨?_, Finset.mem_erase.mpr ⟨started, arena.start⟩, ?_, arena.low, arena.above, ?_, ?_, ?_,
    arena.bounded⟩
  · rw [Heap.ptr_put]
    exact arena.ring.remove inside notLast
  · rw [Heap.size_put, Function.update_of_ne real.symm]
    exact arena.bottom
  · rw [Heap.size_put, same]
    exact arena.packed.join (node inside) (node there) touch real
  · exact arena.away.mono_left (Finset.erase_subset _ nodes)
  · rw [Heap.size_put, same, Packed.sum_join (node inside) (node there) different]
    exact arena.total

end Arena

/-- A block that took in its successor touches what the successor touched. -/
theorem Touching.absorb {allowed : Nat -> Nat -> Prop} {base : Nat} {h : Heap} {nodes : Finset Nat}
    {x : Nat} (touching : Touching allowed base h nodes) (touch : x + h.size x = h.ptr x)
    (there : h.ptr x ∈ nodes) (notLast : h.ptr x ≠ base) :
    Touching (fun a c => (a ≠ x ∧ allowed a c) ∨ (a = x ∧ allowed (h.ptr x) c)) base
      (h.put x (h.ptr (h.ptr x)) (h.size x + h.size (h.ptr x))) (nodes.erase (h.ptr x)) := by
  intro a c first second real touches
  rcases Finset.mem_erase.mp first with ⟨_, first⟩
  rcases Finset.mem_erase.mp second with ⟨_, second⟩
  rw [Heap.size_put] at touches
  by_cases same : a = x
  · rw [same, Function.update_self] at touches
    exact Or.inr ⟨same, touching _ c there second notLast (by omega)⟩
  · rw [Function.update_of_ne same] at touches
    exact Or.inl ⟨same, touching a c first second real touches⟩

theorem Touching.weaken {allowed weaker : Nat -> Nat -> Prop} {base : Nat} {h : Heap}
    {nodes : Finset Nat} (touching : Touching allowed base h nodes)
    (implies : forall x y, allowed x y -> weaker x y) : Touching weaker base h nodes :=
  fun x y first second real touches => implies x y (touching x y first second real touches)

section Free

variable {base : Nat} {h : Heap} {nodes live : Finset Nat} {b p : Nat}

/-- The loop of `free` comes to the node after which the block belongs. -/
theorem findPlace_spec (ring : SortedRing h.ptr nodes base) (above : base < b) {place : Nat}
    (precedes : Precedes nodes place b) {rounds : Nat} (inside : p ∈ nodes)
    (enough : stepsTo nodes place p < rounds) : h.findPlace b rounds p = some place := by
  induction rounds generalizing p with
  | zero => exact absurd enough (Nat.not_lt_zero _)
  | succ rounds ih =>
      have test := ring.precedes_iff inside above
      by_cases here : p = place
      · have found := test.mpr (here ▸ precedes)
        rw [Heap.findPlace]
        split
        · rw [here]
        · rename_i between
          rw [if_pos (found.resolve_left between), here]
      · have notFound := fun found => here ((test.mp found).unique precedes)
        rw [Heap.findPlace, if_neg (fun between => notFound (Or.inl between)),
          if_neg (fun wraps => notFound (Or.inr wraps))]
        have nearer := ring.stepsTo_ptr inside precedes.mem here
        exact ih (ring.closed inside) (by omega)

theorem stepsTo_lt_rounds (arena : Arena base h nodes live) (target x : Nat) :
    2 * stepsTo nodes target x + 8 < rounds := by
  have few : nodes.card ≤ addressLimit + 1 := by
    have part : nodes ⊆ Finset.range (addressLimit + 1) := by
      intro y inside
      have within := arena.packed.within y (Arena.node inside)
      have bounded := arena.bounded
      rw [Finset.mem_range]
      omega
    have card := Finset.card_le_card part
    rw [Finset.card_range] at card
    exact card
  have steps := SortedRing.stepsTo_le nodes target x
  have limits : 4 * (addressLimit + 1) + 8 < rounds := by decide
  omega

/-- After the insertion, only the new block can touch a neighbour. -/
theorem touching_insert (arena : Arena base h nodes (insert b live)) (joined : Joined base h nodes)
    (precedes : Precedes nodes p b) :
    Touching (fun x y => (x = b ∧ y = h.ptr p) ∨ (x = p ∧ y = b)) base
      (h.splice b p (h.ptr p) (h.size b)) (insert b nodes) := by
  have mine : b ∈ nodes ∪ insert b live := Arena.block (Finset.mem_insert_self b live)
  have some : 0 < h.size b :=
    arena.packed.positive b mine (ne_of_gt (arena.above b (Finset.mem_insert_self b live)))
  intro x y first second real touches
  rw [Heap.size_splice (ne_of_lt precedes.below), Function.update_eq_self] at touches
  rcases Finset.mem_insert.mp first with rfl | old
  · refine Or.inl ⟨rfl, ?_⟩
    rcases Finset.mem_insert.mp second with rfl | second
    · omega
    · rcases arena.ring.link p precedes.mem with next | last
      · have near := next.2.2 y second (by have := precedes.below; omega)
        have beyond := (precedes.gap _ next.1).resolve_left (not_le_of_gt next.2.1)
        have apart := arena.packed.apart x (h.ptr p) mine (Arena.node next.1) beyond
        omega
      · have low := last.2 y second
        have below := precedes.below
        omega
  · rcases Finset.mem_insert.mp second with rfl | second
    · refine Or.inr ⟨?_, rfl⟩
      have lower : x ≤ p := (precedes.gap x old).resolve_right (by omega)
      rcases Nat.lt_or_eq_of_le lower with lower | same
      · have apart := arena.packed.apart x p (Arena.node old) (Arena.node precedes.mem) lower
        have below := precedes.below
        omega
      · exact same
    · exact absurd (joined x y old second real touches) id

/-- What `free` and `link` leave behind. -/
structure Freed (base : Nat) (h after : Heap) (nodes live : Finset Nat) (b : Nat) : Prop where
  arena : Arena base after nodes live
  joined : Joined base after nodes
  spares : Spares h after live
  brk : after.brk = h.brk
  granted : after.granted = h.granted
  room : Exists fun x => x ∈ nodes ∧ h.size b ≤ after.size x

theorem link_spares (arena : Arena base h nodes (insert b live)) (out : b ∉ live)
    (inside : p ∈ nodes) : Spares h (h.link b p) live := by
  intro c i inUse within
  have known : c ∈ insert b live := Finset.mem_insert_of_mem inUse
  have notNew : c + i ≠ b := arena.ne_header (Arena.block (Finset.mem_insert_self b live)) known
      (by rintro rfl; exact out inUse) within
  have notPlace : c + i ≠ p :=
    arena.ne_header (Arena.node inside) known
      (by rintro rfl; exact Finset.disjoint_left.mp arena.away inside known) within
  rw [Heap.link]
  dsimp only
  split <;> split <;> rw [Heap.cell_put_of_ne notPlace, Heap.cell_put_of_ne notNew]

/-- The block and its successor. -/
theorem splice_spec (arena : Arena base h nodes (insert b live)) (joined : Joined base h nodes)
    (out : b ∉ live) (precedes : Precedes nodes p b) {next size : Nat}
    (nextIs : (if b + h.size b = h.ptr p then h.ptr (h.ptr p) else h.ptr p) = next)
    (sizeIs : (if b + h.size b = h.ptr p then h.size b + h.size (h.ptr p) else h.size b) = size) :
    Exists fun nodes =>
      b ∈ nodes ∧ p ∈ nodes ∧ Arena base (h.splice b p next size) nodes live ∧
      Touching (fun x y => x = p ∧ y = b) base (h.splice b p next size) nodes := by
  have below := precedes.below
  have different : p ≠ b := ne_of_lt below
  have first := arena.insert out precedes
  have touches := touching_insert arena joined precedes
  have here : b ∈ insert b nodes := Finset.mem_insert_self b nodes
  have place : p ∈ insert b nodes := Finset.mem_insert_of_mem precedes.mem
  split at nextIs
  next touch =>
    rw [if_pos touch] at sizeIs
    have some := arena.packed.positive b (Arena.block (Finset.mem_insert_self b live))
        (ne_of_gt (arena.above b (Finset.mem_insert_self b live)))
    have low := arena.ring.least p precedes.mem
    have sizes : (h.splice b p (h.ptr p) (h.size b)).size = h.size := by
      rw [Heap.size_splice different, Function.update_eq_self]
    have ptrNew : (h.splice b p (h.ptr p) (h.size b)).ptr b = h.ptr p := by
      rw [Heap.ptr_splice, Function.update_of_ne different.symm, Function.update_self]
    have ptrNext : (h.splice b p (h.ptr p) (h.size b)).ptr (h.ptr p) = h.ptr (h.ptr p) := by
      rw [Heap.ptr_splice, Function.update_of_ne (by omega), Function.update_of_ne (by omega)]
    have meets : b + (h.splice b p (h.ptr p) (h.size b)).size b =
        (h.splice b p (h.ptr p) (h.size b)).ptr b := by
      rw [sizes, ptrNew]
      exact touch
    have started : (h.splice b p (h.ptr p) (h.size b)).freep ≠
        (h.splice b p (h.ptr p) (h.size b)).ptr b := by
      rw [ptrNew]
      show p ≠ h.ptr p
      omega
    have merged := first.absorb here (by omega) meets started
    have apart := touches.absorb meets (first.ring.closed here) (by rw [ptrNew]; omega)
    rw [ptrNew, ptrNext, sizes, Heap.splice_put different, nextIs, sizeIs] at merged apart
    refine ⟨_, Finset.mem_erase.mpr ⟨by omega, here⟩, Finset.mem_erase.mpr ⟨by omega, place⟩,
      merged, apart.weaken ?_⟩
    rintro x y (⟨other, new⟩ | ⟨_, new⟩)
    · exact new.resolve_left (fun same => other same.1)
    · rcases new with new | old
      · omega
      · omega
  next alone =>
    rw [if_neg alone] at sizeIs
    rw [nextIs, sizeIs] at first touches
    refine ⟨_, here, place, first, fun x y one two real touch =>
      (touches x y one two real touch).resolve_left ?_⟩
    rintro ⟨rfl, rfl⟩
    rw [Heap.size_splice different, Function.update_self] at touch
    omega

theorem link_spec (arena : Arena base h nodes (insert b live)) (joined : Joined base h nodes)
    (out : b ∉ live) (precedes : Precedes nodes p b) :
    Exists fun nodes => Freed base h (h.link b p) nodes live b := by
  have different : p ≠ b := ne_of_lt precedes.below
  have above : base < b := arena.above b (Finset.mem_insert_self b live)
  have bottom := arena.bottom
  have spares := link_spares arena out precedes.mem
  rw [Heap.link_eq different] at spares ⊢
  generalize nextIs : (if b + h.size b = h.ptr p then h.ptr (h.ptr p) else h.ptr p) =
    next at spares ⊢
  generalize sizeIs : (if b + h.size b = h.ptr p then h.size b + h.size (h.ptr p) else h.size b) =
    size at spares ⊢
  have room : h.size b ≤ size := by
    rw [← sizeIs]
    split <;> omega
  rcases splice_spec arena joined out precedes nextIs sizeIs with
    ⟨nodes, here, place, arena, touching⟩
  have ptr : (h.splice b p next size).ptr p = b := by
    rw [Heap.ptr_splice, Function.update_self]
  have ptrNew : (h.splice b p next size).ptr b = next := by
    rw [Heap.ptr_splice, Function.update_of_ne different.symm, Function.update_self]
  have sizeOld : (h.splice b p next size).size p = h.size p := by
    rw [Heap.size_splice different, Function.update_of_ne different]
  have sizeNew : (h.splice b p next size).size b = size := by
    rw [Heap.size_splice different, Function.update_self]
  dsimp only at spares ⊢
  split at spares
  next touch =>
    rw [if_pos touch]
    have real : p ≠ base := by
      rintro rfl
      rw [bottom] at touch
      omega
    have meets : p + (h.splice b p next size).size p = (h.splice b p next size).ptr p := by
      rw [sizeOld, ptr]
      exact touch
    have merged := arena.absorb place real meets (by rw [ptr]; exact different)
    have apart := touching.absorb meets (by rw [ptr]; exact here)
        (by rw [ptr]; exact ne_of_gt above)
    rw [ptr, ptrNew, sizeOld, sizeNew] at merged apart
    refine ⟨nodes.erase b, merged, apart.weaken ?_, spares, rfl, rfl, p,
      Finset.mem_erase.mpr ⟨different, place⟩, ?_⟩
    · rintro x y (⟨other, same, _⟩ | ⟨_, same, _⟩)
      · exact other same
      · exact different same.symm
    · rw [Heap.size_put, Function.update_self]
      omega
  next apart =>
    rw [if_neg apart]
    refine ⟨nodes, arena, fun x y one two real touches => ?_, spares, rfl, rfl, b, here, ?_⟩
    · rcases touching x y one two real touches with ⟨rfl, rfl⟩
      rw [sizeOld] at touches
      exact apart touches
    · rw [sizeNew]
      exact room

/-- `free` of a block in use returns, and keeps the arena. -/
theorem free_spec (arena : Arena base h nodes (insert b live)) (joined : Joined base h nodes)
    (out : b ∉ live) :
    Exists fun after =>
      h.free (b + 1) = some after ∧ Exists fun nodes => Freed base h after nodes live b := by
  have above : base < b := arena.above b (Finset.mem_insert_self b live)
  have fresh : b ∉ nodes := fun inside => Finset.disjoint_left.mp arena.away inside
      (Finset.mem_insert_self b live)
  rcases arena.ring.exists_precedes above fresh with ⟨place, precedes⟩
  have enough := stepsTo_lt_rounds arena place h.freep
  refine ⟨h.link b place, ?_, link_spec arena joined out precedes⟩
  rw [Heap.free, Nat.add_sub_cancel]
  rw [findPlace_spec arena.ring above precedes arena.start (by omega)]
  rfl

end Free

end UserPrograms
end OsProjects
