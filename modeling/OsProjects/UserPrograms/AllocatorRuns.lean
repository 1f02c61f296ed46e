import OsProjects.UserPrograms.AllocatorCalls
import OsProjects.Machine.Transition

namespace OsProjects
namespace UserPrograms

open Machine

/-!
# A program that uses the allocator

The program calls `malloc` and `free` in any order, frees only what it got and has not freed,
and writes whatever it likes behind the headers of its blocks.  The kernel answers each `sbrk`
as it likes.  A request of nearly 2^31 bytes or more would make the argument of `sbrk`
negative and is left out.
-/

structure State where
  heap : Heap
  /-- The headers of the blocks that the program has, and how many bytes it asked for. -/
  live : Finset Nat
  asked : Nat -> Nat

inductive Event
  | malloc (nbytes : Nat) (replies : List (Option Nat))
  | free (b : Nat)
  | store (b i : Nat) (data : Header)

/-- The program has the block that `malloc` returned, unless it is 0. -/
def State.receive (s : State) (nbytes : Nat) (result : Heap × Nat) : State :=
  if result.2 = 0 then { s with heap := result.1 }
  else
    { heap := result.1
      live := insert (result.2 - 1) s.live
      asked := Function.update s.asked (result.2 - 1) nbytes }

def next (base : Nat) (s : State) : Event -> Option State
  | .malloc nbytes replies => (s.heap.malloc base nbytes replies).map (s.receive nbytes)
  | .free b =>
      if b ∈ s.live then
        (s.heap.free (b + 1)).map (fun heap => { s with heap := heap, live := s.live.erase b })
      else none
  | .store b i data =>
      if b ∈ s.live ∧ 0 < i ∧ i < s.heap.size b then
        some { s with heap := { s.heap with cell := Function.update s.heap.cell (b + i) data } }
      else none

/-- The program has not called `malloc` yet. -/
structure Fresh (base : Nat) (s : State) : Prop where
  freep : s.heap.freep = 0
  granted : s.heap.granted = 0
  low : base < s.heap.brk
  bounded : s.heap.brk ≤ addressLimit
  live : s.live = ∅

/-- The requests for which the argument of `sbrk` is positive. -/
def Modest : Event -> Prop
  | .malloc nbytes _ => nbytes < 2 ^ 31 - 16
  | _ => True

/-- The event is about the block of the program at `b`. -/
def Event.Names (b : Nat) : Event -> Prop
  | .malloc _ _ => False
  | .free c => c = b
  | .store c _ _ => c = b

/-- The heap, once there is one, and room for what was asked. -/
structure Ready (base : Nat) (s : State) (nodes : Finset Nat) : Prop where
  arena : Arena base s.heap nodes s.live
  joined : Joined base s.heap nodes
  room : forall b, b ∈ s.live -> s.asked b ≤ 8 * (s.heap.size b - 1)

def Sound (base : Nat) (s : State) : Prop := Fresh base s ∨ Exists fun nodes => Ready base s nodes

/-- A process with 16 units of memory and the static header at 4. -/
def started : State := ⟨⟨fun _ => ⟨0, 0⟩, 0, 16, 0⟩, ∅, fun _ => 0⟩

theorem started_fresh : Fresh 4 started := ⟨rfl, rfl, by decide, by decide, rfl⟩

/-- Two blocks, of which the first is freed again. -/
def usage : List Event := [.malloc 20 [some 16], .malloc 8 [], .store 4108 1 ⟨7, 7⟩, .free 4108]

theorem usage_modest :
    forall event, event ∈ usage -> forall state : State, (fun _ => Modest) state event := by
  intro event inside state
  rcases List.mem_cons.mp inside with rfl | inside
  · exact (by decide : 20 < 2 ^ 31 - 16)
  rcases List.mem_cons.mp inside with rfl | inside
  · exact (by decide : 8 < 2 ^ 31 - 16)
  rcases List.mem_cons.mp inside with rfl | inside
  · exact trivial
  rcases List.mem_cons.mp inside with rfl | inside
  · exact trivial
  · exact absurd inside List.not_mem_nil

section Steps

variable {base : Nat} {s after : State} {nodes : Finset Nat} {b : Nat}

/-- The ring of the static header alone. -/
theorem ready_fresh (fresh : Fresh base s) :
    Arena base (s.heap.ready base) {base} s.live ∧ Joined base (s.heap.ready base) {base} := by
  rw [Heap.ready, if_pos fresh.freep]
  have ptr : (({ s.heap.put base base 0 with freep := base } : Heap)).ptr =
      Function.update s.heap.ptr base base := Heap.ptr_put
  have size : (({ s.heap.put base base 0 with freep := base } : Heap)).size =
      Function.update s.heap.size base 0 := Heap.size_put
  refine ⟨⟨?_, Finset.mem_singleton_self base, ?_, fresh.low, ?_, ?_, ?_, ?_, fresh.bounded⟩,
    fun x y first _ real => ?_⟩
  · rw [ptr]
    exact .single (Function.update_self ..)
  · rw [size, Function.update_self]
  · rw [fresh.live]
    exact fun x none => absurd none (Finset.notMem_empty x)
  · rw [fresh.live, Finset.union_empty, size]
    refine ⟨fun x y first second lower => ?_, fun x inside => ?_,
      fun x inside real => absurd (Finset.mem_singleton.mp inside) real⟩
    · rw [Finset.mem_singleton.mp first, Finset.mem_singleton.mp second] at lower
      exact absurd lower (Nat.lt_irrefl _)
    · rw [Finset.mem_singleton.mp inside, Function.update_self]
      exact Nat.le_of_lt fresh.low
  · rw [fresh.live]
    exact Finset.disjoint_empty_right _
  · rw [fresh.live, Finset.union_empty, Finset.sum_singleton, size, Function.update_self]
    exact fresh.granted.symm
  · exact absurd (Finset.mem_singleton.mp first) real

/-- Every call of `malloc` finds a ring. -/
theorem Sound.arena (positive : 0 < base) (sound : Sound base s) :
    Exists fun nodes =>
      Arena base (s.heap.ready base) nodes s.live ∧ Joined base (s.heap.ready base) nodes ∧
      (forall b, b ∈ s.live -> s.asked b ≤ 8 * ((s.heap.ready base).size b - 1)) ∧
      Spares s.heap (s.heap.ready base) s.live ∧
      forall b, b ∈ s.live -> (s.heap.ready base).size b = s.heap.size b := by
  rcases sound with fresh | ⟨nodes, ready⟩
  · rcases ready_fresh fresh with ⟨arena, joined⟩
    have none : forall {b}, b ∉ s.live :=
      fun {b} inUse => Finset.notMem_empty b (fresh.live ▸ inUse)
    exact ⟨{base}, arena, joined, fun b inUse => absurd inUse none,
      fun b _ inUse => absurd inUse none, fun b inUse => absurd inUse none⟩
  · have begun : s.heap.freep ≠ 0 := by
      have low := ready.arena.ring.least _ ready.arena.start
      omega
    rw [Heap.ready, if_neg begun]
    exact ⟨nodes, ready.arena, ready.joined, ready.room, fun _ _ _ _ => rfl, fun _ _ => rfl⟩

theorem nunits_room {nbytes : Nat} (modest : nbytes < 2 ^ 31 - 16) :
    nbytes ≤ 8 * (Heap.nunits nbytes - 1) := by
  rw [Heap.nunits, Nat.mod_eq_of_lt (by omega), Nat.add_sub_cancel]
  omega

/-- `malloc` returns, gives a new block with room for the request or 0, and spares the others. -/
theorem malloc_spec (positive : 0 < base) (sound : Sound base s) {nbytes : Nat}
    (modest : nbytes < 2 ^ 31 - 16) (replies : List (Option Nat)) :
    Exists fun result =>
      s.heap.malloc base nbytes replies = some result ∧ Sound base (s.receive nbytes result) ∧
      Spares s.heap result.1 s.live ∧
      (result.2 = 0 ->
        (Exists fun nodes =>
          SortedRing result.1.ptr nodes base ∧ result.1.freep ∈ nodes ∧
          forall x, x ∈ nodes -> result.1.size x < Heap.nunits nbytes) ∧
        forall p, replies.headD none = some p ->
          ¬ (s.heap.brk ≤ p ∧ p + request (Heap.nunits nbytes) ≤ addressLimit)) := by
  rcases sound.arena positive with ⟨nodes, arena, joined, room, spares, sizes⟩
  have some : 0 < Heap.nunits nbytes := Nat.succ_pos _
  rw [Heap.malloc]
  rcases search_spec arena joined some replies with
    ⟨failed, small, refused⟩ | ⟨heap, b, nodes', returned, allocated⟩
  · refine ⟨_, failed, ?_, spares, fun _ => ⟨⟨nodes, arena.ring, arena.start, small⟩, ?_⟩⟩
    · rw [State.receive, if_pos rfl]
      exact Or.inr ⟨nodes, arena, joined, room⟩
    · intro p reply fits
      have brk : (s.heap.ready base).brk = s.heap.brk := by
        rw [Heap.ready]
        split <;> rfl
      rw [reply, Heap.sbrk.eq_def] at refused
      dsimp only at refused
      rw [brk, if_pos fits] at refused
      exact Option.some_ne_none _ refused
  · refine ⟨_, returned, ?_, ?_, fun null => absurd null (Nat.succ_ne_zero b)⟩
    · rw [State.receive, if_neg (Nat.succ_ne_zero b)]
      refine Or.inr ⟨nodes', allocated.arena, allocated.joined, fun c inUse => ?_⟩
      show Function.update s.asked b nbytes c ≤ 8 * (heap.size c - 1)
      rcases Finset.mem_insert.mp inUse with rfl | old
      · rw [Function.update_self, allocated.size]
        exact nunits_room modest
      · have different : c ≠ b := by
          rintro rfl
          exact allocated.fresh old
        rw [Function.update_of_ne different, allocated.spares.sizes arena old]
        exact room c old
    · intro c i inUse inside
      rw [allocated.spares c i inUse (by rw [sizes c inUse]; exact inside)]
      exact spares c i inUse inside

/-- `free` of a block of the program returns. -/
theorem free_ready (ready : Ready base s nodes) (inUse : b ∈ s.live) : Exists fun heap =>
    s.heap.free (b + 1) = some heap ∧ Spares s.heap heap (s.live.erase b) ∧
      Exists fun nodes => Ready base { s with heap := heap, live := s.live.erase b } nodes := by
  have arena := ready.arena
  rw [← Finset.insert_erase inUse] at arena
  rcases free_spec arena ready.joined (Finset.notMem_erase b s.live) with
    ⟨heap, freed, nodes', spec⟩
  refine ⟨heap, freed, spec.spares, nodes', spec.arena, spec.joined, fun c stays => ?_⟩
  have positive := arena.packed.positive c (Arena.block (Finset.mem_insert_of_mem stays))
    (ne_of_gt (arena.above c (Finset.mem_insert_of_mem stays)))
  have size := spec.spares c 0 stays positive
  rw [Nat.add_zero] at size
  show s.asked c ≤ 8 * ((heap.cell c).size - 1)
  rw [size]
  exact ready.room c (Finset.mem_of_mem_erase stays)

/-- The data of a block is no header. -/
theorem store_ready (ready : Ready base s nodes) (inUse : b ∈ s.live) {i : Nat} (behind : 0 < i)
    (inside : i < s.heap.size b) (data : Header) :
    Ready base
      { s with heap := { s.heap with cell := Function.update s.heap.cell (b + i) data } } nodes ∧
    Spares s.heap { s.heap with cell := Function.update s.heap.cell (b + i) data }
      (s.live.erase b) := by
  have noHeader : forall x, x ∈ nodes ∪ s.live -> x ≠ b + i := by
    intro x header same
    by_cases own : x = b
    · omega
    · exact ready.arena.ne_header header inUse own inside same.symm
  have cells : forall x, x ∈ nodes ∪ s.live ->
      Function.update s.heap.cell (b + i) data x = s.heap.cell x :=
    fun x header => Function.update_of_ne (noHeader x header) ..
  have sizes : forall x, x ∈ nodes ∪ s.live ->
      (Function.update s.heap.cell (b + i) data x).size = s.heap.size x :=
    fun x header => congrArg Header.size (cells x header)
  refine ⟨⟨⟨?_, ready.arena.start, ?_, ready.arena.low, ready.arena.above,
    ready.arena.packed.congr sizes, ready.arena.away, ?_, ready.arena.bounded⟩,
    fun x y first second real touch => ?_, fun c known => ?_⟩, fun c j known within => ?_⟩
  · exact ready.arena.ring.congr (fun x node => congrArg Header.ptr (cells x (Arena.node node)))
  · exact (sizes base (Arena.node ready.arena.ring.base_mem)).trans ready.arena.bottom
  · exact (Finset.sum_congr rfl sizes).trans ready.arena.total
  · refine ready.joined x y first second real ?_
    rw [← sizes x (Arena.node first)]
    exact touch
  · show s.asked c ≤ 8 * ((Function.update s.heap.cell (b + i) data c).size - 1)
    rw [sizes c (Arena.block known)]
    exact ready.room c known
  · rcases Finset.mem_erase.mp known with ⟨different, known⟩
    exact Function.update_of_ne (ready.arena.packed.ne_of_inside (Arena.block known)
      (Arena.block inUse) different within inside) ..

/-- A program that has a block has called `malloc`. -/
theorem Sound.ready (sound : Sound base s) (inUse : b ∈ s.live) :
    Exists fun nodes => Ready base s nodes := by
  rcases sound with fresh | ready
  · rw [fresh.live] at inUse
    exact absurd inUse (Finset.notMem_empty b)
  · exact ready

/-- What a step leaves alone. -/
def Keeps (s after : State) (b : Nat) : Prop :=
  b ∈ after.live ∧ forall i, i < s.heap.size b -> after.heap.cell (b + i) = s.heap.cell (b + i)

theorem next_spec (positive : 0 < base) (sound : Sound base s) {event : Event}
    (modest : Modest event) (stepped : next base s event = some after) :
    Sound base after ∧ forall b, b ∈ s.live -> ¬ event.Names b -> Keeps s after b := by
  cases event with
  | malloc nbytes replies =>
      rcases malloc_spec positive sound modest replies with ⟨result, returned, keeps, spares, _⟩
      rw [next, returned] at stepped
      rcases Option.some.inj stepped with rfl
      refine ⟨keeps, fun b inUse _ => ⟨?_, fun i inside => ?_⟩⟩
      · rw [State.receive]
        split
        · exact inUse
        · exact Finset.mem_insert_of_mem inUse
      · rw [State.receive]
        split
        · exact spares b i inUse inside
        · exact spares b i inUse inside
  | free c =>
      rw [next] at stepped
      split at stepped
      next inUse =>
        rcases sound.ready inUse with ⟨nodes, ready⟩
        rcases free_ready ready inUse with ⟨heap, freed, spares, keeps⟩
        rw [freed] at stepped
        rcases Option.some.inj stepped with rfl
        refine ⟨Or.inr keeps, fun b known other => ?_⟩
        have stays : b ∈ s.live.erase c := Finset.mem_erase.mpr ⟨fun same => other same.symm, known⟩
        exact ⟨stays, fun i inside => spares b i stays inside⟩
      next => exact absurd stepped.symm (Option.some_ne_none _)
  | store c i data =>
      rw [next] at stepped
      split at stepped
      next allowed =>
        rcases sound.ready allowed.1 with ⟨nodes, ready⟩
        rcases store_ready ready allowed.1 allowed.2.1 allowed.2.2 data with ⟨keeps, spares⟩
        rcases Option.some.inj stepped with rfl
        refine ⟨Or.inr ⟨nodes, keeps⟩, fun b known other => ?_⟩
        exact ⟨known, fun j inside => spares b j
          (Finset.mem_erase.mpr ⟨fun same => other same.symm, known⟩) inside⟩
      next => exact absurd stepped.symm (Option.some_ne_none _)

end Steps

section Runs

variable {base : Nat} {s after : State}

theorem Sound.reached (positive : 0 < base)
    (reached : Reachable (next base) (Fresh base) (fun _ => Modest) s) : Sound base s :=
  reached.invariant (fun _ fresh => Or.inl fresh)
    (fun _ _ _ sound modest stepped => (next_spec positive sound modest stepped).1)

/-- In every run, the blocks that the program has lie apart, behind the static header and before
the end of the memory, with room for what was asked; the free blocks are one ring in ascending
order, no two of them touch, and blocks and free blocks together are all that `sbrk` gave. -/
theorem allocator_keeps_blocks_apart (positive : 0 < base)
    (reached : Reachable (next base) (Fresh base) (fun _ => Modest) s) :
    (forall b, b ∈ s.live ->
      base < b ∧ b + s.heap.size b ≤ s.heap.brk ∧ s.asked b ≤ 8 * (s.heap.size b - 1)) ∧
    (forall a b, a ∈ s.live -> b ∈ s.live -> a < b -> a + s.heap.size a ≤ b) ∧
    (s.heap.freep ≠ 0 ->
      Exists fun nodes =>
        s.heap.freep ∈ nodes ∧ SortedRing s.heap.ptr nodes base ∧ Disjoint nodes s.live ∧
        Packed s.heap.size (nodes ∪ s.live) base s.heap.brk ∧ Joined base s.heap nodes ∧
        ∑ x ∈ nodes ∪ s.live, s.heap.size x = s.heap.granted) := by
  rcases Sound.reached positive reached with fresh | ⟨nodes, ready⟩
  · have none : forall {b}, b ∉ s.live :=
      fun {b} inUse => Finset.notMem_empty b (fresh.live ▸ inUse)
    exact ⟨fun b inUse => absurd inUse none, fun a b inUse => absurd inUse none,
      fun begun => absurd fresh.freep begun⟩
  · have arena := ready.arena
    exact ⟨fun b inUse => ⟨arena.above b inUse, arena.packed.within b (Arena.block inUse),
      ready.room b inUse⟩, fun a b first second =>
      arena.packed.apart a b (Arena.block first) (Arena.block second), fun _ =>
      ⟨nodes, arena.start, arena.ring, arena.away, arena.packed, ready.joined, arena.total⟩⟩

theorem allocator_keeps_blocks_apart_usage :
    Exists fun s =>
      run (next 4) started usage = some s ∧
      forall b, b ∈ s.live ->
        4 < b ∧ b + s.heap.size b ≤ s.heap.brk ∧ s.asked b ≤ 8 * (s.heap.size b - 1) :=
  ⟨_, rfl, (allocator_keeps_blocks_apart (by decide) (@Reachable.run_allowed _ _ (next 4) (Fresh 4)
    (fun _ => Modest) started _ (.start started_fresh) usage rfl usage_modest)).1⟩

/-- In every state, `malloc` returns, and gives 0 only when no free block is large enough and the
kernel refuses; and `free` of every block that the program has returns. -/
theorem allocator_returns (positive : 0 < base)
    (reached : Reachable (next base) (Fresh base) (fun _ => Modest) s) :
    (forall nbytes replies, nbytes < 2 ^ 31 - 16 ->
      Exists fun heap => Exists fun ap =>
        s.heap.malloc base nbytes replies = some (heap, ap) ∧
        (ap = 0 ->
          (Exists fun nodes =>
            SortedRing heap.ptr nodes base ∧ heap.freep ∈ nodes ∧
            forall x, x ∈ nodes -> heap.size x < Heap.nunits nbytes) ∧
          forall p, replies.headD none = some p ->
            ¬ (s.heap.brk ≤ p ∧ p + request (Heap.nunits nbytes) ≤ addressLimit))) ∧
    forall b, b ∈ s.live -> Exists fun heap => s.heap.free (b + 1) = some heap := by
  have sound := Sound.reached positive reached
  refine ⟨fun nbytes replies modest => ?_, fun b inUse => ?_⟩
  · rcases malloc_spec positive sound modest replies with ⟨result, returned, _, _, failed⟩
    exact ⟨result.1, result.2, returned, failed⟩
  · rcases sound.ready inUse with ⟨nodes, ready⟩
    rcases free_ready ready inUse with ⟨heap, freed, _⟩
    exact ⟨heap, freed⟩

theorem allocator_returns_usage : Exists fun s => run (next 4) started usage = some s ∧
    forall b, b ∈ s.live -> Exists fun heap => s.heap.free (b + 1) = some heap :=
  ⟨_, rfl, (allocator_returns (by decide) (@Reachable.run_allowed _ _ (next 4) (Fresh 4)
    (fun _ => Modest) started _ (.start started_fresh) usage rfl usage_modest)).2⟩

/-- In every run in which the program neither frees nor writes a block, the block stays, with its
header and its data. -/
theorem allocator_spares_data (positive : 0 < base)
    (reached : Reachable (next base) (Fresh base) (fun _ => Modest) s) {events : List Event}
    (ran : run (next base) s events = some after)
    (modest : forall event, event ∈ events -> Modest event) {b : Nat} (inUse : b ∈ s.live)
    (others : forall event, event ∈ events -> ¬ event.Names b) : Keeps s after b := by
  induction events generalizing s with
  | nil =>
      rcases Option.some.inj ran with rfl
      exact ⟨inUse, fun _ _ => rfl⟩
  | cons event events ih =>
      rcases run_cons_eq_some.mp ran with ⟨middle, stepped, rest⟩
      have sound := Sound.reached positive reached
      have here : event ∈ event :: events := List.mem_cons_self
      have kept := (next_spec positive sound (modest event here) stepped).2 b inUse
          (others event here)
      have later := ih (reached.step (modest event here) stepped) rest
          (fun one inside => modest one (List.mem_cons_of_mem _ inside)) kept.1
          (fun one inside => others one (List.mem_cons_of_mem _ inside))
      rcases sound.ready inUse with ⟨nodes, ready⟩
      have some := ready.arena.packed.positive b (Arena.block inUse)
          (ne_of_gt (ready.arena.above b inUse))
      have size : middle.heap.size b = s.heap.size b := congrArg Header.size (kept.2 0 some)
      refine ⟨later.1, fun i inside => ?_⟩
      rw [later.2 i (by rw [size]; exact inside)]
      exact kept.2 i inside

theorem allocator_spares_data_usage :
    Exists fun s => Exists fun after =>
      run (next 4) started [.malloc 20 [some 16]] = some s ∧
      run (next 4) s [.malloc 8 []] = some after ∧ Keeps s after 4108 :=
  ⟨_, _, rfl, rfl, @allocator_spares_data 4 _ _ (by decide)
    (@Reachable.run_allowed _ _ (next 4) (Fresh 4) (fun _ => Modest) started _
    (.start started_fresh) [.malloc 20 [some 16]] rfl (fun event inside => usage_modest event
    (List.mem_of_mem_take (i := 1) inside))) [.malloc 8 []] rfl (fun event inside =>
    List.mem_singleton.mp inside ▸ (by decide : 8 < 2 ^ 31 - 16)) 4108 (by decide)
    (fun event inside names => by rcases List.mem_singleton.mp inside with rfl; exact names)⟩

end Runs

end UserPrograms
end OsProjects
