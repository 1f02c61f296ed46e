import OsProjects.WebServer.Threads
import Mathlib.Data.Finset.Card
import Mathlib.Data.Multiset.Basic
import Mathlib.Data.Finset.Insert
import Mathlib.Order.Interval.Finset.Nat

namespace OsProjects
namespace WebServer

/-!
# No request is lost or duplicated

The queue has no list of its entries: an entry is a slot whose `valid` flag is
set, and `buff_count` is kept beside the flags.  A ledger beside the running
server writes down every triple of descriptor, line pointer and file size that
`put` stores and that a worker has received from `get`.  The two agree, at every
moment and for every interleaving, up to the entries that are still in valid slots.

The scan of `get` marks "nothing chosen yet" by the value `-1`, which is also a
possible file size.  It may then take a file that is not the smallest one, but
it takes a valid one all the same.
-/

/-- A request as the queue keeps it: descriptor, line pointer and file size. -/
abbrev Request : Type := Int × Nat × Int

namespace Server

/-- The entry in a slot. -/
def entry (server : Server) (i : Nat) : Request :=
  (server.buffer i, server.fileinfo i, server.size_file i)

/-- The slots whose flag is set. -/
def occupied (server : Server) : Finset Nat :=
  (Finset.range server.buffer_sz).filter (fun i => server.valid i = 1)

/-- The entries in valid slots. -/
def stored (server : Server) : Multiset Request :=
  server.occupied.val.map server.entry

theorem mem_occupied {server : Server} {i : Nat} :
    i ∈ server.occupied ↔ i < server.buffer_sz ∧ server.valid i = 1 := by
  rw [occupied, Finset.mem_filter, Finset.mem_range]

/-- A scan that has already chosen an occupied slot ends with one. -/
theorem getFrom_mem_occupied (server : Server) (todo i : Nat) (temp_val : Int) (temp_ind : Nat)
    (within : i + todo ≤ server.buffer_sz) (chosen : temp_ind ∈ server.occupied) :
    server.getFrom todo i temp_val temp_ind ∈ server.occupied := by
  induction todo generalizing i temp_val temp_ind with
  | zero => exact chosen
  | succ todo ih =>
      unfold getFrom
      have rest : i + 1 + todo ≤ server.buffer_sz := by omega
      split
      · rename_i isValid
        have here : i ∈ server.occupied := mem_occupied.mpr ⟨by omega, isValid⟩
        split
        · exact ih (i + 1) _ i rest here
        · split
          · exact ih (i + 1) _ i rest here
          · exact ih (i + 1) _ temp_ind rest chosen
      · exact ih (i + 1) _ temp_ind rest chosen

/-- A scan that starts with nothing chosen finds an occupied slot if there is one. -/
theorem getFrom_finds (server : Server) (todo i temp_ind : Nat)
    (within : i + todo ≤ server.buffer_sz)
    (some_valid : Exists fun j => i ≤ j ∧ j < i + todo ∧ server.valid j = 1) :
    server.getFrom todo i (-1) temp_ind ∈ server.occupied := by
  induction todo generalizing i temp_ind with
  | zero =>
      rcases some_valid with ⟨j, above, below, _⟩
      omega
  | succ todo ih =>
      unfold getFrom
      have rest : i + 1 + todo ≤ server.buffer_sz := by omega
      split
      · rename_i isValid
        rw [if_pos rfl]
        exact getFrom_mem_occupied server todo (i + 1) _ i rest
          (mem_occupied.mpr ⟨by omega, isValid⟩)
      · rename_i isClear
        rcases some_valid with ⟨j, above, below, isValid⟩
        have later : j ≠ i := fun same => isClear (same ▸ isValid)
        exact ih (i + 1) temp_ind rest ⟨j, by omega, by omega, isValid⟩

/-- The slot that `get` empties is a valid one. -/
theorem chosen_mem_occupied {server : Server} (nonempty : server.occupied.Nonempty) :
    server.chosen ∈ server.occupied := by
  rcases nonempty with ⟨j, isOccupied⟩
  rcases mem_occupied.mp isOccupied with ⟨within, isValid⟩
  exact server.getFrom_finds server.buffer_sz 0 0 (Nat.le_of_eq (Nat.zero_add _))
    ⟨j, Nat.zero_le j, by omega, isValid⟩

/-- The flags are flags, and the count counts them. -/
structure Counted (server : Server) : Prop where
  flag : forall i, i < server.buffer_sz -> server.valid i = 0 ∨ server.valid i = 1
  count : server.buff_count = server.occupied.card

namespace Counted

variable {server : Server}

theorem count_le (counted : server.Counted) : server.buff_count ≤ server.buffer_sz := by
  have bound : server.occupied.card ≤ server.buffer_sz := by
    calc server.occupied.card ≤ (Finset.range server.buffer_sz).card := Finset.card_filter_le _ _
      _ = server.buffer_sz := Finset.card_range _
  rw [counted.count]
  exact Int.ofNat_le.mpr bound

/-- When the count is below the size, `put` fills a slot that was free. -/
theorem put_finds (counted : server.Counted) (space : server.buff_count ≠ server.buffer_sz)
    (value : Int) (buff : Nat) (file_sz filename_sz : Int) :
    Exists fun free => free < server.buffer_sz ∧ server.valid free = 0 ∧
      server.put value buff file_sz filename_sz =
        server.filled free value buff file_sz filename_sz := by
  have someFree : Exists fun i => i < server.buffer_sz ∧ server.valid i = 0 := by
    by_contra allBusy
    have every : server.occupied = Finset.range server.buffer_sz := by
      refine Finset.filter_true_of_mem fun i inside => ?_
      have within := Finset.mem_range.mp inside
      rcases counted.flag i within with clear | isSet
      · exact absurd ⟨i, within, clear⟩ allBusy
      · exact isSet
    apply space
    rw [counted.count, every, Finset.card_range]
  classical
  have found := Nat.find_spec someFree
  refine ⟨Nat.find someFree, found.1, found.2, ?_⟩
  refine server.put_of_first_free value buff file_sz filename_sz found.2 found.1 ?_
  intro j below clear
  exact Nat.find_min someFree below ⟨by omega, clear⟩

/-- When the count is not zero, `get` empties a slot that was valid. -/
theorem chosen_valid (counted : server.Counted) (nonempty : server.buff_count ≠ 0) :
    server.chosen ∈ server.occupied := by
  apply chosen_mem_occupied
  rw [Finset.nonempty_iff_ne_empty]
  intro empty
  rw [counted.count, empty] at nonempty
  exact nonempty rfl

end Counted

/-! ## What the two operations do to the entries -/

theorem occupied_filled (server : Server) {free : Nat} (within : free < server.buffer_sz)
    (value : Int) (buff : Nat) (file_sz filename_sz : Int) :
    (server.filled free value buff file_sz filename_sz).occupied = insert free server.occupied := by
  ext i
  rw [Finset.mem_insert, mem_occupied, mem_occupied]
  by_cases here : i = free
  · subst i
    simp only [filled, Function.update_self, within, true_and, true_or]
  · simp only [filled, Function.update_of_ne here, here, false_or]

theorem entry_filled_of_ne (server : Server) {free i : Nat} (different : i ≠ free)
    (value : Int) (buff : Nat) (file_sz filename_sz : Int) :
    (server.filled free value buff file_sz filename_sz).entry i = server.entry i := by
  simp only [entry, filled, Function.update_of_ne different]

theorem free_not_mem_occupied {server : Server} {free : Nat} (isFree : server.valid free = 0) :
    free ∉ server.occupied := by
  intro isOccupied
  have isSet := (mem_occupied.mp isOccupied).2
  rw [isFree] at isSet
  exact nomatch isSet

/-- Filling a free slot adds one entry. -/
theorem stored_filled (server : Server) {free : Nat} (within : free < server.buffer_sz)
    (isFree : server.valid free = 0) (value : Int) (buff : Nat) (file_sz filename_sz : Int) :
    (server.filled free value buff file_sz filename_sz).stored =
      (value, buff, file_sz) ::ₘ server.stored := by
  have fresh := free_not_mem_occupied isFree
  have same : forall i, i ∈ server.occupied.val ->
      (server.filled free value buff file_sz filename_sz).entry i = server.entry i := by
    intro i inside
    refine server.entry_filled_of_ne (fun here => fresh ?_) value buff file_sz filename_sz
    rw [← here]
    exact inside
  rw [stored, occupied_filled server within, Finset.insert_val_of_notMem fresh, Multiset.map_cons,
    Multiset.map_congr rfl same, stored]
  simp only [entry, filled, Function.update_self]

theorem Counted.filled {server : Server} (counted : server.Counted) {free : Nat}
    (within : free < server.buffer_sz) (isFree : server.valid free = 0) (value : Int) (buff : Nat)
    (file_sz filename_sz : Int) : (server.filled free value buff file_sz filename_sz).Counted where
  flag := by
    intro i inside
    by_cases here : i = free
    · subst i
      right
      simp only [Server.filled, Function.update_self]
    · simpa only [Server.filled, Function.update_of_ne here] using counted.flag i inside
  count := by
    rw [occupied_filled server within, Finset.card_insert_of_notMem (free_not_mem_occupied isFree),
      Int.natCast_add, ← counted.count]
    rfl

theorem occupied_get (server : Server) :
    server.get.2.occupied = server.occupied.erase server.chosen := by
  ext i
  rw [Finset.mem_erase, mem_occupied, mem_occupied]
  by_cases here : i = server.chosen
  · subst i
    simp only [get, Function.update_self, ne_eq, not_true_eq_false, false_and, iff_false, not_and]
    exact fun _ => nofun
  · simp only [get, Function.update_of_ne here, ne_eq, here, not_false_eq_true, true_and]

/-- Emptying the chosen slot takes its entry away. -/
theorem stored_get {server : Server} (isOccupied : server.chosen ∈ server.occupied) :
    server.entry server.chosen ::ₘ server.get.2.stored = server.stored := by
  have unchanged : server.get.2.entry = server.entry := rfl
  rw [stored, occupied_get, unchanged, ← Multiset.map_cons, Finset.erase_val,
    Multiset.cons_erase isOccupied, stored]

theorem Counted.get {server : Server} (counted : server.Counted)
    (isOccupied : server.chosen ∈ server.occupied) : server.get.2.Counted where
  flag := by
    intro i inside
    by_cases here : i = server.chosen
    · subst i
      left
      simp only [Server.get, Function.update_self]
    · simpa only [Server.get, Function.update_of_ne here] using counted.flag i inside
  count := by
    have positive := Finset.card_pos.mpr ⟨_, isOccupied⟩
    rw [occupied_get, Finset.card_erase_of_mem isOccupied, Int.natCast_sub positive,
      ← counted.count]
    rfl

end Server

/-! ## The ledger -/

/-- What has been put and what has been handed out since the start. -/
structure Ledger where
  put : Multiset Request
  got : Multiset Request

/-- What a step adds to the ledger.  What has been handed out is what the worker goes on
with after `consumer`, and the size of the file in the slot that `get` takes. -/
def Ledger.record (ledger : Ledger) (state after : State) : Event -> Ledger
  | .produce =>
      match state.main with
      | .produce connfd file_sz _ =>
          { ledger with put := (connfd, state.i, file_sz) ::ₘ ledger.put }
      | _ => ledger
  | .consume w =>
      match after.worker w with
      | .handle fd buff_ptr =>
          { ledger with
            got := (fd, buff_ptr, state.server.size_file state.server.chosen) ::ₘ ledger.got }
      | _ => ledger
  | _ => ledger

/-- The server with its ledger. -/
def ledgerNext (thread_num : Nat) (before : State × Ledger) (event : Event) :
    Option (State × Ledger) :=
  (next thread_num before.1 event).map (fun after => (after, before.2.record before.1 after event))

/-- The server starts with an empty ledger. -/
def LedgerStarted (buffer_sz : Nat) (start : State × Ledger) : Prop :=
  Started buffer_sz start.1 ∧ start.2 = ⟨0, 0⟩

/-- What every interleaving keeps. -/
structure Conserved (buffer_sz : Nat) (at_ : State × Ledger) : Prop where
  size : at_.1.server.buffer_sz = buffer_sz
  counted : at_.1.server.Counted
  balance : at_.2.put = at_.2.got + at_.1.server.stored

namespace Conserved

variable {buffer_sz thread_num : Nat} {before after : State × Ledger} {event : Event}

theorem of_started (started : LedgerStarted buffer_sz before) : Conserved buffer_sz before := by
  rcases started with ⟨start, blank⟩
  have none_valid : before.1.server.occupied = ∅ := by
    rw [Finset.eq_empty_iff_forall_notMem]
    intro i isOccupied
    rcases Server.mem_occupied.mp isOccupied with ⟨within, isSet⟩
    rw [start.size] at within
    rw [start.empty i within] at isSet
    exact nomatch isSet
  refine ⟨start.size, ⟨fun i within => ?_, ?_⟩, ?_⟩
  · exact .inl (start.empty i (start.size ▸ within))
  · rw [start.count, none_valid]
    rfl
  · rw [blank, Server.stored, none_valid]
    rfl

/-- Steps that leave the queue alone keep the balance. -/
theorem of_same_server (kept : Conserved buffer_sz before)
    (server : after.1.server = before.1.server) (ledger : after.2 = before.2) :
    Conserved buffer_sz after :=
  ⟨server ▸ kept.size, server ▸ kept.counted, by rw [ledger, server]; exact kept.balance⟩

theorem produce (kept : Conserved buffer_sz before)
    (stepped : ledgerNext thread_num before .produce = some after) : Conserved buffer_sz after := by
  rcases Option.map_eq_some_iff.mp stepped with ⟨state, main, rfl⟩
  simp only [next, mainNext] at main
  split at main
  case h_2 => exact nomatch main
  case h_1 connfd file_sz filename_sz producing =>
    split at main
    case isTrue => exact nomatch main
    case isFalse space =>
      cases Option.some.inj main
      rcases kept.counted.put_finds space connfd before.1.i file_sz filename_sz with
        ⟨free, within, isFree, filled⟩
      refine ⟨?_, ?_, ?_⟩
      · rw [filled]
        exact kept.size
      · rw [filled]
        exact kept.counted.filled within isFree connfd before.1.i file_sz filename_sz
      · simp only [Ledger.record, producing]
        rw [filled, Server.stored_filled before.1.server within isFree, Multiset.add_cons,
          kept.balance]

theorem consume (kept : Conserved buffer_sz before) {w : Nat}
    (stepped : ledgerNext thread_num before (.consume w) = some after) :
    Conserved buffer_sz after := by
  rcases Option.map_eq_some_iff.mp stepped with ⟨state, worker, rfl⟩
  simp only [next, workerNext] at worker
  split at worker
  case isFalse => exact nomatch worker
  case isTrue enabled =>
    cases Option.some.inj worker
    have isOccupied := kept.counted.chosen_valid enabled.2.2
    refine ⟨kept.size, kept.counted.get isOccupied, ?_⟩
    have received : Ledger.record before.2 before.1
        { before.1 with
          server := before.1.server.get.2
          worker := Function.update before.1.worker w
            (.handle before.1.server.get.1.1 before.1.server.get.1.2) } (.consume w) =
        { before.2 with got := before.1.server.entry before.1.server.chosen ::ₘ before.2.got } := by
      simp only [Ledger.record, Function.update_self]
      rfl
    rw [received, Multiset.cons_add, ← Multiset.add_cons, Server.stored_get isOccupied,
      kept.balance]

theorem step (kept : Conserved buffer_sz before)
    (stepped : ledgerNext thread_num before event = some after) : Conserved buffer_sz after := by
  cases event with
  | produce => exact kept.produce stepped
  | consume w => exact kept.consume stepped
  | accept connfd =>
      rcases Option.map_eq_some_iff.mp stepped with ⟨state, main, rfl⟩
      simp only [next, mainNext] at main
      split at main
      · cases Option.some.inj main
        exact kept.of_same_server rfl rfl
      · exact nomatch main
  | readline line file_sz filename_sz =>
      rcases Option.map_eq_some_iff.mp stepped with ⟨state, main, rfl⟩
      simp only [next, mainNext] at main
      split at main
      · cases Option.some.inj main
        exact kept.of_same_server rfl rfl
      · exact nomatch main
  | advance =>
      rcases Option.map_eq_some_iff.mp stepped with ⟨state, main, rfl⟩
      simp only [next, mainNext] at main
      split at main
      · cases Option.some.inj main
        exact kept.of_same_server rfl rfl
      · exact nomatch main
  | parse w =>
      rcases Option.map_eq_some_iff.mp stepped with ⟨state, worker, rfl⟩
      simp only [next, workerNext] at worker
      split at worker
      · cases Option.some.inj worker
        exact kept.of_same_server rfl rfl
      · exact nomatch worker
  | close w =>
      rcases Option.map_eq_some_iff.mp stepped with ⟨state, worker, rfl⟩
      simp only [next, workerNext] at worker
      split at worker
      · cases Option.some.inj worker
        exact kept.of_same_server rfl rfl
      · exact nomatch worker

end Conserved

/-- In every reachable state of every interleaving: the count is the number of
valid slots and fits the buffer, a `put` that is due finds a free slot, a `get`
that is due finds a valid one, and what was put is what was handed out together
with what is still in valid slots. -/
theorem no_request_lost_or_duplicated {buffer_sz thread_num : Nat} {at_ : State × Ledger}
    (reached : Machine.Reachable (ledgerNext thread_num) (LedgerStarted buffer_sz)
      Machine.anyStep at_) :
    at_.1.server.buff_count = at_.1.server.occupied.card ∧
    0 ≤ at_.1.server.buff_count ∧ at_.1.server.buff_count ≤ buffer_sz ∧
    (forall connfd file_sz filename_sz, at_.1.main = .produce connfd file_sz filename_sz ->
      at_.1.server.buff_count ≠ at_.1.server.buffer_sz ->
      Exists fun free => free < buffer_sz ∧ at_.1.server.valid free = 0 ∧
        at_.1.server.put connfd at_.1.i file_sz filename_sz =
          at_.1.server.filled free connfd at_.1.i file_sz filename_sz) ∧
    (at_.1.server.buff_count ≠ 0 ->
      at_.1.server.chosen < buffer_sz ∧ at_.1.server.valid at_.1.server.chosen = 1) ∧
    at_.2.put = at_.2.got + at_.1.server.stored := by
  have kept : Conserved buffer_sz at_ :=
    reached.invariant (fun _ started => Conserved.of_started started)
      (fun _ _ _ inv _ stepped => inv.step stepped)
  have counted := kept.counted
  refine ⟨counted.count, ?_, ?_, ?_, ?_, kept.balance⟩
  · rw [counted.count]
    exact Int.natCast_nonneg _
  · rw [← kept.size]
    exact counted.count_le
  · intro connfd file_sz filename_sz _ space
    rw [← kept.size]
    exact counted.put_finds space connfd at_.1.i file_sz filename_sz
  · intro nonempty
    rw [← kept.size]
    exact Server.mem_occupied.mp (counted.chosen_valid nonempty)

/-- A server with two slots, before anything has happened. -/
def quietServer : State :=
  { server := ⟨0, 2, fun _ => 0, fun _ => 0, fun _ => 0, fun _ => 0, fun _ => 0⟩
    fileinfo_buffer := fun _ => ""
    i := 0
    main := .accept
    worker := fun _ => .consume
    opened := fun _ => false
    received := fun _ => "" }

theorem quietServer_started : Started 2 quietServer :=
  ⟨rfl, rfl, fun _ _ => rfl, rfl, rfl, fun _ => rfl⟩

/-- A large file is asked for and then a small one, and a worker takes one of the two. -/
def twoRequests : List Event :=
  [.accept 4, .readline "GET /large" 900 6, .produce, .advance, .accept 5,
    .readline "GET /small" 10 6, .produce, .consume 0]

theorem no_request_lost_or_duplicated_twoRequests :
    Exists fun at_ =>
      Machine.run (ledgerNext 1) (quietServer, ⟨0, 0⟩) twoRequests = some at_ ∧
      at_.1.worker 0 = .handle 5 1 ∧ at_.2.got = {(5, 1, 10)} ∧
      at_.2.put = {(5, 1, 10), (4, 0, 900)} ∧ at_.1.server.stored = {(4, 0, 900)} := by
  have start : Machine.Reachable (ledgerNext 1) (LedgerStarted 2) Machine.anyStep
      (quietServer, ⟨0, 0⟩) := .start ⟨quietServer_started, rfl⟩
  cases ran : Machine.run (ledgerNext 1) (quietServer, ⟨0, 0⟩) twoRequests with
  | none => exact nomatch ran
  | some at_ =>
      have balance := (no_request_lost_or_duplicated (start.run ran)).2.2.2.2.2
      cases Option.some.inj ran
      exact ⟨_, rfl, rfl, rfl, rfl, (Multiset.cons_inj_right _).mp balance.symm⟩

end WebServer
end OsProjects
