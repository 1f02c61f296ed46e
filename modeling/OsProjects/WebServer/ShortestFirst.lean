import Mathlib.Algebra.Order.Ring.Int
import Mathlib.Tactic.IntervalCases
import OsProjects.WebServer.Queue

namespace OsProjects
namespace WebServer

/-!
# Which request `get` takes

`get` looks for the smallest file with one variable `temp_val`, whose value -1 means
that nothing has been found yet.  A file size is a 64-bit number that `getfileinfo`
narrows to an `int`, so -1 is also a size.  Once it has been found, the next valid
entry replaces it.
-/

/-- The assignment of `sbuf.st_size` to an `int` in `getfileinfo`. -/
def file_sz (st_size : Int) : Int := st_size.bmod (2 ^ 32)

namespace Server

variable {server : Server}

/-- The slot with the lowest index among those whose file is smallest, below slot `n`. -/
structure FirstMinimum (server : Server) (n c : Nat) : Prop where
  within : c < n
  isValid : server.valid c = 1
  least : forall j, j < n -> server.valid j = 1 -> server.size_file c ≤ server.size_file j
  first : forall j, j < c -> server.valid j = 1 -> server.size_file c < server.size_file j

theorem exists_firstMinimum (n : Nat) :
    (Exists fun i => i < n ∧ server.valid i = 1) -> Exists fun c => FirstMinimum server n c := by
  induction n with
  | zero =>
      rintro ⟨i, below, _⟩
      exact absurd below (Nat.not_lt_zero i)
  | succ n ih =>
      rintro ⟨i, below, isValid⟩
      have split : forall j, j < n + 1 -> j < n ∨ j = n := fun j within => by omega
      by_cases earlier : Exists fun i => i < n ∧ server.valid i = 1
      · rcases ih earlier with ⟨c, minimum⟩
        by_cases smaller : server.valid n = 1 ∧ server.size_file n < server.size_file c
        · refine ⟨n, Nat.lt_succ_self n, smaller.1, fun j within here => ?_,
            fun j within here => ?_⟩
          · rcases split j within with lower | rfl
            · exact le_of_lt (lt_of_lt_of_le smaller.2 (minimum.least j lower here))
            · exact le_refl _
          · exact lt_of_lt_of_le smaller.2 (minimum.least j within here)
        · refine ⟨c, Nat.lt_succ_of_lt minimum.within, minimum.isValid, fun j within here => ?_,
            minimum.first⟩
          rcases split j within with lower | rfl
          · exact minimum.least j lower here
          · exact not_lt.mp (fun less => smaller ⟨here, less⟩)
      · have here : i = n := (split i below).resolve_left (fun lower => earlier ⟨i, lower, isValid⟩)
        subst here
        refine ⟨i, below, isValid, fun j within other => ?_, fun j within other =>
          absurd ⟨j, within, other⟩ earlier⟩
        rcases split j within with lower | rfl
        · exact absurd ⟨j, lower, other⟩ earlier
        · exact le_refl _

theorem FirstMinimum.unique {n c e : Nat} (one : FirstMinimum server n c)
    (two : FirstMinimum server n e) : c = e := by
  rcases Nat.lt_trichotomy c e with less | same | greater
  · exact absurd (two.first c less one.isValid)
      (not_lt.mpr (one.least e two.within two.isValid))
  · exact same
  · exact absurd (one.first e greater two.isValid)
      (not_lt.mpr (two.least c one.within one.isValid))

/-! ## The scan -/

/-- The scan ends with the slot it has or with one that it still visits. -/
theorem getFrom_range (todo : Nat) :
    forall (i : Nat) (temp_val : Int) (temp_ind : Nat),
      server.getFrom todo i temp_val temp_ind = temp_ind ∨
        i ≤ server.getFrom todo i temp_val temp_ind := by
  induction todo with
  | zero => exact fun _ _ _ => Or.inl rfl
  | succ todo ih =>
      intro i temp_val temp_ind
      have taken : i ≤ server.getFrom todo (i + 1) (server.size_file i) i := by
        rcases ih (i + 1) (server.size_file i) i with same | later
        · exact Nat.le_of_eq same.symm
        · exact Nat.le_of_succ_le later
      have skipped : server.getFrom todo (i + 1) temp_val temp_ind = temp_ind ∨
          i ≤ server.getFrom todo (i + 1) temp_val temp_ind :=
        (ih (i + 1) temp_val temp_ind).imp_right Nat.le_of_succ_le
      unfold getFrom
      split_ifs
      · exact Or.inr taken
      · exact Or.inr taken
      · exact skipped
      · exact skipped

/-- Behind the minimum, unless it is -1, the scan changes nothing. -/
theorem getFrom_behind {c : Nat} (mark : server.size_file c ≠ -1) (todo : Nat) :
    forall i, (forall j, i ≤ j -> j < i + todo -> server.valid j = 1 ->
      server.size_file c ≤ server.size_file j) ->
      server.getFrom todo i (server.size_file c) c = c := by
  induction todo with
  | zero => exact fun _ _ => rfl
  | succ todo ih =>
      intro i least
      have rest := ih (i + 1) (fun j lower upper => least j (by omega) (by omega))
      unfold getFrom
      by_cases here : server.valid i = 1
      · rw [if_pos here, if_neg mark, if_neg (not_lt.mpr (least i (Nat.le_refl i) (by omega) here))]
        exact rest
      · rw [if_neg here]
        exact rest

/-- Behind a slot with the size -1 the next valid slot is taken. -/
theorem getFrom_masked {c next : Nat} (isValid : server.valid next = 1) (todo : Nat) :
    forall i, c < i -> i ≤ next -> next < i + todo -> c < server.getFrom todo i (-1) c := by
  induction todo with
  | zero =>
      intro i _ lower upper
      omega
  | succ todo ih =>
      intro i above lower upper
      unfold getFrom
      by_cases here : server.valid i = 1
      · rw [if_pos here, if_pos rfl]
        rcases server.getFrom_range todo (i + 1) (server.size_file i) i with same | later
        · rw [same]
          exact above
        · omega
      · have different : i ≠ next := fun same => here (by rw [same]; exact isValid)
        rw [if_neg here]
        exact ih (i + 1) (by omega) (by omega) (by omega)

/-- Up to the first minimum the scan has found nothing or something larger, so it comes
to the minimum and takes it. -/
theorem getFrom_reaches {n c : Nat} (minimum : FirstMinimum server n c) (todo : Nat) :
    forall (i : Nat) (temp_val : Int) (temp_ind : Nat), i ≤ c -> c < i + todo ->
      (temp_val = -1 ∨ server.size_file c < temp_val) ->
      server.getFrom todo i temp_val temp_ind =
        server.getFrom (i + todo - (c + 1)) (c + 1) (server.size_file c) c := by
  induction todo with
  | zero =>
      intro i _ _ lower upper
      omega
  | succ todo ih =>
      intro i temp_val temp_ind lower upper larger
      have rest : i + (todo + 1) - (c + 1) = i + 1 + todo - (c + 1) := by omega
      rw [getFrom, rest]
      by_cases found : i = c
      · subst found
        rw [if_pos minimum.isValid, Nat.add_sub_cancel_left]
        by_cases nothing : temp_val = -1
        · rw [if_pos nothing]
        · rw [if_neg nothing, if_pos (larger.resolve_left nothing)]
      · have before : i < c := Nat.lt_of_le_of_ne lower found
        have skip := fun value index => ih (i + 1) value index before (by omega)
        split_ifs with here nothing smaller
        · exact skip _ _ (Or.inr (minimum.first i before here))
        · exact skip _ _ (Or.inr (minimum.first i before here))
        · exact skip _ _ larger
        · exact skip _ _ larger

/-! ## Shortest first -/

/-- `get` takes the first of the smallest entries and clears its slot and no other. -/
def ShortestFirst (server : Server) : Prop :=
  Exists fun c => FirstMinimum server server.buffer_sz c ∧
    server.get = ((server.buffer c, server.fileinfo c),
    { server with valid := Function.update server.valid c 0, buff_count := server.buff_count - 1 })

/-- No entry with the size -1 is smallest and has a valid entry in a higher slot. -/
def Unmasked (server : Server) : Prop :=
  forall i j, i < j -> j < server.buffer_sz -> server.valid i = 1 -> server.valid j = 1 ->
    server.size_file i = -1 ->
    Exists fun k => k < server.buffer_sz ∧ server.valid k = 1 ∧ server.size_file k < -1

theorem chosen_of_unmasked {c : Nat} (minimum : FirstMinimum server server.buffer_sz c)
    (unmasked : server.Unmasked) : server.chosen = c := by
  have below := minimum.within
  have reached := server.getFrom_reaches minimum server.buffer_sz 0 (-1) 0 (Nat.zero_le c)
    (by omega) (Or.inl rfl)
  rw [chosen, reached]
  by_cases mark : server.size_file c = -1
  · refine server.getFrom_skip _ _ _ _ (fun j lower upper isValid => ?_)
    rcases unmasked c j (by omega) (by omega) minimum.isValid isValid mark with
      ⟨k, within, other, less⟩
    have least := minimum.least k within other
    rw [mark] at least
    exact absurd less (not_lt.mpr least)
  · exact getFrom_behind mark _ _ (fun j _ upper => minimum.least j (by omega))

/-- A smallest entry with the size -1 is passed over if a valid entry follows. -/
theorem chosen_of_masked {c : Nat} (minimum : FirstMinimum server server.buffer_sz c)
    (masked : ¬ server.Unmasked) : c < server.chosen := by
  unfold Unmasked at masked
  push Not at masked
  rcases masked with ⟨i, j, order, within, isValid, next, mark, least⟩
  have isMark : server.size_file c = -1 := by
    have upper := minimum.least i (by omega) isValid
    have lower := least c minimum.within minimum.isValid
    omega
  have notBelow : c ≤ i := by
    by_contra above
    have smaller := minimum.first i (by omega) isValid
    omega
  have below := minimum.within
  rw [chosen, server.getFrom_reaches minimum server.buffer_sz 0 (-1) 0 (Nat.zero_le c) (by omega)
    (Or.inl rfl), isMark]
  exact getFrom_masked next _ (c + 1) (Nat.lt_succ_self c) (by omega) (by omega)

/-- What `get` leaves tells which slot it has taken. -/
theorem chosen_of_shortestFirst (shortest : server.ShortestFirst) :
    FirstMinimum server server.buffer_sz server.chosen := by
  rcases shortest with ⟨c, minimum, same⟩
  have cleared := congrArg (fun result => result.2.valid c) same
  have here : Function.update server.valid server.chosen 0 c = Function.update server.valid c 0 c :=
    cleared
  rw [Function.update_self] at here
  by_cases isChosen : c = server.chosen
  · rw [← isChosen]
    exact minimum
  · rw [Function.update_of_ne isChosen, minimum.isValid] at here
    exact absurd here (by decide)

theorem not_shortestFirst_of_masked (nonempty : Exists fun i => i < server.buffer_sz ∧
    server.valid i = 1) (masked : ¬ server.Unmasked) : ¬ server.ShortestFirst := by
  intro shortest
  rcases exists_firstMinimum server.buffer_sz nonempty with ⟨c, minimum⟩
  have later := chosen_of_masked minimum masked
  rw [(chosen_of_shortestFirst shortest).unique minimum] at later
  exact Nat.lt_irrefl c later

/-- `get` takes the shortest file first exactly when no smallest entry has the size -1
and a valid entry behind it. -/
theorem get_shortest_first_iff (server : Server)
    (nonempty : Exists fun i => i < server.buffer_sz ∧ server.valid i = 1) :
    server.ShortestFirst ↔ server.Unmasked := by
  refine ⟨fun shortest => ?_, fun unmasked => ?_⟩
  · by_contra masked
    exact not_shortestFirst_of_masked nonempty masked shortest
  · rcases exists_firstMinimum server.buffer_sz nonempty with ⟨c, minimum⟩
    refine ⟨c, minimum, ?_⟩
    rw [get, chosen_of_unmasked minimum unmasked]

/-- An empty queue with two slots. -/
def twoSlots : Server where
  buff_count := 0
  buffer_sz := 2
  buffer := fun _ => 0
  valid := fun _ => 0
  fileinfo := fun _ => 0
  size_file := fun _ => 0
  size_filename := fun _ => 0

/-- Four requests: for 300 bytes, for a file that gets the size -1, and for two that get -5. -/
def fourEntries : Server :=
  (((({ twoSlots with buffer_sz := 4 } : Server).put 4 0 (file_sz 300) 10).put 5 1
    (file_sz (2 ^ 32 - 1)) 10).put 6 2 (file_sz (2 ^ 32 - 5)) 10).put 7 3 (file_sz (2 ^ 32 - 5)) 10

/-- The size -1 does no harm, and the first of the two smallest entries is taken. -/
theorem get_shortest_first_iff_four : fourEntries.ShortestFirst ∧ fourEntries.get.1 = (6, 2) := by
  refine ⟨(get_shortest_first_iff fourEntries ⟨0, by decide, by decide⟩).mpr
    (fun i j _ _ _ _ _ => ?_), by decide⟩
  exact ⟨2, by decide, by decide, by decide⟩

/-- A file of 2 ^ 32 - 1 bytes, which `getfileinfo` gives the size -1, and one of 100
bytes: `get` takes the second one. -/
theorem largest_file_passed_over :
    let server := (twoSlots.put 4 0 (file_sz (2 ^ 32 - 1)) 10).put 5 1 (file_sz 100) 10
    server.size_file 0 = -1 ∧ server.size_file 1 = 100 ∧ server.get.1 = (5, 1) ∧
      ¬ server.ShortestFirst := by
  refine ⟨by decide, by decide, by decide, not_shortestFirst_of_masked ⟨0, by decide, by decide⟩
    (fun unmasked => ?_)⟩
  rcases unmasked 0 1 (by decide) (by decide) (by decide) (by decide) (by decide) with
    ⟨k, within, _, less⟩
  have small : k < 2 := within
  interval_cases k
  · exact absurd less (by decide)
  · exact absurd less (by decide)

end Server
end WebServer
end OsProjects
