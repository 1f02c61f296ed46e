import OsProjects.Channels.Pipe

namespace OsProjects
namespace Channels

open Machine

/-!
# The console's line editing

What is typed goes into a ring of `INPUT_BUF` characters with three indices: readers take
characters at `r`, lines are finished at `w`, and the line that is still edited ends at `e`.
A line is finished by a newline, by control-D, or by filling the ring.

The ring stands for two lists: the characters that are ready to be read, and the line that
is still edited.  What is echoed on the screen is left out.
-/

def INPUT_BUF : Nat := 128

/-- Control characters. -/
def ctrl (c : Char) : UInt8 := UInt8.ofNat (c.toNat - '@'.toNat)

def newline : UInt8 := 10
def carriageReturn : UInt8 := 13
def rubout : UInt8 := 127

structure Input where
  buf : Nat -> UInt8
  r : UInt32
  w : UInt32
  e : UInt32

namespace Input

/-- The loop of control-U, for at most as many characters as there are from `w` to `e`. -/
def killLine : Nat -> Input -> Input
  | 0, s => s
  | left + 1, s =>
      if s.e ≠ s.w ∧ s.buf ((s.e - 1).toNat % INPUT_BUF) ≠ newline then
        killLine left { s with e := s.e - 1 }
      else s

/-- One character of the loop of `consoleintr`, and whether it wakes the readers. -/
def typed (s : Input) (c : UInt8) : Input × Bool :=
  if c = ctrl 'P' then (s, false)
  else if c = ctrl 'U' then (killLine (s.e - s.w).toNat s, false)
  else if c = ctrl 'H' ∨ c = rubout then (if s.e ≠ s.w then { s with e := s.e - 1 } else s, false)
  else if c ≠ 0 ∧ (s.e - s.r).toNat < INPUT_BUF then
    let c := if c = carriageReturn then newline else c
    let stored := { s with buf := Function.update s.buf (s.e.toNat % INPUT_BUF) c, e := s.e + 1 }
    if c = newline ∨ c = ctrl 'D' ∨ stored.e = stored.r + UInt32.ofNat INPUT_BUF then
      ({ stored with w := stored.e }, true)
    else (stored, false)
  else (s, false)

/-- The loop of `consoleread` with `n` characters still to copy of `target`, up to a return or a
`sleep`. -/
def readLoop (killed : Bool) (target : Nat) : Nat -> Input -> Stop × List UInt8 × Input
  | 0, s => (.returned, [], s)
  | n + 1, s =>
      if s.r = s.w then (if killed then .failed else .asleep, [], s)
      else
        let c := s.buf (s.r.toNat % INPUT_BUF)
        let after := { s with r := s.r + 1 }
        if c = ctrl 'D' then
          (.returned, [], if n + 1 < target then { after with r := after.r - 1 } else after)
        else if c = newline then (.returned, [c], after)
        else
          let rest := readLoop killed target n after
          (rest.1, c :: rest.2.1, rest.2.2)

end Input

/-! ## The lists behind the ring -/

/-- The characters that are ready, and the line that is still edited. -/
structure Line where
  ready : List UInt8
  pending : List UInt8

namespace Line

def all (line : Line) : List UInt8 := line.ready ++ line.pending

/-- Put a character behind the line that is edited, and finish the line with it or not. -/
def put (line : Line) (c : UInt8) (finish : Bool) : Line :=
  if finish then ⟨line.all ++ [c], []⟩ else ⟨line.ready, line.pending ++ [c]⟩

/-- What a character does. -/
def typed (line : Line) (c : UInt8) : Line :=
  if c = ctrl 'P' then line
  else if c = ctrl 'U' then ⟨line.ready, []⟩
  else if c = ctrl 'H' ∨ c = rubout then ⟨line.ready, line.pending.dropLast⟩
  else if c ≠ 0 ∧ line.all.length < INPUT_BUF then
    let c := if c = carriageReturn then newline else c
    line.put c (c = newline ∨ c = ctrl 'D' ∨ line.all.length + 1 = INPUT_BUF)
  else line

/-- What a read takes from the front: whether it returns, what it copies, and what it leaves. -/
def read (target : Nat) : Nat -> List UInt8 -> Bool × List UInt8 × List UInt8
  | 0, ready => (true, [], ready)
  | _ + 1, [] => (false, [], [])
  | n + 1, c :: ready =>
      if c = ctrl 'D' then (true, [], if n + 1 < target then c :: ready else ready)
      else if c = newline then (true, [c], ready)
      else ((read target n ready).1, c :: (read target n ready).2.1, (read target n ready).2.2)

end Line

/-- The ring contains the two lists. -/
structure Input.Holds (s : Input) (line : Line) (base : Nat) : Prop where
  r : s.r = UInt32.ofNat base
  w : s.w = UInt32.ofNat (base + line.ready.length)
  e : s.e = UInt32.ofNat (base + line.all.length)
  stored : line.all = ringItems s.buf INPUT_BUF base line.all.length
  fits : line.all.length ≤ INPUT_BUF
  unfinished : forall c, c ∈ line.pending -> c ≠ newline

namespace Input.Holds

variable {s : Input} {line : Line} {base n : Nat} {c : UInt8}

theorem index_inj {k l : Nat} (within : k ≤ INPUT_BUF) (other : l ≤ INPUT_BUF) :
    UInt32.ofNat (base + k) = UInt32.ofNat (base + l) ↔ k = l :=
  RingItems.ofNat_inj (by decide) within other

theorem index_mod : (UInt32.ofNat n).toNat % INPUT_BUF = n % INPUT_BUF :=
  RingItems.index_mod (by decide) n

theorem length_all : line.all.length = line.ready.length + line.pending.length := List.length_append

theorem ready_le (holds : s.Holds line base) : line.ready.length ≤ INPUT_BUF := by
  have fits := holds.fits
  rw [length_all] at fits
  exact Nat.le_trans (Nat.le_add_right _ _) fits

/-- How far an index has moved. -/
theorem moved {k : Nat} (small : k ≤ INPUT_BUF) :
    (UInt32.ofNat (n + k) - UInt32.ofNat n).toNat = k := by
  have below : k < 2 ^ 32 := Nat.lt_of_le_of_lt small (by decide)
  rw [UInt32.ofNat_add, UInt32.add_comm, UInt32.add_sub_cancel, UInt32.toNat_ofNat',
    Nat.mod_eq_of_lt below]

theorem used (holds : s.Holds line base) : (s.e - s.r).toNat = line.all.length := by
  rw [holds.e, holds.r, moved holds.fits]

theorem edited (holds : s.Holds line base) : (s.e - s.w).toNat = line.pending.length := by
  have fits := holds.fits
  rw [length_all] at fits
  rw [holds.e, holds.w, length_all, ← Nat.add_assoc,
    moved (Nat.le_trans (Nat.le_add_left _ _) fits)]

theorem e_eq_w (holds : s.Holds line base) : s.e = s.w ↔ line.pending = [] := by
  rw [holds.e, holds.w, index_inj holds.fits holds.ready_le, length_all, ← List.length_eq_zero_iff]
  omega

theorem r_eq_w (holds : s.Holds line base) : s.r = s.w ↔ line.ready = [] := by
  have same := @index_inj base 0 line.ready.length (Nat.zero_le _) holds.ready_le
  rw [Nat.add_zero] at same
  rw [holds.r, holds.w, same, eq_comm, List.length_eq_zero_iff]

/-- The last character of the line that is edited, and the ring without it. -/
theorem last (holds : s.Holds ⟨line.ready, line.pending ++ [c]⟩ base) :
    s.buf ((s.e - 1).toNat % INPUT_BUF) = c ∧ Holds { s with e := s.e - 1 } line base := by
  have whole : Line.all ⟨line.ready, line.pending ++ [c]⟩ = line.all ++ [c] :=
    (List.append_assoc _ _ _).symm
  have counted : (Line.all ⟨line.ready, line.pending ++ [c]⟩).length = line.all.length + 1 := by
    rw [whole, List.length_append, List.length_singleton]
  have e : s.e - 1 = UInt32.ofNat (base + line.all.length) := by
    rw [holds.e, counted, ← Nat.add_assoc, UInt32.ofNat_add _ 1]
    exact UInt32.add_sub_cancel _ _
  have stored := holds.stored
  rw [counted, RingItems.succ, whole] at stored
  rcases List.append_inj' stored rfl with ⟨front, back⟩
  have fits := holds.fits
  rw [counted] at fits
  refine ⟨?_, holds.r, holds.w, e, front, Nat.le_of_succ_le fits,
    fun d inside => holds.unfinished d (List.mem_append_left _ inside)⟩
  rw [e, index_mod]
  exact (List.cons.inj back).1.symm

/-- Backspace. -/
theorem erase (holds : s.Holds line base) :
    (if s.e ≠ s.w then { s with e := s.e - 1 } else s).Holds
      ⟨line.ready, line.pending.dropLast⟩ base := by
  rcases line with ⟨ready, pending⟩
  rcases List.eq_nil_or_concat' pending with rfl | ⟨front, c, rfl⟩
  · rw [if_neg (not_not_intro (holds.e_eq_w.mpr rfl))]
    exact holds
  · have more : s.e ≠ s.w := fun same => List.append_ne_nil_of_right_ne_nil front
        (List.cons_ne_nil c []) (holds.e_eq_w.mp same)
    rw [if_pos more, List.dropLast_concat]
    exact (@last s ⟨ready, front⟩ base c holds).2

/-- Control-U takes the line that is edited back to its beginning. -/
theorem killLine (left : Nat) (holds : s.Holds line base) (enough : line.pending.length ≤ left) :
    (s.killLine left).Holds ⟨line.ready, []⟩ base := by
  induction left generalizing s line with
  | zero =>
      rcases line with ⟨ready, pending⟩
      rcases List.length_eq_zero_iff.mp (Nat.le_zero.mp enough) with rfl
      exact holds
  | succ left ih =>
      rcases line with ⟨ready, pending⟩
      rcases List.eq_nil_or_concat' pending with rfl | ⟨front, c, rfl⟩
      · rw [Input.killLine, if_neg (fun more => more.1 (holds.e_eq_w.mpr rfl))]
        exact holds
      · have more : s.e ≠ s.w := fun same => List.append_ne_nil_of_right_ne_nil front
            (List.cons_ne_nil c []) (holds.e_eq_w.mp same)
        rcases @last s ⟨ready, front⟩ base c holds with ⟨char, shorter⟩
        have letter : s.buf ((s.e - 1).toNat % INPUT_BUF) ≠ newline := by
          rw [char]
          exact holds.unfinished c (List.mem_append_right _ List.mem_cons_self)
        rw [Input.killLine, if_pos ⟨more, letter⟩]
        have counted : (front ++ [c]).length ≤ left + 1 := enough
        rw [List.length_append, List.length_singleton] at counted
        exact @ih _ ⟨ready, front⟩ shorter (Nat.le_of_succ_le_succ counted)

/-- A character is stored behind the line that is edited. -/
theorem store (holds : s.Holds line base) (room : line.all.length < INPUT_BUF)
    (letter : c ≠ newline) :
    Holds { s with buf := Function.update s.buf (s.e.toNat % INPUT_BUF) c, e := s.e + 1 }
      ⟨line.ready, line.pending ++ [c]⟩ base := by
  have whole : Line.all ⟨line.ready, line.pending ++ [c]⟩ = line.all ++ [c] :=
    (List.append_assoc _ _ _).symm
  have counted : (Line.all ⟨line.ready, line.pending ++ [c]⟩).length = line.all.length + 1 := by
    rw [whole, List.length_append, List.length_singleton]
  refine ⟨holds.r, holds.w, ?_, ?_, ?_, fun d inside => ?_⟩
  · show s.e + 1 = _
    rw [holds.e, counted, ← Nat.add_assoc, UInt32.ofNat_add _ 1]
    rfl
  · show _ = ringItems (Function.update s.buf (s.e.toNat % INPUT_BUF) c) INPUT_BUF base _
    rw [holds.e, index_mod, counted, RingItems.put room, ← holds.stored, whole]
  · rw [counted]
    exact room
  · rcases List.mem_append.mp inside with old | new
    · exact holds.unfinished d old
    · rw [List.mem_singleton.mp new]
      exact letter

/-- A character is stored and finishes the line. -/
theorem finish (holds : s.Holds line base) (room : line.all.length < INPUT_BUF) :
    Holds { s with
      buf := Function.update s.buf (s.e.toNat % INPUT_BUF) c
      e := s.e + 1
      w := s.e + 1 } ⟨line.all ++ [c], []⟩ base := by
  have whole : Line.all ⟨line.all ++ [c], []⟩ = line.all ++ [c] := List.append_nil _
  have counted : (line.all ++ [c]).length = line.all.length + 1 := by
    rw [List.length_append, List.length_singleton]
  have moved : s.e + 1 = UInt32.ofNat (base + (line.all ++ [c]).length) := by
    rw [holds.e, counted, ← Nat.add_assoc, UInt32.ofNat_add _ 1]
    rfl
  refine ⟨holds.r, moved, ?_, ?_, ?_, fun d inside => absurd inside List.not_mem_nil⟩
  · rw [whole]
    exact moved
  · rw [whole]
    show _ = ringItems (Function.update s.buf (s.e.toNat % INPUT_BUF) c) INPUT_BUF base _
    rw [holds.e, index_mod, counted, RingItems.put room, ← holds.stored]
  · rw [whole, counted]
    exact room

/-- A character does to the ring what it does to the lists, and wakes the readers when it makes
anything ready. -/
theorem typed (holds : s.Holds line base) (c : UInt8) :
    (s.typed c).1.Holds (line.typed c) base ∧
    ((s.typed c).2 = false -> (line.typed c).ready = line.ready) := by
  rw [Input.typed, Line.typed]
  by_cases isP : c = ctrl 'P'
  · rw [if_pos isP, if_pos isP]
    exact ⟨holds, fun _ => rfl⟩
  rw [if_neg isP, if_neg isP]
  by_cases isU : c = ctrl 'U'
  · rw [if_pos isU, if_pos isU]
    exact ⟨holds.killLine _ (Nat.le_of_eq holds.edited.symm), fun _ => rfl⟩
  rw [if_neg isU, if_neg isU]
  by_cases isH : c = ctrl 'H' ∨ c = rubout
  · rw [if_pos isH, if_pos isH]
    exact ⟨holds.erase, fun _ => rfl⟩
  rw [if_neg isH, if_neg isH, holds.used]
  by_cases stores : c ≠ 0 ∧ line.all.length < INPUT_BUF
  · rw [if_pos stores, if_pos stores]
    dsimp only
    have full : s.e + 1 = s.r + UInt32.ofNat INPUT_BUF ↔ line.all.length + 1 = INPUT_BUF := by
      have moved : s.e + 1 = UInt32.ofNat (base + (line.all.length + 1)) := by
        rw [holds.e, ← Nat.add_assoc, UInt32.ofNat_add _ 1]
        rfl
      rw [moved, holds.r, ← UInt32.ofNat_add]
      exact index_inj stores.2 (Nat.le_refl _)
    by_cases ends : (if c = carriageReturn then newline else c) = newline ∨
      (if c = carriageReturn then newline else c) = ctrl 'D' ∨
      s.e + 1 = s.r + UInt32.ofNat INPUT_BUF
    · rw [if_pos ends, decide_eq_true (ends.imp id (Or.imp id full.mp))]
      exact ⟨holds.finish stores.2, fun wakes => Bool.noConfusion wakes⟩
    · rw [if_neg ends, decide_eq_false (fun other => ends (other.imp id (Or.imp id full.mpr)))]
      exact ⟨holds.store stores.2 (not_or.mp ends).1, fun _ => rfl⟩
  · rw [if_neg stores, if_neg stores]
    exact ⟨holds, fun _ => rfl⟩

/-- The first character that is ready, and the ring behind it. -/
theorem first (holds : s.Holds ⟨c :: line.ready, line.pending⟩ base) :
    s.buf (s.r.toNat % INPUT_BUF) = c ∧ Holds { s with r := s.r + 1 } line (base + 1) := by
  have whole : Line.all ⟨c :: line.ready, line.pending⟩ = c :: line.all := rfl
  have stored := holds.stored
  rw [whole, List.length_cons, RingItems.first] at stored
  rcases List.cons_eq_cons.mp stored with ⟨head, tail⟩
  have fits := holds.fits
  rw [whole, List.length_cons] at fits
  refine ⟨?_, ?_, ?_, ?_, tail, Nat.le_of_succ_le fits, holds.unfinished⟩
  · rw [holds.r, index_mod, head]
  · show s.r + 1 = _
    rw [holds.r, UInt32.ofNat_add _ 1]
    rfl
  · show s.w = _
    rw [holds.w, List.length_cons, Nat.add_right_comm, Nat.add_assoc]
  · show s.e = _
    rw [holds.e, whole, List.length_cons, Nat.add_right_comm, Nat.add_assoc]

/-- A read takes from the ring what it takes from the list. -/
theorem readLoop {killed : Bool} {target : Nat} (holds : s.Holds line base) :
    (s.readLoop killed target n).2.1 = (Line.read target n line.ready).2.1 ∧
    (s.readLoop killed target n).1 =
      (if (Line.read target n line.ready).1 then Stop.returned
      else if killed then .failed else .asleep) ∧
    Exists fun baseNow =>
      (s.readLoop killed target n).2.2.Holds
        ⟨(Line.read target n line.ready).2.2, line.pending⟩ baseNow ∧
      baseNow + (Line.read target n line.ready).2.2.length = base + line.ready.length := by
  induction n generalizing s line base with
  | zero => exact ⟨rfl, rfl, base, holds, rfl⟩
  | succ n ih =>
      rcases line with ⟨ready, pending⟩
      cases ready with
      | nil =>
          rw [Input.readLoop, if_pos (holds.r_eq_w.mpr rfl)]
          exact ⟨rfl, rfl, base, holds, rfl⟩
      | cons c ready =>
          rcases @first s ⟨ready, pending⟩ base c holds with ⟨char, after⟩
          have more : s.r ≠ s.w := fun same => List.cons_ne_nil c ready (holds.r_eq_w.mp same)
          rw [Input.readLoop, if_neg more]
          dsimp only
          rw [char, Line.read]
          by_cases ends : c = ctrl 'D'
          · rw [if_pos ends, if_pos ends]
            refine ⟨rfl, rfl, ?_⟩
            by_cases partly : n + 1 < target
            · rw [if_pos partly, if_pos partly]
              refine ⟨base, ?_⟩
              have back : s.r + 1 - 1 = s.r := UInt32.add_sub_cancel _ _
              dsimp only
              rw [back]
              exact ⟨holds, rfl⟩
            · rw [if_neg partly, if_neg partly]
              exact ⟨base + 1, after, Nat.add_right_comm base 1 ready.length⟩
          · rw [if_neg ends, if_neg ends]
            by_cases line : c = newline
            · rw [if_pos line, if_pos line]
              exact ⟨rfl, rfl, base + 1, after, Nat.add_right_comm base 1 ready.length⟩
            · rw [if_neg line, if_neg line]
              rcases ih after with ⟨bytes, stop, baseNow, left, same⟩
              exact ⟨congrArg (c :: ·) bytes, stop, baseNow, left,
                same.trans (Nat.add_right_comm base 1 ready.length)⟩

/-- The ring between two indices. -/
theorem between {front middle back : List UInt8} (holds : s.Holds line base)
    (split : line.all = front ++ (middle ++ back)) :
    ringItems s.buf INPUT_BUF (UInt32.ofNat (base + front.length)).toNat middle.length =
      middle := by
  have stored := holds.stored
  rw [split, List.length_append, List.length_append, RingItems.append, RingItems.append] at stored
  rw [RingItems.wrapped (by decide)]
  have rest := (List.append_inj stored (by rw [RingItems.length])).2
  exact ((List.append_inj rest (by rw [RingItems.length])).1).symm

end Input.Holds

/-! ## What a read does with the list -/

namespace Line

variable {target n : Nat} {ready : List UInt8}

theorem put_ready (line : Line) (c : UInt8) (finish : Bool) :
    Exists fun more => (line.put c finish).ready = line.ready ++ more := by
  cases finish with
  | false => exact ⟨[], (List.append_nil _).symm⟩
  | true => exact ⟨line.pending ++ [c], List.append_assoc _ _ _⟩

/-- A character makes nothing ready or more. -/
theorem typed_ready (line : Line) (c : UInt8) :
    Exists fun more => (line.typed c).ready = line.ready ++ more := by
  have same : Exists fun more : List UInt8 => line.ready = line.ready ++ more :=
    ⟨[], (List.append_nil _).symm⟩
  rw [typed]
  split
  · exact same
  split
  · exact same
  split
  · exact same
  split
  · exact put_ready line _ _
  · exact same

/-- A read takes characters off the front, copies them up to the control-D, and stops behind a
newline; it waits only at the end of the list. -/
theorem read_spec (target n : Nat) (ready : List UInt8) :
    Exists fun gone =>
      ready = gone ++ (read target n ready).2.2 ∧
      gone.filter (fun c => c ≠ ctrl 'D') = (read target n ready).2.1 ∧
      (read target n ready).2.1.length ≤ n ∧
      (forall front back, (read target n ready).2.1 = front ++ newline :: back ->
        back = [] ∧ (read target n ready).1 = true) ∧
      ((read target n ready).1 = false ->
        (read target n ready).2.2 = [] ∧ (read target n ready).2.1.length < n) := by
  induction n generalizing ready with
  | zero =>
      refine ⟨[], rfl, rfl, Nat.le_refl 0, fun front back split => ?_,
        fun waits => Bool.noConfusion waits⟩
      exact absurd split.symm
        (List.append_ne_nil_of_right_ne_nil front (List.cons_ne_nil newline back))
  | succ n ih =>
      cases ready with
      | nil =>
          refine ⟨[], rfl, rfl, Nat.zero_le _, fun front back split => ?_,
            fun _ => ⟨rfl, Nat.succ_pos n⟩⟩
          exact absurd split.symm
            (List.append_ne_nil_of_right_ne_nil front (List.cons_ne_nil newline back))
      | cons c ready =>
          rw [read]
          by_cases ends : c = ctrl 'D'
          · rw [if_pos ends]
            have nothing : forall front back : List UInt8, [] = front ++ newline :: back ->
                back = [] ∧ true = true := by
              intro front back split
              exact absurd split.symm
                (List.append_ne_nil_of_right_ne_nil front (List.cons_ne_nil newline back))
            by_cases partly : n + 1 < target
            · rw [if_pos partly]
              exact ⟨[], rfl, rfl, Nat.zero_le _, nothing, fun waits => Bool.noConfusion waits⟩
            · rw [if_neg partly]
              refine ⟨[c], rfl, ?_, Nat.zero_le _, nothing, fun waits => Bool.noConfusion waits⟩
              exact List.filter_eq_nil_iff.mpr
                (fun d inside => by rw [List.mem_singleton.mp inside, ends]; decide)
          · rw [if_neg ends]
            by_cases line : c = newline
            · rw [if_pos line]
              refine ⟨[c], rfl, ?_, Nat.succ_le_succ (Nat.zero_le n),
                fun front back split => ⟨?_, rfl⟩, fun waits => Bool.noConfusion waits⟩
              · exact List.filter_eq_self.mpr
                  (fun d inside => by rw [List.mem_singleton.mp inside]; exact decide_eq_true ends)
              · have counted := congrArg List.length split
                rw [List.length_singleton, List.length_append, List.length_cons] at counted
                exact List.length_eq_zero_iff.mp (by omega)
            · rw [if_neg line]
              rcases ih ready with ⟨gone, split, copied, fits, lines, waits⟩
              refine ⟨c :: gone, congrArg (c :: ·) split, ?_,
                Nat.succ_le_succ fits, fun front back found => ?_,
                fun asleep => ⟨(waits asleep).1, Nat.succ_lt_succ (waits asleep).2⟩⟩
              · rw [List.filter_cons, if_pos (decide_eq_true ends), copied]
              · cases front with
                | nil => exact absurd (List.cons.inj found).1 line
                | cons d front => exact lines front back (List.cons.inj found).2

end Line

end Channels
end OsProjects
