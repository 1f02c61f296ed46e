import Mathlib.Data.List.Infix
import Mathlib.Data.List.TakeWhile

namespace OsProjects
namespace Machine

/-!
# Tokens

A test divides characters into blanks and others.  The tokens of a text are its longest
parts without a blank, in order.
-/

variable {α : Type}

/-- The parts between blanks, without the empty ones. -/
def tokens (blank : α -> Bool) (text : List α) : List (List α) :=
  (text.splitOnP blank).filter (fun part => !part.isEmpty)

/-- What a token is: a part that is not empty and has no blank. -/
structure Solid (blank : α -> Bool) (word : List α) : Prop where
  nonempty : word ≠ []
  solid : forall c, c ∈ word -> blank c = false

namespace Tokens

variable {blank : α -> Bool} {front back word text : List α} {c : α}

@[simp]
theorem tokens_nil : tokens blank [] = [] := rfl

theorem tokens_append_cons (isBlank : blank c = true) :
    tokens blank (front ++ c :: back) = tokens blank front ++ tokens blank back := by
  rw [tokens, List.splitOnP_append_cons front back isBlank, List.filter_append]
  rfl

theorem tokens_cons (isBlank : blank c = true) : tokens blank (c :: back) = tokens blank back := by
  have split : tokens blank ([] ++ c :: back) = tokens blank [] ++ tokens blank back :=
    tokens_append_cons isBlank
  exact split

theorem tokens_blanks (blanks : forall c, c ∈ front -> blank c = true) :
    tokens blank (front ++ back) = tokens blank back := by
  induction front with
  | nil => rfl
  | cons c front ih =>
      rw [List.cons_append, tokens_cons (blanks c List.mem_cons_self)]
      exact ih (fun d inFront => blanks d (List.mem_cons_of_mem c inFront))

theorem tokens_of_solid (solid : Solid blank word) : tokens blank word = [word] := by
  have kept : (fun part : List α => !part.isEmpty) word = true := by
    simp only [List.isEmpty_eq_false_iff.mpr solid.nonempty, Bool.not_false]
  rw [Machine.tokens, List.splitOnP_eq_singleton solid.solid]
  exact List.filter_cons_of_pos kept

/-- A word behind blanks is the first token, unless it goes on. -/
theorem tokens_word (blanks : forall c, c ∈ front -> blank c = true) (solid : Solid blank word)
    (stops : forall c, back.head? = some c -> blank c = true) :
    tokens blank (front ++ word ++ back) = word :: tokens blank back := by
  rw [List.append_assoc, tokens_blanks blanks]
  cases back with
  | nil => rw [List.append_nil, tokens_of_solid solid, tokens_nil]
  | cons c back =>
      have isBlank := stops c rfl
      rw [tokens_append_cons isBlank, tokens_of_solid solid, tokens_cons isBlank]
      rfl

/-- A text is blank, or it has a first word. -/
theorem first_word (blank : α -> Bool) (text : List α) :
    (forall c, c ∈ text -> blank c = true) ∨
      Exists fun front => Exists fun word => Exists fun back =>
        text = front ++ word ++ back ∧ (forall c, c ∈ front -> blank c = true) ∧
          Solid blank word ∧ forall c, back.head? = some c -> blank c = true := by
  by_cases blanks : forall c, c ∈ text -> blank c = true
  · exact Or.inl blanks
  · refine Or.inr ⟨text.takeWhile blank, (text.dropWhile blank).takeWhile (fun c => !blank c),
      (text.dropWhile blank).dropWhile (fun c => !blank c), ?_, ?_, ⟨?_, ?_⟩, ?_⟩
    · rw [List.append_assoc, List.takeWhile_append_dropWhile, List.takeWhile_append_dropWhile]
    · exact fun c inFront => List.mem_takeWhile_imp inFront
    · have remains : text.dropWhile blank ≠ [] := fun empty =>
        blanks (List.dropWhile_eq_nil_iff.mp empty)
      have head := List.head_dropWhile_not blank remains
      cases rest : text.dropWhile blank with
      | nil => exact absurd rest remains
      | cons c rest' =>
          simp only [rest, List.head_cons] at head
          rw [List.takeWhile_cons_of_pos (by rw [head]; rfl)]
          exact List.cons_ne_nil c _
    · intro c inWord
      have other := List.mem_takeWhile_imp inWord
      exact Bool.not_eq_true' _ ▸ other
    · intro c isHead
      have stops := List.head?_dropWhile_not (fun c => !blank c) (text.dropWhile blank)
      rw [isHead] at stops
      simpa using stops

theorem tokens_eq_nil (blanks : forall c, c ∈ text -> blank c = true) : tokens blank text = [] := by
  rw [← List.append_nil text, tokens_blanks blanks, tokens_nil]

theorem length_tokens_le (blank : α -> Bool) (text : List α) :
    (tokens blank text).length ≤ text.length := by
  induction size : text.length using Nat.strong_induction_on generalizing text with
  | _ bound ih =>
      rcases first_word blank text with blanks | ⟨front, first, back, same, blanks, solid, stops⟩
      · rw [tokens_eq_nil blanks]
        exact Nat.zero_le bound
      · have positive := List.length_pos_of_ne_nil solid.nonempty
        rw [same, List.length_append, List.length_append] at size
        have shorter := ih back.length (by omega) back rfl
        rw [same, tokens_word blanks solid stops, List.length_cons]
        omega

/-! ## Parts of a text -/

theorem takeWhile_append_head {p : α -> Bool} (all : forall c, c ∈ front -> p c = true)
    (stops : forall c, back.head? = some c -> p c = false) :
    (front ++ back).takeWhile p = front := by
  rw [List.takeWhile_append_of_pos all]
  cases back with
  | nil => rw [List.takeWhile_nil, List.append_nil]
  | cons c back =>
      rw [List.takeWhile_cons_of_neg (by rw [stops c rfl]; exact Bool.false_ne_true),
        List.append_nil]

theorem dropWhile_append_head {p : α -> Bool} (all : forall c, c ∈ front -> p c = true)
    (stops : forall c, back.head? = some c -> p c = false) :
    (front ++ back).dropWhile p = back := by
  rw [List.dropWhile_append_of_pos all]
  cases back with
  | nil => rfl
  | cons c back =>
      exact List.dropWhile_cons_of_neg (by rw [stops c rfl]; exact Bool.false_ne_true)

/-! ## Signs inside tokens -/

/-- A sign without a blank does not reach across a blank. -/
theorem infix_append_cons_iff {sign : List α} (solid : Solid blank sign)
    (isBlank : blank c = true) :
    sign <:+: front ++ c :: back ↔ sign <:+: front ∨ sign <:+: back := by
  have across : forall {left right : List α}, right <+: c :: back -> sign = left ++ right ->
      right = [] := by
    intro left right starts same
    cases right with
    | nil => rfl
    | cons d right =>
        have head : d = c := (List.cons_prefix_cons.mp starts).1
        have inSign : d ∈ sign := by
          rw [same]
          exact List.mem_append_right left List.mem_cons_self
        have other := solid.solid d inSign
        rw [head, isBlank] at other
        exact absurd other (by decide)
  constructor
  · intro found
    rcases List.infix_append_iff.mp found with inFront | inBack | ⟨left, right, same, ends, starts⟩
    · exact Or.inl inFront
    · rcases List.infix_cons_iff.mp inBack with starts | later
      · exact absurd (across starts (List.nil_append sign).symm) solid.nonempty
      · exact Or.inr later
    · rw [same, across starts same, List.append_nil]
      exact Or.inl ends.isInfix
  · rintro (inFront | inBack)
    · exact List.infix_append_of_infix_left inFront
    · exact List.infix_append_of_infix_right (List.infix_cons inBack)

theorem infix_cons_iff {sign : List α} (solid : Solid blank sign) (isBlank : blank c = true) :
    sign <:+: c :: back ↔ sign <:+: back := by
  have absent : ¬ sign <:+: [] := fun inNil => solid.nonempty (List.infix_nil.mp inNil)
  have split : sign <:+: [] ++ c :: back ↔ sign <:+: [] ∨ sign <:+: back :=
    infix_append_cons_iff solid isBlank
  rw [or_iff_right absent] at split
  exact split

theorem infix_blanks_iff {sign : List α} (solid : Solid blank sign)
    (blanks : forall c, c ∈ front -> blank c = true) :
    sign <:+: front ++ back ↔ sign <:+: back := by
  induction front with
  | nil => exact Iff.rfl
  | cons c front ih =>
      have rest := ih (fun d inFront => blanks d (List.mem_cons_of_mem c inFront))
      rw [List.cons_append, infix_cons_iff solid (blanks c List.mem_cons_self)]
      exact rest

/-- A text has a sign exactly when one of its tokens has. -/
theorem infix_iff_tokens {sign : List α} (solid : Solid blank sign) (text : List α) :
    sign <:+: text ↔ Exists fun word => word ∈ tokens blank text ∧ sign <:+: word := by
  have absent : ¬ sign <:+: [] := fun inNil => solid.nonempty (List.infix_nil.mp inNil)
  induction size : text.length using Nat.strong_induction_on generalizing text with
  | _ bound ih =>
      rcases first_word blank text with blanks | ⟨front, first, back, same, blanks, word, stops⟩
      · rw [tokens_eq_nil blanks, ← List.append_nil text, infix_blanks_iff solid blanks]
        exact ⟨fun inNil => absurd inNil absent,
          fun ⟨_, inNil, _⟩ => absurd inNil List.not_mem_nil⟩
      · have positive := List.length_pos_of_ne_nil word.nonempty
        rw [same, List.length_append, List.length_append] at size
        have rest : sign <:+: back ↔ Exists fun word =>
            word ∈ tokens blank back ∧ sign <:+: word := ih back.length (by omega) back rfl
        have split : sign <:+: first ++ back ↔ sign <:+: first ∨ sign <:+: back := by
          cases back with
          | nil => rw [List.append_nil, or_iff_left absent]
          | cons c back =>
              rw [infix_append_cons_iff solid (stops c rfl), infix_cons_iff solid (stops c rfl)]
        rw [same, List.append_assoc, infix_blanks_iff solid blanks, split, ← List.append_assoc,
          tokens_word blanks word stops, rest]
        simp only [List.mem_cons, exists_eq_or_imp]

end Tokens
end Machine
end OsProjects
