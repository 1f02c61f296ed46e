import OsProjects.Shell.Mysh

namespace OsProjects
namespace Shell

open Machine

/-!
# What the shell reads

The tokens of a line are its parts between delimiters.  `strtok` finds the next one and
ends it with a null character in `input` itself, so a pointer found earlier keeps its
string.  After the loop `argv` holds pointers to the tokens and a null pointer.
-/

/-- The line up to its first null character. -/
def cString (line : Text) : Text := line.takeWhile (fun c => c != nul)

def words (line : Text) : List Text := tokens isDelimiter (cString line)

/-- The cells from `i` hold these strings and a null pointer. -/
def NullTerminated (cells : Nat -> Option Text) (i : Nat) (strings : List Text) : Prop :=
  forall j, j ≤ strings.length -> cells (i + j) = strings[j]?

theorem nullTerminated_nil {cells : Nat -> Option Text} {i : Nat} :
    NullTerminated cells i [] ↔ cells i = none := by
  refine ⟨fun holds => holds 0 (Nat.le_refl 0), fun null j within => ?_⟩
  rw [Nat.le_zero.mp within]
  exact null

theorem nullTerminated_cons {cells : Nat -> Option Text} {i : Nat} {word : Text}
    {strings : List Text} :
    NullTerminated cells i (word :: strings) ↔
      cells i = some word ∧ NullTerminated cells (i + 1) strings := by
  refine ⟨fun holds => ⟨holds 0 (Nat.zero_le _), fun j within => ?_⟩, fun holds j within => ?_⟩
  · have next := holds (j + 1) (Nat.succ_le_succ within)
    rwa [Nat.add_comm j 1, ← Nat.add_assoc, Nat.add_comm 1 j, List.getElem?_cons_succ] at next
  · cases j with
    | zero => exact holds.1
    | succ j =>
        have next := holds.2 j (Nat.le_of_succ_le_succ within)
        rwa [Nat.add_assoc, Nat.add_comm 1 j] at next

/-! ## Strings in `input` -/

theorem nul_not_mem_cString (line : Text) : nul ∉ cString line := fun inLine => by
  have other := List.mem_takeWhile_imp inLine
  exact absurd other (by decide)

theorem stringAt_append {front word back : Text} (whole : nul ∉ word) :
    stringAt (front ++ (word ++ nul :: back)) front.length = word := by
  rw [stringAt, List.drop_left, List.takeWhile_append_of_pos]
  · rw [List.takeWhile_cons_of_neg (by decide), List.append_nil]
  · intro c inWord
    exact bne_iff_ne.mpr (fun isNul => whole (isNul ▸ inWord))

theorem cString_append (line rest : Text) :
    Exists fun behind => line ++ nul :: rest = cString line ++ nul :: behind := by
  induction line with
  | nil => exact ⟨rest, rfl⟩
  | cons c line ih =>
      rcases ih with ⟨behind, same⟩
      by_cases isNul : c = nul
      · subst isNul
        exact ⟨line ++ nul :: rest, rfl⟩
      · have keeps : cString (c :: line) = c :: cString line :=
          List.takeWhile_cons_of_pos (bne_iff_ne.mpr isNul)
        refine ⟨behind, ?_⟩
        rw [keeps, List.cons_append, same]
        rfl

theorem State.line_of_input {state : State} {text behind : Text} (whole : nul ∉ text)
    (same : state.input = text ++ nul :: behind) : state.line = text := by
  have start := @stringAt_append [] text behind whole
  rwa [List.nil_append, ← same] at start

/-! ## One call of `strtok` -/

section Strtok

variable {front blanks word stops rest behind : Text}

theorem delimiter_ne_nul {c : Char} (isBlank : isDelimiter c = true) : c ≠ nul := by
  rintro rfl
  exact absurd isBlank (by decide)

theorem strtok_blank (allBlank : forall c, c ∈ rest -> isDelimiter c = true) :
    strtok (front ++ (rest ++ nul :: behind)) front.length =
      (none, front ++ (rest ++ nul :: behind), front.length + rest.length) := by
  have start : (rest ++ nul :: behind).takeWhile isDelimiter = rest := by
    refine Tokens.takeWhile_append_head allBlank (fun c isHead => ?_)
    rw [← Option.some.inj isHead]
    decide
  have stop : (nul :: behind).takeWhile (fun c => c != nul && !isDelimiter c) = [] :=
    List.takeWhile_cons_of_neg (by decide)
  have dropped : (front ++ (rest ++ nul :: behind)).drop (front.length + rest.length) =
      nul :: behind := by
    rw [← List.append_assoc, ← List.length_append, List.drop_left]
  simp only [strtok, List.drop_left, start, dropped, stop, List.length_nil, Nat.add_zero, if_true]

/-- Where a token starts and stops. -/
theorem strtok_bounds (allBlank : forall c, c ∈ blanks -> isDelimiter c = true)
    (solid : Solid isDelimiter word) (whole : nul ∉ word)
    (ends : forall c, stops.head? = some c -> c = nul ∨ isDelimiter c = true) :
    strtok (front ++ (blanks ++ (word ++ stops))) front.length =
      if (front ++ (blanks ++ (word ++ stops)))[front.length + blanks.length + word.length]? =
          some nul then
        (some (front.length + blanks.length), front ++ (blanks ++ (word ++ stops)),
          front.length + blanks.length + word.length)
      else
        (some (front.length + blanks.length), (front ++ (blanks ++ (word ++ stops))).set
          (front.length + blanks.length + word.length) nul,
          front.length + blanks.length + word.length + 1) := by
  have start : (blanks ++ (word ++ stops)).takeWhile isDelimiter = blanks := by
    refine Tokens.takeWhile_append_head allBlank (fun c isHead => ?_)
    refine solid.solid c (List.mem_of_head? ?_)
    rwa [List.head?_append_of_ne_nil word solid.nonempty] at isHead
  have stop : (word ++ stops).takeWhile (fun c => c != nul && !isDelimiter c) = word := by
    refine Tokens.takeWhile_append_head (fun c inWord => ?_) (fun c isHead => ?_)
    · rw [solid.solid c inWord, Bool.not_false, Bool.and_true]
      exact bne_iff_ne.mpr (fun isNul => whole (isNul ▸ inWord))
    · rcases ends c isHead with rfl | isBlank
      · decide
      · rw [isBlank, Bool.not_true, Bool.and_false]
  have dropped : (front ++ (blanks ++ (word ++ stops))).drop (front.length + blanks.length) =
      word ++ stops := by
    rw [← List.append_assoc, ← List.length_append, List.drop_left]
  have moved : front.length + blanks.length + word.length ≠ front.length + blanks.length := by
    have positive := List.length_pos_of_ne_nil solid.nonempty
    omega
  simp only [strtok, List.drop_left, start, dropped, stop, if_neg moved]

theorem strtok_last (allBlank : forall c, c ∈ blanks -> isDelimiter c = true)
    (solid : Solid isDelimiter word) (whole : nul ∉ word) :
    strtok (front ++ (blanks ++ (word ++ nul :: behind))) front.length =
      (some (front.length + blanks.length), front ++ (blanks ++ (word ++ nul :: behind)),
        front.length + blanks.length + word.length) := by
  have ends : forall c, (nul :: behind).head? = some c -> c = nul ∨ isDelimiter c = true :=
    fun c isHead => Or.inl (Option.some.inj isHead).symm
  have atEnd : (front ++ (blanks ++ (word ++ nul :: behind)))[
      front.length + blanks.length + word.length]? = some nul := by
    rw [← List.append_assoc, ← List.append_assoc, ← List.length_append, ← List.length_append,
      List.getElem?_append_right (Nat.le_refl _), Nat.sub_self]
    rfl
  rw [strtok_bounds allBlank solid whole ends, if_pos atEnd]

theorem strtok_word {c : Char} (allBlank : forall c, c ∈ blanks -> isDelimiter c = true)
    (solid : Solid isDelimiter word) (whole : nul ∉ word) (isBlank : isDelimiter c = true) :
    strtok (front ++ (blanks ++ (word ++ c :: behind))) front.length =
      (some (front.length + blanks.length), front ++ (blanks ++ (word ++ nul :: behind)),
        front.length + blanks.length + word.length + 1) := by
  have ends : forall d, (c :: behind).head? = some d -> d = nul ∨ isDelimiter d = true := by
    intro d isHead
    rw [← Option.some.inj isHead]
    exact Or.inr isBlank
  have atEnd : (front ++ (blanks ++ (word ++ c :: behind)))[
      front.length + blanks.length + word.length]? = some c := by
    rw [← List.append_assoc, ← List.append_assoc, ← List.length_append, ← List.length_append,
      List.getElem?_append_right (Nat.le_refl _), Nat.sub_self]
    rfl
  have notNul : ¬ some c = some nul := fun same =>
    delimiter_ne_nul isBlank (Option.some.inj same)
  have ended : (front ++ (blanks ++ (word ++ c :: behind))).set
      (front.length + blanks.length + word.length) nul =
        front ++ (blanks ++ (word ++ nul :: behind)) := by
    rw [← List.append_assoc, ← List.append_assoc, ← List.length_append, ← List.length_append,
      List.set_append_right _ _ (Nat.le_refl _), Nat.sub_self, List.set_cons_zero,
      List.append_assoc, List.append_assoc]
  rw [strtok_bounds allBlank solid whole ends, atEnd, if_neg notNul, ended]

end Strtok

/-! ## The loop that fills `argv` -/

/-- What the loop has done when it started at cell `argc` with `front` behind it. -/
structure Filled (front : Text) (argc : Nat) (strings : List Text) (before after : State) :
    Prop where
  kept : front <+: after.input
  same : strings = [] -> after.input = before.input
  earlier : forall j, j < argc -> after.argv j = before.argv j
  vector : NullTerminated after.token argc strings
  later : forall j, argc + strings.length < j -> after.argv j = before.argv j
  cmd1 : after.cmd1 = before.cmd1
  cmd2 : after.cmd2 = before.cmd2

/-- A string that is ended by a null character in the part that is kept stays. -/
theorem Filled.text {front before word after : Text} (whole : nul ∉ word)
    (kept : front ++ (before ++ (word ++ [nul])) <+: after) :
    stringAt after (front.length + before.length) = word := by
  rcases kept with ⟨back, same⟩
  have start := @stringAt_append (front ++ before) word back whole
  rw [List.length_append] at start
  rw [← same]
  simpa only [List.append_assoc, List.cons_append, List.nil_append] using start

namespace State

/-- The state after a token has been stored. -/
def store (state : State) (argc : Nat) (input : Text) (start : Nat) : State :=
  { state with input, argv := Function.update state.argv argc (some (.input start)) }

theorem readTokens_none {state : State} {todo argc next stop : Nat} {input : Text}
    (found : strtok state.input next = (none, input, stop)) :
    readTokens (todo + 1) argc next state =
      { state with input, argv := Function.update state.argv argc none } := by
  rw [readTokens, found]

theorem readTokens_some {state : State} {todo argc next stop start : Nat} {input : Text}
    (found : strtok state.input next = (some start, input, stop)) :
    readTokens (todo + 1) argc next state =
      readTokens todo (argc + 1) stop (state.store argc input start) := by
  rw [readTokens, found]
  rfl

/-- The cell of a token is not touched again. -/
theorem filled_store {front further input word : Text} {state after : State} {argc start : Nat}
    {strings : List Text} (extends_ : front <+: further)
    (rest : Filled further (argc + 1) strings (state.store argc input start) after)
    (text : stringAt after.input start = word) :
    Filled front argc (word :: strings) state after where
  kept := extends_.trans rest.kept
  same := fun empty => absurd empty (List.cons_ne_nil word strings)
  earlier := fun j below => by
    rw [rest.earlier j (Nat.lt_succ_of_lt below)]
    exact Function.update_of_ne (Nat.ne_of_lt below) _ _
  vector := by
    refine nullTerminated_cons.mpr ⟨?_, rest.vector⟩
    have cell : after.argv argc = some (.input start) := by
      rw [rest.earlier argc (Nat.lt_succ_self argc)]
      exact Function.update_self _ _ _
    rw [token, cell, Option.map_some, Pointer.text, text]
  later := fun j above => by
    rw [List.length_cons] at above
    rw [rest.later j (by omega)]
    exact Function.update_of_ne (by omega) _ _
  cmd1 := rest.cmd1
  cmd2 := rest.cmd2

theorem filled_blank {front rest behind : Text} {state : State} {todo argc : Nat}
    (same : state.input = front ++ (rest ++ nul :: behind))
    (allBlank : forall c, c ∈ rest -> isDelimiter c = true) :
    Filled front argc [] state (readTokens (todo + 1) argc front.length state) := by
  have found := @strtok_blank front rest behind allBlank
  rw [← same] at found
  rw [readTokens_none found]
  refine ⟨?_, fun _ => rfl, fun j below => Function.update_of_ne (Nat.ne_of_lt below) _ _,
    nullTerminated_nil.mpr ?_, fun j above => Function.update_of_ne (Nat.ne_of_gt above) _ _, rfl,
    rfl⟩
  · rw [same]
    exact List.prefix_append _ _
  · exact Option.map_eq_none_iff.mpr (Function.update_self argc none state.argv)

theorem readTokens_filled (todo : Nat) :
    forall (argc : Nat) (front rest behind : Text) (state : State),
      state.input = front ++ (rest ++ nul :: behind) -> nul ∉ rest ->
      (tokens isDelimiter rest).length < todo ->
      Filled front argc (tokens isDelimiter rest) state
        (readTokens todo argc front.length state) := by
  induction todo with
  | zero => exact fun _ _ _ _ _ _ _ short => absurd short (Nat.not_lt_zero _)
  | succ todo ih =>
      intro argc front rest behind state same whole short
      rcases Tokens.first_word isDelimiter rest with
        allBlank | ⟨blanks, word, back, split, allBlank, solid, stops⟩
      · rw [Tokens.tokens_eq_nil allBlank]
        exact filled_blank same allBlank
      · have wordWhole : nul ∉ word := fun inWord => whole (by
          rw [split]
          exact List.mem_append_left _ (List.mem_append_right _ inWord))
        rw [split, Tokens.tokens_word allBlank solid stops, List.length_cons] at short
        rw [split, Tokens.tokens_word allBlank solid stops]
        cases back with
        | nil =>
            -- The null character behind the line ends the last token.
            have input : state.input = front ++ (blanks ++ (word ++ nul :: behind)) := by
              rw [same, split, List.append_nil, List.append_assoc]
            have found := @strtok_last front blanks word behind allBlank solid wordWhole
            rw [← input] at found
            rw [readTokens_some found]
            have rest' := ih (argc + 1) (front ++ (blanks ++ word)) [] behind
              (state.store argc state.input (front.length + blanks.length))
              (by simpa only [store, List.append_assoc, List.nil_append] using input)
              List.not_mem_nil (Nat.lt_of_succ_lt_succ short)
            rw [List.length_append, List.length_append, ← Nat.add_assoc] at rest'
            refine filled_store (List.prefix_append _ _) rest' (Filled.text wordWhole ?_)
            rw [rest'.same rfl]
            exact ⟨behind, by
              simp only [store, input, List.append_assoc, List.cons_append, List.nil_append]⟩
        | cons c back =>
            have input : state.input =
                front ++ (blanks ++ (word ++ c :: (back ++ nul :: behind))) := by
              rw [same, split]
              simp only [List.append_assoc, List.cons_append]
            have found := @strtok_word front blanks word (back ++ nul :: behind) c allBlank solid
              wordWhole (stops c rfl)
            rw [← input] at found
            rw [readTokens_some found, Tokens.tokens_cons (stops c rfl)]
            rw [Tokens.tokens_cons (stops c rfl)] at short
            have rest' := ih (argc + 1) (front ++ (blanks ++ (word ++ [nul]))) back behind
              (state.store argc (front ++ (blanks ++ (word ++ nul :: (back ++ nul :: behind))))
                (front.length + blanks.length))
              (by simp only [store, List.append_assoc, List.cons_append, List.nil_append])
              (fun inBack => whole (by
                rw [split]
                exact List.mem_append_right _ (List.mem_cons_of_mem c inBack)))
              (Nat.lt_of_succ_lt_succ short)
            have next : (front ++ (blanks ++ (word ++ [nul]))).length =
                front.length + blanks.length + word.length + 1 := by
              simp only [List.length_append, List.length_cons, List.length_nil]
              omega
            rw [next] at rest'
            exact filled_store (List.prefix_append _ _) rest' (Filled.text wordWhole rest'.kept)

/-! ## The search for a sign -/

end State

theorem search_eq (sign : Text) {cells : Nat -> Option Text} (strings : List Text) :
    forall todo i, NullTerminated cells i strings -> strings.length < todo ->
      search sign cells todo i =
        if sign ∈ strings then .found (i + strings.idxOf sign) else .null := by
  induction strings with
  | nil =>
      intro todo i holds short
      cases todo with
      | zero => exact absurd short (Nat.not_lt_zero _)
      | succ todo =>
          rw [search, nullTerminated_nil.mp holds, if_neg List.not_mem_nil]
  | cons word strings ih =>
      intro todo i holds short
      cases todo with
      | zero => exact absurd short (Nat.not_lt_zero _)
      | succ todo =>
          rcases nullTerminated_cons.mp holds with ⟨here, rest⟩
          rw [search, here]
          by_cases isSign : word = sign
          · subst isSign
            simp only [if_true, List.mem_cons_self, List.idxOf_cons_self, Nat.add_zero]
          · have next := ih todo (i + 1) rest (Nat.lt_of_succ_lt_succ short)
            simp only [if_neg isSign, next, List.mem_cons, Ne.symm isSign, false_or,
              List.idxOf_cons_ne strings isSign, Nat.succ_eq_add_one, Nat.add_assoc,
              Nat.add_comm 1 (strings.idxOf sign)]

namespace State

/-- The cells before the bar get the pointers of `argv`. -/
def withCmd1 (state : State) (i count : Nat) : State :=
  { state with cmd1 := fun j => if i ≤ j ∧ j < i + count then state.argv j else state.cmd1 j }

theorem copyUntilBar_eq (strings : List Text) :
    forall (todo i a : Nat) (state : State), NullTerminated state.token i strings ->
      strings.length < todo ->
      copyUntilBar todo i a state =
        if piped_sign ∈ strings then
          some (state.withCmd1 i (strings.idxOf piped_sign), a + strings.idxOf piped_sign)
        else none := by
  induction strings with
  | nil =>
      intro todo i a state holds short
      cases todo with
      | zero => exact absurd short (Nat.not_lt_zero _)
      | succ todo =>
          rw [copyUntilBar, nullTerminated_nil.mp holds, if_neg List.not_mem_nil]
  | cons word strings ih =>
      intro todo i a state holds short
      cases todo with
      | zero => exact absurd short (Nat.not_lt_zero _)
      | succ todo =>
          rcases nullTerminated_cons.mp holds with ⟨here, rest⟩
          rw [copyUntilBar, here]
          by_cases isBar : word = piped_sign
          · have unchanged : state.withCmd1 i 0 = state := by
              have cells : (fun j => if i ≤ j ∧ j < i + 0 then state.argv j else state.cmd1 j) =
                  state.cmd1 := by
                funext j
                exact if_neg (by omega)
              rw [withCmd1, cells]
            subst isBar
            simp only [ne_eq, not_true_eq_false, if_false, List.mem_cons_self, if_true,
              List.idxOf_cons_self, Nat.add_zero, unchanged]
          · have next := ih todo (i + 1) (a + 1)
              { state with cmd1 := Function.update state.cmd1 i (state.argv i) } rest
              (Nat.lt_of_succ_lt_succ short)
            have cells :
                (withCmd1 { state with cmd1 := Function.update state.cmd1 i (state.argv i) } (i + 1)
                (strings.idxOf piped_sign)) = state.withCmd1 i (strings.idxOf piped_sign + 1) := by
              unfold withCmd1
              congr 1
              funext j
              change (if i + 1 ≤ j ∧ j < i + 1 + strings.idxOf piped_sign then state.argv j
                else Function.update state.cmd1 i (state.argv i) j) = _
              by_cases found : j = i
              · subst found
                rw [if_neg (by omega), if_pos (by omega), Function.update_self]
              · rw [Function.update_of_ne found]
                exact if_congr (by omega) rfl rfl
            simp only [ne_eq, isBar, not_false_eq_true, if_true, next, cells, List.mem_cons,
              Ne.symm isBar, false_or, List.idxOf_cons_ne strings isBar, Nat.succ_eq_add_one,
              Nat.add_assoc, Nat.add_comm 1 (strings.idxOf piped_sign)]

/-- The first cell of `cmd2` gets the pointer behind cell `a`. -/
def withCmd2 (state : State) (a : Nat) : State :=
  { state with cmd2 := Function.update state.cmd2 0 (state.argv (a + 1)) }

/-! ## The line is parsed -/

/-- What stands in `input` when all tokens have been cut. -/
def cutInput (state : State) (line : Text) : Text :=
  (readTokens MAX_ARGV 0 0 (state.fgets line)).input

/-- How many cells of `cmd1` a line fills. -/
def copied (line : Text) : Nat :=
  if piped_sign <:+: cString line then (words line).idxOf piped_sign else 0

/-- A parsed line.  The cells of `cmd1` and `cmd2` that it does not write are the old ones. -/
structure Parsed (state : State) (line : Text) (parsed : State) : Prop where
  input : parsed.input = state.cutInput line
  vector : NullTerminated parsed.token 0 (words line)
  cmd1 : forall j, parsed.cmd1 j = if j < copied line then parsed.argv j else state.cmd1 j
  cmd2 : forall j, parsed.cmd2 j =
    if piped_sign <:+: cString line ∧ j = 0 then parsed.argv (copied line + 1) else state.cmd2 j

theorem fgets_input (state : State) (line : Text) :
    Exists fun behind => (state.fgets line).input = cString line ++ nul :: behind :=
  cString_append line _

@[simp]
theorem fgets_line (state : State) (line : Text) : (state.fgets line).line = cString line := by
  rcases state.fgets_input line with ⟨behind, same⟩
  exact line_of_input (nul_not_mem_cString line) same

theorem words_short {line : Text} (delivered : line.length < MAX_ARGV) :
    (words line).length < MAX_ARGV := by
  have fewer := Tokens.length_tokens_le isDelimiter (cString line)
  have shorter : (cString line).length ≤ line.length := (List.takeWhile_prefix _).length_le
  exact Nat.lt_of_le_of_lt (Nat.le_trans fewer shorter) delivered

theorem fgets_filled {line : Text} (state : State) (delivered : line.length < MAX_ARGV) :
    Filled [] 0 (words line) (state.fgets line) (readTokens MAX_ARGV 0 0 (state.fgets line)) := by
  rcases state.fgets_input line with ⟨behind, same⟩
  exact readTokens_filled MAX_ARGV 0 [] (cString line) behind _ same (nul_not_mem_cString line)
    (words_short delivered)

theorem parse_plain {line : Text} (state : State) (delivered : line.length < MAX_ARGV)
    (plain : ¬ piped_sign <:+: cString line) :
    Exists fun parsed => (state.fgets line).parse = some parsed ∧ state.Parsed line parsed := by
  have filled := state.fgets_filled delivered
  have noBar : (state.fgets line).flags.piped = false := by
    simp only [flags, fgets_line, plain, decide_false]
  refine ⟨_, by simp only [parse, noBar, Bool.false_eq_true, if_false], rfl, filled.vector,
    fun j => ?_, fun j => ?_⟩
  · rw [filled.cmd1, copied, if_neg plain, if_neg (Nat.not_lt_zero j)]
    rfl
  · rw [filled.cmd2, if_neg (fun both => plain both.1)]
    rfl

theorem parse_piped {line : Text} (state : State) (delivered : line.length < MAX_ARGV)
    (piped : piped_sign <:+: cString line) (bar : piped_sign ∈ words line) :
    Exists fun parsed => (state.fgets line).parse = some parsed ∧ state.Parsed line parsed := by
  have filled := state.fgets_filled delivered
  have isPiped : (state.fgets line).flags.piped = true := by
    simp only [flags, fgets_line, piped, decide_true]
  have copy := copyUntilBar_eq (words line) MAX_ARGV 0 0 _ filled.vector (words_short delivered)
  rw [if_pos bar, Nat.zero_add] at copy
  have parsed : (state.fgets line).parse =
      some (((readTokens MAX_ARGV 0 0 (state.fgets line)).withCmd1 0
        ((words line).idxOf piped_sign)).withCmd2 ((words line).idxOf piped_sign)) := by
    simp only [parse, isPiped, if_true, copy, Option.map_some, withCmd2]
  have count : copied line = (words line).idxOf piped_sign := if_pos piped
  refine ⟨_, parsed, rfl, filled.vector, fun j => ?_, fun j => ?_⟩
  · simp only [withCmd2, withCmd1, Nat.zero_le, true_and, Nat.zero_add, count, filled.cmd1]
    rfl
  · simp only [withCmd2, withCmd1, count, filled.cmd2, piped, true_and]
    by_cases first : j = 0
    · subst first
      rw [Function.update_self, if_pos rfl]
    · rw [Function.update_of_ne first, if_neg first]
      rfl

/-- A bar that is not a token of its own stops the shell. -/
theorem parse_stuck {line : Text} (state : State) (delivered : line.length < MAX_ARGV)
    (piped : piped_sign <:+: cString line) (noBar : ¬ piped_sign ∈ words line) :
    (state.fgets line).parse = none := by
  have filled := state.fgets_filled delivered
  have isPiped : (state.fgets line).flags.piped = true := by
    simp only [flags, fgets_line, piped, decide_true]
  have copy := copyUntilBar_eq (words line) MAX_ARGV 0 0 _ filled.vector (words_short delivered)
  rw [if_neg noBar] at copy
  simp only [parse, isPiped, if_true, copy, Option.map_none]

/-! ## Signs, commands and files of a parsed line -/

theorem solid_sign {sign : Text} (nonempty : sign ≠ [])
    (solid : sign.all (fun c => !isDelimiter c) = true) : Solid isDelimiter sign :=
  ⟨nonempty, fun c inSign => (Bool.not_eq_true' _).mp (List.all_eq_true.mp solid c inSign)⟩

theorem or_iff (state : State) (line : Text) :
    (state.fgets line).flags.or = true ↔
      Exists fun word => word ∈ words line ∧ or_sign <:+: word := by
  rw [flags, fgets_line, decide_eq_true_iff]
  exact Tokens.infix_iff_tokens (solid_sign (by decide) (by decide)) (cString line)

theorem ar_iff (state : State) (line : Text) :
    (state.fgets line).flags.ar = true ↔
      Exists fun word => word ∈ words line ∧ ar_sign <:+: word := by
  rw [flags, fgets_line, decide_eq_true_iff]
  exact Tokens.infix_iff_tokens (solid_sign (by decide) (by decide)) (cString line)

theorem piped_iff (state : State) (line : Text) :
    (state.fgets line).flags.piped = true ↔
      Exists fun word => word ∈ words line ∧ piped_sign <:+: word := by
  rw [flags, fgets_line, decide_eq_true_iff]
  exact Tokens.infix_iff_tokens (solid_sign (by decide) (by decide)) (cString line)

theorem piped_infix_iff (line : Text) :
    piped_sign <:+: cString line ↔ Exists fun word => word ∈ words line ∧ piped_sign <:+: word :=
  Tokens.infix_iff_tokens (solid_sign (by decide) (by decide)) (cString line)

theorem moveOperand_apply (argv : Nat -> Option Pointer) (i j : Nat) :
    moveOperand argv i j =
      if j = i + 1 then none
      else if j = i + 2 then argv (i + 1)
      else if j = i then argv (i + 2) else argv j := by
  simp only [moveOperand, Function.update_apply, if_neg (Nat.succ_ne_self i)]

theorem execvp_eq_some {input : Text} {cells : Nat -> Option Pointer} {exec : Exec} :
    execvp input cells = some exec ↔
      (cells 0).map (Pointer.text input) = some exec.file ∧
        exec.argv = fun i => (cells i).map (Pointer.text input) := by
  rcases exec with ⟨file, argv⟩
  cases first : cells 0 with
  | none => simp only [execvp, first, Option.map_none, reduceCtorEq, false_and]
  | some pointer =>
      simp only [execvp, first, Option.map_some, Option.some.injEq, Exec.mk.injEq]
      exact and_congr_right fun _ => eq_comm

theorem redirect_found {parsed : State} {strings : List Text} {sign : Text}
    (disposition : Disposition) (vector : NullTerminated parsed.token 0 strings)
    (short : strings.length < MAX_ARGV) (found : sign ∈ strings) :
    parsed.redirect sign disposition =
      (parsed.argv (strings.idxOf sign + 1)).bind fun file =>
        (execvp parsed.input (moveOperand parsed.argv (strings.idxOf sign))).map fun exec =>
          .redirected (file.text parsed.input) disposition exec := by
  have operand : moveOperand parsed.argv (strings.idxOf sign) (strings.idxOf sign + 2) =
      parsed.argv (strings.idxOf sign + 1) := by
    rw [moveOperand_apply, if_neg (by omega), if_pos rfl]
  have ends := search_eq sign strings MAX_ARGV 0 vector short
  rw [if_pos found, Nat.zero_add] at ends
  simp only [redirect, ends, operand]

theorem redirect_stuck {parsed : State} {strings : List Text} {sign : Text}
    (disposition : Disposition) (vector : NullTerminated parsed.token 0 strings)
    (short : strings.length < MAX_ARGV) (missing : ¬ sign ∈ strings) :
    parsed.redirect sign disposition = none := by
  have ends := search_eq sign strings MAX_ARGV 0 vector short
  rw [if_neg missing] at ends
  simp only [redirect, ends]

end State

end Shell
end OsProjects
