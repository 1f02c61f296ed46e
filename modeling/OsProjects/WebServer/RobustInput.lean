import OsProjects.Machine.Supply

namespace OsProjects
namespace WebServer

open Machine

/-!
# Robust input and output

A `read` from a connection returns what has arrived, an interrupt may end it early, and a
`write` may take less than it has been given.  The Rio functions hide this: they repeat
interrupted calls, and `rio_t` keeps what a `read` has returned and nobody has asked for.
-/

/-- What the next `read` from a descriptor finds. -/
inductive Delivery
  | interrupted
  | failed
  | arrived (first : UInt8) (rest : List UInt8)

/-- A descriptor open for reading.  After all deliveries it is at its end. -/
abbrev Source : Type := List Delivery

/-- The return value of `read` with `errno`, and the bytes that it has stored. -/
inductive ReadResult
  | interrupted
  | failed
  | bytes (data : List UInt8)

/-- What a delivery leaves for the next `read`. -/
def leave (left : List UInt8) (source : Source) : Source :=
  match left with
  | [] => source
  | first :: rest => .arrived first rest :: source

/-- `read` returns at most `n` bytes. -/
def read (n : Nat) : Source -> ReadResult × Source
  | [] => (.bytes [], [])
  | .interrupted :: source => (.interrupted, source)
  | .failed :: source => (.failed, source)
  | .arrived first rest :: source =>
      (.bytes ((first :: rest).take n), leave ((first :: rest).drop n) source)

def RIO_BUFSIZE : Nat := 8192

def MAXBUF : Nat := 8192

/-- The unread bytes of the internal buffer, and the descriptor. -/
structure Rio where
  unread : List UInt8
  source : Source

/-- The loop of `rio_read` that fills the buffer. -/
def refill : Source -> ReadResult × Source
  | .interrupted :: source => refill source
  | source => read RIO_BUFSIZE source

/-- Bytes from the internal buffer, which is filled first if it is empty. -/
def rio_read (n : Nat) (rp : Rio) : Option (List UInt8) × Rio :=
  if rp.unread = [] then
    match refill rp.source with
    | (.bytes data, after) => (some (data.take n), ⟨data.drop n, after⟩)
    | (_, after) => (none, ⟨[], after⟩)
  else (some (rp.unread.take n), ⟨rp.unread.drop n, rp.source⟩)

/-- The loop of `rio_readnb`. -/
def readnbFrom : Nat -> Nat -> Rio -> Option (List UInt8) × Rio
  | 0, _, rp => (some [], rp)
  | fuel + 1, nleft, rp =>
      if nleft = 0 then (some [], rp)
      else
        match rio_read nleft rp with
        | (none, after) => (none, after)
        | (some data, after) =>
            if data = [] then (some [], after)
            else
              ((readnbFrom fuel (nleft - data.length) after).1.map (data ++ ·),
                (readnbFrom fuel (nleft - data.length) after).2)

/-- Robustly read `n` bytes through the buffer. -/
def rio_readnb (n : Nat) (rp : Rio) : Option (List UInt8) × Rio := readnbFrom n n rp

def newline : UInt8 := 10

/-- What `rio_readlineb` returns: -1, 0 at the end, or `n` with the bytes that it has stored
before the zero byte. -/
inductive Line
  | error
  | eof
  | line (n : Nat) (bytes : List UInt8)

/-- The loop of `rio_readlineb`, when the counter is `n` and `line` has been stored. -/
def readlinebFrom (maxlen : Nat) : Nat -> Nat -> List UInt8 -> Rio -> Line × Rio
  | 0, n, line, rp => (.line n line, rp)
  | fuel + 1, n, line, rp =>
      if n < maxlen then
        match rio_read 1 rp with
        | (some (c :: _), after) =>
            if c = newline then
              (.line n (line ++ [c]), after)
            else readlinebFrom maxlen fuel (n + 1) (line ++ [c]) after
        | (some [], after) => if n = 1 then (.eof, after) else (.line n line, after)
        | (none, after) => (.error, after)
      else (.line n line, rp)

/-- Robustly read a text line. -/
def rio_readlineb (maxlen : Nat) (rp : Rio) : Line × Rio := readlinebFrom maxlen maxlen 1 [] rp

/-! ## What there is to read -/

/-- What the deliveries bring, without the interrupts. -/
def Source.supply : Source -> Supply UInt8
  | [] => []
  | .interrupted :: source => supply source
  | .failed :: source => none :: supply source
  | .arrived first rest :: source => some first :: rest.map some ++ supply source

def Rio.supply (rp : Rio) : Supply UInt8 := rp.unread.map some ++ rp.source.supply

section Reads

variable {n : Nat} {source : Source} {rp : Rio}

theorem supply_leave (left : List UInt8) :
    (leave left source).supply = left.map some ++ source.supply := by
  cases left <;> rfl

/-- `read` takes from the front of what there is. -/
theorem read_supply (positive : 0 < n) :
    match read n source with
    | (.interrupted, after) => source.supply = after.supply
    | (.failed, after) => source.supply = none :: after.supply
    | (.bytes data, after) =>
        source.supply = data.map some ++ after.supply ∧ (data = [] -> source = []) := by
  cases source with
  | nil => exact ⟨rfl, fun _ => rfl⟩
  | cons delivery source =>
      cases delivery with
      | interrupted => rfl
      | failed => rfl
      | arrived first rest =>
          constructor
          · rw [supply_leave, ← List.append_assoc, ← List.map_append, List.take_append_drop]
            rfl
          · intro none_
            cases n with
            | zero => exact absurd positive (Nat.lt_irrefl 0)
            | succ n => exact absurd none_ (List.cons_ne_nil _ _)

/-- `refill` skips the interrupts. -/
theorem refill_supply :
    match refill source with
    | (.interrupted, _) => False
    | (.failed, after) => source.supply = none :: after.supply
    | (.bytes data, after) =>
        source.supply = data.map some ++ after.supply ∧
          (data = [] -> source.supply = [] ∧ after.supply = []) := by
  induction source with
  | nil => exact ⟨rfl, fun _ => ⟨rfl, rfl⟩⟩
  | cons delivery source ih =>
      cases delivery with
      | interrupted => exact ih
      | failed => rfl
      | arrived first rest =>
          have reads := @read_supply RIO_BUFSIZE (.arrived first rest :: source) (by decide)
          exact ⟨reads.1, fun none_ => absurd (reads.2 none_) (List.cons_ne_nil _ _)⟩

/-- `rio_read` takes from the front of what there is; it returns nothing only at the end. -/
theorem rio_read_supply (positive : 0 < n) :
    match rio_read n rp with
    | (none, after) => rp.supply = none :: after.supply
    | (some data, after) => rp.supply = data.map some ++ after.supply ∧ data.length ≤ n ∧
        (data = [] -> rp.supply = [] ∧ after.supply = []) := by
  have some_ : forall data : List UInt8, data.take n = [] -> data = [] := by
    intro data none_
    exact (List.take_eq_nil_iff.mp none_).resolve_left (Nat.ne_of_gt positive)
  unfold rio_read
  by_cases empty : rp.unread = []
  · rw [if_pos empty]
    have filled := @refill_supply rp.source
    unfold Rio.supply
    rw [empty]
    split at filled
    · exact absurd filled id
    · rename_i after same
      rw [same]
      exact filled
    · rename_i data after same
      rw [same]
      refine ⟨?_, List.length_take_le _ _, fun none_ => ?_⟩
      · rw [← List.append_assoc, ← List.map_append, List.take_append_drop]
        exact filled.1
      · have nothing := some_ data none_
        rw [nothing] at filled ⊢
        exact ⟨(filled.2 rfl).1, by rw [List.drop_nil]; exact (filled.2 rfl).2⟩
  · rw [if_neg empty]
    refine ⟨?_, List.length_take_le _ _, fun none_ => absurd (some_ _ none_) empty⟩
    unfold Rio.supply
    rw [← List.append_assoc, ← List.map_append, List.take_append_drop]

end Reads

/-! ## What the calls return -/

/-- A line ends with a newline. -/
def isNewline (c : UInt8) : Bool := decide (c = newline)

/-- The return value of `rio_readlineb` for the bytes of a line: one more than there are,
unless they end with a newline. -/
def lineOf (maxlen : Nat) (bytes : List UInt8) : Line :=
  if bytes = [] ∧ 1 < maxlen then .eof
  else if bytes.getLast? = some newline then .line bytes.length bytes
  else .line (bytes.length + 1) bytes

/-- A call of the buffered functions. -/
inductive RioCall
  | rio_readlineb (maxlen : Nat)
  | rio_readnb (n : Nat)

/-- What a call returns. -/
inductive RioResult
  | line (line : Line)
  | bytes (data : Option (List UInt8))

namespace RioCall

def run : RioCall -> Rio -> RioResult × Rio
  | .rio_readlineb maxlen, rp =>
      (.line (WebServer.rio_readlineb maxlen rp).1, (WebServer.rio_readlineb maxlen rp).2)
  | .rio_readnb n, rp => (.bytes (WebServer.rio_readnb n rp).1, (WebServer.rio_readnb n rp).2)

def runAll : List RioCall -> Rio -> List RioResult × Rio
  | [], rp => ([], rp)
  | call :: calls, rp =>
      ((call.run rp).1 :: (runAll calls (call.run rp).2).1, (runAll calls (call.run rp).2).2)

/-- What a call returns, as a function of what there is to read. -/
def onSupply : RioCall -> Supply UInt8 -> RioResult × Supply UInt8
  | .rio_readlineb maxlen, supply =>
      match Supply.takeUntil isNewline (maxlen - 1) supply with
      | (none, rest) => (.line .error, rest)
      | (some bytes, rest) => (.line (lineOf maxlen bytes), rest)
  | .rio_readnb n, supply =>
      (.bytes (Supply.takeUntil Supply.never n supply).1,
        (Supply.takeUntil Supply.never n supply).2)

def allOnSupply : List RioCall -> Supply UInt8 -> List RioResult × Supply UInt8
  | [], supply => ([], supply)
  | call :: calls, supply =>
      ((call.onSupply supply).1 :: (allOnSupply calls (call.onSupply supply).2).1,
        (allOnSupply calls (call.onSupply supply).2).2)

end RioCall

/-- The bytes that a call has delivered; `none` if it failed. -/
def RioResult.delivered : RioResult -> Option (List UInt8)
  | .line .error => none
  | .line .eof => some []
  | .line (.line _ stored) => some stored
  | .bytes data => data

section Calls

variable {maxlen n : Nat} {rp : Rio} {line : List UInt8} {supply : Supply UInt8}

theorem readnbFrom_supply (fuel : Nat) : forall {nleft : Nat} {rp : Rio}, nleft ≤ fuel ->
    (readnbFrom fuel nleft rp).1 = (Supply.takeUntil Supply.never nleft rp.supply).1 ∧
      (readnbFrom fuel nleft rp).2.supply = (Supply.takeUntil Supply.never nleft rp.supply).2 := by
  induction fuel with
  | zero =>
      intro nleft rp enough
      rw [Nat.le_zero.mp enough, Supply.takeUntil_zero]
      exact ⟨rfl, rfl⟩
  | succ fuel ih =>
      intro nleft rp enough
      rw [readnbFrom]
      by_cases done : nleft = 0
      · rw [if_pos done, done, Supply.takeUntil_zero]
        exact ⟨rfl, rfl⟩
      · rw [if_neg done]
        have reads := @rio_read_supply nleft rp (Nat.pos_of_ne_zero done)
        split at reads
        · rename_i after same
          rcases Nat.exists_eq_succ_of_ne_zero done with ⟨m, rfl⟩
          rw [reads, Supply.takeUntil_fail]
          exact ⟨rfl, rfl⟩
        · rename_i data after same
          rcases reads with ⟨supplied, short, ends⟩
          by_cases nothing : data = []
          · rw [if_pos nothing, (ends nothing).1, (ends nothing).2, Supply.takeUntil_nil]
            exact ⟨rfl, rfl⟩
          · have positive := List.length_pos_iff.mpr nothing
            have rest := @ih (nleft - data.length) after (by omega)
            rw [if_neg nothing, supplied, Supply.takeUntil_never_append short, rest.1]
            exact ⟨rfl, rest.2⟩

/-- The return value of the loop of `rio_readlineb` from the counter `n` on. -/
def lineAfter (maxlen n : Nat) (line bytes : List UInt8) : Line :=
  if bytes = [] ∧ n = 1 ∧ n < maxlen then .eof
  else if bytes.getLast? = some newline then .line (n + bytes.length - 1) (line ++ bytes)
  else .line (n + bytes.length) (line ++ bytes)

theorem lineAfter_nil (less : 1 < n ∨ maxlen ≤ n) : lineAfter maxlen n line [] = .line n line := by
  unfold lineAfter
  rw [if_neg (fun both => by omega), if_neg (fun last => nomatch last), List.append_nil]
  rfl

theorem lineAfter_cons {c : UInt8} {bytes : List UInt8} (positive : 1 ≤ n) (inner : c ≠ newline) :
    lineAfter maxlen n line (c :: bytes) = lineAfter maxlen (n + 1) (line ++ [c]) bytes := by
  have count : n + (bytes.length + 1) = n + 1 + bytes.length := by omega
  have last : (c :: bytes).getLast? = some newline ↔ bytes.getLast? = some newline := by
    cases bytes with
    | nil =>
        exact iff_of_false (fun same => inner (Option.some.inj same)) (fun last => nomatch last)
    | cons d bytes => rw [List.getLast?_cons_cons]
  unfold lineAfter
  rw [if_neg (fun both => List.cons_ne_nil c bytes both.1),
    if_neg (show ¬ (bytes = [] ∧ n + 1 = 1 ∧ n + 1 < maxlen) by omega), List.length_cons, count,
    List.append_assoc, List.singleton_append, if_congr last rfl rfl]

theorem lineAfter_newline : lineAfter maxlen n line [newline] = .line n (line ++ [newline]) := by
  unfold lineAfter
  rw [if_neg (fun both => List.cons_ne_nil _ _ both.1),
    if_pos (show [newline].getLast? = some newline from rfl)]
  rfl

/-- A read of one byte. -/
theorem rio_read_one (rp : Rio) :
    (Exists fun after => rio_read 1 rp = (none, after) ∧ rp.supply = none :: after.supply) ∨
    (Exists fun after => rio_read 1 rp = (some [], after) ∧ rp.supply = [] ∧ after.supply = []) ∨
    Exists fun c => Exists fun after =>
      rio_read 1 rp = (some [c], after) ∧ rp.supply = some c :: after.supply := by
  have reads := @rio_read_supply 1 rp Nat.one_pos
  rcases same : rio_read 1 rp with ⟨result, after⟩
  rw [same] at reads
  cases result with
  | none => exact Or.inl ⟨after, rfl, reads⟩
  | some data =>
      rcases reads with ⟨supplied, short, ends⟩
      cases data with
      | nil => exact Or.inr (Or.inl ⟨after, rfl, ends rfl⟩)
      | cons c others =>
          have single : others = [] :=
            List.length_eq_zero_iff.mp (by rw [List.length_cons] at short; omega)
          rw [single] at supplied ⊢
          exact Or.inr (Or.inr ⟨c, after, rfl, supplied⟩)

theorem readlinebFrom_supply (fuel : Nat) :
    forall {n : Nat} {line : List UInt8} {rp : Rio}, 1 ≤ n -> maxlen - n ≤ fuel ->
      (readlinebFrom maxlen fuel n line rp).1 =
        ((Supply.takeUntil isNewline (maxlen - n) rp.supply).1.elim .error
          (lineAfter maxlen n line)) ∧
      (readlinebFrom maxlen fuel n line rp).2.supply =
        (Supply.takeUntil isNewline (maxlen - n) rp.supply).2 := by
  induction fuel with
  | zero =>
      intro n line rp positive enough
      have none_ : maxlen - n = 0 := by omega
      rw [none_, Supply.takeUntil_zero]
      exact ⟨(lineAfter_nil (Or.inr (by omega))).symm, rfl⟩
  | succ fuel ih =>
      intro n line rp positive enough
      rw [readlinebFrom]
      by_cases room : n < maxlen
      · have left : maxlen - n = (maxlen - (n + 1)) + 1 := by omega
        rw [if_pos room, left]
        rcases rio_read_one rp with
          ⟨after, read, supplied⟩ | ⟨after, read, supplied, ends⟩ | ⟨c, after, read, supplied⟩
        · rw [read, supplied, Supply.takeUntil_fail]
          exact ⟨rfl, rfl⟩
        · rw [read, supplied, Supply.takeUntil_nil]
          dsimp only
          by_cases first : n = 1
          · rw [if_pos first]
            exact ⟨(if_pos ⟨rfl, first, room⟩).symm, ends⟩
          · rw [if_neg first]
            exact ⟨(lineAfter_nil (Or.inl (by omega))).symm, ends⟩
        · rw [read, supplied]
          dsimp only
          by_cases isLast : c = newline
          · have last : isNewline c = true := decide_eq_true isLast
            rw [if_pos isLast, Supply.takeUntil_last last, isLast]
            exact ⟨lineAfter_newline.symm, rfl⟩
          · have inner : isNewline c = false := decide_eq_false isLast
            rw [if_neg isLast, Supply.takeUntil_item inner]
            have rest := @ih (n + 1) (line ++ [c]) after (by omega) (by omega)
            refine ⟨rest.1.trans ?_, rest.2⟩
            cases (Supply.takeUntil isNewline (maxlen - (n + 1)) after.supply).1 with
            | none => rfl
            | some bytes => exact (lineAfter_cons positive isLast).symm
      · rw [if_neg room]
        have none_ : maxlen - n = 0 := by omega
        rw [none_, Supply.takeUntil_zero]
        exact ⟨(lineAfter_nil (Or.inr (by omega))).symm, rfl⟩

theorem lineAfter_start (bytes : List UInt8) :
    lineAfter maxlen 1 [] bytes = lineOf maxlen bytes := by
  unfold lineAfter lineOf
  rw [List.nil_append, Nat.add_comm 1 bytes.length, Nat.add_sub_cancel]
  refine if_congr ?_ rfl rfl
  exact ⟨fun both => ⟨both.1, both.2.2⟩, fun both => ⟨both.1, rfl, both.2⟩⟩

theorem RioCall.run_supply (call : RioCall) :
    (call.run rp).1 = (call.onSupply rp.supply).1 ∧
    (call.run rp).2.supply = (call.onSupply rp.supply).2 := by
  cases call with
  | rio_readlineb maxlen =>
      have reads := @readlinebFrom_supply maxlen maxlen 1 [] rp (Nat.le_refl 1) (Nat.sub_le _ _)
      unfold RioCall.run RioCall.onSupply WebServer.rio_readlineb
      dsimp only
      rw [reads.1]
      refine ⟨?_, reads.2.trans ?_⟩
      · rcases Supply.takeUntil isNewline (maxlen - 1) rp.supply with ⟨_ | bytes, rest⟩
        · rfl
        · exact congrArg RioResult.line (lineAfter_start bytes)
      · rcases Supply.takeUntil isNewline (maxlen - 1) rp.supply with ⟨_ | bytes, rest⟩ <;> rfl
  | rio_readnb n =>
      have reads := @readnbFrom_supply n n rp (Nat.le_refl n)
      exact ⟨congrArg RioResult.bytes reads.1, reads.2⟩

/-- However the bytes arrive and whatever is still in the buffer, a sequence of calls returns
what the supply says. -/
theorem rio_calls_supply (calls : List RioCall) : forall (rp : Rio),
    (RioCall.runAll calls rp).1 = (RioCall.allOnSupply calls rp.supply).1 ∧
      (RioCall.runAll calls rp).2.supply = (RioCall.allOnSupply calls rp.supply).2 := by
  induction calls with
  | nil => exact fun _ => ⟨rfl, rfl⟩
  | cons call calls ih =>
      intro rp
      have first := @RioCall.run_supply rp call
      have rest := ih (call.run rp).2
      unfold RioCall.runAll RioCall.allOnSupply
      rw [← first.1, ← first.2, ← rest.1]
      exact ⟨rfl, rest.2⟩

/-- The bytes of a call that does not fail are the first of the supply. -/
theorem RioCall.onSupply_conserves {call : RioCall} {bytes : List UInt8}
    (delivered : (call.onSupply supply).1.delivered = some bytes) :
    supply = bytes.map some ++ (call.onSupply supply).2 := by
  cases call with
  | rio_readlineb maxlen =>
      rw [RioCall.onSupply] at delivered ⊢
      rcases took : Supply.takeUntil isNewline (maxlen - 1) supply with ⟨_ | line, rest⟩
      · rw [took] at delivered
        exact nomatch delivered
      · rw [took] at delivered
        have same : line = bytes := by
          unfold lineOf at delivered
          dsimp only at delivered
          split at delivered
          · rename_i none_
            rw [none_.1]
            exact Option.some.inj delivered
          · split at delivered <;> exact Option.some.inj delivered
        rw [← same]
        exact Supply.takeUntil_conserves took
  | rio_readnb n => exact Supply.takeUntil_conserves (Prod.ext delivered rfl)

/-- No byte is lost or delivered twice by a sequence of calls that do not fail. -/
theorem rio_calls_conserve (calls : List RioCall) :
    forall (rp : Rio) {delivered : List (List UInt8)},
      (RioCall.runAll calls rp).1.map RioResult.delivered = delivered.map some ->
      rp.supply = delivered.flatten.map some ++ (RioCall.runAll calls rp).2.supply := by
  induction calls with
  | nil =>
      intro rp delivered results
      have none_ : delivered = [] := List.map_eq_nil_iff.mp results.symm
      rw [none_]
      rfl
  | cons call calls ih =>
      intro rp delivered results
      unfold RioCall.runAll at results ⊢
      cases delivered with
      | nil => exact nomatch results
      | cons bytes others =>
          rcases List.cons.inj results with ⟨first, rest⟩
          have one := @RioCall.run_supply rp call
          rw [one.1] at first
          rw [RioCall.onSupply_conserves first, ← one.2, ih _ rest, List.flatten_cons,
            List.map_append, List.append_assoc]

end Calls

theorem rio_calls_conserve_twoReads :
    (⟨[65], [.interrupted, .arrived 10 [66], .arrived 67 []]⟩ : Rio).supply =
      [[65, 10], [66]].flatten.map some ++ (RioCall.runAll [.rio_readlineb 8, .rio_readnb 1]
        ⟨[65], [.interrupted, .arrived 10 [66], .arrived 67 []]⟩).2.supply :=
  @rio_calls_conserve [.rio_readlineb 8, .rio_readnb 1]
    ⟨[65], [.interrupted, .arrived 10 [66], .arrived 67 []]⟩ [[65, 10], [66]] rfl

/-! ## Writing -/

section Writes

end Writes

end WebServer
end OsProjects
