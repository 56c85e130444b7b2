import LiteSql.Call
import LiteSql.Position
import LiteSql.Proofs.Casing
import LiteSql.Proofs.Closing

/-! Where the calls of a function stand in a text, told position by position. The calls inside an
argument list are those that the list has on its own, and two calls are either nested or apart. -/

namespace LiteSql

/-- A call of a function: its name in any letter case at `pos`, outside literals and not the end of
a longer name, directly followed by an argument list that ends at `close`. -/
structure IsCall (name s : Text) (pos close : Nat) : Prop where
  named : startsIgnoringCase name (s.drop pos) = true
  opened : s[pos + name.length]? = some '('
  outside : ¬ InLiteral s pos
  separate : (s.take pos).getLast?.any continuesName = false
  closed : (matchingParen s (pos + name.length : Nat)).toOption = some (close : Int)

instance (name s : Text) (pos close : Nat) : Decidable (IsCall name s pos close) :=
  decidable_of_iff
    (startsIgnoringCase name (s.drop pos) = true ∧ s[pos + name.length]? = some '(' ∧
      ¬ InLiteral s pos ∧ (s.take pos).getLast?.any continuesName = false ∧
      (matchingParen s (pos + name.length : Nat)).toOption = some (close : Int))
    ⟨fun ⟨named, opened, outside, separate, closed⟩ => ⟨named, opened, outside, separate, closed⟩,
      fun call => ⟨call.named, call.opened, call.outside, call.separate, call.closed⟩⟩

def slice (s : Text) (start stop : Nat) : Text := (s.drop start).take (stop - start)

theorem getElem?_of_startsIgnoringCase {name s : Text} (starts : startsIgnoringCase name s = true)
    {i : Nat} {c : Char} (here : name[i]? = some c) :
    ∃ d, s[i]? = some d ∧ sameIgnoringCase c d = true := by
  induction name generalizing s i with
  | nil => simp at here
  | cons e name ih =>
      cases s with
      | nil => simp [startsIgnoringCase] at starts
      | cons d s =>
          simp only [startsIgnoringCase, Bool.and_eq_true] at starts
          cases i with
          | zero =>
              obtain rfl : e = c := by simpa using here
              exact ⟨d, rfl, starts.1⟩
          | succ i => exact ih starts.2 (by simpa using here)

theorem length_le_of_startsIgnoringCase {k w : Text} (starts : startsIgnoringCase k w = true) :
    k.length ≤ w.length := by
  fun_induction startsIgnoringCase k w with
  | case1 => exact Nat.zero_le _
  | case2 => cases starts
  | case3 c k d w ih =>
      rw [Bool.and_eq_true] at starts
      exact Nat.succ_le_succ (ih starts.2)

theorem startsIgnoringCase_take (name s : Text) (n : Nat) (enough : name.length ≤ n) :
    startsIgnoringCase name (s.take n) = startsIgnoringCase name s := by
  induction name generalizing s n with
  | nil => rfl
  | cons c name ih =>
      cases n with
      | zero => simp at enough
      | succ n =>
          cases s with
          | nil => rfl
          | cons d s =>
              simp only [List.take_succ_cons, startsIgnoringCase]
              rw [ih s n (by simpa using enough)]

theorem opensCall_iff (name : Text) (s : List (Char × Bool)) :
    Calls.opensCall name s = true ↔
      startsIgnoringCase name (s.map Prod.fst) = true ∧
        (s.map Prod.fst)[name.length]? = some '(' := by
  simp only [Calls.opensCall, Bool.and_eq_true, beq_iff_eq, List.map_take]
  rw [startsIgnoringCase_take _ _ _ (Nat.le_succ _), List.getElem?_take_of_lt (Nat.lt_succ_self _)]

theorem map_fst_drop_marked (s : Text) (pos : Nat) :
    ((marked s).drop pos).map Prod.fst = s.drop pos := by
  rw [List.map_drop, map_fst_marked]

theorem matchingParen_of_opened (s : Text) (pos : Nat) (opened : s[pos]? = some '(') :
    matchingParen s (pos : Int) =
      (matching? s pos).elim (.error (.unclosed pos)) fun stop => .ok (stop : Int) := by
  obtain ⟨bound, -⟩ := List.getElem?_eq_some_iff.mp opened
  have first : (from? s (pos : Int)).bind List.head? = some '(' := by
    have inside : ¬ (pos : Int) < 0 := by omega
    simp only [from?, inside, if_false]
    rw [if_pos ⟨by omega, by omega⟩]
    simp [List.head?_drop, opened]
  simp only [matchingParen, first, ne_eq, not_true_eq_false, if_false]
  cases matching? s pos with
  | none => rfl
  | some stop => rfl

theorem toOption_matchingParen (s : Text) (pos : Nat) (opened : s[pos]? = some '(') :
    (matchingParen s (pos : Int)).toOption = (matching? s pos).map Int.ofNat := by
  rw [matchingParen_of_opened s pos opened]
  cases matching? s pos with
  | none => rfl
  | some stop => rfl

theorem head?_drop_marked_iff (s : Text) (pos : Nat) :
    ((marked s).drop pos).head?.any Prod.snd = true ↔ InLiteral s pos := by
  rw [inLiteral_iff_marked, List.head?_drop]
  cases (marked s)[pos]? <;> simp

theorem isCall_iff_closing? (name s : Text) (pos close : Nat) :
    IsCall name s pos close ↔
      startsIgnoringCase name (s.drop pos) = true ∧ s[pos + name.length]? = some '(' ∧
        ¬ InLiteral s pos ∧ (s.take pos).getLast?.any continuesName = false ∧
        ∃ n, closing? (s.drop (pos + name.length + 1)) = some n ∧
          close = pos + name.length + 1 + n := by
  have closes (opened : s[pos + name.length]? = some '(') :
      (matchingParen s (pos + name.length : Nat)).toOption = some (close : Int) ↔
        ∃ n, closing? (s.drop (pos + name.length + 1)) = some n ∧
          close = pos + name.length + 1 + n := by
    rw [toOption_matchingParen s _ opened, matching?]
    cases closing? (s.drop (pos + name.length + 1)) with
    | none => simp
    | some n => simp; omega
  constructor
  · rintro ⟨named, opened, outside, separate, closed⟩
    exact ⟨named, opened, outside, separate, (closes opened).mp closed⟩
  · rintro ⟨named, opened, outside, separate, found⟩
    exact ⟨named, opened, outside, separate, (closes opened).mpr found⟩

/-- The running search recognizes a call exactly where one stands. -/
theorem isCall_iff_argumentsLength? (name s : Text) (pos close : Nat) :
    IsCall name s pos close ↔
      Calls.opensCall name ((marked s).drop pos) = true ∧
        ∃ n, Calls.argumentsLength? name (s.take pos).getLast? ((marked s).drop pos) = some n ∧
          close = pos + name.length + 1 + n := by
  have refused : Calls.argumentsLength? name (s.take pos).getLast? ((marked s).drop pos) =
      if (s.take pos).getLast?.any continuesName = true ∨ InLiteral s pos then none
      else closing? (s.drop (pos + name.length + 1)) := by
    rw [Calls.argumentsLength?, List.drop_drop, map_fst_drop_marked]
    simp only [Bool.or_eq_true, head?_drop_marked_iff, Nat.add_assoc]
  rw [isCall_iff_closing?, opensCall_iff, map_fst_drop_marked, List.getElem?_drop, refused]
  constructor
  · rintro ⟨named, opened, outside, separate, found⟩
    rw [if_neg (by simp [outside, separate])]
    exact ⟨⟨named, opened⟩, found⟩
  · rintro ⟨⟨named, opened⟩, n, found, position⟩
    split at found
    · cases found
    · next free =>
        rw [not_or, Bool.not_eq_true] at free
        exact ⟨named, opened, free.2, free.1, n, found, position⟩

namespace IsCall

variable {name s : Text} {pos close : Nat}

theorem closing? (call : IsCall name s pos close) :
    ∃ n, LiteSql.closing? (s.drop (pos + name.length + 1)) = some n ∧
      close = pos + name.length + 1 + n :=
  ((isCall_iff_closing? name s pos close).mp call).2.2.2.2

theorem paren (call : IsCall name s pos close) : s[close]? = some ')' := by
  obtain ⟨n, found, rfl⟩ := call.closing?
  have here := getElem?_closing? _ _ found
  rwa [List.getElem?_drop] at here

theorem lt_close (call : IsCall name s pos close) : pos + name.length < close := by
  obtain ⟨n, -, rfl⟩ := call.closing?
  omega

theorem close_lt (call : IsCall name s pos close) : close < s.length :=
  (List.getElem?_eq_some_iff.mp call.paren).1

end IsCall

theorem not_startsIgnoringCase_of_sign {name s : Text} (word : ∀ c ∈ name, isWordChar c = true)
    {pos i : Nat} (inside : i < name.length) {sign : Char} (here : s[pos + i]? = some sign)
    (ascii : sign.toNat < 0x80) (noWord : isWordChar sign = false) :
    startsIgnoringCase name (s.drop pos) ≠ true := by
  intro starts
  obtain ⟨d, found, same⟩ :=
    getElem?_of_startsIgnoringCase starts (List.getElem?_eq_getElem inside)
  rw [List.getElem?_drop, here] at found
  obtain rfl := Option.some.inj found
  have letter := word _ (List.getElem_mem inside)
  rw [isWordChar_congr same (.inr ascii), noWord] at letter
  cases letter

theorem IsCall.getElem?_ne {name s : Text} (word : ∀ c ∈ name, isWordChar c = true)
    {pos close : Nat}
    (call : IsCall name s pos close) (sign : Char) (ascii : sign.toNat < 0x80)
    (noWord : isWordChar sign = false) (other : sign ≠ '(') : s[pos]? ≠ some sign := by
  intro here
  cases name with
  | nil =>
      have opened := call.opened
      rw [List.length_nil, Nat.add_zero, here] at opened
      exact other (Option.some.inj opened)
  | cons c name =>
      exact not_startsIgnoringCase_of_sign word (i := 0) (by simp) here ascii noWord call.named

theorem not_mem_of_sameIgnoringCase {c d : Char} {signs : List Char} (word : isWordChar c = true)
    (same : sameIgnoringCase c d = true)
    (noWord : ∀ sign ∈ signs, sign.toNat < 0x80 ∧ isWordChar sign = false) : d ∉ signs := by
  intro member
  obtain ⟨ascii, refused⟩ := noWord d member
  rw [isWordChar_congr same (.inr ascii), refused] at word
  cases word

theorem isPlain_of_sameIgnoringCase {c d : Char} (word : isWordChar c = true)
    (same : sameIgnoringCase c d = true) : isPlain d = true := by
  have refused : d ∉ ['\x27', '\x22', '\x60', '-', '/'] :=
    not_mem_of_sameIgnoringCase word same (by decide)
  simpa [isPlain] using refused

theorem isPlain_of_startsIgnoringCase {name s : Text} (word : ∀ c ∈ name, isWordChar c = true)
    (starts : startsIgnoringCase name s = true) : ∀ c ∈ s.take name.length, isPlain c = true := by
  intro c member
  obtain ⟨i, bound, rfl⟩ := List.getElem_of_mem member
  have inside : i < name.length := by
    rw [List.length_take] at bound
    omega
  obtain ⟨d, here, same⟩ :=
    getElem?_of_startsIgnoringCase starts (List.getElem?_eq_getElem inside)
  obtain ⟨_, rfl⟩ := List.getElem?_eq_some_iff.mp here
  rw [List.getElem_take]
  exact isPlain_of_sameIgnoringCase (word _ (List.getElem_mem inside)) same

def callsFrom (name s : Text) (pos : Nat) : Calls :=
  Calls.ofMarked name 0 (s.take pos).getLast? ((marked s).drop pos)

theorem callsFrom_zero (name s : Text) : callsFrom name s 0 = Calls.ofText name s := by
  simp [callsFrom, Calls.ofText]

theorem exists_drop_marked (s : Text) (pos : Nat) (c : Char) (here : s[pos]? = some c) :
    ∃ literal, (marked s).drop pos = (c, literal) :: (marked s).drop (pos + 1) := by
  have bound : pos < (marked s).length := by
    rw [length_marked]
    exact (List.getElem?_eq_some_iff.mp here).1
  have first : ((marked s)[pos].1 : Char) = c := by
    have mapped : ((marked s).map Prod.fst)[pos]? = some c := by rw [map_fst_marked, here]
    simpa [List.getElem?_eq_getElem bound] using mapped
  refine ⟨(marked s)[pos].2, ?_⟩
  rw [List.drop_eq_getElem_cons bound, ← first]

theorem getLast?_take_succ (s : Text) (pos : Nat) (c : Char) (here : s[pos]? = some c) :
    (s.take (pos + 1)).getLast? = some c := by
  rw [List.getLast?_take]
  simp [here]

theorem length_slice (s : Text) (start stop : Nat) (bound : stop ≤ s.length) :
    (slice s start stop).length = stop - start := by
  rw [slice, List.length_take, List.length_drop]
  omega

theorem slice_append {s t : Text} {start stop : Nat} (bound : stop ≤ s.length) :
    slice (s ++ t) start stop = slice s start stop := by
  rw [slice, slice, List.drop_append, List.take_append_of_le_length]
  rw [List.length_drop]
  omega

section

variable {name s : Text} (word : ∀ c ∈ name, isWordChar c = true)

include word in
theorem not_isCall_of_opensCall (pos : Nat)
    (opens : Calls.opensCall name ((marked s).drop pos) = true) (i : Nat) (after : pos < i)
    (before : i < pos + name.length + 1) (close : Nat) : ¬ IsCall name s i close := by
  intro call
  rw [opensCall_iff, map_fst_drop_marked, List.getElem?_drop] at opens
  have paren : s[i + (pos + name.length - i)]? = some '(' := by
    rw [← opens.2]
    congr 1
    omega
  exact not_startsIgnoringCase_of_sign word (by omega) paren (by decide) (by decide) call.named

include word in
theorem callsFrom_of_next (pos : Nat) (bound : pos < s.length)
    (outside : ∀ close, ¬ IsCall name s pos close)
    (next : ∀ copied, (∀ i, pos < i → i < pos + 1 + copied → ∀ close, ¬ IsCall name s i close) →
      Calls.ofMarked name copied (some s[pos]) ((marked s).drop (pos + 1)) =
        callsFrom name s (pos + 1)) :
    callsFrom name s pos = .char s[pos] (callsFrom name s (pos + 1)) := by
  obtain ⟨literal, marks⟩ := exists_drop_marked s pos _ (List.getElem?_eq_getElem bound)
  rw [callsFrom, marks, Calls.ofMarked]
  split
  · rw [next _ fun i low high => by omega]
  · next opens =>
      rw [← marks, not_or, Bool.not_eq_false] at opens
      split
      · rw [next _ fun i low high => not_isCall_of_opensCall word pos opens.2 i low (by omega)]
      · next length found =>
          rw [← marks] at found
          exact absurd ((isCall_iff_argumentsLength? name s pos _).mpr
            ⟨opens.2, length, found, rfl⟩)
            (outside _)

include word in
/-- Characters already copied hold no start of a call, so copying them changes nothing. -/
theorem ofMarked_copied (pos copied : Nat)
    (free : ∀ i, pos ≤ i → i < pos + copied → ∀ close, ¬ IsCall name s i close) :
    Calls.ofMarked name copied (s.take pos).getLast? ((marked s).drop pos) =
      callsFrom name s pos := by
  induction left : s.length - pos generalizing pos copied with
  | zero =>
      have ended : (marked s).drop pos = [] := by
        rw [List.drop_eq_nil_iff, length_marked]
        omega
      rw [callsFrom, ended, Calls.ofMarked, Calls.ofMarked]
  | succ left ih =>
      have bound : pos < s.length := by omega
      have next (skipped : Nat)
          (none : ∀ i, pos < i → i < pos + 1 + skipped → ∀ close, ¬ IsCall name s i close) :
          Calls.ofMarked name skipped (some s[pos]) ((marked s).drop (pos + 1)) =
            callsFrom name s (pos + 1) := by
        rw [← getLast?_take_succ s pos _ (List.getElem?_eq_getElem bound)]
        exact ih (pos + 1) skipped none (by omega)
      cases copied with
      | zero => rfl
      | succ copied =>
          rw [callsFrom_of_next word pos bound (free pos (by omega) (by omega)) next]
          obtain ⟨literal, marks⟩ := exists_drop_marked s pos _ (List.getElem?_eq_getElem bound)
          rw [marks, Calls.ofMarked, if_pos (.inl (Nat.succ_pos copied)), Nat.add_sub_cancel,
            next copied fun i low high => free i (by omega) (by omega)]

theorem callsFrom_of_length_le (pos : Nat) (ended : s.length ≤ pos) :
    callsFrom name s pos = .done := by
  have none : (marked s).drop pos = [] := by
    rw [List.drop_eq_nil_iff, length_marked]
    exact ended
  rw [callsFrom, none, Calls.ofMarked]

include word in
theorem callsFrom_of_not_isCall (pos : Nat) (bound : pos < s.length)
    (outside : ∀ close, ¬ IsCall name s pos close) :
    callsFrom name s pos = .char s[pos] (callsFrom name s (pos + 1)) := by
  refine callsFrom_of_next word pos bound outside fun copied free => ?_
  rw [← getLast?_take_succ s pos _ (List.getElem?_eq_getElem bound)]
  exact ofMarked_copied word (pos + 1) copied free

theorem callsFrom_of_isCall {pos close : Nat} (call : IsCall name s pos close) :
    callsFrom name s pos =
      .call (slice s pos (pos + name.length))
        (Calls.ofText name (slice s (pos + name.length + 1) close))
        (callsFrom name s (close + 1)) := by
  have bound : pos < s.length := by
    have inner := call.lt_close
    have outer := call.close_lt
    omega
  obtain ⟨literal, marks⟩ := exists_drop_marked s pos _ (List.getElem?_eq_getElem bound)
  obtain ⟨opens, n, length, rfl⟩ := (isCall_iff_argumentsLength? name s pos close).mp call
  rw [callsFrom, marks, Calls.ofMarked, ← marks, if_neg (by simp [opens]), length]
  have front : (((marked s).drop pos).take name.length).map Prod.fst =
      slice s pos (pos + name.length) := by
    rw [List.map_take, map_fst_drop_marked, slice, Nat.add_sub_cancel_left]
  have inner : ((((marked s).drop (pos + 1)).drop name.length).take n).map Prod.fst =
      slice s (pos + name.length + 1) (pos + name.length + 1 + n) := by
    rw [List.map_take, List.drop_drop, map_fst_drop_marked, slice, Nat.add_sub_cancel_left,
      Nat.add_right_comm]
  have behind : ((marked s).drop (pos + 1)).drop (name.length + n + 1) =
      (marked s).drop (pos + name.length + 1 + n + 1) := by
    rw [List.drop_drop]
    congr 1
    omega
  simp only [front, inner, behind]
  rw [callsFrom, getLast?_take_succ s _ _ call.paren, Calls.ofText]

/-- What holds at the end of a text and is kept by a character that starts no call and by a call
whose argument list has it, holds from every position on. -/
theorem callsFrom_induction (name : Text) {motive : Text → Nat → Prop}
    (done : ∀ s pos, s.length ≤ pos → motive s pos)
    (char : ∀ s pos, pos < s.length → (∀ close, ¬ IsCall name s pos close) → motive s (pos + 1) →
      motive s pos)
    (call : ∀ s pos close, IsCall name s pos close →
      motive (slice s (pos + name.length + 1) close) 0 →
      motive s (close + 1) → motive s pos)
    (s : Text) (pos : Nat) : motive s pos := by
  -- the rest gets shorter by one character or by a whole call, whose argument list is shorter too
  induction size : s.length - pos using Nat.strongRecOn generalizing s pos with
  | ind left ih =>
      subst size
      rcases Nat.lt_or_ge pos s.length with bound | ended
      · by_cases present : ∃ close, IsCall name s pos close
        · obtain ⟨close, here⟩ := present
          have inner := here.lt_close
          have outer := here.close_lt
          have shorter : (slice s (pos + name.length + 1) close).length - 0 < s.length - pos := by
            rw [length_slice _ _ _ (Nat.le_of_lt outer)]
            omega
          exact call s pos close here (ih _ shorter _ 0 rfl) (ih _ (by omega) s (close + 1) rfl)
        · exact char s pos bound (fun close here => present ⟨close, here⟩)
            (ih _ (by omega) s (pos + 1) rfl)
      · exact done s pos ended

include word in
theorem lexemes_of_opened {s : Text} (named : startsIgnoringCase name s = true)
    (opened : s[name.length]? = some '(') :
    lexemes s = (s.take name.length).map .code ++ .code '(' :: lexemes
      (s.drop (name.length + 1)) := by
  have split := take_append_cons_drop _ _ _ opened
  have plain := isPlain_of_startsIgnoringCase word named
  rw [← lexemes_code _ _ (by simp [LiteralKind.opening?]),
    ← lexemes_append_of_isPlain _ _ plain, split]

include word in
theorem exists_lexemes_of_opened (pos : Nat) (named : startsIgnoringCase name (s.drop pos) = true)
    (opened : s[pos + name.length]? = some '(') (outside : ¬ InLiteral s pos) :
    ∃ front, lexemes s = front ++ .code '(' :: lexemes (s.drop (pos + name.length + 1)) ∧
      front.flatMap Lexeme.text = s.take (pos + name.length) := by
  have bound : pos < s.length := by
    have inside := (List.getElem?_eq_some_iff.mp opened).1
    omega
  obtain ⟨first, read, text⟩ := exists_cut_of_not_inLiteral s pos bound outside
  rw [lexemes_of_opened word named (by rw [List.getElem?_drop, opened]), List.drop_drop,
    ← Nat.add_assoc] at read
  refine ⟨first ++ ((s.drop pos).take name.length).map .code, ?_, ?_⟩
  · rw [read, List.append_assoc]
  · rw [List.flatMap_append, text, List.flatMap_map, List.take_add]
    simp [Lexeme.text]

end

structure Encloses (s : Text) (front : List Lexeme) (inner : Text)
    (behind : List Lexeme) : Prop where
  read : lexemes s = front ++ .code '(' :: (lexemes inner ++ .code ')' :: behind)
  closes : closingIn 0 (lexemes inner ++ .code ')' :: behind) = some inner.length

namespace Encloses

variable {s inner : Text} {front behind : List Lexeme} (list : Encloses s front inner behind)

include list

theorem text : s = front.flatMap Lexeme.text ++
    '(' :: (inner ++ ')' :: behind.flatMap Lexeme.text) := by
  have whole := flatMap_text_lexemes s
  rw [list.read] at whole
  simpa [Lexeme.text, flatMap_text_lexemes] using whole.symm

theorem getElem? (i : Nat) (inside : i < inner.length) :
    inner[i]? = s[(front.flatMap Lexeme.text).length + 1 + i]? := by
  rw [list.text, List.getElem?_append_right (by omega)]
  have shift : (front.flatMap Lexeme.text).length + 1 + i -
      (front.flatMap Lexeme.text).length = i + 1 := by
    omega
  rw [shift, List.getElem?_cons_succ, List.getElem?_append_left inside]

theorem inLiteral_iff (i : Nat) (inside : i < inner.length) :
    InLiteral inner i ↔ InLiteral s ((front.flatMap Lexeme.text).length + 1 + i) := by
  have marks : marked s = front.flatMap Lexeme.marked ++ ('(', false) ::
      (marked inner ++ (Lexeme.code ')' :: behind).flatMap Lexeme.marked) := by
    rw [marked, list.read, marked]
    simp [Lexeme.marked]
  have shift : (front.flatMap Lexeme.text).length + 1 + i -
      (front.flatMap Lexeme.marked).length = i + 1 := by
    rw [length_flatMap_marked]
    omega
  rw [inLiteral_iff_marked, inLiteral_iff_marked, marks,
    List.getElem?_append_right (by rw [length_flatMap_marked]; omega), shift,
    List.getElem?_cons_succ, List.getElem?_append_left (by rwa [length_marked])]

/-- A parenthesis opened inside an argument list is closed at the same place, whether the list or
the whole text is read. -/
theorem closing? {outer : List Lexeme} {rest : Text}
    (cut : lexemes inner = outer ++ .code '(' :: lexemes rest) :
    LiteSql.closing? rest = LiteSql.closing? (s.drop
      ((front.flatMap Lexeme.text).length + 1 + (outer.flatMap Lexeme.text).length + 1)) := by
  have closes := list.closes
  have size : inner.length = ((lexemes inner).flatMap Lexeme.text).length := by
    rw [flatMap_text_lexemes]
  rw [size, cut] at closes
  obtain ⟨m, found⟩ := exists_closingIn_nested closes
  have read : lexemes s =
      (front ++ .code '(' :: outer ++ [Lexeme.code '(']) ++
      (lexemes rest ++ .code ')' :: behind) := by
    rw [list.read, cut]
    simp
  obtain ⟨whole, tail⟩ := lexemes_of_append read
  have dropped : s.drop
      ((front.flatMap Lexeme.text).length + 1 + (outer.flatMap Lexeme.text).length + 1) =
      (lexemes rest ++ .code ')' :: behind).flatMap Lexeme.text := by
    have start : ((front ++ .code '(' :: outer ++ [Lexeme.code '(']).flatMap Lexeme.text).length =
        (front.flatMap Lexeme.text).length + 1 + (outer.flatMap Lexeme.text).length + 1 := by
      simp [Lexeme.text]
      omega
    rw [← start, whole, List.drop_left]
  rw [LiteSql.closing?, LiteSql.closing?, dropped, tail, found, closingIn_append _ found]

theorem drop (i : Nat) (inside : i ≤ inner.length) :
    s.drop ((front.flatMap Lexeme.text).length + 1 + i) =
      inner.drop i ++ ')' :: behind.flatMap Lexeme.text := by
  rw [list.text, ← List.drop_drop, ← List.drop_drop, List.drop_left]
  exact List.drop_append_of_le_length inside

theorem any_getLast?_take (i : Nat) (inside : i < inner.length) :
    (inner.take i).getLast?.any continuesName =
      (s.take ((front.flatMap Lexeme.text).length + 1 + i)).getLast?.any continuesName := by
  cases i with
  | zero =>
      have opening : s[(front.flatMap Lexeme.text).length]? = some '(' := by
        rw [list.text, List.getElem?_append_right (Nat.le_refl _), Nat.sub_self,
          List.getElem?_cons_zero]
      rw [Nat.add_zero, getLast?_take_succ s _ _ opening, List.take_zero, List.getLast?_nil,
        Option.any_none, Option.any_some]
      decide
  | succ i =>
      have here := List.getElem?_eq_getElem (Nat.lt_of_succ_lt inside)
      rw [getLast?_take_succ inner i _ here, ← Nat.add_assoc]
      rw [list.getElem? i (Nat.lt_of_succ_lt inside)] at here
      rw [getLast?_take_succ s _ _ here]

theorem startsIgnoringCase_drop_iff (name : Text) (i : Nat)
    (enough : i + name.length ≤ inner.length) :
    startsIgnoringCase name (inner.drop i) =
      startsIgnoringCase name (s.drop ((front.flatMap Lexeme.text).length + 1 + i)) := by
  have length : name.length ≤ (inner.drop i).length := by
    rw [List.length_drop]
    omega
  rw [list.drop i (by omega), ← startsIgnoringCase_take name (_ ++ _) _ length, List.take_left]

theorem isCall_iff {name : Text} (word : ∀ c ∈ name, isWordChar c = true) (i k : Nat) :
    IsCall name inner i k ↔ i < inner.length ∧
      IsCall name s ((front.flatMap Lexeme.text).length + 1 + i)
        ((front.flatMap Lexeme.text).length + 1 + k) := by
  have closing (named : startsIgnoringCase name (inner.drop i) = true)
      (opened : inner[i + name.length]? = some '(') (outside : ¬ InLiteral inner i) :
      LiteSql.closing? (inner.drop (i + name.length + 1)) = LiteSql.closing? (s.drop
        ((front.flatMap Lexeme.text).length + 1 + i + name.length + 1)) := by
    have bound := (List.getElem?_eq_some_iff.mp opened).1
    obtain ⟨outer, cut, taken⟩ := exists_lexemes_of_opened word i named opened outside
    rw [list.closing? cut, taken, List.length_take, Nat.min_eq_left (Nat.le_of_lt bound),
      Nat.add_assoc _ i]
  rw [isCall_iff_closing?, isCall_iff_closing?]
  constructor
  · rintro ⟨named, opened, outside, separate, n, found, rfl⟩
    have bound := (List.getElem?_eq_some_iff.mp opened).1
    have inside : i < inner.length := by omega
    refine ⟨inside, ?_, ?_, ?_, ?_, n, ?_, by omega⟩
    · rw [← list.startsIgnoringCase_drop_iff name i (by omega), named]
    · rw [Nat.add_assoc _ i, ← list.getElem? _ bound, opened]
    · rwa [← list.inLiteral_iff i inside]
    · rw [← list.any_getLast?_take i inside, separate]
    · rw [← closing named opened outside, found]
  · rintro ⟨inside, named, opened, outside, separate, n, found, position⟩
    -- The name cannot reach the closing parenthesis, which is no word character.
    have bound : i + name.length < inner.length := by
      have paren : s[(front.flatMap Lexeme.text).length + 1 + i +
          (inner.length - i)]? = some ')' := by
        rw [← List.getElem?_drop, list.drop i (Nat.le_of_lt inside),
          List.getElem?_append_right (by simp), List.length_drop, Nat.sub_self,
          List.getElem?_cons_zero]
      rcases Nat.lt_trichotomy (inner.length - i) name.length with short | same | long
      · exact absurd named
          (not_startsIgnoringCase_of_sign word short paren (by decide) (by decide))
      · rw [same, opened] at paren
        simp at paren
      · omega
    rw [Nat.add_assoc _ i, ← list.getElem? _ bound] at opened
    rw [← list.startsIgnoringCase_drop_iff name i (by omega)] at named
    rw [← list.inLiteral_iff i inside] at outside
    rw [← list.any_getLast?_take i inside] at separate
    rw [← closing named opened outside] at found
    exact ⟨named, opened, outside, separate, n, found, by omega⟩

end Encloses

section

variable {name s : Text} (word : ∀ c ∈ name, isWordChar c = true)

include word in
theorem IsCall.exists_encloses {pos close : Nat} (call : IsCall name s pos close) :
    ∃ front behind, Encloses s front (slice s (pos + name.length + 1) close) behind ∧
      (front.flatMap Lexeme.text).length = pos + name.length := by
  obtain ⟨n, found, rfl⟩ := call.closing?
  obtain ⟨front, read, text⟩ := exists_lexemes_of_opened word pos call.named call.opened
    call.outside
  obtain ⟨inner, behind, cut, position⟩ := exists_cut_of_closingIn found
  have inside : inner.flatMap Lexeme.text =
      slice s (pos + name.length + 1) (pos + name.length + 1 + n) := by
    have whole := flatMap_text_lexemes (s.drop (pos + name.length + 1))
    rw [cut, List.flatMap_append] at whole
    rw [slice, ← whole, Nat.add_sub_cancel_left, ← position, List.take_left]
  have own := lexemes_front cut
  rw [inside] at own position
  refine ⟨front, behind, ⟨?_, ?_⟩, ?_⟩
  · rw [read, cut, own]
  · rw [own, position, ← cut]
    exact found
  · have bound := (List.getElem?_eq_some_iff.mp call.opened).1
    rw [text, List.length_take]
    omega

include word in
theorem IsCall.isCall_slice_iff {pos close : Nat} (call : IsCall name s pos close) (i k : Nat) :
    IsCall name (slice s (pos + name.length + 1) close) i k ↔
      pos + name.length + 1 + i < close ∧
        IsCall name s (pos + name.length + 1 + i) (pos + name.length + 1 + k) := by
  obtain ⟨front, behind, list, length⟩ := call.exists_encloses word
  have size := length_slice s (pos + name.length + 1) close (Nat.le_of_lt call.close_lt)
  have position : pos + name.length + 1 + i < close ↔
      i < (slice s (pos + name.length + 1) close).length := by
    rw [size]
    omega
  rw [position, ← length]
  rw [← length] at list
  exact list.isCall_iff word i k

theorem IsCall.close_unique {pos first second : Nat} (one : IsCall name s pos first)
    (other : IsCall name s pos second) : first = second := by
  obtain ⟨n, found, rfl⟩ := one.closing?
  obtain ⟨k, again, rfl⟩ := other.closing?
  rw [found] at again
  rw [Option.some.inj again]

include word in
theorem IsCall.nested {pos close i k : Nat} (outer : IsCall name s pos close)
    (inner : IsCall name s i k) (after : pos < i) (before : i ≤ close) :
    pos + name.length < i ∧ k < close := by
  obtain ⟨opens, -⟩ := (isCall_iff_argumentsLength? name s pos close).mp outer
  have behind : pos + name.length < i := by
    apply Nat.lt_of_not_le
    intro early
    exact not_isCall_of_opensCall word pos opens i after (by omega) k inner
  have inside : i < close := by
    rcases Nat.lt_or_eq_of_le before with less | rfl
    · exact less
    · exact absurd outer.paren
        (inner.getElem?_ne word ')' (by decide) (by decide) (by decide))
  refine ⟨behind, ?_⟩
  have ends := inner.lt_close
  obtain ⟨d, rfl⟩ := Nat.exists_eq_add_of_le (Nat.succ_le_of_lt behind)
  obtain ⟨e, rfl⟩ := Nat.exists_eq_add_of_le (show pos + name.length + 1 ≤ k by omega)
  have own := (outer.isCall_slice_iff word d e).mpr ⟨inside, inner⟩
  have bound := own.close_lt
  rw [length_slice s _ close (Nat.le_of_lt outer.close_lt)] at bound
  omega

include word in
theorem IsCall.pos_unique {first second close : Nat} (one : IsCall name s first close)
    (other : IsCall name s second close) : first = second := by
  have early := one.lt_close
  have late := other.lt_close
  rcases Nat.lt_trichotomy first second with less | same | more
  · exact absurd (one.nested word other less (by omega)).2 (Nat.lt_irrefl close)
  · exact same
  · exact absurd (other.nested word one more (by omega)).2 (Nat.lt_irrefl close)

end

end LiteSql
