import Mathlib.Algebra.BigOperators.Group.Finset.Basic
import Mathlib.Order.Bounds.Basic
import LiteSql.Proofs.WholeWord

/-! The parenthesis depth along a text. It counts the parentheses outside the spans of the literals
from the start of the text, and the search for a closing parenthesis counts lexemes from the middle
of it. Both agree: the search ends where the depth first comes back. -/

namespace LiteSql

/-- What the character at a position does to the depth, where the spans of the literals tell what is
code. -/
def turnAt (s : Text) (pos : Nat) : Int :=
  if inSpans (literalSpans s) pos then 0
  else if s[pos]? = some '(' then 1
  else if s[pos]? = some ')' then -1
  else 0

theorem turnAt_eq_marked (s : Text) (pos : Nat) :
    turnAt s pos = ((marked s)[pos]?.map markedTurn).getD 0 := by
  have here : s[pos]? = (marked s)[pos]?.map Prod.fst := by rw [← List.getElem?_map, map_fst_marked]
  have inside := (inSpans_literalSpans_iff s pos).trans (inLiteral_iff_marked s pos)
  rw [turnAt, here]
  rcases mark : (marked s)[pos]? with _ | ⟨c, literal⟩
  · simp
  · rw [mark] at inside
    cases literal with
    | true => simp [inside, markedTurn]
    | false =>
        by_cases opened : c = '('
        · simp [inside, markedTurn, opened]
        · by_cases closed : c = ')'
          · simp [inside, markedTurn, closed]
          · simp [inside, markedTurn, opened, closed]

theorem depthAt_succ (s : Text) (pos : Nat) : depthAt s (pos + 1) =
    depthAt s pos + turnAt s pos := by
  have sum (ms : List (Char × Bool)) :
      ms.foldr (fun c depth => markedTurn c + depth) 0 = (ms.map markedTurn).sum := by
    rw [List.sum_eq_foldr, List.foldr_map]
  rw [depthAt, depthAt, sum, sum, List.take_add_one, List.map_append, List.sum_append,
    turnAt_eq_marked]
  cases (marked s)[pos]? <;> simp

theorem depthAt_eq_sum (s : Text) (pos : Nat) : depthAt s pos = ∑ i ∈ Finset.range pos,
    turnAt s i := by
  induction pos with
  | zero => rfl
  | succ pos ih => rw [depthAt_succ, ih, Finset.sum_range_succ]

/-! ### The depth along the lexemes -/

section

variable {s : Text} {front rest : List Lexeme} {pos : Nat}
  (place : (front.flatMap Lexeme.text).length = pos)

include place

theorem getElem?_marked_of_code {c : Char} (read : lexemes s = front ++ .code c :: rest) :
    (marked s)[pos]? = some (c, false) := by
  rw [marked, read, List.flatMap_append, ← place, ← length_flatMap_marked,
    List.getElem?_append_right (Nat.le_refl _), Nat.sub_self]
  rfl

theorem getElem?_of_code {c : Char} (read : lexemes s = front ++ .code c :: rest) :
    s[pos]? = some c := by
  rw [← map_fst_marked s, List.getElem?_map, getElem?_marked_of_code place read]
  rfl

theorem not_inSpans_of_code {c : Char} (read : lexemes s = front ++ .code c :: rest) :
    inSpans (literalSpans s) pos = false := by
  rw [← Bool.not_eq_true, inSpans_literalSpans_iff, inLiteral_iff_marked,
    getElem?_marked_of_code place read]
  simp

theorem depthAt_lexeme {l : Lexeme} (read : lexemes s = front ++ l :: rest) :
    (∀ k < l.text.length, depthAt s (pos + k) = depthAt s pos) ∧
      depthAt s (pos + l.text.length) = depthAt s pos + l.turn := by
  cases l with
  | code c =>
      constructor
      · intro k inside
        rw [Nat.lt_one_iff.mp inside, Nat.add_zero]
      · have turn : markedTurn (c, false) = (Lexeme.code c).turn := by
          simpa [Lexeme.marked] using foldr_markedTurn (.code c) 0
        rw [Lexeme.text, List.length_singleton, depthAt_succ, turnAt_eq_marked,
          getElem?_marked_of_code place read]
        exact congrArg _ turn
  | literal kind text =>
      have still (k : Nat) (inside : k ≤ text.length) : depthAt s (pos + k) = depthAt s pos := by
        induction k with
        | zero => rfl
        | succ k ih =>
            have covered : inSpans (literalSpans s) (pos + k : Nat) = true :=
              (inSpans_literalSpans_iff s _).mpr (inLiteral_of_lexemes read (by omega) (by omega))
            rw [← Nat.add_assoc, depthAt_succ, ih (by omega), turnAt, if_pos covered, Int.add_zero]
      exact ⟨fun k inside => still k (Nat.le_of_lt inside),
        (still _ (Nat.le_refl _)).trans (Int.add_zero _).symm⟩

/-- Up to where the search ends the depth falls by no more than there are parentheses to close, and
there it falls by one more. -/
theorem depthAt_closingIn {ls : List Lexeme} (read : lexemes s = front ++ ls) (depth : Nat) :
    (∀ k, (∀ n, closingIn depth ls = some n → k ≤ n) →
      depthAt s pos ≤ depthAt s (pos + k) + depth) ∧
      ∀ n, closingIn depth ls = some n → depthAt s pos = depthAt s (pos + n + 1) + depth + 1 := by
  -- a lexeme turns the depth and the number of parentheses to close alike, so their difference is
  -- kept
  induction ls generalizing front pos depth with
  | nil =>
      refine ⟨fun k _ => ?_, by simp [closingIn]⟩
      have size : (marked s).length = pos := by
        rw [List.append_nil] at read
        rw [length_marked, ← place, ← read, flatMap_text_lexemes]
      have ended : depthAt s (pos + k) = depthAt s pos := by
        rw [depthAt, depthAt, List.take_of_length_le (by omega), List.take_of_length_le (by omega)]
      omega
  | cons l ls ih =>
      obtain ⟨inside, behind⟩ := depthAt_lexeme place read
      by_cases here : l = .code ')' ∧ depth = 0
      · obtain ⟨rfl, rfl⟩ := here
        have found : closingIn 0 (.code ')' :: ls) = some 0 := rfl
        refine ⟨fun k before => ?_, fun n last => ?_⟩
        · rw [Nat.le_zero.mp (before 0 found), Nat.add_zero]
          omega
        · obtain rfl : 0 = n := Option.some.inj (found.symm.trans last)
          have down : depthAt s (pos + 0 + 1) = depthAt s pos + -1 := behind
          omega
      · have turned := add_turn here
        have step : closingIn depth (l :: ls) =
            (closingIn (depthAfter depth l) ls).map (· + l.text.length) := by
          rw [closingIn_cons, if_neg here]
        have next : ((front ++ [l]).flatMap Lexeme.text).length = pos + l.text.length := by
          simp [place]
        obtain ⟨kept, falls⟩ := ih next (by rw [read]; simp) (depthAfter depth l)
        rw [step]
        refine ⟨fun k before => ?_, fun n found => ?_⟩
        · rcases Nat.lt_or_ge k l.text.length with short | long
          · rw [inside k short]
            omega
          · obtain ⟨j, rfl⟩ := Nat.exists_eq_add_of_le long
            have level := kept j fun m inner => by
              have bound := before (m + l.text.length) (by rw [inner]; rfl)
              omega
            rw [Nat.add_assoc] at level
            omega
        · obtain ⟨m, inner, rfl⟩ := Option.map_eq_some_iff.mp found
          have level := falls m inner
          rw [Nat.add_assoc pos, Nat.add_comm l.text.length] at level
          omega

end

/-! ### The closing parenthesis -/

/-- A parenthesis of code closes at `stop`, and behind it the depth is what it was before `pos`. -/
structure ReturnsAt (s : Text) (pos stop : Nat) : Prop where
  behind : pos < stop
  closes : s[stop]? = some ')'
  outside : inSpans (literalSpans s) stop = false
  level : depthAt s (stop + 1) = depthAt s pos

section

variable {s : Text} {pos : Nat} (opened : s[pos]? = some '(')
  (outside : inSpans (literalSpans s) pos = false)

include opened outside

theorem exists_cut_of_opened :
    ∃ front, lexemes s = front ++ lexemes (s.drop (pos + 1)) ∧
      (front.flatMap Lexeme.text).length = pos + 1 ∧
      depthAt s (pos + 1) = depthAt s pos + 1 := by
  obtain ⟨bound, here⟩ := List.getElem?_eq_some_iff.mp opened
  obtain ⟨front, read, text⟩ := exists_cut_of_not_inLiteral s pos bound (by
    rw [← inSpans_literalSpans_iff, outside]
    simp)
  rw [List.drop_eq_getElem_cons bound, here, lexemes_code _ _ (by simp [LiteralKind.opening?])]
    at read
  have place : (front.flatMap Lexeme.text).length = pos := by
    rw [text, List.length_take]
    omega
  refine ⟨front ++ [.code '('], ?_, ?_, (depthAt_lexeme place read).2⟩
  · rw [read, List.append_assoc, List.singleton_append]
  · rw [List.flatMap_append, List.length_append, place]
    rfl

theorem returnsAt_of_matching? {stop : Nat} (found : matching? s pos = some stop) :
    ReturnsAt s pos stop := by
  obtain ⟨n, closing, rfl⟩ := Option.map_eq_some_iff.mp found
  obtain ⟨front, read, place, up⟩ := exists_cut_of_opened opened outside
  have down := (depthAt_closingIn place read 0).2 n closing
  obtain ⟨inner, behind, cut, length⟩ := exists_cut_of_closingIn closing
  have stop : ((front ++ inner).flatMap Lexeme.text).length = pos + 1 + n := by
    rw [List.flatMap_append, List.length_append, place, length]
  rw [cut, ← List.append_assoc] at read
  exact ⟨by omega, getElem?_of_code stop read, not_inSpans_of_code stop read, by omega⟩

theorem lt_depthAt_of_matching? {k : Nat} (behind : pos < k)
    (before : ∀ stop, matching? s pos = some stop → k ≤ stop) : depthAt s pos < depthAt s k := by
  obtain ⟨front, read, place, up⟩ := exists_cut_of_opened opened outside
  obtain ⟨j, rfl⟩ := Nat.exists_eq_add_of_le (show pos + 1 ≤ k from behind)
  have level := (depthAt_closingIn place read 0).1 j fun n closing => by
    have bound := before (pos + 1 + n) (by rw [matching?, closing?, closing]; rfl)
    omega
  omega

theorem ReturnsAt.exists_matching? {n : Nat} (returns : ReturnsAt s pos n) :
    ∃ stop ≤ n, matching? s pos = some stop := by
  by_contra none
  have behind := returns.behind
  have deep := lt_depthAt_of_matching? opened outside (k := n + 1) (by omega) fun stop found =>
    Nat.lt_of_not_le fun early => none ⟨stop, early, found⟩
  have level := returns.level
  omega

theorem matching?_eq_some_iff {stop : Nat} :
    matching? s pos = some stop ↔ IsLeast {n | ReturnsAt s pos n} stop := by
  constructor
  · intro found
    refine ⟨returnsAt_of_matching? opened outside found, fun n returns => ?_⟩
    obtain ⟨first, early, again⟩ := ReturnsAt.exists_matching? opened outside returns
    rw [found] at again
    rwa [Option.some.inj again]
  · intro least
    obtain ⟨first, early, found⟩ := ReturnsAt.exists_matching? opened outside least.1
    have late := least.2 (returnsAt_of_matching? opened outside found)
    rw [found, Nat.le_antisymm early late]

theorem matching?_eq_none_iff : matching? s pos = none ↔ ∀ n, ¬ ReturnsAt s pos n := by
  constructor
  · intro none n returns
    obtain ⟨stop, -, found⟩ := ReturnsAt.exists_matching? opened outside returns
    rw [none] at found
    cases found
  · intro never
    cases found : matching? s pos with
    | none => rfl
    | some stop => exact absurd (returnsAt_of_matching? opened outside found) (never stop)

theorem exists_matching?_lt {stop i : Nat} (found : matching? s pos = some stop) (low : pos < i)
    (high : i < stop)
    (inner : s[i]? = some '(') (code : inSpans (literalSpans s) i = false) :
    ∃ k, i < k ∧ k < stop ∧ matching? s i = some k := by
  have level := (returnsAt_of_matching? opened outside found).level
  have deep : depthAt s pos < depthAt s i :=
    lt_depthAt_of_matching? opened outside low fun c same => by
    rw [found] at same
    have := Option.some.inj same
    omega
  -- the depth before the inner parenthesis is above the one behind the outer list, so it comes back
  -- earlier
  by_contra none
  have deeper : depthAt s i < depthAt s (stop + 1) :=
    lt_depthAt_of_matching? inner code (by omega) fun k closing => by
      have returns := returnsAt_of_matching? inner code closing
      rcases Nat.lt_trichotomy k stop with early | same | late
      · exact absurd ⟨k, returns.behind, early, closing⟩ none
      · have back := returns.level
        rw [same] at back
        omega
      · exact late
  omega

end

/-- The parenthesis that is found for one of code is the first behind it at which the depth comes
back, it is missed only if the depth never does, and every parenthesis between the two has its own
before the second. -/
theorem matchingParen_iff_isLeast_returnsAt (s : Text) (pos : Nat) (opened : s[pos]? = some '(')
    (outside : inSpans (literalSpans s) pos = false) :
    (∀ n, depthAt s n = ∑ i ∈ Finset.range n, turnAt s i) ∧
    (∀ stop : Int, matchingParen s pos = .ok stop ↔ ∃ n : Nat, stop = n ∧
      IsLeast {n | ReturnsAt s pos n} n) ∧
    (matchingParen s pos = .error (.unclosed pos) ↔ ∀ n, ¬ ReturnsAt s pos n) ∧
    (Fault.unclosed pos).message = "No matching closing paren for '(' at position " ++ decimal pos ∧
    ∀ stop : Nat, matchingParen s pos = .ok (stop : Int) → ∀ i, pos < i → i < stop →
      s[i]? = some '(' →
      inSpans (literalSpans s) i = false → ∃ k : Nat, i < k ∧ k < stop ∧
        matchingParen s i = .ok (k : Int) := by
  have answer := matchingParen_of_opened s pos opened
  refine ⟨depthAt_eq_sum s, fun stop => ?_, ?_, ?_, fun stop closes i low high inner code => ?_⟩
  · simp only [← matching?_eq_some_iff opened outside, answer]
    cases matching? s pos with
    | none => simp
    | some n => simp [eq_comm]
  · rw [← matching?_eq_none_iff opened outside, answer]
    cases matching? s pos <;> simp
  · have digits : integerDecimal pos = decimal pos := by
      rw [integerDecimal, if_neg (by omega), Int.natAbs_natCast]
    exact congrArg (_ ++ ·) digits
  · have found : matching? s pos = some stop := by
      rw [answer] at closes
      cases same : matching? s pos with
      | none => simp [same] at closes
      | some n =>
          rw [same] at closes
          exact congrArg some (Int.ofNat.inj (Except.ok.inj closes))
    obtain ⟨k, behind, before, closing⟩ :=
      exists_matching?_lt opened outside found low high inner code
    exact ⟨k, behind, before, by rw [matchingParen_of_opened s i inner, closing]; rfl⟩

theorem matchingParen_iff_isLeast_returnsAt_unbalanced :
    let s : Text := ")f('(' -- (\n, (a) /* ) */, b)) ("
    s[2]? = some '(' ∧ inSpans (literalSpans s) (2 : Nat) = false ∧ depthAt s 2 = -1 ∧
      IsLeast {n | ReturnsAt s 2 n} 28 ∧
      (∃ k : Nat, 14 < k ∧ k < 28 ∧ matchingParen s (14 : Nat) = .ok (k : Int)) ∧
      s[31]? = some '(' ∧ inSpans (literalSpans s) (31 : Nat) = false ∧ ∀ n,
      ¬ ReturnsAt s 31 n := by
  intro s
  have opened : s[2]? = some '(' := by decide +kernel
  have outside : inSpans (literalSpans s) (2 : Nat) = false := by decide +kernel
  have last : s[31]? = some '(' := by decide +kernel
  have lone : inSpans (literalSpans s) (31 : Nat) = false := by decide +kernel
  have closes : matchingParen s (2 : Nat) = .ok ((28 : Nat) : Int) := by decide +kernel
  obtain ⟨-, found, -, -, nested⟩ := matchingParen_iff_isLeast_returnsAt s 2 opened outside
  obtain ⟨n, same, least⟩ := (found _).mp closes
  obtain rfl : 28 = n := Int.ofNat.inj same
  obtain ⟨-, -, unclosed, -⟩ := matchingParen_iff_isLeast_returnsAt s 31 last lone
  exact ⟨opened, outside, by decide +kernel, least,
    nested 28 closes 14 (by decide) (by decide) (by decide +kernel) (by decide +kernel), last, lone,
    unclosed.mp (by decide +kernel)⟩

end LiteSql
