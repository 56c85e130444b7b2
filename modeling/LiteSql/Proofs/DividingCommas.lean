import LiteSql.Arguments
import LiteSql.Proofs.DepthReturn
import LiteSql.Proofs.LineLayout

/-! The commas that divide an argument list. They are told position by position, by the spans of the
literals and by the depth counted from the start of the list, which may fall below zero and come
back. The arguments are what stands between them. -/

namespace LiteSql

structure Divides (s : Text) (pos : Nat) : Prop where
  comma : s[pos]? = some ','
  outside : inSpans (literalSpans s) pos = false
  top : depthAt s pos = 0

instance (s : Text) (pos : Nat) : Decidable (Divides s pos) :=
  decidable_of_iff (s[pos]? = some ',' ∧ inSpans (literalSpans s) pos = false ∧ depthAt s pos = 0)
    ⟨fun ⟨comma, outside, top⟩ => ⟨comma, outside, top⟩, fun divides =>
      ⟨divides.comma, divides.outside, divides.top⟩⟩

def divisions (s : Text) : List Nat := (List.range s.length).filter (Divides s ·)

def between (s : Text) : (start : Nat) → List Nat → List Text
  | start, [] => [s.drop start]
  | start, pos :: rest => slice s start pos :: between s (pos + 1) rest

theorem mem_divisions_iff (s : Text) (pos : Nat) : pos ∈ divisions s ↔ Divides s pos := by
  rw [divisions, List.mem_filter, List.mem_range, decide_eq_true_eq, and_iff_right_iff_imp]
  intro divides
  exact (List.getElem?_eq_some_iff.mp divides.comma).1

theorem pairwise_divisions (s : Text) : (divisions s).Pairwise (· < ·) :=
  List.pairwise_lt_range.filter _

theorem length_between (s : Text) (start : Nat) (cuts : List Nat) :
    (between s start cuts).length = cuts.length + 1 := by
  induction cuts generalizing start with
  | nil => rfl
  | cons pos cuts ih => rw [between, List.length_cons, ih, List.length_cons]

theorem extendFirst_between {s : Text} {start middle : Nat} {cuts : List Nat}
    (ordered : start ≤ middle)
    (later : ∀ pos ∈ cuts, middle ≤ pos) :
    extendFirst (slice s start middle) (between s middle cuts) = between s start cuts := by
  have rest : s.drop middle = (s.drop start).drop (middle - start) := by
    rw [List.drop_drop, Nat.add_sub_cancel' ordered]
  cases cuts with
  | nil => rw [between, extendFirst, slice, rest, List.take_append_drop, between]
  | cons pos cuts =>
      have bound := later pos List.mem_cons_self
      have sum : pos - start = (middle - start) + (pos - middle) := by omega
      have joined : slice s start middle ++ slice s middle pos = slice s start pos := by
        rw [slice, slice, slice, rest, sum, List.take_add]
      rw [between, extendFirst, joined, between]

theorem joinWith_piecesAt (depth : Int) (ls : List Lexeme) :
    joinWith [','] (piecesAt depth ls) = ls.flatMap Lexeme.text := by
  induction ls generalizing depth with
  | nil => rfl
  | cons l ls ih =>
      rw [piecesAt]
      split
      · next comma =>
          rw [joinWith_nil_cons _ _ (piecesAt_ne_nil depth ls), ih, comma.1]
          rfl
      · rw [joinWith_extendFirst _ _ _ (piecesAt_ne_nil _ ls), ih, List.flatMap_cons]

section

variable {s : Text} {front rest ls : List Lexeme} {pos : Nat}
  (place : (front.flatMap Lexeme.text).length = pos)

include place

/-- No comma divides a text inside a lexeme, unless the lexeme is such a comma. -/
theorem not_divides_of_lexeme {l : Lexeme} (read : lexemes s = front ++ l :: rest)
    (other : ¬ (l = .code ',' ∧ depthAt s pos = 0)) {i : Nat} (low : pos ≤ i)
    (high : i < pos + l.text.length) :
    ¬ Divides s i := by
  intro divides
  cases l with
  | literal kind text =>
      rw [← place] at low high
      have covered := (inSpans_literalSpans_iff s i).mpr (inLiteral_of_lexemes read low high)
      rw [divides.outside] at covered
      cases covered
  | code c =>
      rw [Lexeme.text, List.length_singleton] at high
      obtain rfl : i = pos := by omega
      have same := (getElem?_of_code place read).symm.trans divides.comma
      exact other ⟨congrArg _ (Option.some.inj same), divides.top⟩

/-- The pieces of a text from a lexeme on are what stands between the commas that divide it from
there on. -/
theorem piecesAt_eq_between (read : lexemes s = front ++ ls) :
    piecesAt (depthAt s pos) ls =
      between s pos ((List.range' pos (ls.flatMap Lexeme.text).length).filter (Divides s ·)) := by
  induction ls generalizing front pos with
  | nil =>
      have whole := flatMap_text_lexemes s
      rw [read, List.append_nil] at whole
      simp [piecesAt, between, ← place, whole]
  | cons l ls ih =>
      have next : ((front ++ [l]).flatMap Lexeme.text).length = pos + l.text.length := by
        simp [place]
      have later := ih next (by rw [read]; simp)
      rw [(depthAt_lexeme place read).2] at later
      rw [List.flatMap_cons, List.length_append, ← List.range'_append_1, List.filter_append,
        piecesAt]
      split
      · next comma =>
          obtain ⟨rfl, top⟩ := comma
          have divides : Divides s pos := ⟨getElem?_of_code place read,
            not_inSpans_of_code place read, top⟩
          have first : (List.range' pos (Lexeme.code ',').text.length).filter
              (Divides s ·) = [pos] := by
            simp [Lexeme.text, divides]
          rw [show (Lexeme.code ',').turn = 0 from rfl, Int.add_zero] at later
          rw [first, List.singleton_append, between, later, slice, Nat.sub_self, List.take_zero]
          rfl
      · next other =>
          have none : (List.range' pos l.text.length).filter (Divides s ·) = [] := by
            rw [List.filter_eq_nil_iff]
            intro i member
            rw [List.mem_range'_1] at member
            rw [decide_eq_true_eq]
            exact not_divides_of_lexeme place read other member.1 member.2
          have text : slice s pos (pos + l.text.length) = l.text := by
            rw [(lexemes_of_append read).1, slice, ← place, List.drop_left, List.flatMap_cons,
              Nat.add_sub_cancel_left, List.take_left]
          have behind :
              ∀ i ∈ (List.range' (pos + l.text.length) (ls.flatMap Lexeme.text).length).filter
                (Divides s ·),
              pos + l.text.length ≤ i := fun i member =>
                (List.mem_range'_1.mp (List.mem_of_mem_filter member)).1
          rw [none, List.nil_append, later, ← extendFirst_between
            (Nat.le_add_right pos l.text.length) behind, text]

end

/-- Arguments are split exactly at the commas of code outside parentheses, and nothing else of the
list is lost than these commas and the blanks around the arguments. -/
theorem splitArguments_eq_between (inner : Text) :
    splitArguments inner = (if inner.all isBlank then []
      else (between inner 0 (divisions inner)).map trim) ∧
    (inner.all isBlank = false → (splitArguments inner).length = (divisions inner).length + 1) ∧
    (divisions inner).Pairwise (· < ·) ∧ (∀ pos, pos ∈ divisions inner ↔ Divides inner pos) ∧
    joinWith [','] (between inner 0 (divisions inner)) = inner ∧
    ∀ piece ∈ between inner 0 (divisions inner), ∃ before after,
    piece = before ++ (trim piece ++ after) ∧
      (∀ c ∈ before, isBlank c = true) ∧ ∀ c ∈ after, isBlank c = true := by
  have pieces : piecesAt 0 (lexemes inner) = between inner 0 (divisions inner) := by
    have parted := piecesAt_eq_between rfl (List.nil_append (lexemes inner)).symm
    rwa [flatMap_text_lexemes, List.flatMap_nil, List.length_nil, ← List.range_eq_range'] at parted
  have split : splitArguments inner =
      if inner.all isBlank then [] else (between inner 0 (divisions inner)).map trim := by
    rw [splitArguments, pieces]
  refine ⟨split, fun filled => ?_, pairwise_divisions inner, mem_divisions_iff inner, ?_,
    fun piece _ => Layout.exists_trim_eq piece⟩
  · rw [split, filled, if_neg Bool.false_ne_true, List.length_map, length_between]
  · rw [← pieces, joinWith_piecesAt, flatMap_text_lexemes]

-- The first comma stands below depth zero, and the depth is zero again behind the parenthesis after
-- it.
example : divisions "a), (b, ',', c" = [6, 11] ∧ splitArguments "a), (b, ',', c" =
    ["a), (b", "','", "c"] := by
  decide +kernel

end LiteSql
