import LiteSql.Proofs.Balance
import LiteSql.Proofs.Scan

/-! The literals of a text in one pass. The scanner reads a character at a time and knows no
lengths, and a doubled quote closes a string for it and opens the next one. Still its states tell
which characters the spans of the literals cover. -/

namespace LiteSql

namespace ScanState

/-- Whether the character between the states `before` and `here` is one of a literal, where `later`
is the state one character further on. A literal holds what is read inside it and what opens it, and
the first of two opening signs is known by the second. The line feed behind a line comment is code.
-/
def isLiteral (before here later : ScanState) : Bool :=
  !here.isOpen || (!before.isOpen && before != line) || (here == dash && later == line) ||
    (here == slash && later == block)

theorem ofCode_ne (c : Char) : ofCode c ≠ line ∧ ofCode c ≠ block := by
  unfold ofCode
  split_ifs <;> decide

theorem isSome_opening? (c : Char) (next : Option Char) :
    (LiteralKind.opening? (c :: next.toList)).isSome =
      isLiteral code (ofCode c) ((ofCode c).after next.toList) := by
  by_cases quote : c = '\x27' ∨ c = '\x22' ∨ c = '\x60'
  · rcases quote with rfl | rfl | rfl <;> rfl
  · rw [not_or, not_or] at quote
    by_cases sign : c = '-' ∨ c = '/'
    · cases next with
      | none => rcases sign with rfl | rfl <;> rfl
      | some d =>
          have plain := ofCode_ne d
          rcases sign with rfl | rfl
          · have here : ofCode '-' = dash := rfl
            by_cases same : d = '-' <;>
              simp [LiteralKind.opening?, isLiteral, here, after, step, isOpen, same, plain]
          · have here : ofCode '/' = slash := rfl
            by_cases same : d = '*' <;>
              simp [LiteralKind.opening?, isLiteral, here, after, step, isOpen, same, plain]
    · rw [not_or] at sign
      simp [LiteralKind.opening?, isLiteral, ofCode, isOpen, quote, sign]

theorem marks_eq_isLiteral (q : ScanState) (c : Char) (next : Option Char) :
    q.marks c next = isLiteral q (q.step c) ((q.step c).after next.toList) := by
  cases q with
  | code => exact isSome_opening? c next
  | dash =>
      by_cases minus : c = '-'
      · simp [marks, step, isLiteral, isOpen, minus]
      · rw [marks, isSome_opening?]
        simp [step, isLiteral, isOpen, minus]
  | slash =>
      by_cases star : c = '*'
      · simp [marks, step, isLiteral, isOpen, star]
      · rw [marks, isSome_opening?]
        simp [step, isLiteral, isOpen, star]
  | line => by_cases newline : c = '\n' <;> simp [marks, step, isLiteral, isOpen, newline]
  | _ => simp [marks, isLiteral, isOpen]

end ScanState

def scansLiteral (s : Text) (pos : Nat) : Bool :=
  ScanState.isLiteral (scan (s.take pos)) (scan (s.take (pos + 1))) (scan (s.take (pos + 2)))

theorem scan_take_succ (s : Text) (pos : Nat) :
    scan (s.take (pos + 1)) = (scan (s.take pos)).after s[pos]?.toList := by
  rw [List.take_add_one, scan_append]

theorem inLiteral_iff_scansLiteral (s : Text) (pos : Nat) :
    InLiteral s pos ↔ pos < s.length ∧ scansLiteral s pos = true := by
  rw [inLiteral_iff_marks, scansLiteral, scan_take_succ s (pos + 1), scan_take_succ s pos]
  constructor
  · rintro ⟨c, here, marked⟩
    rw [ScanState.marks_eq_isLiteral] at marked
    rw [here]
    exact ⟨(List.getElem?_eq_some_iff.mp here).1, marked⟩
  · rintro ⟨bound, literal⟩
    rw [List.getElem?_eq_getElem bound] at literal ⊢
    refine ⟨s[pos], rfl, ?_⟩
    rw [ScanState.marks_eq_isLiteral]
    exact literal

theorem span_of_mem_spansFrom (start : Nat) (ls : List Lexeme) (filled : ∀ l ∈ ls, l.text ≠ []) :
    ∀ span ∈ spansFrom start ls,
      span.start < span.stop ∧ span.stop ≤ start + (ls.flatMap Lexeme.text).length := by
  induction ls generalizing start with
  | nil => simp [spansFrom]
  | cons l ls ih =>
      intro span member
      have later (start : Nat) := ih start fun l member => filled l (List.mem_cons_of_mem _ member)
      rw [List.flatMap_cons, List.length_append, ← Nat.add_assoc]
      cases l with
      | code c => exact later (start + 1) span member
      | literal kind text =>
          rcases List.mem_cons.mp member with rfl | member
          · have present : text ≠ [] := filled _ List.mem_cons_self
            have positive := List.length_pos_iff.mpr present
            exact ⟨Nat.lt_add_of_pos_right positive, Nat.le_add_right _ _⟩
          · exact later (start + text.length) span member

theorem not_inSpans_of_neg (spans : List Span) {pos : Int} (negative : pos < 0) :
    inSpans spans pos = false := by
  have none : spans.filter (fun span => decide ((span.start : Int) ≤ pos)) = [] := by
    rw [List.filter_eq_nil_iff]
    intro span _
    rw [decide_eq_true_eq]
    omega
  rw [inSpans, lastStarting?, none]
  rfl

/-- The spans of the literals are filled, in order and apart, and they cover the characters of a
text that the scanner finds in literals, and no other position. -/
theorem inSpans_literalSpans_iff_scansLiteral (s : Text) :
    (∀ span ∈ literalSpans s, span.start < span.stop ∧ span.stop ≤ s.length) ∧
      (literalSpans s).Pairwise (fun first second =>
        first.start < second.start ∧ first.stop ≤ second.start) ∧
      ∀ pos : Int, inSpans (literalSpans s) pos = true ↔
        0 ≤ pos ∧ pos < s.length ∧ scansLiteral s pos.toNat = true := by
  have inside : ∀ span ∈ literalSpans s, span.start < span.stop ∧ span.stop ≤ s.length := by
    have bound := span_of_mem_spansFrom 0 (lexemes s) (text_ne_nil_of_mem_lexemes s)
    rwa [flatMap_text_lexemes, Nat.zero_add] at bound
  refine ⟨inside, ?_, fun pos => ?_⟩
  · refine (pairwise_spansFrom 0 (lexemes s)).2.imp_of_mem fun {first second} member _ apart => ?_
    exact ⟨Nat.lt_of_lt_of_le (inside first member).1 apart, apart⟩
  · rcases Int.lt_or_le pos 0 with negative | positive
    · rw [not_inSpans_of_neg _ negative]
      constructor
      · intro absurd
        cases absurd
      · intro bound
        omega
    · obtain ⟨n, rfl⟩ := Int.eq_ofNat_of_zero_le positive
      rw [inSpans_literalSpans_iff, inLiteral_iff_scansLiteral, Int.toNat_natCast]
      simp

end LiteSql
