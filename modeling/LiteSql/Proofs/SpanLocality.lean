import LiteSql.Proofs.LiteralScan

/-! The spans of the literals in a part of a text. Wherever no literal is cut, a part that is
scanned on its own has the spans that the whole text has there. -/

namespace LiteSql

namespace Span

def forward (n : Nat) (span : Span) : Span := ⟨span.start + n, span.stop + n⟩

def back (n : Nat) (span : Span) : Span := ⟨span.start - n, span.stop - n⟩

theorem back_forward (n : Nat) (span : Span) : (span.forward n).back n = span := by
  simp [forward, back]

def within (low high : Nat) (span : Span) : Bool :=
  decide (low ≤ span.start) && decide (span.stop ≤ high)

end Span

theorem spansFrom_append (start : Nat) (first second : List Lexeme) :
    spansFrom start (first ++ second) =
      spansFrom start first ++ spansFrom (start + (first.flatMap Lexeme.text).length) second := by
  induction first generalizing start with
  | nil => rfl
  | cons l first ih =>
      rw [List.flatMap_cons, List.length_append, ← Nat.add_assoc]
      cases l with
      | code c => exact ih (start + 1)
      | literal kind text => exact congrArg (_ :: ·) (ih (start + text.length))

theorem spansFrom_add (n start : Nat) (ls : List Lexeme) :
    spansFrom (start + n) ls = (spansFrom start ls).map (Span.forward n) := by
  induction ls generalizing start with
  | nil => rfl
  | cons l ls ih =>
      cases l with
      | code c =>
          rw [spansFrom, spansFrom, ← ih, Nat.add_right_comm]
      | literal kind text =>
          rw [spansFrom, spansFrom, List.map_cons, ← ih, Nat.add_right_comm, Span.forward]

/-- A position that lies strictly inside no literal of a text. -/
def IsBoundary (s : Text) (pos : Nat) : Prop :=
  ∀ span ∈ literalSpans s, ¬ (span.start < pos ∧ pos < span.stop)

instance (s : Text) (pos : Nat) : Decidable (IsBoundary s pos) :=
  inferInstanceAs (Decidable (∀ span ∈ literalSpans s, ¬ (span.start < pos ∧ pos < span.stop)))

theorem exists_cut_of_spansFrom {start pos : Nat} {ls : List Lexeme} (low : start ≤ pos)
    (high : pos ≤ start + (ls.flatMap Lexeme.text).length)
    (apart : ∀ span ∈ spansFrom start ls, ¬ (span.start < pos ∧ pos < span.stop)) :
    ∃ first second, ls = first ++ second ∧ start + (first.flatMap Lexeme.text).length = pos := by
  induction ls generalizing start with
  | nil => exact ⟨[], [], rfl, Nat.le_antisymm low high⟩
  | cons l ls ih =>
      rcases Nat.eq_or_lt_of_le low with rfl | inside
      · exact ⟨[], l :: ls, rfl, rfl⟩
      · have past : start + l.text.length ≤ pos ∧
            ∀ span ∈ spansFrom (start + l.text.length) ls,
            ¬ (span.start < pos ∧ pos < span.stop) := by
          cases l with
          | code c => exact ⟨inside, apart⟩
          | literal kind text =>
              have own := apart _ List.mem_cons_self
              refine ⟨Nat.le_of_not_lt fun before => own ⟨inside, before⟩, fun span member => ?_⟩
              exact apart span (List.mem_cons_of_mem _ member)
        rw [List.flatMap_cons, List.length_append, ← Nat.add_assoc] at high
        obtain ⟨first, second, rfl, place⟩ := ih past.1 high past.2
        refine ⟨l :: first, second, rfl, ?_⟩
        rw [List.flatMap_cons, List.length_append, ← Nat.add_assoc, place]

theorem exists_cuts_of_isBoundary {s : Text} {a b : Nat} (ordered : a ≤ b) (bound : b ≤ s.length)
    (low : IsBoundary s a) (high : IsBoundary s b) :
    ∃ before inner behind, lexemes s = (before ++ inner) ++ behind ∧
      (before.flatMap Lexeme.text).length = a ∧
      a + (inner.flatMap Lexeme.text).length = b := by
  have size : s.length = 0 + ((lexemes s).flatMap Lexeme.text).length := by
    rw [flatMap_text_lexemes, Nat.zero_add]
  obtain ⟨front, behind, read, stop⟩ := exists_cut_of_spansFrom (Nat.zero_le b) (size ▸ bound) high
  rw [Nat.zero_add] at stop
  have uncut : ∀ span ∈ spansFrom 0 front, ¬ (span.start < a ∧ a < span.stop) :=
    fun span member => by
    refine low span ?_
    rw [literalSpans, read, spansFrom_append]
    exact List.mem_append_left _ member
  obtain ⟨before, inner, rfl, start⟩ := exists_cut_of_spansFrom (Nat.zero_le a) (by omega) uncut
  rw [Nat.zero_add] at start
  refine ⟨before, inner, behind, read, start, ?_⟩
  rw [← start, ← List.length_append, ← List.flatMap_append, stop]

theorem bounds_of_mem_spansFrom {s : Text} {ls : List Lexeme} (part : ls <:+: lexemes s)
    {start : Nat} {span : Span}
    (member : span ∈ spansFrom start ls) :
    start ≤ span.start ∧ span.start < span.stop ∧ span.stop ≤
      start + (ls.flatMap Lexeme.text).length :=
  ⟨(pairwise_spansFrom start ls).1 span member,
    span_of_mem_spansFrom start ls (fun l inside => text_ne_nil_of_mem_lexemes s l
      (part.subset inside)) span member⟩

theorem filter_within_eq_nil {s : Text} {ls : List Lexeme} (part : ls <:+: lexemes s)
    {start a b : Nat}
    (apart : start + (ls.flatMap Lexeme.text).length ≤ a ∨ b ≤ start) :
    (spansFrom start ls).filter (Span.within a b) = [] := by
  rw [List.filter_eq_nil_iff]
  intro span member
  have bounds := bounds_of_mem_spansFrom part member
  simp only [Span.within, Bool.and_eq_true, decide_eq_true_eq]
  omega

theorem filter_within_literalSpans {s : Text} {before inner behind : List Lexeme} {a b : Nat}
    (read : lexemes s = (before ++ inner) ++ behind)
    (start : (before.flatMap Lexeme.text).length = a)
    (stop : a + (inner.flatMap Lexeme.text).length = b) :
    (literalSpans s).filter (Span.within a b) = spansFrom a inner := by
  have cut : literalSpans s = spansFrom 0 before ++ (spansFrom a inner ++ spansFrom b behind) := by
    rw [literalSpans, read, spansFrom_append, spansFrom_append, List.flatMap_append,
      List.length_append, start, Nat.zero_add, Nat.zero_add, stop, List.append_assoc]
  have early : (spansFrom 0 before).filter (Span.within a b) = [] :=
    filter_within_eq_nil (s := s) ⟨[], inner ++ behind, by rw [read]; simp⟩ (.inl (by omega))
  have kept : (spansFrom a inner).filter (Span.within a b) = spansFrom a inner := by
    rw [List.filter_eq_self]
    intro span member
    have bounds := bounds_of_mem_spansFrom (s := s) ⟨before, behind, read.symm⟩ member
    simp only [Span.within, Bool.and_eq_true, decide_eq_true_eq]
    omega
  have late : (spansFrom b behind).filter (Span.within a b) = [] :=
    filter_within_eq_nil (s := s) ⟨before ++ inner, [], by rw [read]; simp⟩ (.inr (Nat.le_refl b))
  rw [cut, List.filter_append, List.filter_append, early, kept, late, List.nil_append,
    List.append_nil]

/-- Scanning is local: a part of a text that cuts no literal has the spans of the text that lie in
it. -/
theorem literalSpans_slice (s : Text) (a b : Nat) (ordered : a ≤ b) (bound : b ≤ s.length)
    (low : IsBoundary s a)
    (high : IsBoundary s b) :
    literalSpans (slice s a b) = ((literalSpans s).filter (Span.within a b)).map (Span.back a) := by
  obtain ⟨before, inner, behind, read, start, stop⟩ :=
    exists_cuts_of_isBoundary ordered bound low high
  have own : lexemes (inner.flatMap Lexeme.text) = inner :=
    (lexemes_of_append (lexemes_front read)).2
  have text : slice s a b = inner.flatMap Lexeme.text := by
    have whole := (lexemes_of_append read).1
    rw [List.flatMap_append, List.append_assoc] at whole
    rw [whole, slice, ← start, List.drop_left, ← stop, ← start, Nat.add_sub_cancel_left,
      List.take_left]
  have forward := spansFrom_add a 0 inner
  rw [Nat.zero_add] at forward
  calc literalSpans (slice s a b) = spansFrom 0 inner := by rw [text, literalSpans, own]
    _ = (spansFrom a inner).map (Span.back a) := by
      rw [forward, List.map_map]
      exact ((List.map_congr_left fun span _ => span.back_forward a).trans (List.map_id _)).symm
    _ = ((literalSpans s).filter (Span.within a b)).map (Span.back a) := by
      rw [filter_within_literalSpans read start stop]

theorem literalSpans_slice_commented :
    let s : Text := "x 'it''s'-- 'y\n-/*/ */`a"
    9 ≤ 22 ∧ 22 ≤ s.length ∧ IsBoundary s 9 ∧ IsBoundary s 22 ∧
      slice s 9 22 = "-- 'y\n-/*/ */".toList ∧
      literalSpans (slice s 9 22) = ((literalSpans s).filter (Span.within 9 22)).map (Span.back 9) ∧
      literalSpans (slice s 9 22) = [⟨0, 5⟩, ⟨7, 13⟩] := by
  intro s
  have bound : 22 ≤ s.length := by decide +kernel
  have low : IsBoundary s 9 := by decide +kernel
  have high : IsBoundary s 22 := by decide +kernel
  have spans := literalSpans_slice s 9 22 (by decide) bound low high
  exact ⟨by decide, bound, low, high, by decide +kernel, spans, spans.trans (by decide +kernel)⟩

end LiteSql
