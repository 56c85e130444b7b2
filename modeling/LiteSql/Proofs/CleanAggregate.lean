import LiteSql.Proofs.AggregateLayout
import LiteSql.Proofs.CleanLines

/-! Cleanup of an aggregating query that has been laid out. Its calls are in normal form and the
rest is as tidy as before, so cleanup leaves it alone. -/

namespace LiteSql

/-! ### Lexemes of a layout -/

namespace LaidOut

variable {front ls ms : List Lexeme}

theorem isPrefix_of_blank (laidOut : LaidOut front ls ms) {w : Text}
    (blank : ∀ c ∈ w, isBlank c = true)
    (start : w.map .code <+: ms) : w.map .code <+: ls := by
  induction w generalizing front ls ms with
  | nil => exact List.nil_prefix
  | cons c w ih =>
      obtain ⟨first, others⟩ := List.forall_mem_cons.mp blank
      cases laidOut with
      | done => simp at start
      | keep _ later =>
          rw [List.map_cons, List.cons_prefix_cons] at start ⊢
          exact ⟨start.1, ih later others start.2⟩
      | call _ _ _ _ _ =>
          obtain ⟨same, -⟩ := List.cons_prefix_cons.mp start
          cases same
          cases first

theorem tidyRuns (laidOut : LaidOut front ls ms) (tidy : TidyRuns ls) : TidyRuns ms := by
  induction laidOut with
  | done => exact tidy
  | @keep front l ls ms _ later ih =>
      intro w blank part
      rcases List.infix_cons_iff.mp part with start | inner
      · cases w with
        | nil => exact Cleanup.tidy_nil
        | cons c w =>
            rw [List.map_cons, List.cons_prefix_cons] at start
            obtain ⟨rfl, behind⟩ := start
            refine tidy (c :: w) blank (List.IsPrefix.isInfix ?_)
            rw [List.map_cons, List.cons_prefix_cons]
            exact ⟨rfl, later.isPrefix_of_blank (List.forall_mem_cons.mp blank).2 behind⟩
      · exact ih (tidy.of_isInfix (List.suffix_cons l ls).isInfix) w blank inner
  | @call front inner others arguments ls ms written _ _ _ neat _ _ ih =>
      have behind := ih (tidy.of_isInfix (List.suffix_append _ ls).isInfix)
      have name : TidyRuns (GroupConcat.function.map .code) := tidyRuns_map_code (by decide)
      have whole : callLexemes GroupConcat.function arguments ++ ms =
          GroupConcat.function.map .code ++ .code '(' :: (arguments ++ .code ')' :: ms) := by
        simp [callLexemes]
      rw [whole]
      exact name.append_cons (by decide) (neat.squeezed.tidyRuns.append_cons (by decide) behind)

theorem head?_cases (laidOut : LaidOut front ls ms) : ms.head? = ls.head? ∨
    ms.head? = some (.code 'G') := by
  cases laidOut with
  | done => exact .inl rfl
  | keep _ _ => exact .inl rfl
  | call _ _ _ _ _ => exact .inr rfl

theorem getLast?_cases (laidOut : LaidOut front ls ms) :
    ms.getLast? = ls.getLast? ∨ ms.getLast? = some (.code ')') := by
  induction laidOut with
  | done => exact .inl rfl
  | keep _ _ ih =>
      rw [List.getLast?_cons, List.getLast?_cons]
      rcases ih with same | last
      · rw [same]
        exact .inl rfl
      · rw [last]
        exact .inr rfl
  | @call front inner others arguments ls ms written _ _ _ _ _ _ ih =>
      rw [List.getLast?_append, List.getLast?_append]
      have last : (callLexemes GroupConcat.function arguments).getLast? = some (.code ')') := by
        rw [callLexemes, ← List.cons_append, ← List.append_assoc, List.getLast?_concat]
      rcases ih with same | late
      · rw [same]
        cases ends : ls.getLast? with
        | none => exact .inr last
        | some l => exact .inl rfl
      · rw [late]
        exact .inr rfl

end LaidOut

/-! ### The layout as a text -/

theorem head?_flatMap_text {ls : List Lexeme} (present : ∀ l ∈ ls, l.text ≠ []) :
    (ls.flatMap Lexeme.text).head? = ls.head?.bind (·.text.head?) := by
  cases ls with
  | nil => rfl
  | cons l ls =>
      rw [List.flatMap_cons, List.head?_append_of_ne_nil _ (present l List.mem_cons_self)]; rfl

theorem getLast?_flatMap_text {ls : List Lexeme} (present : ∀ l ∈ ls, l.text ≠ []) :
    (ls.flatMap Lexeme.text).getLast? = ls.getLast?.bind (·.text.getLast?) := by
  rcases List.eq_nil_or_concat ls with rfl | ⟨front, l, rfl⟩
  · rfl
  · rw [List.concat_eq_append] at present ⊢
    rw [List.flatMap_append, List.flatMap_singleton, List.getLast?_append_of_ne_nil _
      (present l (by simp)), List.getLast?_concat]
    rfl

namespace Layout

theorem trim_aggregateQuery {s : Text} (trimmed : trim s = s) :
    trim (aggregateQuery s) = aggregateQuery s := by
  have laidOut := laidOut_aggregateQuery s
  have first := head?_flatMap_text (text_ne_nil_of_mem_lexemes s)
  have last := getLast?_flatMap_text (text_ne_nil_of_mem_lexemes s)
  have first' := head?_flatMap_text (text_ne_nil_of_mem_lexemes (aggregateQuery s))
  have last' := getLast?_flatMap_text (text_ne_nil_of_mem_lexemes (aggregateQuery s))
  rw [flatMap_text_lexemes] at first last first' last'
  apply trim_eq_self
  · rw [first']
    rcases laidOut.head?_cases with same | named
    · rw [same, ← first, ← trimmed, head?_trim]
    · rw [named]
      rfl
  · rw [last']
    rcases laidOut.getLast?_cases with same | closed
    · rw [same, ← last, ← trimmed, getLast?_trim]
    · rw [closed]
      rfl

theorem clean_aggregateQuery {s : Text} (tidy : ∀ x ∈ codeSegments s, Cleanup.Tidy x)
    (trimmed : trim s = s)
    (none : Cleanup.option.codeHits (aggregateQuery s) = []) :
    Cleanup.clean (aggregateQuery s) = aggregateQuery s := by
  have source : TidyRuns (lexemes s) := (tidyRuns_lexemes_iff s).mpr tidy
  have laid := (tidyRuns_lexemes_iff _).mp ((laidOut_aggregateQuery s).tidyRuns source)
  exact Cleanup.clean_eq_self none laid (trim_aggregateQuery trimmed)

end Layout

end LiteSql
