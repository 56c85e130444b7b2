import LiteSql.Proofs.IntervalMarks
import LiteSql.Proofs.SeparatorMarks

/-! Marked statements. Each pass leaves nothing for itself to mark, and no later pass brings back
what an earlier one has taken away, so marking a second time changes and reports nothing. -/

namespace LiteSql

open Unsupported

/-! ### Foldings of arguments -/

namespace Folded

variable {name : Text} {stays : List Lexeme → List Lexeme → Prop} {front ls ms : List Lexeme}

theorem plain (folded : Folded name stays front ls ms)
    (source : ∀ l ∈ ls, l.isLineComment = false) :
    ∀ l ∈ ms, l.isLineComment = false := by
  induction folded with
  | done => exact source
  | keep _ _ ih =>
      rw [List.forall_mem_cons] at source ⊢
      exact ⟨source.1, ih source.2⟩
  | fold fragment _ _ ih =>
      rw [List.forall_mem_append] at source
      rw [List.forall_mem_cons]
      exact ⟨rfl, ih source.2⟩

variable (ascii : IsAsciiWord name)

include ascii

theorem exists_blanks {blanks : List Lexeme} (blank : ∀ l ∈ blanks, l.isBlank = true)
    (folded : Folded name stays front (blanks ++ ls) ms) :
    ∃ rest, ms = blanks ++ rest ∧ Folded name stays (front ++ blanks) ls rest := by
  induction blanks generalizing front ms with
  | nil => exact ⟨ms, rfl, by simpa using folded⟩
  | cons l blanks ih =>
      generalize read : l :: blanks ++ ls = whole at folded
      cases folded with
      | done => cases read
      | keep _ later =>
          cases read
          obtain ⟨rest, rfl, goes⟩ :=
            ih (fun l member => blank l (List.mem_cons_of_mem _ member)) later
          rw [List.append_assoc] at goes
          exact ⟨rest, rfl, goes⟩
      | fold fragment foldable _ =>
          -- what is folded starts with a letter
          obtain ⟨c, rest, rfl, word⟩ := foldable.exists_cons ascii
          obtain ⟨rfl, -⟩ := List.cons.inj read
          have wrong : isBlank c = true := blank (.code c) List.mem_cons_self
          rw [isBlank_of_isWordChar word] at wrong
          cases wrong

theorem eq_nil (folded : Folded name stays front [] ms) : ms = [] := by
  generalize read : [] = whole at folded
  cases folded with
  | done => rfl
  | keep => cases read
  | fold fragment foldable _ =>
      obtain ⟨c, rest, rfl, -⟩ := foldable.exists_cons ascii
      cases read

theorem filled_ne_nil (folded : Folded name stays front ls ms) (present : filled ms ≠ []) :
    filled ls ≠ [] := by
  intro none
  rw [← List.append_nil ls] at folded
  obtain ⟨rest, rfl, later⟩ := folded.exists_blanks ascii ((filled_eq_nil_iff ls).mp none)
  rw [later.eq_nil ascii, List.append_nil] at present
  exact present none

theorem exists_word {k w : Text} (word : IsAsciiWord k) (named : spelled k w = true)
    (other : k.length ≠ name.length) (apart : startsIn isWordChar ls = false)
    (folded : Folded name stays front (w.map .code ++ ls) ms) :
    ∃ rest, ms = w.map .code ++ rest ∧ Folded name stays (front ++ w.map .code) ls rest ∧
      ((front ++ w.map Lexeme.code).map Lexeme.outline).getLast?.any isWordChar = true := by
  obtain ⟨present, letters⟩ := isWordChar_of_spelled word named
  have length := ((spelled_iff k w).mp named).2
  obtain ⟨c, w, rfl⟩ := List.exists_cons_of_ne_nil present
  generalize read : (c :: w).map Lexeme.code ++ ls = whole at folded
  cases folded with
  | done => cases read
  | keep _ later =>
      cases read
      obtain ⟨letter, others⟩ := List.forall_mem_cons.mp letters
      obtain ⟨rest, rfl, goes, inside⟩ := keepsWords.flip.exists_word letter others later
      exact ⟨rest, rfl, goes, inside⟩
  | fold fragment foldable _ =>
      obtain ⟨u, d, rest, rfl, same, ended⟩ := foldable.word
      have text := congrArg (List.map Lexeme.outline) read
      rw [List.append_assoc, List.map_append, map_outline_map_code, List.map_append,
        map_outline_map_code] at text
      have whole := Pattern.eq_of_words text letters (isWordChar_of_spelled ascii same).2
        (any_head?_outline apart) ended
      rw [whole, ((spelled_iff _ _).mp same).2] at length
      exact absurd length.symm other

theorem splits (other : separatorWord.length ≠ name.length) (folded : Folded name stays front ls ms)
    (present : ∀ l ∈ ls, l.text ≠ []) (split : Splits ms) : Splits ls := by
  constructor
  · obtain ⟨before, w, behind, rfl, standing, more⟩ := split.clause
    obtain ⟨early, _, rfl, begins, later, alike⟩ := folded.exists_append
    obtain ⟨rest, rfl, goes, -⟩ := later.exists_code
    obtain ⟨solid, letters⟩ := isWordChar_of_spelled isAsciiWord_separatorWord standing.named
    refine ⟨early, w, rest, rfl, ⟨standing.named, ?_, ?_, ?_⟩, goes.filled_ne_nil ascii more⟩
    · obtain ⟨c, w, rfl⟩ := List.exists_cons_of_ne_nil solid
      refine alike.any_getLast? ascii (fun l word => ?_) (letters c List.mem_cons_self)
        (fun l member => present l (by simp [member])) standing.before
      cases last : l.text.getLast? with
      | none =>
          rw [last] at word
          cases word
      | some d =>
          rw [last] at word
          exact continuesName_of_isWordChar d word
    · rw [startsIn, keepsWords.head?_eq goes (by
        rw [List.map_append, map_outline_map_code, List.getLast?_append_of_ne_nil _ solid,
          List.getLast?_eq_some_getLast solid]
        exact letters _ (List.getLast_mem solid))]
      exact standing.after
    · rw [← begins.closesAlike.level, standing.level]
  · rintro before w behind rfl standing none
    obtain ⟨_, rfl, later⟩ := folded.exists_blanks ascii ((filled_eq_nil_iff before).mp none)
    obtain ⟨rest, rfl, goes, inside⟩ :=
      later.exists_word ascii isAsciiWord_separatorWord standing.named other standing.after
    refine split.values before w rest rfl ⟨standing.named, standing.before, ?_, standing.level⟩ none
    rw [startsIn, ← keepsWords.head?_eq goes inside]
    exact standing.after

theorem settled (other : separatorWord.length ≠ name.length) (folded : Folded name stays [] ls ms)
    (present : ∀ l ∈ ls, l.text ≠ []) (settled : Settled ls) : Settled ms := by
  intro before written arguments after read cut
  obtain ⟨first, inner, rest, rfl, source, inside, -⟩ :=
    folded.exists_callCut ascii isAsciiWord_groupConcat present cut read
  obtain ⟨plain, unsplit⟩ := settled first written inner rest rfl source
  refine ⟨inside.plain plain, fun split => unsplit ?_⟩
  exact inside.splits ascii other (fun l member => present l (by simp [callLexemes, member])) split

theorem plainCalls (folded : Folded name stays [] ls ms) (present : ∀ l ∈ ls, l.text ≠ [])
    (plain : PlainCalls ls) : PlainCalls ms := by
  intro before written arguments after read cut
  obtain ⟨first, inner, rest, rfl, source, inside, -⟩ :=
    folded.exists_callCut ascii isAsciiWord_groupConcat present cut read
  exact inside.plain (plain first written inner rest rfl source)

end Folded

/-! ### Calls that are asked about -/

theorem Calls.visits_copy (answer : List Text → Option Text) (x : Text) (rest : Calls) :
    (Calls.copy x rest).visits answer = rest.visits answer := by
  induction x with
  | nil => rfl
  | cons c x ih => exact ih

theorem CallCut.inside {name written : Text} {early inner : List Lexeme}
    (cut : CallCut name early written inner)
    (front : List Lexeme) : CallCut name (front ++ .code '(' :: early) written inner where
  named := cut.named
  balanced := cut.balanced
  separate := by
    rw [List.flatMap_append, List.flatMap_cons, List.getLast?_append_of_ne_nil _
      (by simp [Lexeme.text]), List.getLast?_append]
    exact any_or_eq_false cut.separate (by decide)

theorem Parsed.replace_self {name : Text} {answer : List Text → Option Text}
    {front ls : List Lexeme}
    {calls : Calls} (parsed : Parsed name front ls calls)
    (stays : ∀ early written inner late, front ++ ls = early ++
      (callLexemes written inner ++ late) →
      CallCut name early written inner → (answer (splitArguments (inner.flatMap Lexeme.text))).getD
        (written ++ '(' :: (inner.flatMap Lexeme.text ++ [')'])) =
        (callLexemes written inner).flatMap Lexeme.text) :
    calls.replace answer = ls.flatMap Lexeme.text := by
  induction parsed with
  | done front => rfl
  | @copy front l ls rest _ _ ih =>
      rw [List.append_cons] at stays
      rw [Calls.replace_copy, ih stays, List.flatMap_cons]
  | @call front written inner ls inside rest cut _ _ ihInner ih =>
      have same := ihInner fun early other arguments late read nested =>
        stays _ other arguments (late ++ .code ')' :: ls) (by
          rw [List.nil_append] at read
          rw [read, callLexemes]
          simp) (nested.inside (front ++ written.map .code))
      have here := stays front written inner ls rfl cut
      rw [← List.append_assoc] at stays
      rw [Calls.replace_call, same, here, ih stays, List.flatMap_append]

theorem Parsed.replace_eq {name : Text} {answer : List Text → Option Text} {front ls : List Lexeme}
    {calls : Calls} (parsed : Parsed name front ls calls)
    (silent : ∀ early written inner late, front ++ ls =
      early ++ (callLexemes written inner ++ late) →
      CallCut name early written inner →
        answer (splitArguments (inner.flatMap Lexeme.text)) = none) :
    calls.replace answer = ls.flatMap Lexeme.text ∧
      ∀ arguments ∈ calls.visits answer, answer arguments = none := by
  induction parsed with
  | done front => exact ⟨rfl, List.forall_mem_nil _⟩
  | @copy front l ls rest _ _ ih =>
      rw [List.append_cons] at silent
      obtain ⟨same, none⟩ := ih silent
      rw [Calls.replace_copy, same, Calls.visits_copy]
      exact ⟨rfl, none⟩
  | @call front written inner ls inside rest cut _ _ ihInner ih =>
      obtain ⟨sameInner, noneInner⟩ := ihInner fun early other arguments late read nested =>
        silent _ other arguments (late ++ .code ')' :: ls) (by
          rw [List.nil_append] at read
          rw [read, callLexemes]
          simp) (nested.inside (front ++ written.map .code))
      have unanswered := silent front written inner ls rfl cut
      rw [← List.append_assoc] at silent
      obtain ⟨same, none⟩ := ih silent
      rw [Calls.replace_call, Calls.visits, sameInner, unanswered, same, List.flatMap_append,
        flatMap_text_callLexemes]
      refine ⟨rfl, ?_⟩
      rw [List.forall_mem_append, List.forall_mem_cons]
      exact ⟨noneInner, unanswered, none⟩

theorem Settled.splitSeparator?_eq_none {s : Text} (settled : Settled (lexemes s))
    {front inner behind : List Lexeme} {written : Text}
    (read : lexemes s = front ++ (callLexemes written inner ++ behind))
    (cut : CallCut GroupConcat.function front written inner) :
    GroupConcat.splitSeparator? (splitArguments (inner.flatMap Lexeme.text)) = none := by
  obtain ⟨plain, unsplit⟩ := settled front written inner behind read cut
  rw [← isSome_splitSeparator?_iff (sealed_inner read plain) cut.balanced] at unsplit
  simpa using unsplit

theorem markUnsupported_of_silent {s : Text} (grouped : rollupPattern.codeHits s = [])
    (moved : ∀ function ∈ intervalFunctions, ∀ pos close, ¬ IsCall function s pos close)
    (settled : Settled (lexemes s)) : markUnsupported s = (s, []) := by
  have word : ∀ function ∈ intervalFunctions, ∀ c ∈ function, isWordChar c = true := by decide
  have letters : ∀ c ∈ GroupConcat.function, isWordChar c = true := by decide
  have first := markRollups_of_codeHits grouped
  have second : replaceCallsM GroupConcat.function markSeparator s = pure s := by
    funext found
    have silent (early : List Lexeme) (written : Text) (inner late : List Lexeme)
        (read : lexemes s = early ++ (callLexemes written inner ++ late))
        (cut : CallCut GroupConcat.function early written inner) :
        withoutSeparator (splitArguments (inner.flatMap Lexeme.text)) = none := by
      rw [withoutSeparator, settled.splitSeparator?_eq_none read cut]
      rfl
    obtain ⟨same, none⟩ := (parsed_ofText letters s).replace_eq silent
    have run := reports_markSeparator.run_replaceCallsM GroupConcat.function s found
    rw [replaceCalls_eq, same, flatMap_text_lexemes] at run
    refine run.trans (congrArg (s, ·) ?_)
    rw [List.append_right_eq_self, List.flatMap_eq_nil_iff]
    intro arguments asked
    have unanswered := none arguments asked
    rw [withoutSeparator, Option.map_eq_none_iff] at unanswered
    rw [unanswered]
    rfl
  have rest (function : Text) (member : function ∈ intervalFunctions)
      (action : List Text → Recording (Option Text)) : replaceCallsM function action s = pure s :=
    replaceCallsM_uncalled (word function member) action (moved function member)
  rw [markUnsupported, markAll, first, pure_bind, second, pure_bind,
    rest _ (by simp [intervalFunctions]), pure_bind, rest _ (by simp [intervalFunctions])]
  rfl

/-! ### Marking twice -/

/-- The passes leave nothing to mark, if no call of a group concatenation has a line comment. -/
theorem settled_markUnsupported {s : Text} (plain : PlainCalls (lexemes s)) :
    RollupFree (lexemes (markUnsupported s).1) ∧ Settled (lexemes (markUnsupported s).1) := by
  obtain ⟨groups, -, marked⟩ := exists_markUnsupported s
  have add : IsAsciiWord "DATE_ADD" := isAsciiWord_intervalFunctions _ (by simp [intervalFunctions])
  have sub : IsAsciiWord "DATE_SUB" := isAsciiWord_intervalFunctions _ (by simp [intervalFunctions])
  have grouped := rollupFree_rollupsMarked s
  have plain' := (folded_rollupsMarked s).plainCalls isAsciiWord_with
    (text_ne_nil_of_mem_lexemes s) plain
  have regrouped := regrouped_replaceCalls plain' grouped
  rw [← beforeAdd_eq] at regrouped
  have filled (t : Text) := text_ne_nil_of_mem_lexemes t
  have first : Folded "DATE_ADD" (StartsNoCall "DATE_ADD") [] (lexemes (beforeAdd s))
      (lexemes (beforeSub s)) := by
    rw [beforeSub_eq]
    exact folded_replaceCalls add (fun arguments => (interval "DATE_ADD" arguments).fragment)
      (beforeAdd s)
  have second := folded_replaceCalls sub (fun arguments => (interval "DATE_SUB" arguments).fragment)
    (beforeSub s)
  rw [marked]
  constructor
  · exact second.rollupFree sub (filled _) (first.rollupFree add (filled _)
      (regrouped.rollupFree grouped))
  · exact second.settled sub (by decide) (filled _)
      (first.settled add (by decide) (filled _) (regrouped.settled (filled _) (filled _)))

theorem plainCalls_of_isCall {s : Text}
    (plain : ∀ pos close, IsCall GroupConcat.function s pos close →
      ∀ l ∈ lexemes (slice s (pos + GroupConcat.function.length + 1) close),
      l.isLineComment = false) :
    PlainCalls (lexemes s) := by
  intro front written inner behind read cut
  have quiet := plain _ _ (cut.isCall read)
  have length := ((spelled_iff _ _).mp cut.named).2
  have text : s = (front.flatMap Lexeme.text ++ (written ++ ['('])) ++
      (inner.flatMap Lexeme.text ++ ')' :: behind.flatMap Lexeme.text) := by
    rw [(lexemes_of_append read).1, List.flatMap_append, flatMap_text_callLexemes]
    simp
  have size : (front.flatMap Lexeme.text ++ (written ++ ['('])).length =
      (front.flatMap Lexeme.text).length + GroupConcat.function.length + 1 := by
    rw [List.length_append, List.length_append, length, List.length_singleton, Nat.add_assoc]
  rw [slice, Nat.add_sub_cancel_left, ← size, text, List.drop_left, List.take_left,
    lexemes_front (lexemes_arguments read)] at quiet
  exact quiet

/-- Marking a statement without line comments in calls of a group concatenation leaves nothing to
mark: no grouping with subtotals, no date moved by an interval, and no call with a SEPARATOR clause.
-/
theorem markUnsupported_stable {s : Text}
    (plain : ∀ pos close, IsCall GroupConcat.function s pos close →
      ∀ l ∈ lexemes (slice s (pos + GroupConcat.function.length + 1) close),
      l.isLineComment = false) :
    rollupPattern.codeHits (markUnsupported s).1 = [] ∧
      (∀ function ∈ intervalFunctions, ∀ pos close, ¬ IsCall function
        (markUnsupported s).1 pos close) ∧
      (∀ pos close, IsCall GroupConcat.function (markUnsupported s).1 pos close →
        GroupConcat.splitSeparator? (argumentsAt GroupConcat.function (markUnsupported s).1
          (pos, close)) = none) ∧
      markUnsupported (markUnsupported s).1 = ((markUnsupported s).1, []) := by
  obtain ⟨free, settled⟩ := settled_markUnsupported (plainCalls_of_isCall plain)
  have grouped := codeHits_rollupPattern_eq_nil free
  have moved := not_isCall_markUnsupported s
  refine ⟨grouped, moved, fun pos close call => ?_, markUnsupported_of_silent grouped moved settled⟩
  obtain ⟨front, cut, read⟩ := call.exists_cut (by decide)
  have none := settled.splitSeparator?_eq_none read cut
  rwa [flatMap_text_lexemes] at none

/-- A grouping, a call inside another with clauses on both levels, and dates moved in the values. -/
theorem markUnsupported_stable_nested :
    let s : Text :=
      "GROUP_CONCAT(DISTINCT group_concat(a, DATE_ADD(d, i) SEPARATOR ';'), b with  rollup separator '-') WITH ROLLUP"
    let t := (markUnsupported s).1
    t =
      "GROUP_CONCAT(DISTINCT GROUP_CONCAT(a, /* DATE_ADD(d, i) not supported */) " ++
        "/* SEPARATOR ';' not supported */, b /* WITH ROLLUP not supported */) " ++
        "/* SEPARATOR '-' not supported */ /* WITH ROLLUP not supported */" ∧
    rollupPattern.codeHits t = [] ∧
      (∀ function ∈ intervalFunctions, ∀ pos close, ¬ IsCall function t pos close) ∧
      (∀ pos close, IsCall GroupConcat.function t pos close →
        GroupConcat.splitSeparator? (argumentsAt GroupConcat.function t (pos, close)) = none) ∧
      markUnsupported t = (t, []) := by
  intro s t
  refine ⟨by decide +kernel, markUnsupported_stable fun pos close call => ?_⟩
  have quiet : ∀ call ∈ callsOf GroupConcat.function s,
      ∀ l ∈ lexemes (slice s (call.1 + GroupConcat.function.length + 1) call.2),
      l.isLineComment = false := by
    decide +kernel
  exact quiet (pos, close) ((mem_callsOf_iff (by decide) pos close).mpr call)

end LiteSql
