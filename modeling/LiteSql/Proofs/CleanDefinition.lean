import LiteSql.Proofs.CleanAggregate
import LiteSql.Proofs.ColumnList
import LiteSql.Proofs.LineContent
import LiteSql.Proofs.PatternSeam

/-! Cleanup of a table definition that has been laid out. It makes blank runs of code shorter or
longer and nothing else, and a definition is read the same whatever the length of its blank runs. -/

namespace LiteSql

/-! ### Code up to the length of its blank runs -/

theorem squeezeRuns_blanks_append {b : Text} (present : b ≠ []) (blank : ∀ c ∈ b, isBlank c = true)
    (x : Text) :
    squeezeRuns isBlank (b ++ x) =
      if x.head?.any isBlank then squeezeRuns isBlank x else ' ' :: squeezeRuns isBlank x := by
  induction b with
  | nil => exact absurd rfl present
  | cons c b ih =>
      obtain ⟨first, others⟩ := List.forall_mem_cons.mp blank
      rw [List.cons_append, squeezeRuns, if_pos first]
      cases b with
      | nil => rfl
      | cons d b =>
          have next : (d :: b ++ x).head?.any isBlank = true := others d List.mem_cons_self
          rw [if_pos next, ih (List.cons_ne_nil _ _) others]

theorem Relaid.squeezeRuns_eq {x y : Text} (relaid : Relaid x y) :
    squeezeRuns isBlank y = squeezeRuns isBlank x := by
  induction relaid with
  | nil => rfl
  | keep c later ih => rw [squeezeRuns, squeezeRuns, ih, later.any_head?]
  | swap one other later ih =>
      rw [squeezeRuns_blanks_append (List.ne_nil_of_mem one.2) one.1,
        squeezeRuns_blanks_append (List.ne_nil_of_mem other.2) other.1, ih, later.any_head?]

theorem squeezeRuns_squeezeRuns {q : Char → Bool} (inner : ∀ c, q c = true → isBlank c = true)
    (x : Text) :
    squeezeRuns isBlank (squeezeRuns q x) = squeezeRuns isBlank x := by
  have space : isBlank ' ' = true := rfl
  have head (x : Text) : (squeezeRuns q x).head?.any isBlank = x.head?.any isBlank := by
    rw [Cleanup.head?_squeezeRuns]
    cases x with
    | nil => rfl
    | cons c x =>
        cases member : q c with
        | false => simp [member]
        | true => simp [member, inner c member, space]
  induction x with
  | nil => rfl
  | cons c x ih =>
      rw [squeezeRuns]
      split
      · next member =>
        have blank := inner c member
        split
        · next more =>
          have next : x.head?.any isBlank = true := by
            cases x with
            | nil => cases more
            | cons d x => exact inner d more
          rw [ih, squeezeRuns, if_pos blank, if_pos next]
        · rw [squeezeRuns, squeezeRuns, if_pos blank, if_pos space, head, ih]
      · rw [squeezeRuns, squeezeRuns, head, ih]

theorem squeezeRuns_append_of_last {q : Char → Bool} {x : Text} (ended : x.getLast?.any q = false)
    (y : Text) :
    squeezeRuns q (x ++ y) = squeezeRuns q x ++ squeezeRuns q y := by
  induction x with
  | nil => rfl
  | cons c x ih =>
      cases x with
      | nil =>
          have other : q c = false := ended
          rw [List.singleton_append, squeezeRuns, squeezeRuns, other]
          rfl
      | cons d x =>
          rw [List.getLast?_cons_cons] at ended
          have next : (d :: x ++ y).head?.any q = (d :: x).head?.any q := rfl
          rw [List.cons_append, squeezeRuns, next, ih ended]
          conv_rhs => rw [squeezeRuns]
          split
          · split <;> rfl
          · rfl

theorem squeeze_map_code (x : Text) : squeeze (x.map .code) =
    (squeezeRuns isBlank x).map .code := by
  induction x with
  | nil => rfl
  | cons c x ih =>
      have next : (x.map Lexeme.code).head?.any Lexeme.isBlank = x.head?.any isBlank := by
        cases x <;> rfl
      rw [List.map_cons, squeeze, squeezeRuns, next, ih, Lexeme.isBlank]
      split
      · split <;> rfl
      · rfl

theorem any_head?_squeeze (ls : List Lexeme) :
    (squeeze ls).head?.any Lexeme.isBlank = ls.head?.any Lexeme.isBlank := by
  rw [head?_squeeze]
  cases ls with
  | nil => rfl
  | cons l ls =>
      cases blank : l.isBlank with
      | false => simp [blank]
      | true => simpa [blank] using (show (Lexeme.code ' ').isBlank = true by decide)

theorem squeeze_lexemes_replaceCode {p : Pattern} {replacement : Match → Text}
    (mild : p.Mild Blanks replacement)
    (same : ∀ x, squeezeRuns isBlank (p.replace replacement x) = squeezeRuns isBlank x) (s : Text) :
    squeeze (lexemes (p.replaceCode replacement s)) = squeeze (lexemes s) := by
  have step {segs : List Segment} {ls : List Lexeme} (spell : Segment.Spell segs ls) :
      ∃ ms, Exchanged Blanks ls ms ∧ ms.flatMap Lexeme.text =
        segs.flatMap (Segment.mapCode (p.replace replacement)) ∧
        squeeze ms = squeeze ls := by
    induction spell with
    | nil => exact ⟨[], .nil, rfl, rfl⟩
    | @literal kind text segs ls _ ih =>
        obtain ⟨ms, exchanged, text', equal⟩ := ih
        refine ⟨.literal kind text :: ms, exchanged.keep _, congrArg (text ++ ·) text', ?_⟩
        rw [squeeze_cons_filled rfl, squeeze_cons_filled rfl, equal]
    | @code x segs ls apart later ih =>
        obtain ⟨ms, exchanged, text, equal⟩ := ih
        have ended : ls.head?.any Lexeme.isBlank = false := by
          cases later with
          | nil => rfl
          | literal kind text _ => rfl
          | code y _ _ => exact absurd rfl (apart y _)
        have stopped : ms.head?.any Lexeme.isBlank = false := by
          rw [← any_head?_squeeze, equal, any_head?_squeeze, ended]
        refine ⟨(p.replace replacement x).map .code ++ ms,
          mild.exchanged_replace x exchanged, ?_, ?_⟩
        · rw [List.flatMap_append, flatMap_text_map_code, text]
          rfl
        · rw [squeeze_append stopped, squeeze_append ended, squeeze_map_code, squeeze_map_code,
            same, equal]
  obtain ⟨ms, exchanged, text, equal⟩ := step (spell_segments s)
  have read : lexemes ((lexemes s).flatMap Lexeme.text) = lexemes s := by rw [flatMap_text_lexemes]
  obtain ⟨again, -⟩ := exchanged.lexemes_flatMap_text read
  rw [← equal, ← again, text]
  rfl

namespace Cleanup

def respace (s : Text) : Text :=
  blankLines.replaceCode (fun _ => "\n") (spacesAtLineEnd.replaceCode (fun _ => [])
    (spacesAndTabs.replaceCode (fun _ => " ") s))

theorem clean_eq_trim_respace {s : Text} (none : option.codeHits s = []) :
    clean s = trim (respace s) := by
  rw [clean, Pattern.replaceCode_of_codeHits_eq_nil none]
  rfl

theorem isBlank_of_space {c : Char} (space : (c == ' ' || c == '\t') = true) :
    isBlank c = true := by
  rcases Bool.or_eq_true_iff.mp space with blank | tab
  · exact eq_of_beq blank ▸ rfl
  · exact eq_of_beq tab ▸ rfl

theorem squeeze_lexemes_respace (s : Text) : squeeze (lexemes (respace s)) =
    squeeze (lexemes s) := by
  rw [respace, squeeze_lexemes_replaceCode mild_blankLines,
    squeeze_lexemes_replaceCode mild_spacesAtLineEnd,
    squeeze_lexemes_replaceCode mild_spacesAndTabs]
  · intro x
    rw [spacesAndTabs, Pattern.replace_someOf, squeezeRuns_squeezeRuns fun c => isBlank_of_space]
  · intro x
    rw [replace_spacesAtLineEnd, (relaid_dropLineEnds x).squeezeRuns_eq]
  · exact fun x => (withoutBlankLines_replace x).relaid.squeezeRuns_eq

theorem exists_respace_append {f : Text} (closed : Sealed (lexemes f)) (flat : '\n' ∉ f)
    (tabless : '\t' ∉ f)
    (single : ¬ [' ', ' '] <:+: f) (x : Text) :
    ∃ y, respace (f ++ '(' :: x) = f ++ '(' :: y ∧ squeeze (lexemes y) = squeeze (lexemes x) := by
  have read (z : Text) : lexemes (f ++ '(' :: z) = lexemes f ++ .code '(' :: lexemes z := by
    have whole := closed.read ('(' :: z) rfl
    rwa [flatMap_text_lexemes, lexemes_code '(' z rfl] at whole
  have start : lexemes (f ++ ['(']) = lexemes f ++ [.code '('] := read []
  have level : '\n' ∉ f ++ ['('] := by simpa using flat
  have solid : (f ++ ['(']).getLast?.any isBlank = false := by
    rw [List.getLast?_concat]
    rfl
  have tidy : Tidy (f ++ ['(']) := by
    refine ⟨by simpa using tabless, fun spaces => ?_, fun space => level (space.subset (by simp)),
      fun b _ feeds => level (feeds.subset List.mem_cons_self)⟩
    rcases List.infix_concat_iff.mp spaces with ⟨early, cut⟩ | inner
    · have last := congrArg List.getLast? cut
      rw [List.getLast?_concat, List.getLast?_append_of_ne_nil _ (List.cons_ne_nil _ _)] at last
      cases last
    · exact single inner
  have first : spacesAndTabs.replaceCode (fun _ => " ") (f ++ ['('] ++ x) =
      f ++ ['('] ++ spacesAndTabs.replaceCode (fun _ => " ") x := by
    have same : mapCode (spacesAndTabs.replace fun _ => " ") (f ++ ['(']) = f ++ ['('] :=
      mapCode_eq_self fun z member =>
        (tidy.of_isInfix (isInfix_of_mem_codeSegments member)).replace_spacesAndTabs
    rw [Pattern.replaceCode, mapCode_append rfl, same, Pattern.replaceCode]
    · rw [List.append_assoc, start, List.append_assoc]
      exact read x
    · intro front z y behind cut _ _ member _
      rw [spacesAndTabs, Pattern.replace_someOf, Pattern.replace_someOf, Pattern.replace_someOf]
      refine squeezeRuns_append_of_last ?_ y
      have last := congrArg List.getLast? (start.symm.trans cut)
      rw [List.getLast?_concat, List.getLast?_append_of_ne_nil _
        (by simpa using ne_nil_of_mem_codeSegments member), List.getLast?_map] at last
      obtain ⟨c, ends, paren⟩ := Option.map_eq_some_iff.mp last.symm
      rw [ends, Lexeme.code.inj paren]
      rfl
  obtain ⟨x₂, second, -⟩ :=
    (relaid_spacesAtLineEnd (f ++ ['('] ++ spacesAndTabs.replaceCode (fun _ => " ") x)
    ).exists_append_of_flat level solid
  obtain ⟨y, third, -⟩ := (relaid_blankLines (f ++ ['('] ++ x₂)).exists_append_of_flat level solid
  have whole : respace (f ++ '(' :: x) = f ++ '(' :: y := by
    rw [respace, List.append_cons f '(' x, first, second, third, List.append_cons f '(' y]
  refine ⟨y, whole, ?_⟩
  have same := squeeze_lexemes_respace (f ++ '(' :: x)
  rw [whole, read, read, squeeze_append (by rfl), squeeze_append (by rfl),
    squeeze_cons_filled (by rfl), squeeze_cons_filled (by rfl)] at same
  exact (List.cons.inj (List.append_cancel_left same)).2

end Cleanup

/-! ### Trimmed texts -/

theorem eq_nil_of_squeeze {ls : List Lexeme} (none : squeeze ls = []) : ls = [] :=
  eq_of_squeeze_solid (by simp) none

theorem isBlank_eq_false_of_text {l : Lexeme} {c : Char} (member : c ∈ l.text)
    (solid : isBlank c = false) :
    l.isBlank = false := by
  cases l with
  | literal kind text => rfl
  | code d =>
      rw [List.mem_singleton.mp member] at solid
      exact solid

theorem trim_eq_of_squeeze {s t : Text} (same : squeeze (lexemes t) = squeeze (lexemes s))
    (trimmed : trim s = s) :
    trim t = t := by
  have first := head?_trim s
  have last := getLast?_trim s
  rw [trimmed] at first last
  rw [← flatMap_text_lexemes s, head?_flatMap_text (text_ne_nil_of_mem_lexemes s)] at first
  rw [← flatMap_text_lexemes s, getLast?_flatMap_text (text_ne_nil_of_mem_lexemes s)] at last
  have present := text_ne_nil_of_mem_lexemes s
  have filled := text_ne_nil_of_mem_lexemes t
  by_cases none : lexemes s = []
  · rw [none] at same
    rw [← flatMap_text_lexemes t, eq_nil_of_squeeze same]
    rfl
  apply trim_eq_self
  · obtain ⟨l, rest, cut⟩ := List.exists_cons_of_ne_nil none
    obtain ⟨c, x, text⟩ := List.exists_cons_of_ne_nil (present l (by simp [cut]))
    rw [cut, List.head?_cons, Option.bind_some, text, List.head?_cons, Option.any_some] at first
    have solid : l.isBlank = false := isBlank_eq_false_of_text
      (by rw [text]; exact List.mem_cons_self) first
    rw [cut, squeeze_cons_filled solid] at same
    obtain ⟨a, b, whole, empty, -⟩ := exists_of_squeeze_append solid (p := []) same
    rw [← flatMap_text_lexemes t, head?_flatMap_text filled, whole, eq_nil_of_squeeze empty,
      List.nil_append, List.head?_cons, Option.bind_some, text, List.head?_cons,
      Option.any_some, first]
  · obtain ⟨front, l, cut⟩ := (List.eq_nil_or_concat (lexemes s)).resolve_left none
    rw [List.concat_eq_append] at cut
    obtain ⟨x, c, text⟩ := (List.eq_nil_or_concat l.text).resolve_left (present l (by simp [cut]))
    rw [List.concat_eq_append] at text
    rw [cut, List.getLast?_concat, Option.bind_some, text, List.getLast?_concat,
      Option.any_some] at last
    have solid : l.isBlank = false := isBlank_eq_false_of_text (c := c) (by rw [text]; simp) last
    rw [cut, squeeze_append (by simpa using solid), squeeze_cons_filled solid] at same
    obtain ⟨a, b, whole, -, empty⟩ := exists_of_squeeze_append solid same
    rw [← flatMap_text_lexemes t, getLast?_flatMap_text filled, whole, eq_nil_of_squeeze empty,
      List.getLast?_concat, Option.bind_some, text, List.getLast?_concat, Option.any_some, last]

/-! ### Parts of a definition up to the length of blank runs -/

theorem isBlank_closed (l : Lexeme) : l.closed.isBlank = l.isBlank := by
  cases l with
  | code c => rfl
  | literal kind text => cases kind <;> rfl

theorem squeeze_map_closed (ls : List Lexeme) : squeeze (ls.map Lexeme.closed) =
    (squeeze ls).map Lexeme.closed := by
  induction ls with
  | nil => rfl
  | cons l ls ih =>
      have next : (ls.map Lexeme.closed).head?.any Lexeme.isBlank =
          ls.head?.any Lexeme.isBlank := by
        cases ls with
        | nil => rfl
        | cons m ls => exact isBlank_closed m
      rw [List.map_cons, squeeze, squeeze, isBlank_closed, next, ih]
      split
      · split <;> rfl
      · rfl

theorem onOneLine_eq_of_squeeze {x y : Text} (same : squeeze (lexemes y) = squeeze (lexemes x)) :
    onOneLine y = onOneLine x := by
  rw [onOneLine_eq, onOneLine_eq, squeeze_map_closed, squeeze_map_closed, same]

theorem all_isBlank_lexemes (s : Text) : (lexemes s).all Lexeme.isBlank = s.all isBlank := by
  rw [Bool.eq_iff_iff, List.all_eq_true, List.all_eq_true]
  constructor
  · intro blank
    rw [← flatMap_text_lexemes s]
    exact isBlank_of_mem_flatMap_text blank
  · intro blank
    rw [lexemes_of_isBlank blank]
    exact isBlank_of_mem_map blank

section

variable {x : List Lexeme} {rest : Text} (present : rest ≠ [])
  (read : lexemes (x.flatMap Lexeme.text ++ rest) = x ++ lexemes rest)

include present read

theorem onOneLine_trim_eq :
    onOneLine (trim (x.flatMap Lexeme.text)) = trim
      ((squeeze (x.map Lexeme.closed)).flatMap Lexeme.text) := by
  have padding := padding_map_closed_trim (lexemes_front read) (sealed_map_closed present read)
  rw [onOneLine_eq, padding.squeeze.trim_text]

theorem map_onOneLine_piecesAt (balanced : Balanced x) :
    (piecesAt 0 x).map (fun s => onOneLine (trim s)) =
    (piecesAt 0 (squeeze (x.map Lexeme.closed))).map trim := by
  have pieces := pieces_of_balanced balanced
  clear balanced
  induction pieces with
  | @last x item =>
      have line := item.map_closed.congr (filled_squeeze (x.map Lexeme.closed))
      rw [line.piecesAt_eq, item.piecesAt_eq, List.map_singleton, List.map_singleton,
        onOneLine_trim_eq present read]
  | @comma x others item _ ih =>
      obtain ⟨early, late⟩ := read_cut read
      have behind := (read_cut (a := [.code ',']) (b := others) late).2
      have line := item.map_closed.congr (filled_squeeze (x.map Lexeme.closed))
      have cut : squeeze ((x ++ .code ',' :: others).map Lexeme.closed) =
          squeeze (x.map Lexeme.closed) ++ .code ',' :: squeeze (others.map Lexeme.closed) := by
        rw [List.map_append, squeeze_append (by rfl)]
        rfl
      rw [cut, line.piecesAt_comma, item.piecesAt_comma, List.map_cons, List.map_cons, ih behind,
        onOneLine_trim_eq (by simp [Lexeme.text]) early]

end

theorem map_onOneLine_splitArguments {x : List Lexeme} {rest : Text} (present : rest ≠ [])
    (read : lexemes (x.flatMap Lexeme.text ++ rest) = x ++ lexemes rest) (balanced : Balanced x) :
    (splitArguments (x.flatMap Lexeme.text)).map onOneLine =
      if (squeeze x).all Lexeme.isBlank then []
        else (piecesAt 0 ((squeeze x).map Lexeme.closed)).map trim := by
  rw [splitArguments, ← all_isBlank_lexemes, lexemes_front read, Layout.all_isBlank_squeeze]
  split
  · rfl
  · rw [List.map_map, ← squeeze_map_closed, ← map_onOneLine_piecesAt present read balanced]
    rfl

theorem parts_of_closing {x : Text} {inner behind : List Lexeme}
    (read : lexemes x = inner ++ .code ')' :: behind) :
    x.take (inner.flatMap Lexeme.text).length = inner.flatMap Lexeme.text ∧
      x.drop ((inner.flatMap Lexeme.text).length + 1) = behind.flatMap Lexeme.text ∧
      lexemes (inner.flatMap Lexeme.text ++ ')' :: behind.flatMap Lexeme.text) =
        inner ++ lexemes (')' :: behind.flatMap Lexeme.text) ∧
      lexemes (behind.flatMap Lexeme.text) = behind := by
  obtain ⟨whole, later⟩ := lexemes_of_append read
  have split : lexemes ((Lexeme.code ')' :: behind).flatMap Lexeme.text) =
      [.code ')'] ++ behind := later
  obtain ⟨-, last⟩ := lexemes_of_append split
  have cut : x = inner.flatMap Lexeme.text ++ ')' :: behind.flatMap Lexeme.text := whole
  refine ⟨?_, ?_, ?_, last⟩
  · rw [cut, List.take_left]
  · rw [cut, List.drop_length_add_append]
    rfl
  · rw [← cut, read, ← later]
    rfl

/-- The list that is closed in a text, each of its parts on one line, and what stands behind it on
one line, do not depend on the length of blank runs. -/
theorem exists_closing_of_squeeze {x y : Text} (same : squeeze (lexemes y) = squeeze (lexemes x))
    {n : Nat}
    (found : closing? x = some n) : ∃ m, closing? y = some m ∧
      (splitArguments (y.take m)).map onOneLine = (splitArguments (x.take n)).map onOneLine ∧
      onOneLine (y.drop (m + 1)) = onOneLine (x.drop (n + 1)) := by
  obtain ⟨inner, behind, read, level, length⟩ := exists_level_of_closingIn found
  have cut : squeeze (lexemes y) = squeeze inner ++ .code ')' :: squeeze behind := by
    rw [same, read, squeeze_append (by rfl), squeeze_cons_filled (by rfl)]
  obtain ⟨inner', behind', read', front, back⟩ := exists_of_squeeze_append (by rfl) cut
  have level' : Balanced inner' := by
    rw [Balanced, ← levelAfter_filled, ← filled_squeeze, front, filled_squeeze, levelAfter_filled]
    exact level
  obtain ⟨taken, dropped, early, late⟩ := parts_of_closing read
  obtain ⟨taken', dropped', early', late'⟩ := parts_of_closing read'
  rw [length] at taken dropped
  refine ⟨(inner'.flatMap Lexeme.text).length, ?_, ?_, ?_⟩
  · rw [closing?, read', level'.closingIn_append]
  · rw [taken, taken', map_onOneLine_splitArguments (List.cons_ne_nil _ _) early level,
      map_onOneLine_splitArguments (List.cons_ne_nil _ _) early' level', front]
  · rw [dropped, dropped']
    apply onOneLine_eq_of_squeeze
    rw [late, late', back]

/-! ### What stands behind the columns -/

/-- Lexemes on one line: no line comment, and no blanks in code but single spaces. -/
structure IsLine (ls : List Lexeme) : Prop where
  squeezed : Squeezed ls
  plain : ∀ l ∈ ls, l.isLineComment = false

namespace IsLine

variable {ls ms : List Lexeme}

theorem of_isInfix (line : IsLine ls) (part : ms <:+: ls) : IsLine ms :=
  ⟨line.squeezed.of_isInfix part, fun l member => line.plain l (part.subset member)⟩

theorem concat (line : IsLine ls) {l : Lexeme} (solid : l.isBlank = false)
    (plain : l.isLineComment = false) :
    IsLine (ls ++ [l]) where
  squeezed := by
    refine ⟨List.isChain_append.mpr ⟨line.squeezed.apart, List.isChain_singleton _, ?_⟩, ?_⟩
    · rintro k - m head ⟨-, blank⟩
      cases head
      rw [solid] at blank
      cases blank
    · intro k member blank
      rcases List.mem_append.mp member with early | last
      · exact line.squeezed.space k early blank
      · rw [List.mem_singleton.mp last, solid] at blank
        cases blank
  plain := List.forall_mem_append.mpr ⟨line.plain, by simpa using plain⟩

theorem append_code (line : IsLine ls) {x : Text} (solid : ∀ c ∈ x, isBlank c = false) :
    IsLine (ls ++ x.map .code) := by
  induction x generalizing ls with
  | nil => simpa using line
  | cons c x ih =>
      obtain ⟨first, others⟩ := List.forall_mem_cons.mp solid
      simpa using ih (line.concat (l := .code c) first rfl) others

variable {p r : Text} (neutral : ∀ c ∈ r, ScanState.isNeutral c = true)

include neutral

theorem of_append (line : IsLine (lexemes (p ++ r))) : IsLine (lexemes p) := by
  rcases lexemes_append_neutral p neutral with whole | ⟨front, kind, text, more, rest, ends,
    -, whole⟩
  · rw [whole] at line
    exact line.of_isInfix (List.prefix_append _ _).isInfix
  · rw [whole] at line
    have last := line.plain (.literal kind (text ++ more)) (by simp)
    have same : (Lexeme.literal kind text).isLineComment =
        (Lexeme.literal kind (text ++ more)).isLineComment := by
      cases kind <;> rfl
    rw [ends]
    exact (line.of_isInfix (List.prefix_append _ _).isInfix).concat rfl (same.trans last)

theorem lexemes_append (line : IsLine (lexemes p)) (solid : ∀ c ∈ r, isBlank c = false) :
    IsLine (lexemes (p ++ r)) := by
  rcases lexemes_append_neutral p neutral with whole | ⟨front, kind, text, more, rest, ends,
    rfl, whole⟩
  · rw [whole]
    exact line.append_code solid
  · rw [ends] at line
    have last := line.plain (.literal kind text) (by simp)
    have same : (Lexeme.literal kind (text ++ more)).isLineComment =
        (Lexeme.literal kind text).isLineComment := by
      cases kind <;> rfl
    have front := (line.of_isInfix (List.prefix_append _ _).isInfix).concat
      (l := .literal kind (text ++ more)) rfl
      (same.trans last)
    rw [whole, List.append_cons]
    exact front.append_code fun c member => solid c (List.mem_append_right more member)

end IsLine

theorem isLine_onOneLine (s : Text) : IsLine (lexemes (onOneLine s)) :=
  ⟨squeezed_onOneLine s, plain_onOneLine s⟩

theorem IsLine.onOneLine_eq {s : Text} (line : IsLine (lexemes s)) : onOneLine s = trim s := by
  rw [LiteSql.onOneLine, closeLineComments_eq_self line.plain, collapseBlanks, replaceCode_gap,
    squeeze_eq_self line.squeezed, flatMap_text_lexemes]

theorem onOneLine_cons_space (s : Text) : onOneLine (' ' :: s) = onOneLine s := by
  have read : lexemes (' ' :: s) = .code ' ' :: lexemes s := lexemes_code ' ' s rfl
  have space : (Lexeme.code ' ').closed = .code ' ' := rfl
  rw [onOneLine_eq, onOneLine_eq, read, List.map_cons, space, squeeze, if_pos (by rfl)]
  split
  · rfl
  · rfl

theorem dropEndWhile_eq_self {p : Char → Bool} {s : Text} (ended : s.getLast?.any p = false) :
    dropEndWhile p s = s := by
  obtain ⟨tail, cut, members⟩ := exists_dropEndWhile p s
  rcases List.eq_nil_or_concat tail with rfl | ⟨front, c, rfl⟩
  · simpa using cut.symm
  · have inside := members c (by simp)
    rw [cut, List.concat_eq_append, ← List.append_assoc, List.getLast?_concat, Option.any_some,
      inside] at ended
    cases ended

namespace Layout

/-- What stands behind the columns is read again if it does not end with a semicolon. -/
theorem tail_lastLine {d : Definition} {z : Text}
    (tail : d.tail = trim (dropEndWhile (· == ';') (onOneLine z)))
    (ended : d.tail.getLast? ≠ some ';') :
    trim (dropEndWhile (· == ';') (onOneLine (d.lastLine.drop 1))) = d.tail := by
  by_cases empty : d.tail = []
  · rw [Definition.lastLine, empty]
    decide
  · have last : d.lastLine.drop 1 = ' ' :: (d.tail ++ [';']) := by
      rw [Definition.lastLine, if_neg (by simpa using empty)]
      simp
    obtain ⟨semicolons, cut, members⟩ := exists_dropEndWhile (· == ';') (onOneLine z)
    obtain ⟨before, after, whole, leading, trailing⟩ :=
      exists_trim_eq (dropEndWhile (· == ';') (onOneLine z))
    rw [← tail] at whole
    have trimmed : trim d.tail = d.tail := by rw [tail, trim_trim]
    have first : before = [] := by
      cases before with
      | nil => rfl
      | cons c before =>
          have start := head?_trim (onOneLine z)
          rw [trim_onOneLine, cut, whole, List.cons_append, List.cons_append, List.head?_cons,
            Option.any_some, leading c List.mem_cons_self] at start
          cases start
    have line : IsLine (lexemes (d.tail ++ (after ++ semicolons))) := by
      have source := isLine_onOneLine z
      rwa [cut, whole, first, List.nil_append, List.append_assoc] at source
    have neutral : ∀ c ∈ after ++ semicolons, ScanState.isNeutral c = true := by
      intro c member
      rcases List.mem_append.mp member with blank | sign
      · exact ScanState.isNeutral_of_class (by decide) (trailing c blank)
      · exact eq_of_beq (members c sign) ▸ rfl
    have again : IsLine (lexemes (d.tail ++ [';'])) :=
      (line.of_append neutral).lexemes_append (by decide) (by decide)
    have kept : trim (d.tail ++ [';']) = d.tail ++ [';'] := by
      apply trim_eq_self
      · rw [List.head?_append_of_ne_nil _ empty, ← trimmed, head?_trim]
      · rw [List.getLast?_concat]
        rfl
    have other : d.tail.getLast?.any (· == ';') = false := by
      cases ends : d.tail.getLast? with
      | none => rfl
      | some c => simpa [ends] using ended
    rw [last, onOneLine_cons_space, again.onOneLine_eq, kept, dropEndWhile_append _ _ (by decide),
      dropEndWhile_eq_self other, trimmed]

/-! ### A definition that has been laid out and cleaned -/

def readBody? (guarded : Bool) (table body : Text) : Option Definition := do
  let close ← closing? body
  let columns := ((splitArguments (body.take close)).map onOneLine).filter (!·.isEmpty)
  if columns.isEmpty then none
  return ⟨guarded, table, columns,
    trim (dropEndWhile (· == ';') (onOneLine (body.drop (close + 1))))⟩

theorem readBody?_of_squeeze {x y : Text} (same : squeeze (lexemes y) = squeeze (lexemes x))
    {guarded : Bool} {table : Text}
    {d : Definition} (read : readBody? guarded table x = some d) :
      readBody? guarded table y = some d := by
  rw [readBody?, Option.bind_eq_bind, Option.bind_eq_some_iff] at read ⊢
  obtain ⟨n, found, parts⟩ := read
  obtain ⟨m, closes, columns, tail⟩ := exists_closing_of_squeeze same found
  refine ⟨m, closes, ?_⟩
  rw [columns, tail]
  exact parts

theorem read?_append {table : Text} (guarded : Bool) (present : table ≠ [])
    (members : ∀ c ∈ table, isNameChar c = true)
    (body : Text) :
    Definition.read? (opening guarded ++ (table ++ [' ']) ++ '(' :: body) =
      readBody? guarded table body := by
  obtain ⟨head, found, stop, name, flag⟩ := exists_matchStart?_header guarded present members body
  have behind : (opening guarded ++ (table ++ [' ']) ++ '(' :: body).drop head.stop =
      '(' :: body := by
    rw [stop, List.drop_left]
  have opened : (opening guarded ++ (table ++ [' ']) ++ '(' :: body)[head.stop]? = some '(' := by
    rw [← List.head?_drop, behind]
    rfl
  have rest : (opening guarded ++ (table ++ [' ']) ++ '(' :: body).drop (head.stop + 1) = body := by
    rw [← List.drop_drop, behind]
    rfl
  simp only [Definition.read?, found, Option.bind_eq_bind, Option.bind_some, opened, ne_eq,
    not_true_eq_false, if_false, rest, name, flag, Option.getD_some, readBody?]

/-- What is read of a definition: a name, columns on one line each, and what follows them without
semicolons. -/
structure IsRead (d : Definition) : Prop where
  named : d.table ≠ []
  name : ∀ c ∈ d.table, isNameChar c = true
  columns : ∃ columns : List (List Lexeme), columns ≠ [] ∧ (∀ ls ∈ columns, IsColumn ls) ∧
    d.columns = columns.map (List.flatMap Lexeme.text)
  tail : ∃ z, d.tail = trim (dropEndWhile (· == ';') (onOneLine z))

theorem isRead_of_read? {s : Text} {d : Definition} (read : Definition.read? s = some d) :
    IsRead d := by
  have whole := read
  rw [Definition.read?, Option.bind_eq_bind, Option.bind_eq_some_iff] at read
  obtain ⟨head, found, parts⟩ := read
  by_cases opened : s[head.stop]? = some '('
  · simp only [opened, ne_eq, not_true_eq_false, if_false, Option.bind_eq_bind,
      Option.bind_eq_some_iff] at parts
    obtain ⟨n, closes, listed⟩ := parts
    have present : columnsBetween s head.stop (head.stop + 1 + n) ≠ [] := by
      intro empty
      rw [columnsBetween, slice_closing] at empty
      simp [empty] at listed
    obtain ⟨table, name, filled, members⟩ := exists_table found
    obtain ⟨columns, valid, named⟩ := exists_columns closes
    rw [← slice_closing, ← columnsBetween] at named
    rw [read?_eq_some found opened closes present, name] at whole
    obtain rfl := Option.some.inj whole
    exact ⟨filled, members, ⟨columns, by rintro rfl; exact present named, valid, named⟩, _, rfl⟩
  · simp [opened] at parts

theorem detect_opening (guarded : Bool) (rest : Text) :
    Shape.detect (opening guarded ++ rest) = .definition := by
  have starts : "create table".toList <+: lowerAscii (opening guarded ++ rest) := by
    rw [lowerAscii, List.map_append]
    refine List.IsPrefix.trans ?_ (List.prefix_append _ _)
    cases guarded <;> decide +kernel
  rw [Shape.detect, if_pos (List.isPrefixOf_iff_prefix.mpr starts)]

theorem head?_opening (guarded : Bool) : (opening guarded).head? = some 'C' := by
  cases guarded <;> decide +kernel

theorem isNeutral_opening (guarded : Bool) : ∀ c ∈ opening guarded,
    ScanState.isNeutral c = true := by
  cases guarded <;> decide

theorem isBlank_opening (guarded : Bool) : ∀ c ∈ opening guarded, isBlank c = true → c = ' ' := by
  cases guarded <;> decide +kernel

theorem not_infix_spaces {table : Text} (guarded : Bool) (present : table ≠ [])
    (solid : ∀ c ∈ table, isBlank c = false) :
    ¬ [' ', ' '] <:+: opening guarded ++ (table ++ [' ']) := by
  have apart : ' ' ∉ table := fun member => absurd (solid ' ' member) (by decide)
  intro part
  rcases List.infix_append_iff_ne_nil.mp part with early | late | ⟨front, back, -, filled, cut,
    -, start⟩
  · have none : ¬ [' ', ' '] <:+: opening guarded := by cases guarded <;> decide +kernel
    exact none early
  · rcases List.infix_append_iff_ne_nil.mp late with inner | last | ⟨front, back, filled, -, cut,
      suffix, -⟩
    · exact apart (inner.subset List.mem_cons_self)
    · exact absurd last (by decide)
    · obtain ⟨c, front, rfl⟩ := List.exists_cons_of_ne_nil filled
      obtain ⟨rfl, -⟩ := List.cons.inj cut
      exact apart (suffix.subset List.mem_cons_self)
  · obtain ⟨c, table, rfl⟩ := List.exists_cons_of_ne_nil present
    obtain ⟨e, back, rfl⟩ := List.exists_cons_of_ne_nil filled
    obtain ⟨rfl, -⟩ := List.cons_prefix_cons.mp start
    have space : e ∈ [' ', ' '] := by
      rw [cut]
      simp
    simp only [List.mem_cons, List.not_mem_nil, or_false, or_self] at space
    exact apart (space ▸ List.mem_cons_self)

theorem getLast?_lastLine (d : Definition) : d.lastLine.getLast? = some ';' := by
  rw [Definition.lastLine]
  split
  · rfl
  · exact List.getLast?_concat

theorem firstLine_isPrefix (d : Definition) : d.firstLine <+: d.write := by
  rw [Definition.write, joinWith_cons (by simp), List.append_assoc]
  exact List.prefix_append _ _

theorem detect_write (d : Definition) : Shape.detect d.write = .definition := by
  obtain ⟨rest, cut⟩ := firstLine_isPrefix d
  rw [← cut, firstLine_eq, List.append_assoc, List.append_assoc, detect_opening]

theorem trim_write (d : Definition) : trim d.write = d.write := by
  apply trim_eq_self
  · obtain ⟨rest, cut⟩ := firstLine_isPrefix d
    have first := head?_opening d.unlessExists
    have present : opening d.unlessExists ≠ [] := by
      intro none
      rw [none] at first
      cases first
    rw [← cut, firstLine_eq, List.append_assoc, List.append_assoc,
      List.head?_append_of_ne_nil _ present, first]
    rfl
  · have last := getLast?_lastLine d
    have present : d.lastLine ≠ [] := by
      intro none
      rw [none] at last
      cases last
    rw [Definition.write, ← List.cons_append, joinWith_append_one (by simp), ← List.append_assoc,
      List.getLast?_append_of_ne_nil _ present, last]
    rfl

namespace IsRead

variable {d : Definition} (isRead : IsRead d)

include isRead

theorem read?_write : Definition.read? d.write =
    some { d with tail := trim (dropEndWhile (· == ';') (onOneLine (d.lastLine.drop 1))) } := by
  obtain ⟨columns, present, valid, named⟩ := isRead.columns
  obtain ⟨head, n, found, name, flag, opened, closes, listed, -, rest⟩ :=
    exists_reading_write named present valid isRead.named isRead.name
  have kept : columnsBetween d.write head.stop (head.stop + 1 + n) = d.columns := by
    rw [columnsBetween, listed, named, filter_onOneLine valid]
  have filled : d.columns ≠ [] := by simpa [named] using present
  rw [read?_eq_some found opened closes (kept ▸ filled), kept, name, flag, rest]
  rfl

theorem read?_write_of_ended (ended : d.tail.getLast? ≠ some ';') :
    Definition.read? d.write = some d := by
  obtain ⟨z, tail⟩ := isRead.tail
  rw [isRead.read?_write, tail_lastLine tail ended]

theorem exists_clean_write (closed : Sealed (lexemes d.table))
    (none : Cleanup.option.codeHits d.write = []) :
    ∃ y, Cleanup.clean d.write = opening d.unlessExists ++ (d.table ++ [' ']) ++ '(' :: y ∧
      Definition.read? (Cleanup.clean d.write) = Definition.read? d.write := by
  obtain ⟨columns, present, -, named⟩ := isRead.columns
  obtain ⟨tail, last, written⟩ := exists_write_eq d (by simpa [named] using present)
  generalize '\n' :: (joinWith "\n" (Definition.columnLines d.columns) ++ ['\n']) ++ ')' :: tail = x
    at written
  have solid : ∀ c ∈ d.table, isBlank c = false := by
    intro c member
    have letter := isRead.name c member
    simp only [isNameChar, Bool.and_eq_true, Bool.not_eq_true'] at letter
    exact letter.1
  have neutral := isNeutral_opening d.unlessExists
  have head : Sealed (lexemes (opening d.unlessExists ++ (d.table ++ [' ']))) := by
    have name := closed.read [' '] rfl
    rw [flatMap_text_lexemes] at name
    rw [lexemes_append_of_isPlain _ _ fun c member => isPlain_of_isNeutral (neutral c member), name]
    exact (closed.append (by decide) .nil).code_append neutral
  have apart {c : Char} (blank : isBlank c = true) (other : c ≠ ' ') :
      c ∉ opening d.unlessExists ++ (d.table ++ [' ']) := by
    simp only [List.mem_append, List.mem_singleton, not_or]
    refine ⟨fun early => other (isBlank_opening _ c early blank), fun member => ?_, other⟩
    rw [solid c member] at blank
    cases blank
  obtain ⟨y, respaced, same⟩ := Cleanup.exists_respace_append head
    (apart rfl (by decide)) (apart rfl (by decide))
    (not_infix_spaces d.unlessExists isRead.named solid) x
  have cleaned : Cleanup.clean d.write = opening d.unlessExists ++ (d.table ++ [' ']) ++
      '(' :: y := by
    rw [Cleanup.clean_eq_trim_respace none, trim_eq_of_squeeze
      (Cleanup.squeeze_lexemes_respace d.write) (trim_write d), written, respaced]
  refine ⟨y, cleaned, ?_⟩
  have source := isRead.read?_write
  rw [source, cleaned, read?_append d.unlessExists isRead.named isRead.name]
  rw [written, read?_append d.unlessExists isRead.named isRead.name] at source
  exact readBody?_of_squeeze same source

end IsRead

/-- The layout of a table definition is found again behind a cleanup, with the same shape, if no
literal reaches out of the name of its table and what follows its columns does not end with a
semicolon. -/
theorem definition_clean {s : Text} (tidy : ∀ x ∈ codeSegments s, Cleanup.Tidy x)
    (trimmed : trim s = s)
    (none : Cleanup.option.codeHits (definition s) = [])
    (closed : ∀ d, Definition.read? s = some d → Sealed (lexemes d.table))
    (ended : ∀ d, Definition.read? s = some d → d.tail.getLast? ≠ some ';') :
    definition (Cleanup.clean (definition s)) = definition s ∧
      Shape.detect (Cleanup.clean (definition s)) = Shape.detect (definition s) := by
  cases read : Definition.read? s with
  | none =>
      have same : definition s = s := by rw [definition, read]; rfl
      rw [same] at none ⊢
      rw [Cleanup.clean_eq_self none tidy trimmed, same]
      exact ⟨rfl, rfl⟩
  | some d =>
      have same : definition s = d.write := by rw [definition, read]; rfl
      have isRead := isRead_of_read? read
      rw [same] at none ⊢
      obtain ⟨y, cut, again⟩ := isRead.exists_clean_write (closed d read) none
      have kept : definition (Cleanup.clean d.write) = d.write := by
        rw [definition, again, isRead.read?_write_of_ended (ended d read)]
        rfl
      refine ⟨kept, ?_⟩
      rw [cut, List.append_assoc, detect_opening, detect_write]

end Layout

end LiteSql
