import LiteSql.Proofs.DottedName

/-! Lists of arguments in normal form. Each argument is on one line with its names tightened, and a
comma and one space stand between two of them; a list that is written so stays as it is. -/

namespace LiteSql

/-! ### Blanks at the ends -/

structure Trimmed (ls : List Lexeme) : Prop where
  first : ls.head?.any Lexeme.isBlank = false
  last : ls.getLast?.any Lexeme.isBlank = false

theorem exists_longest_blanks (ls : List Lexeme) : ∃ before rest, ls = before ++ rest ∧
    (∀ l ∈ before, l.isBlank = true) ∧ rest.head?.any Lexeme.isBlank = false := by
  induction ls with
  | nil => exact ⟨[], [], rfl, nofun, rfl⟩
  | cons l ls ih =>
      cases blank : l.isBlank with
      | false => exact ⟨[], l :: ls, rfl, nofun, blank⟩
      | true =>
          obtain ⟨before, rest, rfl, leading, solid⟩ := ih
          exact ⟨l :: before, rest, rfl, List.forall_mem_cons.mpr ⟨blank, leading⟩, solid⟩

theorem exists_trimmed (ls : List Lexeme) : ∃ core, Padding core ls ∧ Trimmed core := by
  obtain ⟨before, rest, rfl, leading, first⟩ := exists_longest_blanks ls
  obtain ⟨after, core, cut, trailing, last⟩ := exists_longest_blanks rest.reverse
  have text : rest = core.reverse ++ after.reverse := by
    rw [← List.reverse_append, ← cut, List.reverse_reverse]
  refine ⟨core.reverse, ⟨before, after.reverse, by rw [text], leading, fun l inside =>
    trailing l (List.mem_reverse.mp inside)⟩, ?_, ?_⟩
  · cases whole : core.reverse with
    | nil => rfl
    | cons l others =>
        rw [text, whole] at first
        exact first
  · rwa [List.getLast?_reverse]

theorem trim_text_of_trimmed {ls : List Lexeme} (closed : Sealed ls) (trimmed : Trimmed ls) :
    trim (ls.flatMap Lexeme.text) = ls.flatMap Lexeme.text := by
  obtain ⟨before, core, after, rfl, leading, trailing, same⟩ := closed.exists_trim
  have none : before = [] := by
    cases before with
    | nil => rfl
    | cons c before =>
        have blank := leading c List.mem_cons_self
        have first := trimmed.first
        rw [show isBlank c = (Lexeme.code c).isBlank from rfl] at blank
        simp [blank] at first
  have empty : after = [] := by
    rcases List.eq_nil_or_concat after with rfl | ⟨front, c, rfl⟩
    · rfl
    · rw [List.concat_eq_append] at trailing
      have blank := trailing c (by simp)
      have last := trimmed.last
      rw [show isBlank c = (Lexeme.code c).isBlank from rfl] at blank
      simp [← List.append_assoc, blank] at last
  subst none empty
  simpa using same

theorem exists_squeeze_blanks {blanks : List Lexeme} (blank : ∀ l ∈ blanks, l.isBlank = true)
    (ls : List Lexeme) :
    ∃ more, squeeze (blanks ++ ls) = more ++ squeeze ls ∧ ∀ l ∈ more, l.isBlank = true := by
  induction blanks with
  | nil => exact ⟨[], rfl, nofun⟩
  | cons l blanks ih =>
      obtain ⟨first, others⟩ := List.forall_mem_cons.mp blank
      obtain ⟨more, same, spaces⟩ := ih others
      rw [List.cons_append, squeeze, if_pos first]
      split
      · exact ⟨more, same, spaces⟩
      · exact ⟨.code ' ' :: more, by rw [same]; rfl, List.forall_mem_cons.mpr ⟨by decide, spaces⟩⟩

theorem exists_squeeze_append {blanks : List Lexeme} (blank : ∀ l ∈ blanks, l.isBlank = true)
    (ls : List Lexeme) :
    ∃ more, squeeze (ls ++ blanks) = squeeze ls ++ more ∧ ∀ l ∈ more, l.isBlank = true := by
  have step (l : Lexeme) (ls : List Lexeme) : squeeze (l :: ls) =
      if l.isBlank then if ls.head?.any Lexeme.isBlank then squeeze ls else .code ' ' :: squeeze ls
      else l :: squeeze ls := rfl
  induction ls with
  | nil =>
      obtain ⟨more, same, spaces⟩ := exists_squeeze_blanks blank []
      rw [List.append_nil] at same
      exact ⟨more, same.trans (List.append_nil more), spaces⟩
  | cons l ls ih =>
      obtain ⟨more, same, spaces⟩ := ih
      cases ls with
      | cons m ls =>
          refine ⟨more, ?_, spaces⟩
          rw [List.cons_append, step, same, step l (m :: ls), List.cons_append, List.head?_cons,
            List.head?_cons]
          split
          · split
            · rfl
            · rfl
          · rfl
      | nil =>
          rw [List.nil_append] at same
          rw [List.cons_append, step, List.nil_append, same, step l []]
          split
          · cases blanks with
            | nil => exact ⟨more, rfl, spaces⟩
            | cons m blanks =>
                -- the blanks behind a blank are squeezed together with it
                rw [List.head?_cons, Option.any_some, if_pos (blank m List.mem_cons_self)]
                have whole := @squeeze_blanks _ [] (List.cons_ne_nil m blanks) blank rfl
                rw [List.append_nil, same] at whole
                exact ⟨[], by simpa [squeeze] using whole, nofun⟩
          · exact ⟨more, rfl, spaces⟩

theorem tighten_padded {before after : List Lexeme} (leading : ∀ l ∈ before, l.isBlank = true)
    (trailing : ∀ l ∈ after, l.isBlank = true) (core : List Lexeme) :
    tighten (before ++ (core ++ after)) = before ++ (tighten core ++ after) := by
  induction before with
  | nil =>
      rw [List.nil_append, List.nil_append, tighten_append (ends_blanks trailing),
        tighten_of_not_isWord fun l inside => Lexeme.isWord_of_isBlank (trailing l inside)]
  | cons l before ih =>
      obtain ⟨first, others⟩ := List.forall_mem_cons.mp leading
      rw [List.cons_append, tighten_cons (Lexeme.isWord_of_isBlank first), ih others]
      rfl

namespace Padding

variable {core padded : List Lexeme} (padding : Padding core padded)

include padding

theorem squeeze : Padding (squeeze core) (squeeze padded) := by
  obtain ⟨before, after, rfl, leading, trailing⟩ := padding
  obtain ⟨first, early, spaces⟩ := exists_squeeze_blanks leading (core ++ after)
  obtain ⟨last, late, blanks⟩ := exists_squeeze_append trailing core
  exact ⟨first, last, by rw [early, late], spaces, blanks⟩

theorem tighten : Padding (tighten core) (tighten padded) := by
  obtain ⟨before, after, rfl, leading, trailing⟩ := padding
  exact ⟨before, after, tighten_padded leading trailing core, leading, trailing⟩

end Padding

theorem getLast?_tighten (ls : List Lexeme) : (tighten ls).getLast? = ls.getLast? := by
  have grow {l : Lexeme} {ls ms : List Lexeme} (same : ms.getLast? = ls.getLast?) :
      (l :: ms).getLast? = (l :: ls).getLast? := by
    rw [List.getLast?_cons, List.getLast?_cons, same]
  induction ls using tighten_induction with
  | nil => rw [tighten]
  | pass l ls apart ih =>
      rw [tighten_pass apart]
      exact grow ih
  | join l m b behind owner member dotted ih =>
      rw [tighten_join owner member dotted, ← List.cons_append,
        List.getLast?_append_of_ne_nil _ (List.cons_ne_nil _ _)]
      exact grow ih

theorem Trimmed.tighten {ls : List Lexeme} (trimmed : Trimmed ls) : Trimmed (tighten ls) := by
  refine ⟨?_, ?_⟩
  · rw [head?_tighten]
    exact trimmed.first
  · rw [getLast?_tighten]
    exact trimmed.last

/-! ### Arguments in normal form -/

def neaten (ls : List Lexeme) : List Lexeme := tighten (squeeze (ls.map Lexeme.closed))

theorem Padding.sealed {core padded : List Lexeme} (padding : Padding core padded)
    (closed : Sealed padded) :
    Sealed core := by
  obtain ⟨before, after, rfl, -, -⟩ := padding
  exact closed.right.left

theorem tightenNames_onOneLine {x : List Lexeme} {rest : Text} (present : rest ≠ [])
    (read : lexemes (x.flatMap Lexeme.text ++ rest) = x ++ lexemes rest) :
    GroupConcat.tightenNames (onOneLine (trim (x.flatMap Lexeme.text))) =
      trim ((neaten x).flatMap Lexeme.text) := by
  have closed := sealed_map_closed present read
  have padding := padding_map_closed_trim (lexemes_front read) closed
  have inner := padding.sealed closed
  obtain ⟨core, around, trimmed⟩ :=
    exists_trimmed (squeeze ((lexemes (trim (x.flatMap Lexeme.text))).map Lexeme.closed))
  have solid := around.sealed inner.squeeze
  have line : onOneLine (trim (x.flatMap Lexeme.text)) = core.flatMap Lexeme.text := by
    rw [onOneLine, collapseBlanks, replaceCode_gap, closeLineComments_eq, inner.lexemes_text,
      around.trim_text, trim_text_of_trimmed solid trimmed]
  rw [line, GroupConcat.tightenNames_eq, solid.lexemes_text, neaten,
    padding.squeeze.tighten.trim_text, around.tighten.trim_text,
    trim_text_of_trimmed solid.tighten trimmed.tighten]

theorem filled_neaten (ls : List Lexeme) : filled (neaten ls) = filled (ls.map Lexeme.closed) := by
  rw [neaten, filled_tighten, filled_squeeze]

theorem neaten_comma (x rest : List Lexeme) : neaten (x ++ .code ',' :: rest) =
    neaten x ++ .code ',' :: neaten rest := by
  have apart : (Lexeme.code ',' :: rest.map Lexeme.closed).head?.any Lexeme.isBlank = false := by
    rw [List.head?_cons, Option.any_some]
    decide
  rw [neaten, List.map_append, List.map_cons, show (Lexeme.code ',').closed = .code ',' from rfl,
    squeeze_append apart, squeeze_cons_filled (by decide), tighten_append_break (by decide)]
  rfl

theorem Item.neaten {x : List Lexeme} (item : Item x) : Item (neaten x) :=
  item.map_closed.congr (filled_neaten x)

theorem undivided_cons {front ls : List Lexeme} {l : Lexeme}
    (here : l = .code ',' → levelAfter 0 front ≠ some 0)
    (behind : Undivided (front ++ [l]) ls) : Undivided front (l :: ls) := by
  rintro (_ | ⟨m, y⟩) z cut
  · obtain ⟨rfl, -⟩ := List.cons.inj cut
    rw [List.append_nil]
    exact here rfl
  · obtain ⟨rfl, rest⟩ := List.cons.inj cut
    have apart := behind y z rest
    rwa [List.append_assoc] at apart

theorem undivided_or_comma {depth : Nat} {front ls : List Lexeme}
    (start : levelAfter 0 front = some depth)
    (level : levelAfter depth ls = some 0) : Undivided front ls ∨
      ∃ x rest, ls = x ++ .code ',' :: rest ∧ levelAfter depth x = some 0 ∧ Undivided front x ∧
        Balanced rest := by
  induction ls generalizing depth front with
  | nil => exact .inl (by simp [Undivided])
  | cons l ls ih =>
      rw [levelAfter] at level
      split at level
      · cases level
      · next later =>
          by_cases comma : l = .code ',' ∧ depth = 0
          · obtain ⟨rfl, rfl⟩ := comma
            exact .inr ⟨[], ls, rfl, rfl, by simp [Undivided], level⟩
          · have here : l = .code ',' → levelAfter 0 front ≠ some 0 := by
              intro same shallow
              rw [start] at shallow
              exact comma ⟨same, Option.some.inj shallow⟩
            rcases ih (levelAfter_append_one start later) level
              with whole | ⟨x, rest, rfl, ends, undivided, balanced⟩
            · exact .inl (undivided_cons here whole)
            · exact .inr ⟨l :: x, rest,
                rfl, by rw [levelAfter, if_neg later, ends], undivided_cons here undivided,
                balanced⟩

inductive Pieces : List Lexeme → Prop
  | last {x : List Lexeme} : Item x → Pieces x
  | comma {x rest : List Lexeme} : Item x → Pieces rest → Pieces (x ++ .code ',' :: rest)

theorem pieces_of_balanced {ls : List Lexeme} (balanced : Balanced ls) : Pieces ls := by
  induction size : ls.length using Nat.strongRecOn generalizing ls with
  | ind n ih =>
      subst size
      rcases undivided_or_comma (show levelAfter 0 [] = some 0 from rfl) balanced with
        whole | ⟨x, rest, rfl, level, undivided, others⟩
      · exact .last ⟨balanced, whole⟩
      · refine .comma ⟨level, undivided⟩ (ih rest.length ?_ others rfl)
        simp only [List.length_append, List.length_cons]
        omega

theorem map_trim_piecesAt_neaten {ls : List Lexeme} (balanced : Balanced ls) {rest : Text}
    (present : rest ≠ [])
    (read : lexemes (ls.flatMap Lexeme.text ++ rest) = ls ++ lexemes rest) :
    (piecesAt 0 (neaten ls)).map trim =
      (piecesAt 0 ls).map fun s => GroupConcat.tightenNames (onOneLine (trim s)) := by
  have pieces := pieces_of_balanced balanced
  clear balanced
  induction pieces with
  | @last x item =>
      rw [item.neaten.piecesAt_eq, item.piecesAt_eq, List.map_singleton, List.map_singleton,
        tightenNames_onOneLine present read]
  | @comma x others item _ ih =>
      obtain ⟨early, late⟩ := read_cut read
      have behind := (read_cut (a := [.code ',']) (b := others) late).2
      rw [neaten_comma, item.neaten.piecesAt_comma, item.piecesAt_comma, List.map_cons,
        List.map_cons, ih behind, tightenNames_onOneLine (by simp [Lexeme.text]) early]

/-! ### Pieces with a comma and one space between them -/

inductive Rejoined : List Lexeme → List Lexeme → Prop
  | last {core x : List Lexeme} : Item core → Padding core x → Trimmed core → Rejoined x core
  | comma {core x xs ys : List Lexeme} : Item core → Padding core x → Trimmed core →
      Rejoined xs ys →
    Rejoined (x ++ .code ',' :: xs) (core ++ .code ',' :: .code ' ' :: ys)

theorem exists_rejoined {ls : List Lexeme} (balanced : Balanced ls) : ∃ ms, Rejoined ls ms := by
  have pieces := pieces_of_balanced balanced
  clear balanced
  induction pieces with
  | @last x item =>
      obtain ⟨core, padding, trimmed⟩ := exists_trimmed x
      exact ⟨core, .last (item.congr padding.filled_eq.symm) padding trimmed⟩
  | @comma x others item _ ih =>
      obtain ⟨core, padding, trimmed⟩ := exists_trimmed x
      obtain ⟨ms, rejoined⟩ := ih
      exact ⟨_, .comma (item.congr padding.filled_eq.symm) padding trimmed rejoined⟩

namespace Rejoined

variable {xs ys : List Lexeme} (rejoined : Rejoined xs ys)

include rejoined

theorem filled_eq : filled ys = filled xs := by
  induction rejoined with
  | last _ padding _ => exact padding.filled_eq.symm
  | comma _ padding _ _ ih =>
      rw [filled_append, filled_append, padding.filled_eq, filled_comma, filled_comma, ← ih]
      rfl

theorem text (closed : Sealed xs) : ys.flatMap Lexeme.text =
    joinArguments ((piecesAt 0 xs).map trim) := by
  induction rejoined with
  | last item padding trimmed =>
      rw [(padding.item item).piecesAt_eq, List.map_singleton, padding.trim_text,
        trim_text_of_trimmed (padding.sealed closed) trimmed]
      rfl
  | @comma core x xs ys item padding trimmed _ ih =>
      have behind : Sealed xs := (show Sealed ([.code ','] ++ xs) from closed.right).right
      rw [(padding.item item).piecesAt_comma, List.map_cons, padding.trim_text,
        trim_text_of_trimmed (padding.sealed closed.left) trimmed, joinArguments,
        joinWith_cons (by simpa using piecesAt_ne_nil 0 xs), ← joinArguments, ← ih behind]
      simp [Lexeme.text]

theorem sealed (closed : Sealed xs) : Sealed ys := by
  induction rejoined with
  | last _ padding _ => exact padding.sealed closed
  | @comma core x xs ys _ padding _ _ ih =>
      have behind : Sealed xs := (show Sealed ([.code ','] ++ xs) from closed.right).right
      exact (padding.sealed closed.left).append (by decide)
        (Sealed.nil.append (by decide) (ih behind))

theorem first : ys.head?.any Lexeme.isBlank = false := by
  cases rejoined with
  | last _ _ trimmed => exact trimmed.first
  | @comma core x xs ys _ _ trimmed _ =>
      cases core with
      | nil => exact (show (Lexeme.code ',').isBlank = false by decide)
      | cons l core => exact trimmed.first

theorem squeezed (spaces : Squeezed xs) : Squeezed ys := by
  have inside {core x : List Lexeme} (padding : Padding core x) (spaces : Squeezed x) :
      Squeezed core := by
    obtain ⟨before, after, rfl, -, -⟩ := padding
    exact spaces.of_isInfix ⟨before, after, by simp⟩
  induction rejoined with
  | last _ padding _ => exact inside padding spaces
  | @comma core x xs ys _ padding _ later ih =>
      have early := inside padding (spaces.of_isInfix (List.prefix_append x _).isInfix)
      have late := ih (spaces.of_isInfix ⟨x ++ [.code ','], [], by simp⟩)
      have comma : (Lexeme.code ',').isBlank = false := by decide
      have head := later.first
      constructor
      · rw [List.isChain_append]
        refine ⟨early.apart, List.isChain_cons_cons.mpr
          ⟨by simp [comma], List.isChain_cons.mpr ⟨?_, late.apart⟩⟩, ?_⟩
        · intro m next both
          rw [next, Option.any_some, both.2] at head
          cases head
        · intro l _ m next both
          cases next
          rw [comma] at both
          cases both.2
      · simp only [List.forall_mem_append, List.forall_mem_cons]
        exact ⟨early.space, fun blank => absurd blank (by simp [comma]), by simp, late.space⟩

theorem tighten_eq (tight : tighten xs = xs) : tighten ys = ys := by
  have inside {core x : List Lexeme} (padding : Padding core x) (tight : tighten x = x) :
      tighten core = core := by
    obtain ⟨before, after, rfl, leading, trailing⟩ := padding
    rw [tighten_padded leading trailing, List.append_cancel_left_eq,
      List.append_cancel_right_eq] at tight
    exact tight
  induction rejoined with
  | last _ padding _ => exact inside padding tight
  | comma _ padding _ _ ih =>
      obtain ⟨a, b, -, rfl, rfl⟩ := exists_of_tighten_append (by decide) tight
      rw [tighten_append_break (by decide), inside padding (tighten_tighten a),
        tighten_cons (by decide), ih (tighten_tighten b)]

theorem cons_blank {l : Lexeme} (blank : l.isBlank = true) : Rejoined (l :: xs) ys := by
  have more {core x : List Lexeme} (padding : Padding core x) : Padding core (l :: x) := by
    obtain ⟨before, after, rfl, leading, trailing⟩ := padding
    exact ⟨l :: before, after, rfl, List.forall_mem_cons.mpr ⟨blank, leading⟩, trailing⟩
  cases rejoined with
  | last item padding trimmed => exact .last item (more padding) trimmed
  | comma item padding trimmed later => exact .comma item (more padding) trimmed later

theorem self : Rejoined ys ys := by
  induction rejoined with
  | last item _ trimmed => exact .last item (padding_self _) trimmed
  | comma item _ trimmed _ ih =>
      exact .comma item (padding_self _) trimmed (ih.cons_blank (by decide))

theorem respaced : Respaced xs ys := by
  induction rejoined with
  | last item padding _ => exact .last item.balanced padding (padding_self _)
  | comma item padding _ _ ih =>
      exact .comma item.balanced padding (padding_self _) (ih.cons_blank (by decide))

end Rejoined

structure Neat (ls : List Lexeme) : Prop where
  closed : Sealed ls
  balanced : Balanced ls
  squeezed : Squeezed ls
  tight : tighten ls = ls
  listed : Rejoined ls ls

theorem Sealed.map_closed {ls : List Lexeme} (closed : Sealed ls) : ls.map Lexeme.closed = ls :=
  (List.map_congr_left fun l member => Lexeme.closed_of_plain (closed.plain l member)).trans
  (List.map_id ls)

theorem Neat.neaten_eq {ls : List Lexeme} (neat : Neat ls) : neaten ls = ls := by
  rw [neaten, neat.closed.map_closed, squeeze_eq_self neat.squeezed, neat.tight]

theorem Rejoined.neat {ls ms : List Lexeme} (rejoined : Rejoined (neaten ls) ms)
    (balanced : Balanced ls)
    (closed : Sealed (ls.map Lexeme.closed)) : Neat ms where
  closed := rejoined.sealed closed.squeeze.tighten
  balanced := by
    rw [Balanced, ← levelAfter_filled, rejoined.filled_eq, filled_neaten, levelAfter_filled,
      levelAfter_map_closed]
    exact balanced
  squeezed := rejoined.squeezed (squeezed_squeeze _).tighten
  tight := rejoined.tighten_eq (tighten_tighten _)
  listed := rejoined.self

theorem Rejoined.eq_nil {xs ys : List Lexeme} (rejoined : Rejoined xs ys) (empty : filled xs = []) :
    ys = [] := by
  rw [← rejoined.filled_eq, filled_eq_nil_iff] at empty
  cases ys with
  | nil => rfl
  | cons l ys =>
      have first := rejoined.first
      rw [List.head?_cons, Option.any_some, empty l List.mem_cons_self] at first
      cases first

theorem GroupConcat.normalize_eq (arguments : List Text) : normalize arguments =
    function ++ '(' :: (joinArguments (arguments.map fun s => tightenNames (onOneLine s)) ++
      [')']) := by
  have enclosed (s : Text) : "GROUP_CONCAT(" ++ s ++ ")" = function ++ '(' :: (s ++ [')']) := rfl
  exact enclosed _

theorem filled_neaten_of_isBlank {ls : List Lexeme} (read : lexemes (ls.flatMap Lexeme.text) = ls)
    (blank : ∀ c ∈ ls.flatMap Lexeme.text, isBlank c = true) : filled (neaten ls) = [] := by
  rw [filled_neaten, filled_eq_nil_iff, ← read, lexemes_of_isBlank blank, List.map_map]
  exact isBlank_of_mem_map blank

theorem normalize_splitArguments {ls ms : List Lexeme} (balanced : Balanced ls) {rest : Text}
    (present : rest ≠ [])
    (read : lexemes (ls.flatMap Lexeme.text ++ rest) = ls ++ lexemes rest)
    (rejoined : Rejoined (neaten ls) ms) :
    GroupConcat.normalize (splitArguments (ls.flatMap Lexeme.text)) =
      (callLexemes GroupConcat.function ms).flatMap Lexeme.text := by
  have closed : Sealed (neaten ls) := (sealed_map_closed present read).squeeze.tighten
  have text : joinArguments ((splitArguments (ls.flatMap Lexeme.text)).map fun s =>
      GroupConcat.tightenNames (onOneLine s)) = ms.flatMap Lexeme.text := by
    rw [splitArguments, lexemes_front read]
    split
    · next blank =>
        rw [rejoined.eq_nil (filled_neaten_of_isBlank (lexemes_front read)
          (List.all_eq_true.mp blank))]
        exact (rfl : joinArguments [] = [])
    · rw [rejoined.text closed, map_trim_piecesAt_neaten balanced present read, List.map_map,
        Function.comp_def]
  rw [GroupConcat.normalize_eq, text, flatMap_text_callLexemes]

theorem Neat.normalize_splitArguments {ls : List Lexeme} (neat : Neat ls) :
    GroupConcat.normalize (splitArguments (ls.flatMap Lexeme.text)) =
      (callLexemes GroupConcat.function ls).flatMap Lexeme.text := by
  refine LiteSql.normalize_splitArguments neat.balanced (List.cons_ne_nil ')' [])
    (neat.closed.read _ rfl) ?_
  rw [neat.neaten_eq]
  exact neat.listed

end LiteSql
