import LiteSql.Proofs.QueryLayout

/-! What a text on one line holds: the code and the literals that it held before, with its line
comments closed, and no blanks in code but single spaces. -/

namespace LiteSql

/-! ### Closed line comments -/

theorem lexemes_closeLineComments (s : Text) : lexemes (closeLineComments s) =
    (lexemes s).map Lexeme.closed := by
  have read : lexemes ((lexemes s).flatMap Lexeme.text ++ []) = lexemes s ++ lexemes [] := by
    rw [List.append_nil, flatMap_text_lexemes, lexemes_nil, List.append_nil]
  have closed := (lexemes_map_closed read).1
  rwa [List.append_nil, lexemes_nil, List.append_nil, ← closeLineComments_eq] at closed

theorem closeLineComments_eq_self {s : Text} (plain : ∀ l ∈ lexemes s, l.isLineComment = false) :
    closeLineComments s = s := by
  have same : (lexemes s).map Lexeme.closed = lexemes s :=
    (List.map_congr_left fun l member => Lexeme.closed_of_plain (plain l member)).trans
    (List.map_id _)
  rw [closeLineComments_eq, same, flatMap_text_lexemes]

/-- A line comment becomes a block comment that ends by itself, whatever stands behind it. -/
theorem exists_closed_lexemes (text : Text) : ∃ comment,
    (Lexeme.literal .lineComment text).closed = .literal .blockComment comment ∧
      ∀ rest, lexemes (comment ++ rest) = .literal .blockComment comment :: lexemes rest := by
  obtain ⟨body, unclosing, closed⟩ := exists_closed_lineComment text
  exact ⟨_, closed, fun rest => lexemes_append_of_leads (leads_blockComment unclosing rest)⟩

theorem solidCode_cons (l : Lexeme) (ls : List Lexeme) :
    solidCode (l :: ls) = solidCode [l] ++ solidCode ls :=
  solidCode_append [l] ls

theorem solidCode_map_closed (ls : List Lexeme) :
    solidCode (ls.map Lexeme.closed) = solidCode ls := by
  induction ls with
  | nil => rfl
  | cons l ls ih =>
      have same : solidCode [l.closed] = solidCode [l] := by
        cases l with
        | code c => rfl
        | literal kind text => cases kind <;> rfl
      rw [List.map_cons, solidCode_cons, solidCode_cons l, same, ih]

/-! ### Squeezed blanks -/

theorem solidCode_filled (ls : List Lexeme) : solidCode (filled ls) = solidCode ls := by
  induction ls with
  | nil => rfl
  | cons l ls ih =>
      rw [solidCode_cons l, filled, List.filter_cons, ← filled]
      cases blank : l.isBlank with
      | false => rw [Bool.not_false, if_pos rfl, solidCode_cons, ih]
      | true =>
          have none : solidCode [l] = [] := by
            cases l with
            | code c =>
                have space : isBlank c = true := blank
                simp [solidCode, Lexeme.solid?, space]
            | literal kind text => cases blank
          rw [none, Bool.not_true, if_neg (by simp), ih, List.nil_append]

theorem solidCode_squeeze (ls : List Lexeme) : solidCode (squeeze ls) = solidCode ls := by
  rw [← solidCode_filled, filled_squeeze, solidCode_filled]

/-! ### Trimmed ends -/

theorem exists_isLineComment_of_mem_trim {s : Text} {l : Lexeme} (member : l ∈ lexemes (trim s)) :
    ∃ m ∈ lexemes s, m.isLineComment = l.isLineComment := by
  obtain ⟨before, tail, -, blank, read⟩ := exists_lexemes_trim s
  rw [read]
  rcases lexemes_append_blanks (trim s) blank with whole | ⟨front, kind, text, more, rest, ends,
    -, whole⟩
  · exact ⟨l, by rw [whole]; simp [member], rfl⟩
  · rw [whole]
    rw [ends] at member
    rcases List.mem_append.mp member with early | last
    · exact ⟨l, by simp [early], rfl⟩
    · rw [List.mem_singleton.mp last]
      exact ⟨.literal kind (text ++ more), by simp, by cases kind <;> rfl⟩

theorem settledLiterals_of_trimmed {ls : List Lexeme} (present : ∀ l ∈ ls, l.text ≠ [])
    (last : (ls.flatMap Lexeme.text).getLast?.any isBlank = false) :
    settledLiterals ls = ls.filterMap Lexeme.literalText? := by
  induction ls with
  | nil => rfl
  | cons l ls ih =>
      obtain ⟨filled, others⟩ := List.forall_mem_cons.mp present
      by_cases empty : ls = []
      · subst empty
        cases l with
        | code c => rfl
        | literal kind text =>
            rw [List.flatMap_singleton] at last
            exact congrArg ([·]) (trimEnd_eq_self last)
      · have more : ls.flatMap Lexeme.text ≠ [] := by
          obtain ⟨m, ms, rfl⟩ := List.exists_cons_of_ne_nil empty
          rw [List.flatMap_cons]
          exact fun none => others m List.mem_cons_self (List.append_eq_nil_iff.mp none).1
        rw [List.flatMap_cons, List.getLast?_append_of_ne_nil _ more] at last
        have later := ih others last
        cases l with
        | code c => exact later
        | literal kind text =>
            have solid : ls.all Lexeme.isBlank = false := by
              rw [← Bool.not_eq_true, List.all_eq_true]
              intro blank
              obtain ⟨c, ends⟩ := Option.isSome_iff_exists.mp (List.getLast?_isSome.mpr more)
              rw [ends, Option.any_some, isBlank_of_mem_flatMap_text blank c
                (List.mem_of_getLast? ends)] at last
              cases last
            rw [settledLiterals, solid, later]
            rfl

/-! ### One line -/

theorem lexemes_squeeze_closed (s : Text) :
    lexemes ((squeeze ((lexemes s).map Lexeme.closed)).flatMap Lexeme.text) =
      squeeze ((lexemes s).map Lexeme.closed) := by
  refine lexemes_squeeze (by rw [← closeLineComments_eq, lexemes_closeLineComments]) ?_
  intro x l y cut comment
  obtain ⟨m, -, rfl⟩ := List.mem_map.mp (show l ∈ (lexemes s).map Lexeme.closed by rw [cut]; simp)
  rw [m.isLineComment_closed] at comment
  cases comment

theorem onOneLine_eq (s : Text) :
    onOneLine s = trim ((squeeze ((lexemes s).map Lexeme.closed)).flatMap Lexeme.text) := by
  rw [onOneLine, collapseBlanks, replaceCode_gap, lexemes_closeLineComments]

theorem plain_onOneLine (s : Text) : ∀ l ∈ lexemes (onOneLine s), l.isLineComment = false := by
  intro l member
  rw [onOneLine_eq] at member
  obtain ⟨m, among, same⟩ := exists_isLineComment_of_mem_trim member
  rw [lexemes_squeeze_closed] at among
  rw [← same]
  rcases mem_squeeze among with rfl | closed
  · rfl
  · obtain ⟨k, -, rfl⟩ := List.mem_map.mp closed
    exact k.isLineComment_closed

theorem sameContent_onOneLine (s : Text) :
    SameContent (squeeze ((lexemes s).map Lexeme.closed)) (lexemes (onOneLine s)) := by
  have same := sameContent_trim ((squeeze ((lexemes s).map Lexeme.closed)).flatMap Lexeme.text)
  rwa [lexemes_squeeze_closed, ← onOneLine_eq] at same

theorem literals_onOneLine (s : Text) :
    literals (onOneLine s) = settledLiterals ((lexemes s).map Lexeme.closed) := by
  have trimmed : ((lexemes (onOneLine s)).flatMap Lexeme.text).getLast?.any isBlank = false := by
    rw [flatMap_text_lexemes]
    exact getLast?_trim _
  have settled := settledLiterals_of_trimmed (text_ne_nil_of_mem_lexemes _) trimmed
  rw [(sameContent_onOneLine s).literals, Layout.settledLiterals_squeeze] at settled
  exact settled.symm

theorem solidCode_onOneLine (s : Text) : solidCode (lexemes (onOneLine s)) =
    solidCode (lexemes s) := by
  rw [(sameContent_onOneLine s).code, solidCode_squeeze, solidCode_map_closed]

theorem squeezed_onOneLine (s : Text) : Squeezed (lexemes (onOneLine s)) := by
  rw [onOneLine_eq]
  apply squeezed_lexemes_trim
  rw [lexemes_squeeze_closed]
  exact squeezed_squeeze _

theorem onOneLine_onOneLine (s : Text) : onOneLine (onOneLine s) = onOneLine s := by
  have same : onOneLine (onOneLine s) = collapseBlanks (onOneLine s) := by
    rw [onOneLine, closeLineComments_eq_self (plain_onOneLine s)]
  rw [same, collapseBlanks, replaceCode_gap, squeeze_eq_self (squeezed_onOneLine s),
    flatMap_text_lexemes, trim_onOneLine]

/-- Putting a text on one line keeps the statement. No line comment is left; the literals stay in
order, each line comment as a block comment that ends by itself, up to blanks at the end of a last
literal that is never closed; the code that is not blank stays in order; blanks in code are single
spaces; and a second time changes nothing. -/
theorem onOneLine_content (s : Text) :
    (∀ l ∈ lexemes (onOneLine s), l.isLineComment = false) ∧
      literals (onOneLine s) = settledLiterals ((lexemes s).map Lexeme.closed) ∧
      (∀ text, ∃ comment, (Lexeme.literal .lineComment text).closed =
        .literal .blockComment comment ∧
        ∀ rest, lexemes (comment ++ rest) = .literal .blockComment comment :: lexemes rest) ∧
      solidCode (lexemes (onOneLine s)) = solidCode (lexemes s) ∧
      Squeezed (lexemes (onOneLine s)) ∧ onOneLine (onOneLine s) = onOneLine s :=
  ⟨plain_onOneLine s, literals_onOneLine s, exists_closed_lexemes, solidCode_onOneLine s,
    squeezed_onOneLine s, onOneLine_onOneLine s⟩

end LiteSql
