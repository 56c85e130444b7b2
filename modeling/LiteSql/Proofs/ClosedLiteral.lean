import LiteSql.Proofs.DepthReturn
import LiteSql.Proofs.OneLine
import LiteSql.Proofs.SpanLocality

/-! Literals that are closed, and the comment for a construct without an equivalent. Behind a text
that ends in code such a comment is one literal, and what follows it is read as it is on its own,
whatever the construct was. -/

namespace LiteSql

/-- Texts as they stand between the quotes of a string: a backslash has its character, and a quote
is doubled. -/
inductive Escaped : Text → Prop
  | nil : Escaped []
  | escape (c : Char) {s : Text} : Escaped s → Escaped ('\x5c' :: c :: s)
  | doubled {s : Text} : Escaped s → Escaped ('\x27' :: '\x27' :: s)
  | plain {c : Char} {s : Text} : c ≠ '\x5c' → c ≠ '\x27' → Escaped s → Escaped (c :: s)

/-- The texts of literals that have come to their closing. A line comment has none. -/
def LiteralKind.Closed : LiteralKind → Text → Prop
  | string, text => ∃ body, Escaped body ∧ text = '\x27' :: (body ++ ['\x27'])
  | doubleQuoted, text => ∃ body, '\x22' ∉ body ∧ text = '\x22' :: (body ++ ['\x22'])
  | backQuoted, text => ∃ body, '\x60' ∉ body ∧ text = '\x60' :: (body ++ ['\x60'])
  | lineComment, _ => False
  | blockComment, text => ∃ body, Unclosing body ∧ text = '/' :: '*' :: (body ++ ['*', '/'])

/-- A text that ends in code: it is empty, its last character stands in no literal, or its last
literal is closed. -/
def EndsInCode (s : Text) : Prop :=
  s = [] ∨ inSpans (literalSpans s) (s.length - 1 : Nat) = false ∨
    ∃ kind text, (lexemes s).getLast? = some (.literal kind text) ∧ kind.Closed text

/-! ### Where a literal ends -/

theorem stringLength_eq_length_iff {text rest : Text} (present : rest ≠ [])
    (fresh : rest.head? ≠ some '\x27') :
    stringLength (text ++ rest) = text.length ↔ ∃ body, Escaped body ∧ text = body ++ ['\x27'] := by
  obtain ⟨e, rest, rfl⟩ := List.exists_cons_of_ne_nil present
  have single : e ≠ '\x27' := by simpa using fresh
  have positive := stringLength_pos e rest
  constructor
  · intro whole
    fun_induction stringLength text with
    | case1 => exact absurd whole (Nat.ne_of_gt positive)
    | case2 c =>
        simp only [List.cons_append, List.nil_append, stringLength, List.length_cons,
          List.length_nil, single, if_false] at whole
        split at whole
        · omega
        · split at whole
          · next close => exact ⟨[], .nil, by rw [close]; rfl⟩
          · omega
    | case3 d text ih =>
        obtain ⟨body, escaped, rfl⟩ := ih (by simpa [stringLength] using whole)
        exact ⟨'\x5c' :: d :: body, escaped.escape d, rfl⟩
    | case4 text _ ih =>
        obtain ⟨body, escaped, rfl⟩ := ih (by simpa [stringLength] using whole)
        exact ⟨'\x27' :: '\x27' :: body, escaped.doubled, rfl⟩
    | case5 d text other plain => simp [stringLength, other] at whole
    | case6 c d text plain inside ih =>
        obtain ⟨body, escaped, cut⟩ := ih (by simpa [stringLength, plain, inside] using whole)
        exact ⟨c :: body, escaped.plain plain inside, congrArg (c :: ·) cut⟩
  · rintro ⟨body, escaped, rfl⟩
    induction escaped with
    | nil => simp [stringLength, single]
    | escape c _ ih => simpa [stringLength] using ih
    | doubled _ ih => simpa [stringLength] using ih
    | @plain c s plain inside _ ih =>
        obtain ⟨d, tail, cut⟩ : ∃ d tail, s ++ ['\x27'] ++ e :: rest = d :: tail := by
          cases s <;> exact ⟨_, _, rfl⟩
        rw [List.cons_append, List.cons_append, cut, stringLength, if_neg plain, if_neg inside,
          ← cut, ih, List.length_cons]

theorem quotedLength_eq_length_iff {mark : Char} {text rest : Text} (present : rest ≠ []) :
    quotedLength mark (text ++ rest) = text.length ↔ ∃ body, mark ∉ body ∧
      text = body ++ [mark] := by
  constructor
  · intro whole
    induction text with
    | nil =>
        obtain ⟨e, rest, rfl⟩ := List.exists_cons_of_ne_nil present
        simp only [List.nil_append, quotedLength, List.length_nil] at whole
        split at whole <;> omega
    | cons c text ih =>
        by_cases close : c = mark
        · obtain rfl : text = [] := by simpa [quotedLength, close] using whole
          exact ⟨[], List.not_mem_nil, by rw [close]; rfl⟩
        · obtain ⟨body, none, rfl⟩ := ih (by simpa [quotedLength, close] using whole)
          exact ⟨c :: body, by simpa [none] using Ne.symm close, rfl⟩
  · rintro ⟨body, none, rfl⟩
    induction body with
    | nil => simp [quotedLength]
    | cons c body ih =>
        rw [List.mem_cons, not_or] at none
        simpa [quotedLength, Ne.symm none.1] using ih none.2

theorem blockLength_eq_length_iff {text rest : Text} (present : rest ≠ []) :
    blockLength (text ++ rest) = text.length ↔ ∃ body, Unclosing body ∧
      text = body ++ ['*', '/'] := by
  constructor
  · intro whole
    obtain ⟨e, rest, rfl⟩ := List.exists_cons_of_ne_nil present
    have positive := blockLength_pos e rest
    fun_induction blockLength text with
    | case1 => exact absurd whole (Nat.ne_of_gt positive)
    | case2 c =>
        simp only [List.cons_append, List.nil_append, blockLength, List.length_cons,
          List.length_nil] at whole
        split at whole <;> omega
    | case3 c d text close =>
        obtain rfl : text = [] := by simpa [blockLength, close] using whole
        exact ⟨[], List.isChain_nil, by rw [close.1, close.2]; rfl⟩
    | case4 c d text inside ih =>
        obtain ⟨body, unclosing, cut⟩ := ih (by simpa [blockLength, inside] using whole)
        refine ⟨c :: body, List.isChain_cons.mpr ⟨fun e first => ?_, unclosing⟩,
          congrArg (c :: ·) cut⟩
        cases body with
        | nil => cases first
        | cons f body =>
            obtain rfl : f = e := Option.some.inj first
            rwa [← (List.cons.inj cut).1]
  · rintro ⟨body, unclosing, rfl⟩
    have length := blockLength_append unclosing rest
    simpa using length

/-- Before a text that neither lengthens a string nor ends a line, the first lexeme is a literal if
it is closed. -/
theorem leads_literal_iff {kind : LiteralKind} {text rest : Text} (present : rest ≠ [])
    (fresh : rest.head? ≠ some '\x27') (flat : rest.head? ≠ some '\n') :
    (Lexeme.literal kind text).Leads rest ↔ kind.Closed text := by
  have opened (leads : (Lexeme.literal kind text).Leads rest) : ∃ body,
      text = kind.opener ++ body := by
    have enough : kind.opener.length ≤ text.length := leads.2 ▸ kind.opener_length_le_length _
    obtain ⟨body, cut⟩ := List.prefix_of_prefix_length_le
      ((LiteralKind.opening?_eq_some_iff _ _).mp leads.1)
      (List.prefix_append text rest) enough
    exact ⟨body, cut.symm⟩
  constructor
  · intro leads
    obtain ⟨body, rfl⟩ := opened leads
    have whole := leads.2
    cases kind with
    | string =>
        obtain ⟨inner, escaped, rfl⟩ := (stringLength_eq_length_iff present fresh).mp (by
          simpa [LiteralKind.opener, LiteralKind.length] using whole)
        exact ⟨inner, escaped, rfl⟩
    | doubleQuoted | backQuoted =>
        obtain ⟨inner, none, rfl⟩ := (quotedLength_eq_length_iff present).mp (by
          simpa [LiteralKind.opener, LiteralKind.length] using whole)
        exact ⟨inner, none, rfl⟩
    | lineComment => exact (head?_of_leads_lineComment leads).elim present flat
    | blockComment =>
        obtain ⟨inner, unclosing, rfl⟩ := (blockLength_eq_length_iff present).mp (by
          simpa [LiteralKind.opener, LiteralKind.length] using whole)
        exact ⟨inner, unclosing, rfl⟩
  · intro closed
    cases kind with
    | string =>
        obtain ⟨body, escaped, rfl⟩ := closed
        have length := (stringLength_eq_length_iff present fresh).mpr ⟨body, escaped, rfl⟩
        exact ⟨rfl, by simpa [LiteralKind.length] using length⟩
    | doubleQuoted | backQuoted =>
        obtain ⟨body, none, rfl⟩ := closed
        have length := (quotedLength_eq_length_iff present).mpr ⟨body, none, rfl⟩
        exact ⟨rfl, by simpa [LiteralKind.length] using length⟩
    | lineComment => exact closed.elim
    | blockComment =>
        obtain ⟨body, unclosing, rfl⟩ := closed
        exact leads_blockComment unclosing rest

/-! ### Texts that end in code -/

theorem endsInCode_iff_leads {s next : Text} {front : List Lexeme} {l : Lexeme}
    (read : lexemes s = front ++ [l])
    (slash : next.head? = some '/') : EndsInCode s ↔ l.Leads next := by
  have whole := (lexemes_of_append read).1
  have size : s.length = (front.flatMap Lexeme.text).length + l.text.length := by
    rw [whole]
    simp
  obtain ⟨rest, cut, leads, -⟩ := exists_leads_of_lexemes_eq_cons (lexemes_of_append read).2
  obtain rfl : rest = [] := by simpa using cut
  have filled := List.length_pos_of_ne_nil (Lexeme.text_ne_nil_of_leads leads)
  have present : s ≠ [] := List.ne_nil_of_length_pos (by omega)
  rw [EndsInCode, or_iff_right present, read, List.getLast?_concat]
  cases l with
  | code c =>
      have last : inSpans (literalSpans s) (s.length - 1 : Nat) = false := by
        rw [size, Lexeme.text, List.length_singleton, Nat.add_sub_cancel]
        exact not_inSpans_of_code rfl read
      refine iff_of_true (.inl last) ?_
      rw [Lexeme.Leads, opening?_cons_eq_none] at leads ⊢
      simp [leads.1, slash]
  | literal kind text =>
      have last : inSpans (literalSpans s) (s.length - 1 : Nat) = true :=
        (inSpans_literalSpans_iff s _).mpr (inLiteral_of_lexemes read (by omega) (by
          rw [Lexeme.text] at size filled
          omega))
      have closed : (∃ k t, some (Lexeme.literal kind text) = some (.literal k t) ∧ k.Closed t) ↔
          kind.Closed text := by
        simp
      rw [last, closed, or_iff_right (by simp), leads_literal_iff
        (by rintro rfl; cases slash) (by simp [slash])
        (by simp [slash])]

theorem EndsInCode.lexemes_append {s next : Text} (ends : EndsInCode s)
    (slash : next.head? = some '/') :
    lexemes (s ++ next) = lexemes s ++ lexemes next := by
  rcases List.eq_nil_or_concat (lexemes s) with none | ⟨front, l, read⟩
  · have empty := flatMap_text_lexemes s
    rw [none, List.flatMap_nil] at empty
    rw [none, ← empty, List.nil_append, List.nil_append]
  · rw [List.concat_eq_append] at read
    have leads := (endsInCode_iff_leads read slash).mp ends
    obtain ⟨whole, own⟩ := lexemes_of_append read
    rw [List.flatMap_singleton] at whole own
    have same : lexemes (front.flatMap Lexeme.text ++ l.text) = front ++ lexemes l.text := by
      rw [← whole, own, read]
    have present : l.text ≠ [] := Lexeme.text_ne_nil_of_leads leads
    have seam : SameSeam l.text (l.text ++ next) :=
      .of_head _ _ present (by rw [List.head?_append_of_ne_nil _ present])
    rw [whole, List.append_assoc, lexemes_append_congr same seam, lexemes_append_of_leads leads,
      ← whole, read]
    simp

theorem endsInCode_of_isBoundary {s next : Text} (slash : next.head? = some '/')
    (boundary : IsBoundary (s ++ next) s.length) : EndsInCode s := by
  have inside : s.length ≤ 0 + ((lexemes (s ++ next)).flatMap Lexeme.text).length := by
    rw [flatMap_text_lexemes]
    simp
  obtain ⟨first, second, read, place⟩ := exists_cut_of_spansFrom
    (Nat.zero_le s.length) inside boundary
  obtain ⟨whole, -⟩ := lexemes_of_append read
  rw [Nat.zero_add] at place
  obtain ⟨text, rest⟩ := List.append_inj whole place.symm
  rcases List.eq_nil_or_concat first with rfl | ⟨front, l, rfl⟩
  · exact .inl text
  · rw [List.concat_eq_append] at read text
    have own := lexemes_front read
    rw [← text] at own
    rw [List.append_assoc, List.singleton_append] at read
    obtain ⟨tail, cut, leads, -⟩ := exists_leads_of_lexemes_eq_cons (lexemes_of_append read).2
    obtain rfl : second.flatMap Lexeme.text = tail := by simpa using cut
    rw [← rest] at leads
    exact (endsInCode_iff_leads own slash).mpr leads

/-- The comment for a construct is one literal behind a text and before any other, whatever the
construct is, exactly if the text ends in code. -/
theorem literalSpans_append_notSupported_iff (s : Text) :
    EndsInCode s ↔ ∀ fragment t : Text, literalSpans (s ++ notSupported fragment ++ t) =
      literalSpans s ++ ⟨s.length, s.length + (notSupported fragment).length⟩ ::
        (literalSpans t).map (Span.forward (s.length + (notSupported fragment).length)) := by
  constructor
  · intro ends fragment t
    have slash : (notSupported fragment ++ t).head? = some '/' := rfl
    have comment := lexemes_append_of_leads (leads_notSupported fragment t)
    rw [Lexeme.text] at comment
    rw [List.append_assoc, literalSpans, ends.lexemes_append slash, comment, spansFrom_append,
      flatMap_text_lexemes, Nat.zero_add, spansFrom, ← Nat.zero_add (s.length + _), spansFrom_add,
      Nat.zero_add]
    rfl
  · intro spans
    refine endsInCode_of_isBoundary (show (notSupported []).head? = some '/'
      from rfl) fun span member => ?_
    have alone := spans [] []
    rw [List.append_nil] at alone
    rw [alone] at member
    rcases List.mem_append.mp member with early | late
    · have bounds := bounds_of_mem_spansFrom List.infix_rfl early
      rw [flatMap_text_lexemes] at bounds
      omega
    · obtain rfl := List.mem_singleton.mp late
      exact fun inside => Nat.lt_irrefl _ inside.1

example : literalSpans ("-" ++ notSupported "/*/ **// '" ++ "'t'") = [⟨1, 34⟩, ⟨34, 37⟩] := by
  decide +kernel

end LiteSql
