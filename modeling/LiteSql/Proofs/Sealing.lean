import Mathlib.Data.List.Induction
import LiteSql.Proofs.Respacing

/-! Closed lexemes. A literal with something behind it has come to its own end, unless it is a line
comment, and what stands behind it can be exchanged for any neutral text. -/

namespace LiteSql

theorem stringLength_closed {text rest : Text} (whole : stringLength (text ++ rest) = text.length)
    (present : rest ≠ []) : text.getLast? = some '\x27' ∧
      ∀ other : Text, other.head? ≠ some '\x27' → stringLength (text ++ other) = text.length := by
  obtain ⟨e, rest, rfl⟩ := List.exists_cons_of_ne_nil present
  fun_induction stringLength text with
  | case1 => exact absurd whole (Nat.ne_of_gt (stringLength_pos e rest))
  | case2 c =>
      have positive := stringLength_pos e rest
      simp only [List.cons_append, List.nil_append, stringLength, List.length_cons,
        List.length_nil] at whole
      split at whole
      · omega
      · next plain =>
          split at whole
          · next close =>
              refine ⟨by rw [close]; rfl, fun other fresh => ?_⟩
              cases other with
              | nil => rfl
              | cons f other =>
                  have single : f ≠ '\x27' := by simpa using fresh
                  simp [stringLength, close, single]
          · omega
  | case3 d text ih =>
      obtain ⟨last, closed⟩ := ih (by simpa [stringLength] using whole)
      refine ⟨by simp [List.getLast?_cons, last], fun other fresh => ?_⟩
      simpa [stringLength] using closed other fresh
  | case4 text _ ih =>
      obtain ⟨last, closed⟩ := ih (by simpa [stringLength] using whole)
      refine ⟨by simp [List.getLast?_cons, last], fun other fresh => ?_⟩
      simpa [stringLength] using closed other fresh
  | case5 d text single plain => simp [stringLength, single] at whole
  | case6 c d text plain inside ih =>
      have shorter : stringLength (d :: text ++ e :: rest) = (d :: text).length := by
        simpa [stringLength, plain, inside] using whole
      obtain ⟨last, closed⟩ := ih shorter
      refine ⟨by simpa [List.getLast?_cons] using last, fun other fresh => ?_⟩
      simpa [stringLength, plain, inside] using closed other fresh

theorem quotedLength_closed {mark : Char} {text rest : Text}
    (whole : quotedLength mark (text ++ rest) = text.length) (present : rest ≠ []) :
    text.getLast? = some mark ∧ ∀ other, quotedLength mark (text ++ other) = text.length := by
  induction text with
  | nil =>
      obtain ⟨d, rest, rfl⟩ := List.exists_cons_of_ne_nil present
      simp only [List.nil_append, quotedLength, List.length_nil] at whole
      split at whole <;> omega
  | cons c text ih =>
      rw [List.cons_append, quotedLength] at whole
      split at whole
      · next close =>
          obtain rfl : text = [] := by simpa using whole
          exact ⟨by rw [close]; rfl, fun other => by simp [quotedLength, close]⟩
      · next inside =>
          obtain ⟨last, closed⟩ := ih (by simpa using whole)
          refine ⟨by simp [List.getLast?_cons, last], fun other => ?_⟩
          rw [List.cons_append, quotedLength, if_neg inside, closed, List.length_cons]

theorem blockLength_closed {text rest : Text} (whole : blockLength (text ++ rest) = text.length)
    (present : rest ≠ []) :
    text.getLast? = some '/' ∧ ∀ other, blockLength (text ++ other) = text.length := by
  obtain ⟨e, rest, rfl⟩ := List.exists_cons_of_ne_nil present
  have positive := blockLength_pos e rest
  fun_induction blockLength text with
  | case1 => exact absurd whole (Nat.ne_of_gt positive)
  | case2 c =>
      simp only [List.cons_append, List.nil_append, blockLength, List.length_cons,
        List.length_nil] at whole
      split at whole <;> omega
  | case3 c d text close =>
      obtain rfl : text = [] := by simpa [blockLength, close] using whole
      exact ⟨by rw [close.2]; rfl, fun other => by simp [blockLength, close]⟩
  | case4 c d text inside ih =>
      have shorter : blockLength (d :: text ++ e :: rest) = (d :: text).length := by
        simpa [blockLength, inside] using whole
      obtain ⟨last, closed⟩ := ih shorter
      refine ⟨by simpa [List.getLast?_cons] using last, fun other => ?_⟩
      simpa [blockLength, inside] using closed other

def closers : List Char := ['\x27', '\x22', '\x60', '/']

theorem LiteralKind.length_closed {kind : LiteralKind} {text rest : Text}
    (opens : opening? (text ++ rest) = some kind) (whole : kind.length (text ++ rest) = text.length)
    (other : kind ≠ lineComment) (present : rest ≠ []) :
    (∃ c ∈ closers, text.getLast? = some c) ∧
      ∀ next : Text, next.head? ≠ some '\x27' → kind.length (text ++ next) = text.length := by
  have enough : kind.opener.length ≤ text.length := whole ▸ kind.opener_length_le_length _
  rw [opening?_eq_some_iff] at opens
  obtain ⟨body, rfl⟩ := List.prefix_of_prefix_length_le opens (List.prefix_append text rest) enough
  have ends {c : Char} (last : body.getLast? = some c) :
      (kind.opener ++ body).getLast? = some c := by
    rw [List.getLast?_append, last, Option.some_or]
  cases kind with
  | string =>
      simp [opener, length] at whole
      obtain ⟨last, closed⟩ := stringLength_closed whole present
      exact ⟨⟨'\x27', by decide, ends last⟩,
        fun next fresh => by simpa [opener, length] using closed next fresh⟩
  | doubleQuoted =>
      simp [opener, length] at whole
      obtain ⟨last, closed⟩ := quotedLength_closed whole present
      exact ⟨⟨'\x22', by decide, ends last⟩,
        fun next _ => by simpa [opener, length] using closed next⟩
  | backQuoted =>
      simp [opener, length] at whole
      obtain ⟨last, closed⟩ := quotedLength_closed whole present
      exact ⟨⟨'\x60', by decide, ends last⟩,
        fun next _ => by simpa [opener, length] using closed next⟩
  | lineComment => exact absurd rfl other
  | blockComment =>
      simp [opener, length] at whole
      obtain ⟨last, closed⟩ := blockLength_closed whole present
      exact ⟨⟨'/', by decide, ends last⟩, fun next _ => by simpa [opener, length] using closed next⟩

/-- Whether a text can stand behind code without joining a sign before it. -/
def StartsNeutral (s : Text) : Prop := s.head?.all ScanState.isNeutral = true

theorem StartsNeutral.head?_ne {s : Text} (neutral : StartsNeutral s) {c : Char}
    (sign : c ∈ ScanState.signs) : s.head? ≠ some c := by
  intro head
  rw [StartsNeutral, head, Option.all_some, ScanState.isNeutral, Bool.not_eq_true',
    List.contains_eq_mem, decide_eq_false_iff_not] at neutral
  exact neutral sign

theorem ne_lineComment {kind : LiteralKind} {text : Text}
    (plain : (Lexeme.literal kind text).isLineComment = false) : kind ≠ .lineComment := by
  rintro rfl
  cases plain

/-- What stands behind a lexeme can be exchanged for neutral text, unless the lexeme is a line
comment. -/
theorem Lexeme.Leads.exchange {l : Lexeme} {rest other : Text} (leads : l.Leads rest)
    (plain : l.isLineComment = false) (present : rest ≠ []) (neutral : StartsNeutral other) :
    l.Leads other := by
  cases l with
  | code c =>
      simp only [Leads, opening?_cons_eq_none] at leads ⊢
      exact ⟨leads.1, fun minus => neutral.head?_ne (by decide) minus.2,
        fun slash => neutral.head?_ne (by decide) slash.2⟩
  | literal kind text =>
      obtain ⟨opens, whole⟩ := leads
      have enough : kind.opener.length ≤ text.length := whole ▸ kind.opener_length_le_length _
      have closed := (LiteralKind.length_closed opens whole (ne_lineComment plain) present).2
      exact ⟨kind.opening?_append_congr text rest other opens enough,
        closed other (neutral.head?_ne (by decide))⟩

/-- Lexemes that end by themselves: they are read the same before any neutral text. -/
structure Sealed (ls : List Lexeme) : Prop where
  plain : ∀ l ∈ ls, l.isLineComment = false
  read : ∀ rest, StartsNeutral rest → lexemes (ls.flatMap Lexeme.text ++ rest) = ls ++ lexemes rest

namespace Sealed

theorem nil : Sealed [] := ⟨by simp, fun _ _ => rfl⟩

variable {ls ms : List Lexeme}

theorem lexemes_text (closed : Sealed ls) : lexemes (ls.flatMap Lexeme.text) = ls := by
  simpa [lexemes_nil] using closed.read [] rfl

theorem of_read {rest : Text} (read : lexemes (ls.flatMap Lexeme.text ++ rest) = ls ++ lexemes rest)
    (present : rest ≠ []) (plain : ∀ l ∈ ls, l.isLineComment = false) : Sealed ls := by
  induction ls with
  | nil => exact nil
  | cons l ls ih =>
      obtain ⟨tail, whole, leads, later⟩ := exists_leads_of_lexemes_eq_cons read
      rw [List.flatMap_cons, List.append_assoc, List.append_cancel_left_eq] at whole
      subst whole
      have behind := ih later fun other member => plain other (List.mem_cons_of_mem l member)
      refine ⟨plain, fun other neutral => ?_⟩
      have next : l.Leads (ls.flatMap Lexeme.text ++ other) := by
        cases text : ls.flatMap Lexeme.text with
        | nil =>
            rw [text] at leads
            exact leads.exchange (plain l List.mem_cons_self) present neutral
        | cons c text' =>
            rw [text] at leads
            exact leads.congr (SameSeam.of_head _ _ (by simp) rfl)
      rw [List.flatMap_cons, List.append_assoc, lexemes_append_of_leads next,
        behind.read other neutral]
      rfl

theorem of_lexemes {s : Text} (read : lexemes s = ls ++ ms) (present : ms ≠ [])
    (plain : ∀ l ∈ ls, l.isLineComment = false) : Sealed ls := by
  obtain ⟨whole, later⟩ := lexemes_of_append read
  have again : lexemes (ls.flatMap Lexeme.text ++ ms.flatMap Lexeme.text) =
      ls ++ lexemes (ms.flatMap Lexeme.text) := by rw [later, ← whole, read]
  refine of_read again (fun none => ?_) plain
  rw [none, lexemes_nil] at later
  exact present later.symm

theorem right (closed : Sealed (ls ++ ms)) : Sealed ms where
  plain l member := closed.plain l (List.mem_append_right ls member)
  read rest neutral := by
    have read := closed.read rest neutral
    rw [List.append_assoc] at read
    obtain ⟨-, later⟩ := lexemes_of_append read
    rwa [List.flatMap_append, flatMap_text_lexemes] at later

theorem left (closed : Sealed (ls ++ ms)) : Sealed ls := by
  have read := closed.read [' '] rfl
  rw [List.append_assoc] at read
  refine of_lexemes read ?_ fun l member => closed.plain l (List.mem_append_left ms member)
  simp [show lexemes [' '] = [.code ' '] by decide]

theorem append {c : Char} (first : Sealed ls) (neutral : ScanState.isNeutral c = true)
    (second : Sealed ms) : Sealed (ls ++ .code c :: ms) where
  plain := by
    simp only [List.forall_mem_append, List.forall_mem_cons]
    exact ⟨first.plain, rfl, second.plain⟩
  read rest fresh := by
    have code : (Lexeme.code c).Leads (ms.flatMap Lexeme.text ++ rest) :=
      Lexeme.leads_code_of_isPlain c (isPlain_of_isNeutral neutral) _
    rw [List.flatMap_append, List.flatMap_cons, List.append_assoc, List.append_assoc,
      first.read _ (by exact neutral), lexemes_append_of_leads code, second.read rest fresh,
      List.append_assoc]
    rfl

theorem code_append {x : Text} (neutral : ∀ c ∈ x, ScanState.isNeutral c = true)
    (closed : Sealed ls) :
    Sealed (x.map .code ++ ls) := by
  induction x with
  | nil => exact closed
  | cons c x ih =>
      exact nil.append (neutral c List.mem_cons_self)
        (ih fun d member => neutral d (List.mem_cons_of_mem c member))

/-- A literal among sealed lexemes is closed, and neither end of it is blank. -/
theorem literal_ends {kind : LiteralKind} {text : Text}
    (closed : Sealed (.literal kind text :: ls)) :
    (∃ c ∈ closers, text.getLast? = some c) ∧ text.head?.any isBlank = false := by
  have read := closed.read [' '] rfl
  obtain ⟨tail, whole, ⟨opens, length⟩, -⟩ := exists_leads_of_lexemes_eq_cons read
  rw [List.flatMap_cons, List.append_assoc, Lexeme.text, List.append_cancel_left_eq] at whole
  subst whole
  have other := ne_lineComment (closed.plain _ List.mem_cons_self)
  refine ⟨(LiteralKind.length_closed opens length other (by simp)).1, ?_⟩
  have enough : kind.opener.length ≤ text.length := length ▸ kind.opener_length_le_length _
  obtain ⟨body, rfl⟩ := List.prefix_of_prefix_length_le
    ((LiteralKind.opening?_eq_some_iff _ _).mp opens)
    (List.prefix_append text _) enough
  cases kind <;> rfl

/-! ### Trimming sealed lexemes -/

theorem exists_dropWhile (closed : Sealed ls) : ∃ (blanks : Text) (rest : List Lexeme),
    ls = blanks.map .code ++ rest ∧
    (∀ c ∈ blanks, isBlank c = true) ∧
      (ls.flatMap Lexeme.text).dropWhile isBlank = rest.flatMap Lexeme.text := by
  induction ls with
  | nil => exact ⟨[], [], rfl, by simp, rfl⟩
  | cons l ls ih =>
      cases l with
      | code c =>
          cases blank : isBlank c with
          | true =>
              have later : Sealed ls := (show Sealed ([.code c] ++ ls) from closed).right
              obtain ⟨blanks, rest, rfl, members, dropped⟩ := ih later
              refine ⟨c :: blanks, rest, rfl, by simpa [blank] using members, ?_⟩
              rw [← dropped, List.flatMap_cons, Lexeme.text, List.singleton_append,
                List.dropWhile_cons_of_pos blank]
          | false =>
              refine ⟨[], .code c :: ls, rfl, by simp, ?_⟩
              rw [List.flatMap_cons, Lexeme.text, List.singleton_append,
                List.dropWhile_cons_of_neg (by simp [blank])]
      | literal kind text =>
          refine ⟨[], .literal kind text :: ls, rfl, by simp, ?_⟩
          obtain ⟨⟨c, -, last⟩, filled⟩ := closed.literal_ends
          cases text with
          | nil => cases last
          | cons d text =>
              have first : isBlank d = false := filled
              rw [List.flatMap_cons, Lexeme.text, List.cons_append,
                List.dropWhile_cons_of_neg (by simp [first])]

end Sealed

theorem trimEnd_append_filled (s : Text) {c : Char} (filled : isBlank c = false) :
    trimEnd (s ++ [c]) = s ++ [c] := by
  induction s with
  | nil => simp [trimEnd, dropEndWhile, filled]
  | cons d s ih =>
      simp only [trimEnd] at ih ⊢
      rw [List.cons_append, dropEndWhile, ih]
      simp

theorem trimEnd_eq_self {s : Text} (last : s.getLast?.any isBlank = false) : trimEnd s = s := by
  rcases List.eq_nil_or_concat s with rfl | ⟨front, c, rfl⟩
  · rfl
  · rw [List.concat_eq_append, List.getLast?_concat, Option.any_some] at last
    rw [List.concat_eq_append, trimEnd_append_filled front last]

namespace Sealed

variable {ls : List Lexeme}

theorem exists_trimEnd (closed : Sealed ls) : ∃ (rest : List Lexeme) (blanks : Text),
    ls = rest ++ blanks.map .code ∧
    (∀ c ∈ blanks, isBlank c = true) ∧ trimEnd (ls.flatMap Lexeme.text) =
      rest.flatMap Lexeme.text := by
  induction ls using List.reverseRecOn with
  | nil => exact ⟨[], [], rfl, by simp, rfl⟩
  | append_singleton ls l ih =>
      cases l with
      | code c =>
          cases blank : isBlank c with
          | true =>
              obtain ⟨rest, blanks, rfl, members, trimmed⟩ := ih closed.left
              refine ⟨rest, blanks ++ [c], by simp, ?_, ?_⟩
              · intro d member
                rcases List.mem_append.mp member with early | late
                · exact members d early
                · rwa [List.mem_singleton.mp late]
              · rw [← trimmed, List.flatMap_append, List.flatMap_singleton, Lexeme.text]
                exact dropEndWhile_append isBlank _ (by simpa using blank)
          | false =>
              refine ⟨ls ++ [.code c], [], by simp, by simp, ?_⟩
              rw [List.flatMap_append, List.flatMap_singleton, Lexeme.text,
                trimEnd_append_filled _ blank]
      | literal kind text =>
          refine ⟨ls ++ [.literal kind text], [], by simp, by simp, ?_⟩
          obtain ⟨⟨c, close, last⟩, -⟩ := closed.right.literal_ends
          obtain ⟨front, rfl⟩ := List.getLast?_eq_some_iff.mp last
          have filled : ∀ c ∈ closers, isBlank c = false := by decide
          rw [List.flatMap_append, List.flatMap_singleton, Lexeme.text, ← List.append_assoc,
            trimEnd_append_filled _ (filled c close)]

theorem exists_trim (closed : Sealed ls) : ∃ (before : Text) (rest : List Lexeme) (after : Text),
    ls = before.map .code ++ (rest ++ after.map .code) ∧ (∀ c ∈ before, isBlank c = true) ∧
      (∀ c ∈ after, isBlank c = true) ∧ trim (ls.flatMap Lexeme.text) =
        rest.flatMap Lexeme.text := by
  obtain ⟨before, front, rfl, leading, dropped⟩ := closed.exists_dropWhile
  obtain ⟨rest, after, rfl, trailing, trimmed⟩ := closed.right.exists_trimEnd
  exact ⟨before, rest, after, rfl, leading, trailing, by rw [trim, dropped, trimmed]⟩

end Sealed

end LiteSql
