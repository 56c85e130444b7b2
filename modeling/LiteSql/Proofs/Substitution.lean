import LiteSql.Proofs.CallPosition
import LiteSql.Proofs.PatternSpan
import LiteSql.Proofs.Scan
import LiteSql.Rule.Table

/-! Exchanging pieces of code. A piece of code can take the place of another as long as nothing in
it opens or closes a literal and the line feeds that end comments stay; the literals of the text are
then the same as before. -/

namespace LiteSql

def literalTexts (ls : List Lexeme) : List Text := ls.filterMap Lexeme.literalText?

theorem literalTexts_append_code (x : Text) (ls : List Lexeme) :
    literalTexts (x.map .code ++ ls) = literalTexts ls := by
  induction x with
  | nil => rfl
  | cons c x ih => exact ih

theorem flatMap_text_map_code (x : Text) : (x.map Lexeme.code).flatMap Lexeme.text = x := by
  induction x with
  | nil => rfl
  | cons c x ih => exact congrArg (c :: ·) ih

theorem map_slice_spansFrom (front : Text) (ls : List Lexeme) :
    (spansFrom front.length ls).map (fun span => slice (front ++ ls.flatMap Lexeme.text) span.start
      span.stop) =
      literalTexts ls := by
  induction ls generalizing front with
  | nil => rfl
  | cons l ls ih =>
      have later := ih (front ++ l.text)
      rw [List.append_assoc, ← List.flatMap_cons, List.length_append] at later
      cases l with
      | code c => exact later
      | literal kind text =>
          have first : slice (front ++ (Lexeme.literal kind text :: ls).flatMap Lexeme.text)
              front.length (front.length + text.length) = text := by
            rw [slice, List.drop_left, Nat.add_sub_cancel_left]
            exact List.take_left
          rw [spansFrom, List.map_cons, first]
          exact congrArg (text :: ·) later

theorem map_slice_literalSpans (s : Text) :
    (literalSpans s).map (fun span => slice s span.start span.stop) = literals s := by
  have cut := map_slice_spansFrom [] (lexemes s)
  rwa [List.nil_append, flatMap_text_lexemes] at cut

/-- Whether `y` can take the place of the code `x` before `rest`. -/
structure Swap (x y rest : Text) : Prop where
  filled : x ≠ []
  neutral : ∀ c ∈ y, ScanState.isNeutral c = true
  newline : x.head? = some '\n' → y.head? = some '\n'
  gone : y = [] → rest.head? = some '\n'

theorem isPlain_of_isNeutral {c : Char} (neutral : ScanState.isNeutral c = true) :
    isPlain c = true := by
  simp only [ScanState.isNeutral, ScanState.signs, isPlain, Bool.not_eq_true', List.contains_eq_mem,
    decide_eq_false_iff_not, List.mem_cons, not_or] at neutral ⊢
  simp [neutral]

namespace Swap

theorem append {x y rest : Text} (swap : Swap x y rest) (more : Text) :
    Swap x y (rest ++ more) where
  filled := swap.filled
  neutral := swap.neutral
  newline := swap.newline
  gone none := by
    obtain ⟨tail, rfl⟩ := List.head?_eq_some_iff.mp (swap.gone none)
    rfl

theorem sameSeam {x y rest other : Text} (swap : Swap x y rest) (seam : SameSeam rest other) :
    SameSeam (x ++ rest) (y ++ other) where
  ended empty := absurd (List.append_eq_nil_iff.mp empty).1 swap.filled
  newline feed := by
    obtain ⟨c, x, rfl⟩ := List.exists_cons_of_ne_nil swap.filled
    obtain ⟨tail, rfl⟩ := List.head?_eq_some_iff.mp (swap.newline feed)
    exact .inr rfl
  special c sign here := by
    cases y with
    | nil =>
        have before := seam.special c sign here
        rw [swap.gone rfl] at before
        cases before
        exact absurd sign (by decide)
    | cons d y =>
        cases here
        have neutral := swap.neutral c List.mem_cons_self
        have refused : ∀ sign ∈ ['\x27', '-', '*'], ScanState.isNeutral sign = false := by decide
        rw [refused c sign] at neutral
        cases neutral

end Swap

/-- Whether lexemes become others by exchanging pieces of code. -/
inductive Exchanged (allowed : Text → Text → Prop) : List Lexeme → List Lexeme → Prop
  | nil : Exchanged allowed [] []
  | keep (l : Lexeme) {ls ms : List Lexeme} :
    Exchanged allowed ls ms → Exchanged allowed (l :: ls) (l :: ms)
  | swap {x y : Text} {ls ms : List Lexeme} :
    Swap x y (ls.flatMap Lexeme.text) → allowed x y → Exchanged allowed ls ms →
      Exchanged allowed (x.map .code ++ ls) (y.map .code ++ ms)

namespace Exchanged

variable {allowed : Text → Text → Prop} {ls ms : List Lexeme}

theorem append_code (x : Text) (exchanged : Exchanged allowed ls ms) :
    Exchanged allowed (x.map .code ++ ls) (x.map .code ++ ms) := by
  induction x with
  | nil => exact exchanged
  | cons c x ih => exact keep (.code c) ih

theorem lexemes_flatMap_text (exchanged : Exchanged allowed ls ms)
    (read : lexemes (ls.flatMap Lexeme.text) = ls) :
    lexemes (ms.flatMap Lexeme.text) = ms ∧
      SameSeam (ls.flatMap Lexeme.text) (ms.flatMap Lexeme.text) := by
  induction exchanged with
  | nil => exact ⟨rfl, SameSeam.nil _⟩
  | @keep l ls ms _ ih =>
      obtain ⟨rest, cut, leads, later⟩ := exists_leads_of_lexemes_eq_cons read
      rw [List.flatMap_cons, List.append_cancel_left_eq] at cut
      subst cut
      obtain ⟨same, seam⟩ := ih later
      rw [List.flatMap_cons, List.flatMap_cons, lexemes_append_of_leads (leads.congr seam), same]
      exact ⟨rfl, seam.append l.text⟩
  | @swap x y ls ms swap _ _ ih =>
      obtain ⟨same, seam⟩ := ih (lexemes_of_append read).2
      rw [List.flatMap_append, List.flatMap_append, flatMap_text_map_code, flatMap_text_map_code,
        lexemes_append_of_isPlain y _ fun c member =>
          isPlain_of_isNeutral (swap.neutral c member), same]
      exact ⟨rfl, swap.sameSeam seam⟩

theorem literalTexts_eq (exchanged : Exchanged allowed ls ms) :
    literalTexts ms = literalTexts ls := by
  induction exchanged with
  | nil => rfl
  | keep l _ ih =>
      cases l with
      | code c => exact ih
      | literal kind text => exact congrArg (text :: ·) ih
  | swap _ _ _ ih => rw [literalTexts_append_code, literalTexts_append_code, ih]

end Exchanged

namespace Segment

theorem foldr_cons_code (x y : Text) (rest : List Segment) :
    (x.map Lexeme.code).foldr cons (.code y :: rest) = .code (x ++ y) :: rest := by
  induction x with
  | nil => rfl
  | cons c x ih =>
      rw [List.map_cons, List.foldr_cons, ih]
      rfl

theorem foldr_cons_apart {x : Text} (present : x ≠ []) {segs : List Segment}
    (apart : ∀ y rest, segs ≠ .code y :: rest) :
    (x.map Lexeme.code).foldr cons segs = .code x :: segs := by
  obtain ⟨front, c, rfl⟩ := List.eq_nil_or_concat x |>.resolve_left present
  have last : cons (.code c) segs = .code [c] :: segs := by
    match segs with
    | [] => rfl
    | .literal text :: rest => rfl
    | .code y :: rest => exact absurd rfl (apart y rest)
  rw [List.concat_eq_append, List.map_append, List.foldr_append, List.map_singleton,
    List.foldr_cons, List.foldr_nil, last, foldr_cons_code]

end Segment

/-- The lexemes that segments stand for. No two code segments stand side by side. -/
inductive Segment.Spell : List Segment → List Lexeme → Prop
  | nil : Spell [] []
  | literal (kind : LiteralKind) (text : Text) {segs : List Segment} {ls : List Lexeme} :
    Spell segs ls → Spell (.literal text :: segs) (.literal kind text :: ls)
  | code (x : Text) {segs : List Segment} {ls : List Lexeme} :
    (∀ y rest, segs ≠ .code y :: rest) → Spell segs ls →
      Spell (.code x :: segs) (x.map .code ++ ls)

theorem Segment.Spell.cons (l : Lexeme) {segs : List Segment} {ls : List Lexeme}
    (spell : Spell segs ls) : Spell (Segment.cons l segs) (l :: ls) := by
  cases l with
  | literal kind text => exact .literal kind text spell
  | code c =>
      cases spell with
      | nil => exact .code [c] nofun .nil
      | literal kind text later => exact .code [c] nofun (.literal kind text later)
      | code x apart later => exact .code (c :: x) apart later

theorem spell_segments (s : Text) : Segment.Spell (segments s) (lexemes s) := by
  rw [segments]
  induction lexemes s with
  | nil => exact .nil
  | cons l ls ih => exact ih.cons l

theorem exists_exchanged_mapCode {allowed : Text → Text → Prop} {change : Text → Text}
    (step : ∀ x ls ms, Exchanged allowed ls ms →
      Exchanged allowed (x.map .code ++ ls) ((change x).map .code ++ ms))
    {segs : List Segment} {ls : List Lexeme} (spell : Segment.Spell segs ls) :
    ∃ ms, Exchanged allowed ls ms ∧ ms.flatMap Lexeme.text =
      segs.flatMap (Segment.mapCode change) := by
  induction spell with
  | nil => exact ⟨[], .nil, rfl⟩
  | @literal kind text segs ls _ ih =>
      obtain ⟨ms, exchanged, text'⟩ := ih
      exact ⟨.literal kind text :: ms, exchanged.keep _, congrArg (text ++ ·) text'⟩
  | @code x segs ls _ _ ih =>
      obtain ⟨ms, exchanged, text⟩ := ih
      refine ⟨(change x).map .code ++ ms, step x ls ms exchanged, ?_⟩
      rw [List.flatMap_append, flatMap_text_map_code, text]
      rfl

def Pattern.Mild (allowed : Text → Text → Prop) (p : Pattern) (replacement : Match → Text) : Prop :=
  ∀ {before m after caps}, m.text ≠ [] → p.Takes before m after caps →
    replacement m = m.text ∨ Swap m.text (replacement m) after ∧ allowed m.text (replacement m)

namespace Pattern.Mild

variable {allowed : Text → Text → Prop} {p : Pattern} {replacement : Match → Text}

theorem exchanged_replace (mild : p.Mild allowed replacement) (x : Text) {ls ms : List Lexeme}
    (later : Exchanged allowed ls ms) :
    Exchanged allowed (x.map .code ++ ls) ((p.replace replacement x).map .code ++ ms) := by
  obtain ⟨rest, all⟩ : ∃ rest, rest = p.pieces x := ⟨_, rfl⟩
  have inside : rest <:+ p.pieces x := all ▸ List.suffix_rfl
  have whole : rest.flatMap Piece.text = x := by rw [all, flatMap_text_pieces]
  rw [replace, ← all, ← whole]
  clear all whole
  -- the pieces are exchanged one by one, from the last to the first
  induction rest with
  | nil => exact later
  | cons piece rest ih =>
      have next := ih (List.IsSuffix.trans (List.suffix_cons piece rest) inside)
      obtain ⟨first, cut⟩ := inside
      rw [List.flatMap_cons, List.flatMap_cons, List.map_append, List.map_append, List.append_assoc,
        List.append_assoc]
      cases piece with
      | plain c => exact next.append_code [c]
      | hit m =>
          obtain ⟨filled, -, caps, taken⟩ := takes_of_piecesAfter cut.symm
          rcases mild filled taken with same | ⟨swap, permitted⟩
          · simp only [Piece.text, same]
            exact next.append_code m.text
          · refine .swap ?_ permitted next
            rw [List.flatMap_append, flatMap_text_map_code]
            exact swap.append _

theorem exchanged_replaceCode (mild : p.Mild allowed replacement) (s : Text) :
    Exchanged allowed (lexemes s) (lexemes (p.replaceCode replacement s)) := by
  obtain ⟨ms, exchanged, text⟩ :=
    exists_exchanged_mapCode (fun x _ _ => mild.exchanged_replace x) (spell_segments s)
  have read : lexemes ((lexemes s).flatMap Lexeme.text) = lexemes s := by rw [flatMap_text_lexemes]
  obtain ⟨same, -⟩ := exchanged.lexemes_flatMap_text read
  rwa [replaceCode, mapCode, ← text, same]

end Pattern.Mild

theorem Pattern.mild_of_neutral {p : Pattern} {replacement : Match → Text}
    (refused : p.refuses '\n' = true)
    (written : ∀ {before m after caps}, p.Takes before m after caps →
      replacement m = m.text ∨ Neutral (replacement m)) :
    p.Mild (fun _ _ => True) replacement := by
  intro before m after caps filled taken
  refine (written taken).imp_right fun neutral => ⟨⟨filled, neutral.2, ?_, ?_⟩, trivial⟩
  · intro feed
    exact absurd feed (head?_ne_of_spans refused taken.spans)
  · intro none
    exact absurd none neutral.1

theorem ColumnType.convertBinary_eq (m : Match) :
    convertBinary m = m.text ∨ Neutral (convertBinary m) := by
  rw [convertBinary]
  split
  · exact .inl rfl
  · exact .inr (by decide)

open Pattern in
theorem Join.captured?_join {before : Option Char} {m : Match} {after : Text} {caps : List Capture}
    (taken : join.Takes before m after caps) :
    m.captured? "word" = none ∨ ∃ name blanks, m.captured? "word" = some name ∧
      m.captured? "gap" = some blanks ∧ (name ≠ [] ∧ ∀ c ∈ name, isWordChar c = true) ∧
      (blanks ≠ [] ∧ ∀ c ∈ blanks, isBlank c = true) := by
  obtain ⟨spans, captures⟩ := taken
  obtain ⟨front, back, early, _, text, rfl, named, behind⟩ := spans
  obtain ⟨_, _, _, _, -, rfl, ⟨-, rfl, -⟩, _, _, _, _, -, rfl, joined, -, rfl, -⟩ := behind
  obtain ⟨-, rfl⟩ := (spans_keyword_iff _ _ _ _ _ _).mp joined
  rcases named with named | ⟨-, rfl⟩
  · obtain ⟨_, _, _, _, rfl, rfl, ⟨rfl, rfl, -⟩, name, blanks, _, _, rfl, rfl, ⟨_, rfl, word⟩, _,
        rfl, gap⟩ := named
    obtain ⟨letters, rfl⟩ := (spans_someOf_iff _ _ _ _ _ _).mp word
    obtain ⟨spaces, rfl⟩ := (spans_someOf_iff _ _ _ _ _ _).mp gap
    refine .inr ⟨name, blanks, ?_, ?_, letters, spaces⟩
    · simp [Match.captured?, captures, text, List.lookup_cons]
    · simp [Match.captured?, captures, text]
  · exact .inl (by simp [Match.captured?, captures])

theorem Join.convert_eq {before : Option Char} {m : Match} {after : Text} {caps : List Capture}
    (taken : join.Takes before m after caps) : convert m = m.text ∨ Neutral (convert m) := by
  have inner : Neutral "INNER JOIN" := by decide
  rw [convert]
  rcases captured?_join taken with none | ⟨name, blanks, word, gap, named, spaced⟩
  · rw [none]
    exact .inr inner
  · rw [word, gap]
    dsimp only
    split
    · exact .inr inner
    · split
      · exact .inl rfl
      · exact .inr (((neutral_of_isWordChar named.1 named.2).append
          (neutral_of_isBlank spaced.1 spaced.2)).append inner)

namespace Rule

/-- A rule that only exchanges code, if it replaces the matches of a pattern. -/
def Exchanging (rule : Rule) : Prop :=
  rule.function? = none → ∀ s, ∃ t, rule.apply s = .ok t ∧
    Exchanged (fun _ _ => True) (lexemes s) (lexemes t)

theorem exchanging_pattern {name : Text} {wanted : Pattern} {replacement : Match → Text}
    (mild : wanted.Mild (fun _ _ => True) replacement) :
    (pattern name wanted replacement).Exchanging := by
  intro _ s
  exact ⟨_, rfl, mild.exchanged_replaceCode s⟩

theorem exchanging_constant {name : Text} {wanted : Pattern} {replacement : Text}
    (refused : wanted.refuses '\n' = true) (neutral : Neutral replacement) :
    (constant name wanted replacement).Exchanging :=
  exchanging_pattern (Pattern.mild_of_neutral refused fun _ => .inr neutral)

theorem exchanging_call {rule : Rule} (named : rule.function?.isSome = true) : rule.Exchanging := by
  intro unnamed
  rw [unnamed] at named
  cases named

theorem exchanging_typeRules : ∀ rule ∈ typeRules, rule.Exchanging := by
  simp only [typeRules, List.forall_mem_cons]
  refine ⟨?_, ?_, ?_, ?_, ?_, ?_, ?_, nofun⟩
  · exact exchanging_constant (by decide) (by decide)
  · exact exchanging_constant (by decide) (by decide)
  · exact exchanging_constant (by decide) (by decide)
  · exact exchanging_call rfl
  · exact exchanging_constant (by decide) (by decide)
  · exact exchanging_constant (by decide) (by decide)
  · exact exchanging_pattern (Pattern.mild_of_neutral (by decide) fun _ =>
      ColumnType.convertBinary_eq _)

theorem exchanging_joinRules : ∀ rule ∈ joinRules, rule.Exchanging := by
  simp only [joinRules, List.forall_mem_cons]
  refine ⟨?_, ?_, nofun⟩
  · exact exchanging_constant (by decide) (by decide)
  · exact exchanging_pattern (Pattern.mild_of_neutral (by decide) Join.convert_eq)

theorem exchanging_keyRules : ∀ rule ∈ keyRules, rule.Exchanging := by
  have neutral : Neutral AutoIncrement.keyAttribute := by decide
  simp only [keyRules, List.forall_mem_cons]
  refine ⟨?_, ?_, ?_, nofun⟩
  · exact exchanging_constant (by decide) neutral
  · exact exchanging_constant (by decide) neutral
  · exact exchanging_constant (by decide) neutral

theorem exchanging_table : ∀ rule ∈ table, rule.Exchanging := by
  have calls : ∀ rule ∈ stringRules ++ dateRules ++ numericRules ++ conditionalRules,
      rule.function?.isSome = true := by decide
  simp only [table, List.forall_mem_append]
  refine ⟨⟨⟨?_, exchanging_typeRules⟩, exchanging_joinRules⟩, exchanging_keyRules⟩
  simp only [← List.forall_mem_append]
  exact fun rule member => exchanging_call (calls rule member)

/-- A rule for the matches of a pattern leaves the texts of all literals as they are. -/
theorem map_slice_literalSpans_apply (rule : Rule) (member : rule ∈ table)
    (unnamed : rule.function? = none) (s : Text) :
    ∃ t, rule.apply s = .ok t ∧
      (literalSpans t).map (fun span => slice t span.start span.stop) =
        (literalSpans s).map (fun span => slice s span.start span.stop) := by
  obtain ⟨t, applied, exchanged⟩ := exchanging_table rule member unnamed s
  refine ⟨t, applied, ?_⟩
  rw [map_slice_literalSpans, map_slice_literalSpans]
  exact exchanged.literalTexts_eq

theorem map_slice_literalSpans_apply_join :
    pattern "inner join" Join.join Join.convert ∈ table ∧
      (pattern "inner join" Join.join Join.convert).function? = none ∧
      Join.join.replaceCode Join.convert "SELECT `a JOIN b` FROM t -- a JOIN\nJOIN u" =
        "SELECT `a JOIN b` FROM t -- a JOIN\nINNER JOIN u".toList ∧
      ∃ t, (pattern "inner join" Join.join Join.convert).apply
          "SELECT `a JOIN b` FROM t -- a JOIN\nJOIN u" = .ok t ∧
        (literalSpans t).map (fun span => slice t span.start span.stop) =
          (literalSpans "SELECT `a JOIN b` FROM t -- a JOIN\nJOIN u").map fun span =>
            slice "SELECT `a JOIN b` FROM t -- a JOIN\nJOIN u" span.start span.stop := by
  have member : pattern "inner join" Join.join Join.convert ∈ table :=
    List.mem_of_getElem? (i := 40) rfl
  exact ⟨member, rfl, by decide +kernel, map_slice_literalSpans_apply _ member rfl _⟩

end Rule

end LiteSql
