import LiteSql.Lexeme.Depth
import LiteSql.Lexeme.Span

/-! Scanning is local. A text cut between two of its lexemes falls into two texts whose lexemes are
those of the whole, and what follows the cut can be exchanged as long as nothing new forms at the
seam. -/

namespace LiteSql

/-- Whether `other` can stand where `rest` stood without changing how the text before it is read:
it brings no new quote, minus or asterisk to the seam, and a line comment still ends there. -/
structure SameSeam (rest other : Text) : Prop where
  ended : rest = [] → other = []
  newline : rest.head? = some '\n' → other = [] ∨ other.head? = some '\n'
  special : ∀ c ∈ ['\x27', '-', '*'], other.head? = some c → rest.head? = some c

namespace SameSeam

theorem nil (rest : Text) : SameSeam rest [] where
  ended _ := rfl
  newline _ := .inl rfl
  special := by simp

theorem refl (rest : Text) : SameSeam rest rest where
  ended := id
  newline := .inr
  special _ _ := id

theorem of_head (rest other : Text) (present : rest ≠ []) (same : other.head? = rest.head?) :
    SameSeam rest other where
  ended empty := absurd empty present
  newline feed := .inr (same.trans feed)
  special _ _ here := same.symm.trans here

theorem append (front : Text) {rest other : Text} (seam : SameSeam rest other) :
    SameSeam (front ++ rest) (front ++ other) := by
  cases front with
  | nil => exact seam
  | cons c front => exact of_head _ _ (by simp) (by simp)

end SameSeam

theorem stringLength_le (s : Text) : stringLength s ≤ s.length := by
  fun_induction stringLength s <;> simp only [List.length_cons, List.length_nil] at * <;> omega

theorem stringLength_pos (c : Char) (s : Text) : 0 < stringLength (c :: s) := by
  cases s with
  | nil => simp [stringLength]
  | cons d s =>
      rw [stringLength]
      split
      · omega
      · split
        · split <;> omega
        · omega

theorem quotedLength_le (mark : Char) (s : Text) : quotedLength mark s ≤ s.length := by
  fun_induction quotedLength mark s <;> simp only [List.length_cons, List.length_nil] at * <;> omega

theorem lineLength_le (s : Text) : lineLength s ≤ s.length := by
  fun_induction lineLength s <;> simp only [List.length_cons, List.length_nil] at * <;> omega

theorem blockLength_le (s : Text) : blockLength s ≤ s.length := by
  fun_induction blockLength s <;> simp only [List.length_cons, List.length_nil] at * <;> omega

theorem blockLength_pos (c : Char) (s : Text) : 0 < blockLength (c :: s) := by
  cases s with
  | nil => simp [blockLength]
  | cons d s =>
      rw [blockLength]
      split <;> omega

theorem stringLength_append_congr (text rest other : Text)
    (whole : stringLength (text ++ rest) = text.length) (seam : SameSeam rest other) :
    stringLength (text ++ other) = text.length := by
  fun_induction stringLength text with
  | case1 =>
      cases rest with
      | nil => simp [seam.ended rfl, stringLength]
      | cons d rest => exact absurd whole (Nat.ne_of_gt (stringLength_pos d rest))
  | case2 c =>
      cases rest with
      | nil => simp [seam.ended rfl, stringLength]
      | cons d rest =>
          have positive := stringLength_pos d rest
          simp only [List.cons_append, List.nil_append, stringLength, List.length_cons,
            List.length_nil] at whole
          split at whole
          · omega
          · next plain =>
              split at whole
              · next close =>
                  split at whole
                  · omega
                  · next single =>
                      cases other with
                      | nil => rfl
                      | cons e other =>
                          have fresh : e ≠ '\x27' := by
                            rintro rfl
                            have same := seam.special '\x27' (by simp) rfl
                            exact single (by simpa using same)
                          simp [stringLength, close, fresh]
              · omega
  | case3 d text ih => simpa [stringLength] using ih (by simpa [stringLength] using whole)
  | case4 text _ ih => simpa [stringLength] using ih (by simpa [stringLength] using whole)
  | case5 d text single plain => simp [stringLength, single] at whole
  | case6 c d text plain inside ih =>
      have shorter : stringLength (d :: text ++ rest) = (d :: text).length := by
        simpa [stringLength, plain, inside] using whole
      simpa [stringLength, plain, inside] using ih shorter

theorem quotedLength_append_congr (mark : Char) (text rest other : Text)
    (whole : quotedLength mark (text ++ rest) = text.length) (seam : SameSeam rest other) :
    quotedLength mark (text ++ other) = text.length := by
  fun_induction quotedLength mark text with
  | case1 =>
      cases rest with
      | nil => simp [seam.ended rfl, quotedLength]
      | cons d rest =>
          simp only [List.nil_append, quotedLength, List.length_nil] at whole
          split at whole <;> omega
  | case2 text =>
      have empty : text = [] := by simpa [quotedLength] using whole
      simp [empty, quotedLength]
  | case3 c text inside ih =>
      simpa [quotedLength, inside] using ih (by simpa [quotedLength, inside] using whole)

theorem lineLength_append_congr (text rest other : Text)
    (whole : lineLength (text ++ rest) = text.length) (seam : SameSeam rest other) :
    lineLength (text ++ other) = text.length := by
  fun_induction lineLength text with
  | case1 =>
      cases rest with
      | nil => simp [seam.ended rfl, lineLength]
      | cons d rest =>
          simp only [List.nil_append, lineLength, List.length_nil] at whole
          split at whole
          · next feed =>
              rcases seam.newline (by simp [feed]) with empty | feed
              · simp [empty, lineLength]
              · obtain ⟨other, rfl⟩ : ∃ tail, other = '\n' :: tail := List.head?_eq_some_iff.mp feed
                rfl
          · omega
  | case2 text => simp [lineLength] at whole
  | case3 c text inside ih =>
      simpa [lineLength, inside] using ih (by simpa [lineLength, inside] using whole)

theorem blockLength_append_congr (text rest other : Text)
    (whole : blockLength (text ++ rest) = text.length) (seam : SameSeam rest other) :
    blockLength (text ++ other) = text.length := by
  fun_induction blockLength text with
  | case1 =>
      cases rest with
      | nil => simp [seam.ended rfl, blockLength]
      | cons d rest => exact absurd whole (Nat.ne_of_gt (blockLength_pos d rest))
  | case2 c =>
      cases rest with
      | nil => simp [seam.ended rfl, blockLength]
      | cons d rest =>
          have positive := blockLength_pos d rest
          simp only [List.cons_append, List.nil_append, blockLength, List.length_cons,
            List.length_nil] at whole
          split at whole <;> omega
  | case3 c d text close =>
      have empty : text = [] := by simpa [blockLength, close] using whole
      simp [empty, blockLength, close]
  | case4 c d text inside ih =>
      have shorter : blockLength (d :: text ++ rest) = (d :: text).length := by
        simpa [blockLength, inside] using whole
      simpa [blockLength, inside] using ih shorter

namespace LiteralKind

def opener : LiteralKind → Text
  | string => ['\x27']
  | doubleQuoted => ['\x22']
  | backQuoted => ['\x60']
  | lineComment => ['-', '-']
  | blockComment => ['/', '*']

theorem opening?_eq_some_iff (s : Text) (kind : LiteralKind) :
    opening? s = some kind ↔ kind.opener <+: s := by
  match s with
  | [] => cases kind <;> simp [opening?, opener]
  | [c] => cases kind <;> simp [opening?, opener] <;> grind
  | c :: d :: s => cases kind <;> simp [opening?, opener] <;> grind

theorem opener_length_le_length (kind : LiteralKind) (s : Text) :
    kind.opener.length ≤ kind.length s := by
  cases kind <;> simp [opener, length]

theorem length_le (kind : LiteralKind) (s : Text) (opens : opening? s = some kind) :
    kind.length s ≤ s.length := by
  obtain ⟨body, rfl⟩ := (opening?_eq_some_iff s kind).mp opens
  cases kind with
  | string => simpa [opener, length] using stringLength_le body
  | doubleQuoted => simpa [opener, length] using quotedLength_le '\x22' body
  | backQuoted => simpa [opener, length] using quotedLength_le '\x60' body
  | lineComment => simpa [opener, length] using lineLength_le body
  | blockComment => simpa [opener, length] using blockLength_le body

/-- A text that holds a literal's opening characters opens it whatever follows. -/
theorem opening?_append_congr (kind : LiteralKind) (text rest other : Text)
    (opens : opening? (text ++ rest) = some kind) (enough : kind.opener.length ≤ text.length) :
    opening? (text ++ other) = some kind := by
  rw [opening?_eq_some_iff] at opens ⊢
  exact (List.prefix_of_prefix_length_le opens (List.prefix_append text rest) enough).trans
    (List.prefix_append text other)

theorem length_append_congr (kind : LiteralKind) (text rest other : Text)
    (opens : opening? (text ++ rest) = some kind)
    (whole : kind.length (text ++ rest) = text.length) (seam : SameSeam rest other) :
    kind.length (text ++ other) = text.length := by
  have enough : kind.opener.length ≤ text.length := whole ▸ kind.opener_length_le_length _
  rw [opening?_eq_some_iff] at opens
  obtain ⟨body, rfl⟩ :=
    List.prefix_of_prefix_length_le opens (List.prefix_append text rest) enough
  cases kind with
  | string =>
      simp [opener, length] at whole ⊢
      exact stringLength_append_congr body rest other whole seam
  | doubleQuoted =>
      simp [opener, length] at whole ⊢
      exact quotedLength_append_congr '\x22' body rest other whole seam
  | backQuoted =>
      simp [opener, length] at whole ⊢
      exact quotedLength_append_congr '\x60' body rest other whole seam
  | lineComment =>
      simp [opener, length] at whole ⊢
      exact lineLength_append_congr body rest other whole seam
  | blockComment =>
      simp [opener, length] at whole ⊢
      exact blockLength_append_congr body rest other whole seam

end LiteralKind

/-- Whether a lexeme is the first one of its text followed by `rest`. -/
def Lexeme.Leads : Lexeme → Text → Prop
  | .code c, rest => LiteralKind.opening? (c :: rest) = none
  | .literal kind text, rest =>
    LiteralKind.opening? (text ++ rest) = some kind ∧ kind.length (text ++ rest) = text.length

theorem opening?_cons_eq_none (c : Char) (rest : Text) :
    LiteralKind.opening? (c :: rest) = none ↔
      c ∉ ['\x27', '\x22', '\x60'] ∧ ¬ (c = '-' ∧ rest.head? = some '-') ∧
        ¬ (c = '/' ∧ rest.head? = some '*') := by
  simp only [LiteralKind.opening?, List.mem_cons, List.not_mem_nil, or_false, not_or]
  grind

theorem Lexeme.Leads.congr {l : Lexeme} {rest other : Text} (leads : l.Leads rest)
    (seam : SameSeam rest other) : l.Leads other := by
  cases l with
  | code c =>
      simp only [Leads, opening?_cons_eq_none] at leads ⊢
      refine ⟨leads.1, ?_, ?_⟩
      · rintro ⟨minus, next⟩
        exact leads.2.1 ⟨minus, seam.special '-' (by simp) next⟩
      · rintro ⟨slash, next⟩
        exact leads.2.2 ⟨slash, seam.special '*' (by simp) next⟩
  | literal kind text =>
      obtain ⟨opens, whole⟩ := leads
      have enough : kind.opener.length ≤ text.length := whole ▸ kind.opener_length_le_length _
      exact ⟨kind.opening?_append_congr text rest other opens enough,
        kind.length_append_congr text rest other opens whole seam⟩

theorem Lexeme.text_ne_nil_of_leads {l : Lexeme} {rest : Text} (leads : l.Leads rest) :
    l.text ≠ [] := by
  cases l with
  | code c => simp [Lexeme.text]
  | literal kind text =>
      rintro (rfl : text = [])
      exact absurd leads.2 (Nat.ne_of_gt (kind.length_pos _))

theorem lexemes_append_of_leads {l : Lexeme} {rest : Text} (leads : l.Leads rest) :
    lexemes (l.text ++ rest) = l :: lexemes rest := by
  cases l with
  | code c => exact lexemes_code c rest leads
  | literal kind text =>
      obtain ⟨opens, whole⟩ := leads
      rw [Lexeme.text, lexemes_literal _ kind opens, whole, List.take_left, List.drop_left]

theorem exists_leads_of_lexemes_eq_cons {s : Text} {l : Lexeme} {ls : List Lexeme}
    (read : lexemes s = l :: ls) : ∃ rest, s = l.text ++ rest ∧ l.Leads rest ∧
      lexemes rest = ls := by
  cases opens : LiteralKind.opening? s with
  | some kind =>
      rw [lexemes_literal s kind opens] at read
      obtain ⟨rfl, rfl⟩ := List.cons.inj read
      refine ⟨s.drop (kind.length s), (List.take_append_drop _ s).symm, ?_, rfl⟩
      rw [Lexeme.Leads, List.take_append_drop, List.length_take,
        Nat.min_eq_left (kind.length_le s opens)]
      exact ⟨opens, rfl⟩
  | none =>
      cases s with
      | nil => cases read
      | cons c s =>
          rw [lexemes_code c s opens] at read
          obtain ⟨rfl, rfl⟩ := List.cons.inj read
          exact ⟨s, rfl, opens, rfl⟩

/-- Whether a character can neither open a literal nor be the first of two that do. -/
def isPlain (c : Char) : Bool := !(['\x27', '\x22', '\x60', '-', '/'].contains c)

theorem Lexeme.leads_code_of_isPlain (c : Char) (plain : isPlain c = true) (rest : Text) :
    (Lexeme.code c).Leads rest := by
  simp only [isPlain, Bool.not_eq_true', List.contains_eq_mem, decide_eq_false_iff_not,
    List.mem_cons, List.not_mem_nil, or_false, not_or] at plain
  simp [Lexeme.Leads, opening?_cons_eq_none, plain]

theorem lexemes_append_of_isPlain (s rest : Text) (plain : ∀ c ∈ s, isPlain c = true) :
    lexemes (s ++ rest) = s.map .code ++ lexemes rest := by
  induction s with
  | nil => rfl
  | cons c s ih =>
      have first := Lexeme.leads_code_of_isPlain c (plain c (by simp)) (s ++ rest)
      rw [List.cons_append, List.map_cons, List.cons_append,
        ← ih fun d member => plain d (List.mem_cons_of_mem c member)]
      exact lexemes_append_of_leads first

theorem lexemes_of_append {s : Text} {first second : List Lexeme}
    (read : lexemes s = first ++ second) :
    s = first.flatMap Lexeme.text ++ second.flatMap Lexeme.text ∧
      lexemes (second.flatMap Lexeme.text) = second := by
  have whole := flatMap_text_lexemes s
  rw [read, List.flatMap_append] at whole
  refine ⟨whole.symm, ?_⟩
  induction first generalizing s with
  | nil =>
      rw [List.flatMap_nil, List.nil_append] at whole
      rwa [whole]
  | cons l first ih =>
      obtain ⟨rest, rfl, _, tail⟩ := exists_leads_of_lexemes_eq_cons read
      refine ih tail ?_
      simpa using whole

/-- What follows a cut between two lexemes can be exchanged as long as the seam stays the same. -/
theorem lexemes_append_congr {first : List Lexeme} {rest other : Text}
    (read : lexemes (first.flatMap Lexeme.text ++ rest) = first ++ lexemes rest)
    (seam : SameSeam rest other) :
    lexemes (first.flatMap Lexeme.text ++ other) = first ++ lexemes other := by
  induction first with
  | nil => simp
  | cons l first ih =>
      obtain ⟨tail, whole, leads, later⟩ := exists_leads_of_lexemes_eq_cons read
      rw [List.flatMap_cons, List.append_assoc, List.append_cancel_left_eq] at whole
      subst whole
      rw [List.flatMap_cons, List.append_assoc,
        lexemes_append_of_leads (leads.congr (seam.append _)), ih later]
      rfl

theorem lexemes_front {s : Text} {first second : List Lexeme}
    (read : lexemes s = first ++ second) : lexemes (first.flatMap Lexeme.text) = first := by
  obtain ⟨whole, tail⟩ := lexemes_of_append read
  rw [← tail, whole] at read
  simpa [lexemes_nil] using lexemes_append_congr read (SameSeam.nil _)

theorem Lexeme.length_marked (l : Lexeme) : l.marked.length = l.text.length := by
  rw [← l.map_fst_marked, List.length_map]

theorem length_flatMap_marked (ls : List Lexeme) :
    (ls.flatMap Lexeme.marked).length = (ls.flatMap Lexeme.text).length := by
  induction ls with
  | nil => rfl
  | cons l ls ih => simp [ih, Lexeme.length_marked]

theorem exists_cut_of_code (s : Text) (pos : Nat) (c : Char)
    (here : (marked s)[pos]? = some (c, false)) :
    ∃ first second, lexemes s = first ++ .code c :: second ∧
      (first.flatMap Lexeme.text).length = pos := by
  rw [marked] at here
  generalize lexemes s = ls at here
  induction ls generalizing pos with
  | nil => simp at here
  | cons l ls ih =>
      rw [List.flatMap_cons] at here
      by_cases inside : pos < l.marked.length
      · rw [List.getElem?_append_left inside] at here
        cases l with
        | literal kind text => simp [Lexeme.marked] at here
        | code d =>
            have first : pos = 0 := by simpa [Lexeme.marked] using inside
            subst first
            obtain rfl : d = c := by simpa [Lexeme.marked] using here
            exact ⟨[], ls, rfl, rfl⟩
      · rw [List.getElem?_append_right (Nat.not_lt.mp inside)] at here
        obtain ⟨first, second, rfl, length⟩ := ih _ here
        refine ⟨l :: first, second, rfl, ?_⟩
        rw [List.flatMap_cons, List.length_append, length, ← l.length_marked]
        omega

def InLiteral (s : Text) (pos : Nat) : Prop := ∃ span ∈ literalSpans s, span.covers pos = true

instance (s : Text) (pos : Nat) : Decidable (InLiteral s pos) :=
  inferInstanceAs (Decidable (∃ span ∈ literalSpans s, span.covers pos = true))

theorem Span.covers_iff (span : Span) (pos : Nat) :
    span.covers pos = true ↔ span.start ≤ pos ∧ pos < span.stop := by
  simp [Span.covers]

theorem covered_spansFrom_iff (start : Nat) (ls : List Lexeme) (pos : Nat) :
    (∃ span ∈ spansFrom start ls, span.covers pos = true) ↔
      start ≤ pos ∧ ((ls.flatMap Lexeme.marked)[pos - start]?.map Prod.snd) = some true := by
  induction ls generalizing start with
  | nil => simp [spansFrom]
  | cons l ls ih =>
      cases l with
      | code c =>
          rw [spansFrom, ih, List.flatMap_cons, Lexeme.marked]
          rcases Nat.lt_trichotomy pos start with before | here | after
          · constructor <;> rintro ⟨begun, -⟩ <;> omega
          · subst here
            constructor
            · rintro ⟨begun, -⟩
              omega
            · simp
          · have shift : pos - start = (pos - (start + 1)) + 1 := by omega
            rw [shift, List.singleton_append, List.getElem?_cons_succ]
            constructor <;> rintro ⟨-, inside⟩ <;> exact ⟨by omega, inside⟩
      | literal kind text =>
          simp only [spansFrom, List.mem_cons, or_and_right, exists_or, exists_eq_left]
          rw [ih, Span.covers_iff, List.flatMap_cons, Lexeme.marked]
          have length : (text.map (·, true)).length = text.length := List.length_map _
          by_cases inside : pos - start < text.length
          · rw [List.getElem?_append_left (by omega), List.getElem?_map,
              List.getElem?_eq_getElem inside]
            constructor
            · rintro (⟨begun, -⟩ | ⟨begun, -⟩) <;> exact ⟨by omega, rfl⟩
            · rintro ⟨begun, -⟩
              exact .inl ⟨begun, by simp only; omega⟩
          · rw [List.getElem?_append_right (by omega), length, Nat.sub_sub]
            constructor
            · rintro (⟨begun, ended⟩ | ⟨begun, later⟩)
              · simp only at begun ended
                omega
              · exact ⟨by omega, later⟩
            · rintro ⟨begun, later⟩
              exact .inr ⟨by omega, later⟩

theorem inLiteral_iff_marked (s : Text) (pos : Nat) :
    InLiteral s pos ↔ ((marked s)[pos]?.map Prod.snd) = some true := by
  simpa [InLiteral, literalSpans, marked] using covered_spansFrom_iff 0 (lexemes s) pos

theorem pairwise_spansFrom (start : Nat) (ls : List Lexeme) :
    (∀ span ∈ spansFrom start ls, start ≤ span.start) ∧
      (spansFrom start ls).Pairwise fun first second => first.stop ≤ second.start := by
  induction ls generalizing start with
  | nil => simp [spansFrom]
  | cons l ls ih =>
      cases l with
      | code c =>
          obtain ⟨later, ordered⟩ := ih (start + 1)
          exact ⟨fun span member => Nat.le_of_succ_le (later span member), ordered⟩
      | literal kind text =>
          obtain ⟨later, ordered⟩ := ih (start + text.length)
          refine ⟨?_, List.pairwise_cons.mpr ⟨later, ordered⟩⟩
          intro span member
          rcases List.mem_cons.mp member with rfl | other
          · exact Nat.le_refl start
          · exact Nat.le_trans (Nat.le_add_right _ _) (later span other)

/-- Looking up the last span that starts before a position is enough. -/
theorem inSpans_literalSpans_iff (s : Text) (pos : Nat) :
    inSpans (literalSpans s) pos = true ↔ InLiteral s pos := by
  have ordered := (pairwise_spansFrom 0 (lexemes s)).2
  rw [← literalSpans] at ordered
  rw [inSpans, lastStarting?, InLiteral]
  generalize literalSpans s = spans at ordered
  constructor
  · intro found
    rw [Option.getD_eq_iff] at found
    obtain found | ⟨-, absurd⟩ := found
    · obtain ⟨span, last, covers⟩ := Option.map_eq_some_iff.mp found
      exact ⟨span, (List.mem_filter.mp (List.mem_of_getLast? last)).1, covers⟩
    · cases absurd
  · rintro ⟨span, member, covers⟩
    obtain ⟨begun, ended⟩ := (Span.covers_iff span pos).mp covers
    have started : span ∈ spans.filter fun span => decide ((span.start : Int) ≤ pos) :=
      List.mem_filter.mpr ⟨member, by simpa using begun⟩
    have kept := ordered.filter fun span => decide ((span.start : Int) ≤ pos)
    rcases List.eq_nil_or_concat (spans.filter fun span => decide ((span.start : Int) ≤ pos)) with
      none | ⟨front, last, cut⟩
    · rw [none] at started
      cases started
    · have reached : last.start ≤ pos := by
        have here : last ∈ spans.filter fun span => decide ((span.start : Int) ≤ pos) := by
          rw [cut]
          simp
        simpa using (List.mem_filter.mp here).2
      rw [cut, List.concat_eq_append] at started kept ⊢
      have same : span = last := by
        rcases List.mem_append.mp started with early | late
        · have before := (List.pairwise_append.mp kept).2.2 span early last (by simp)
          omega
        · exact List.mem_singleton.mp late
      rw [List.getLast?_concat, ← same]
      exact covers

/-- A text can be cut before a position outside literals. -/
theorem exists_cut_of_not_inLiteral (s : Text) (pos : Nat) (bound : pos < s.length)
    (outside : ¬ InLiteral s pos) :
    ∃ first, lexemes s = first ++ lexemes (s.drop pos) ∧
      first.flatMap Lexeme.text = s.take pos := by
  have inside : pos < (marked s).length := by rwa [length_marked]
  obtain ⟨c, code⟩ : ∃ c, (marked s)[pos]? = some (c, false) := by
    rw [inLiteral_iff_marked, List.getElem?_eq_getElem inside] at outside
    refine ⟨(marked s)[pos].1, ?_⟩
    rw [List.getElem?_eq_getElem inside]
    simpa [Prod.ext_iff] using outside
  obtain ⟨first, second, read, length⟩ := exists_cut_of_code s pos c code
  obtain ⟨whole, tail⟩ := lexemes_of_append read
  have front : first.flatMap Lexeme.text = s.take pos := by
    rw [whole, ← length, List.take_left]
  have back : (Lexeme.code c :: second).flatMap Lexeme.text = s.drop pos := by
    rw [whole, ← length, List.drop_left]
  rw [back] at tail
  exact ⟨first, by rw [read, tail], front⟩

end LiteSql
