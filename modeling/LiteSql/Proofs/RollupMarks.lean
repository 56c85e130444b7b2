import LiteSql.Proofs.Folding
import LiteSql.Proofs.Marking

/-! Groupings with subtotals. Where one is found it becomes a comment, and none is left; folding
other pieces brings none back. -/

namespace LiteSql

namespace Pattern

variable {p : Pattern} {covered pos : Nat} {before : Option Char} {s : Text}
  {first rest : List Piece}

theorem eq_piecesAfter_of_append (cut : p.piecesAfter covered pos before s = first ++ rest) :
    rest = p.piecesAfter 0 (pos + (s.take covered ++ first.flatMap Piece.text).length)
      ((s.take covered ++ first.flatMap Piece.text).getLast?.or before)
      (rest.flatMap Piece.text) := by
  induction s generalizing covered pos before first with
  | nil =>
      obtain ⟨rfl, rfl⟩ : first = [] ∧ rest = [] := by simpa [piecesAfter] using cut
      rfl
  | cons c s ih =>
      -- the place one character on is the same place
      have next (y : Text) : y.getLast?.or (some c) = (c :: y).getLast?.or before ∧
          pos + 1 + y.length = pos + (c :: y).length := by
        refine ⟨(getLast?_cons_or c y before).symm, ?_⟩
        rw [List.length_cons]
        omega
      cases covered with
      | succ covered =>
          rw [piecesAfter] at cut
          have later := ih cut
          rwa [(next _).1, (next _).2] at later
      | zero =>
          cases first with
          | nil =>
              have text := p.flatMap_text_piecesAfter 0 pos before (c :: s)
              rw [cut, List.nil_append, List.drop_zero] at text
              rw [text, ← List.nil_append rest, ← cut]
              rfl
          | cons piece first =>
              rw [piecesAfter] at cut
              split at cut
              · obtain ⟨rfl, tail⟩ := List.cons.inj cut
                have later := ih tail
                rwa [(next _).1, (next _).2] at later
              · next hit found =>
                  obtain ⟨rfl, tail⟩ := List.cons.inj cut
                  obtain ⟨found, filled⟩ := Option.filter_eq_some_iff.mp found
                  obtain ⟨after, -, whole, -⟩ := takes_of_matchAt? found rfl
                  have front : c :: s.take (hit.text.length - 1) = hit.text := by
                    cases text : hit.text with
                    | nil => simp [text] at filled
                    | cons d y =>
                        rw [text] at whole
                        obtain ⟨rfl, rfl⟩ := List.cons.inj whole
                        simp
                  have later := ih tail
                  rw [(next _).1, (next _).2, ← List.cons_append, front] at later
                  exact later

theorem not_spans_of_plain (filled : p.mayBeEmpty = false) {c : Char}
    (cut : p.pieces s = first ++ .plain c :: rest) {x after : Text}
    (text : c :: rest.flatMap Piece.text = x ++ after) {caps : List Capture} :
    ¬ p.Spans (first.flatMap Piece.text).getLast? (first.flatMap Piece.text).length x after
      caps := by
  have here := eq_piecesAfter_of_append cut
  rw [List.take_zero, List.nil_append, Option.or_none, Nat.zero_add, List.flatMap_cons, Piece.text,
    List.singleton_append, piecesAfter] at here
  intro taken
  split at here
  · next missed =>
      cases found : p.matchAt? ⟨(first.flatMap Piece.text).length,
        (first.flatMap Piece.text).getLast?, c :: rest.flatMap Piece.text, []⟩ with
      | none => exact (matchAt?_eq_none_iff _ _).mp found ⟨x, after, caps, text, taken⟩
      | some m =>
          obtain ⟨_, _, -, -, match_⟩ := takes_of_matchAt? found rfl
          rw [found, Option.filter_some_eq_none] at missed
          have empty : m.text = [] := by simpa using missed
          have spans := match_.spans
          rw [empty] at spans
          rw [mayBeEmpty_of_spans spans] at filled
          cases filled
  · cases here

end Pattern

namespace Unsupported

def RollupWords (x : Text) : Prop :=
  ∃ u gap v, x = u ++ (gap ++ v) ∧ spelled "WITH" u = true ∧ spelled "ROLLUP" v = true ∧ gap ≠ [] ∧
    ∀ c ∈ gap, isBlank c = true

theorem isAsciiWord_with : IsAsciiWord "WITH" := by decide

theorem isAsciiWord_rollup : IsAsciiWord "ROLLUP" := by decide

open Pattern in
theorem spans_rollupPattern_iff (before : Option Char) (pos : Nat) (x after : Text)
    (caps : List Capture) :
    rollupPattern.Spans before pos x after caps ↔
      (RollupWords x ∧ before.any isWordChar = false ∧ after.head?.any isWordChar = false) ∧
        caps = [] := by
  have starts {u : Text} (named : spelled "WITH" u = true) (rest : Text) :
      (u ++ rest).head?.any isWordChar = true := by
    obtain ⟨present, letters⟩ := isWordChar_of_spelled isAsciiWord_with named
    obtain ⟨c, u, rfl⟩ := List.exists_cons_of_ne_nil present
    exact letters c List.mem_cons_self
  have ends {v : Text} (named : spelled "ROLLUP" v = true) (between : Option Char) :
      (v.getLast?.or between).any isWordChar = true := by
    obtain ⟨present, letters⟩ := isWordChar_of_spelled isAsciiWord_rollup named
    rw [List.getLast?_eq_some_getLast present]
    exact letters _ (List.getLast_mem present)
  simp only [rollupPattern, all, gap, Spans, spans_keyword_iff, spans_someOf_iff, ← spelled_iff]
  constructor
  · rintro ⟨_, _, _, _, rfl, rfl, ⟨rfl, rfl, start⟩, u, _, _, _, rfl, rfl, ⟨first, rfl⟩, gap, _,
      _, _, rfl, rfl, ⟨⟨present, blank⟩, rfl⟩, v, _, _, _, rfl, rfl, ⟨second, rfl⟩, rfl, rfl, stop⟩
    rw [List.append_assoc, starts first] at start
    rw [ends second] at stop
    refine ⟨⟨⟨u, gap, v, by simp, first, second, present, blank⟩, ?_, ?_⟩, rfl⟩
    · simpa using start
    · simpa using stop
  · rintro ⟨⟨⟨u, gap, v, rfl, first, second, present, blank⟩, start, stop⟩, rfl⟩
    refine ⟨[], u ++ (gap ++ v), [], [], rfl, rfl, ⟨rfl, rfl, ?_⟩, u, gap ++ v, [], [], rfl, rfl,
      ⟨first, rfl⟩, gap, v, [], [], rfl, rfl, ⟨⟨present, blank⟩, rfl⟩, v, [], [], [], by simp, rfl,
      ⟨second, rfl⟩, rfl, rfl, ?_⟩
    · rw [start, List.append_assoc, starts first]
      simp
    · rw [ends second, stop]
      simp

structure Rollup (front : List Lexeme) (x : Text) (behind : List Lexeme) : Prop where
  words : RollupWords x
  before : (front.map Lexeme.outline).getLast?.any isWordChar = false
  after : (behind.map Lexeme.outline).head?.any isWordChar = false

def RollupFree (ls : List Lexeme) : Prop :=
  ∀ front x behind, ls = front ++ (x.map .code ++ behind) → ¬ Rollup front x behind

def StartsNoRollup (front rest : List Lexeme) : Prop :=
  ∀ x behind, rest = x.map .code ++ behind → ¬ Rollup front x behind

theorem RollupWords.ends {x : Text} (words : RollupWords x) :
    x.head?.any isWordChar = true ∧ x.getLast?.any isWordChar = true := by
  obtain ⟨u, gap, v, rfl, first, second, -, -⟩ := words
  obtain ⟨present, letters⟩ := isWordChar_of_spelled isAsciiWord_with first
  obtain ⟨present', letters'⟩ := isWordChar_of_spelled isAsciiWord_rollup second
  constructor
  · obtain ⟨c, u, rfl⟩ := List.exists_cons_of_ne_nil present
    exact letters c List.mem_cons_self
  · rw [List.getLast?_append_of_ne_nil _ (by simp [present']),
      List.getLast?_append_of_ne_nil _ present', List.getLast?_eq_some_getLast present']
    exact letters' _ (List.getLast_mem present')

theorem RollupWords.ne_nil {x : Text} (words : RollupWords x) : x ≠ [] := by
  rintro rfl
  cases words.ends.1

theorem RollupWords.isWordChar_or_isBlank {x : Text} (words : RollupWords x) :
    ∀ c ∈ x, isWordChar c = true ∨ isBlank c = true := by
  obtain ⟨u, gap, v, rfl, first, second, -, blank⟩ := words
  intro c member
  rcases List.mem_append.mp member with early | late
  · exact .inl ((isWordChar_of_spelled isAsciiWord_with first).2 c early)
  · rcases List.mem_append.mp late with between | last
    · exact .inr (blank c between)
    · exact .inl ((isWordChar_of_spelled isAsciiWord_rollup second).2 c last)

theorem RollupWords.not_mem {x : Text} (words : RollupWords x) {c : Char}
    (sign : c ∈ ['(', ')', ',']) :
    c ∉ x := by
  intro member
  have other : ∀ d ∈ ['(', ')', ','], isWordChar d = false ∧ isBlank d = false := by decide
  rcases words.isWordChar_or_isBlank c member with letter | blank
  · rw [(other c sign).1] at letter
    cases letter
  · rw [(other c sign).2] at blank
    cases blank

theorem RollupWords.balanced {x : Text} (words : RollupWords x) : Balanced (x.map .code) := by
  apply balanced_map_code
  intro c member
  constructor
  · rintro rfl
    exact words.not_mem (by simp) member
  · rintro rfl
    exact words.not_mem (by simp) member

end Unsupported

/-! ### Foldings -/

namespace Folded

open Unsupported

variable {name : Text} (ascii : IsAsciiWord name) {stays : List Lexeme → List Lexeme → Prop}
  {front ls ms : List Lexeme}

include ascii

/-- Where a folding ends, the same character shows as before, unless a word would reach on. -/
theorem EndsAlike.any_getLast? {q : Lexeme → Bool}
    (ends : ∀ l, q l = true → l.text.getLast?.any continuesName = true) {behind : List Lexeme}
    {c : Char}
    (word : isWordChar c = true) (alike : EndsAlike name front ls ms (.code c :: behind))
    (filled : ∀ l ∈ ls, l.text ≠ []) (last : ms.getLast?.any q = false) :
      ls.getLast?.any q = false := by
  rcases alike with ⟨rfl, -⟩ | ⟨l, first, second, rfl, rfl⟩ | ⟨first, chunk, rfl, foldable⟩
  · rfl
  · rw [List.getLast?_concat] at last ⊢
    exact last
  · rcases foldable.after with ended | apart
    · obtain ⟨d, rest, rfl, -⟩ := foldable.exists_cons ascii
      obtain ⟨early, l, cut⟩ := List.eq_nil_or_concat (Lexeme.code d :: rest) |>.resolve_left
        (by simp)
      rw [cut, List.concat_eq_append] at ended filled ⊢
      rw [List.flatMap_append, List.flatMap_singleton,
        List.getLast?_append_of_ne_nil _ (filled l (by simp))] at ended
      rw [← List.append_assoc, List.getLast?_concat, Option.any_some]
      have other := mt (ends l)
      rw [ended] at other
      exact Bool.eq_false_iff.mpr (other (by simp))
    · rw [List.map_cons, List.head?_cons, Option.any_some, Lexeme.outline, word] at apart
      cases apart

theorem exists_rollup (folded : Folded name stays [] ls ms) (filled : ∀ l ∈ ls, l.text ≠ [])
    {early late : List Lexeme} {x : Text} (read : ms = early ++ (x.map .code ++ late))
    (rollup : Rollup early x late) :
    ∃ first rest, ls = first ++ (x.map .code ++ rest) ∧ Rollup first x rest ∧
      stays first (x.map .code ++ rest) := by
  subst read
  obtain ⟨first, _, rfl, -, folded, alike⟩ := folded.exists_append
  obtain ⟨rest, rfl, folded, kept⟩ := folded.exists_code
  obtain ⟨starts, ends⟩ := rollup.words.ends
  refine ⟨first, rest, rfl, ⟨rollup.words, ?_, ?_⟩, kept rollup.words.ne_nil⟩
  · obtain ⟨c, x, rfl⟩ := List.exists_cons_of_ne_nil rollup.words.ne_nil
    have last := rollup.before
    rw [List.getLast?_map, Option.any_map] at last ⊢
    refine alike.any_getLast? ascii (fun l letter => ?_) starts
      (fun l member => filled l (by simp [member])) last
    cases l with
    | code d => exact continuesName_of_isWordChar d letter
    | literal kind text => cases letter
  · have same := keepsWords.head?_eq folded (by
      rw [List.map_append, map_outline_map_code,
        List.getLast?_append_of_ne_nil _ rollup.words.ne_nil]
      exact ends)
    rw [List.head?_map, same, ← List.head?_map]
    exact rollup.after

theorem rollupFree (folded : Folded name stays [] ls ms) (filled : ∀ l ∈ ls, l.text ≠ [])
    (free : RollupFree ls) : RollupFree ms := by
  intro early x late read rollup
  obtain ⟨first, rest, source, before, -⟩ := folded.exists_rollup ascii filled read rollup
  exact free first x rest source before

end Folded

/-! ### Groupings become comments -/

def StartsNoCode (ls : List Lexeme) : Prop := ∀ c rest, ls ≠ .code c :: rest

theorem StartsNoCode.head?_outline {ls : List Lexeme} (ended : StartsNoCode ls) :
    (ls.map Lexeme.outline).head?.any isWordChar = false := by
  cases ls with
  | nil => rfl
  | cons l ls =>
      cases l with
      | code c => exact absurd rfl (ended c ls)
      | literal kind text => rfl

theorem StartsNoCode.exists_append {ls behind : List Lexeme} (ended : StartsNoCode ls) {x y : Text}
    (same : x.map Lexeme.code ++ ls = y.map .code ++ behind) :
    ∃ z, x = y ++ z ∧ behind = z.map .code ++ ls := by
  induction y generalizing x with
  | nil => exact ⟨x, rfl, same.symm⟩
  | cons c y ih =>
      cases x with
      | nil => exact absurd same (ended c _)
      | cons d x =>
          obtain ⟨here, rest⟩ := List.cons.inj same
          cases here
          obtain ⟨z, rfl, later⟩ := ih rest
          exact ⟨z, rfl, later⟩

theorem Segment.Spell.startsNoCode {segs : List Segment} {ls : List Lexeme}
    (spell : Segment.Spell segs ls)
    (apart : ∀ y rest, segs ≠ .code y :: rest) : StartsNoCode ls := by
  intro c rest same
  cases spell with
  | nil => cases same
  | literal kind text later => cases same
  | code y _ _ => exact absurd rfl (apart y _)

theorem any_or_eq_false {α : Type} {p : α → Bool} {one other : Option α} (first : one.any p = false)
    (second : other.any p = false) : (one.or other).any p = false := by
  cases one with
  | none => exact second
  | some a => exact first

theorem Segment.Spell.exists_cut {segs : List Segment} {ls : List Lexeme}
    (spell : Segment.Spell segs ls)
    {x : Text} (member : .code x ∈ segs) :
    ∃ front behind, ls = front ++ (x.map .code ++ behind) ∧
      (front = [] → ∃ rest, segs = .code x :: rest) ∧
      (front.map Lexeme.outline).getLast?.any isWordChar = false ∧
      (behind.map Lexeme.outline).head?.any isWordChar = false := by
  induction spell with
  | nil => cases member
  | @literal kind text segs ls _ ih =>
      obtain ⟨front, behind, rfl, -, before, after⟩ := ih (by simpa using member)
      refine ⟨.literal kind text :: front, behind, rfl, fun none =>
        absurd none (List.cons_ne_nil _ _), ?_, after⟩
      cases front with
      | nil => exact isWordChar_of_isBlank (show isBlank ' ' = true by decide)
      | cons l front => simpa [List.getLast?_cons] using before
  | @code y segs ls apart later ih =>
      rcases List.mem_cons.mp member with same | inside
      · cases same
        exact ⟨[], ls, rfl, fun _ => ⟨segs, rfl⟩, rfl, (later.startsNoCode apart).head?_outline⟩
      · obtain ⟨front, behind, rfl, first, before, after⟩ := ih inside
        have present : front ≠ [] := fun none => by
          obtain ⟨rest, starts⟩ := first none
          exact apart x rest starts
        refine ⟨y.map .code ++ front, behind, by rw [List.append_assoc], fun none => ?_, ?_, after⟩
        · exact absurd (List.append_eq_nil_iff.mp none).2 present
        · rwa [List.map_append, List.getLast?_append_of_ne_nil _ (by simpa using present)]

namespace Unsupported

theorem codeHits_rollupPattern_eq_nil {s : Text} (free : RollupFree (lexemes s)) :
    rollupPattern.codeHits s = [] := by
  rw [Pattern.codeHits, List.flatMap_eq_nil_iff]
  intro x member
  rw [List.eq_nil_iff_forall_not_mem]
  intro m hit
  have segment : .code x ∈ segments s := by
    obtain ⟨seg, inside, code⟩ := List.mem_filterMap.mp member
    cases seg with
    | literal text => cases code
    | code y =>
        cases code
        exact inside
  obtain ⟨front, behind, read, -, before, after⟩ := (spell_segments s).exists_cut segment
  obtain ⟨early, late, caps, rfl, -, -, taken⟩ := Pattern.takes_of_mem_hits hit
  obtain ⟨⟨words, start, stop⟩, -⟩ := (spans_rollupPattern_iff _ _ _ _ _).mp taken.spans
  refine free (front ++ early.map .code) m.text (late.map .code ++ behind) (by rw [read]; simp)
    ⟨words, ?_, ?_⟩
  · rw [List.map_append, map_outline_map_code, List.getLast?_append]
    exact any_or_eq_false start before
  · rw [List.map_append, map_outline_map_code, List.head?_append]
    exact any_or_eq_false stop after

section

variable {x : Text} {first rest : List Piece} {front ls : List Lexeme} (ended : StartsNoCode ls)

include ended

theorem startsNoRollup_of_plain {c : Char}
    (cut : rollupPattern.pieces x = first ++ .plain c :: rest) :
    StartsNoRollup (front ++ (first.flatMap Piece.text).map .code)
      ((c :: rest.flatMap Piece.text).map .code ++ ls) := by
  intro y behind same rollup
  obtain ⟨z, text, rfl⟩ := ended.exists_append same
  have before := rollup.before
  have after := rollup.after
  rw [List.map_append, map_outline_map_code] at before after
  refine Pattern.not_spans_of_plain (by decide) cut text
    ((spans_rollupPattern_iff _ _ _ _ _).mpr ⟨⟨rollup.words, ?_, ?_⟩, rfl⟩)
  · cases last : (first.flatMap Piece.text).getLast? with
    | none => rfl
    | some d => rwa [List.getLast?_append, last] at before
  · cases z with
    | nil => rfl
    | cons d z => exact after

theorem foldable_of_hit {m : Match} (cut : rollupPattern.pieces x = first ++ .hit m :: rest)
    (before : (front.map Lexeme.outline).getLast?.any isWordChar = false) :
    Foldable "WITH" (front ++ (first.flatMap Piece.text).map .code) (m.text.map .code)
      ((rest.flatMap Piece.text).map .code ++ ls) := by
  obtain ⟨-, -, caps, taken⟩ := Pattern.takes_of_piecesAfter cut
  obtain ⟨⟨words, start, stop⟩, -⟩ := (spans_rollupPattern_iff _ _ _ _ _).mp taken.spans
  rw [List.take_zero, List.nil_append, Option.or_none] at start
  refine ⟨words.balanced, ?_, ?_, .inr ?_⟩
  · obtain ⟨u, gap, v, text, named, -, present, blank⟩ := words
    obtain ⟨c, gap, rfl⟩ := List.exists_cons_of_ne_nil present
    exact ⟨u, c, (gap ++ v).map .code, by rw [text]; simp, named,
      isWordChar_of_isBlank (blank c List.mem_cons_self)⟩
  · rw [List.map_append, map_outline_map_code, List.getLast?_append]
    exact any_or_eq_false start before
  · rw [List.map_append, map_outline_map_code, List.head?_append]
    exact any_or_eq_false stop ended.head?_outline

theorem exists_folded_replace {ms : List Lexeme}
    (before : (front.map Lexeme.outline).getLast?.any isWordChar = false)
    (later : Folded "WITH" StartsNoRollup (front ++ x.map .code) ls ms) :
    ∃ others, Folded "WITH" StartsNoRollup front (x.map .code ++ ls) others ∧
      others.flatMap Lexeme.text =
        rollupPattern.replace (fun m => comment (rollup m.text)) x ++ ms.flatMap Lexeme.text := by
  obtain ⟨first, rest, cut, start⟩ : ∃ first rest, rollupPattern.pieces x = first ++ rest ∧
      first = [] :=
    ⟨[], _, rfl, rfl⟩
  have place : front = front ++ (first.flatMap Piece.text).map .code := by simp [start]
  have whole : rest.flatMap Piece.text = x := by
    rw [← Pattern.flatMap_text_pieces rollupPattern x, cut, start]; rfl
  have all : rollupPattern.pieces x = rest := by rw [cut, start]; rfl
  rw [Pattern.replace, all, place, ← whole]
  clear all whole start place
  -- the pieces are folded from the last to the first
  induction rest generalizing first with
  | nil =>
      have text := Pattern.flatMap_text_pieces rollupPattern x
      rw [cut, List.append_nil] at text
      exact ⟨ms, by rwa [text], rfl⟩
  | cons piece rest ih =>
      obtain ⟨others, folded, text⟩ := ih (first ++ [piece]) (by rw [cut, List.append_assoc]; rfl)
      rw [List.flatMap_append, List.flatMap_singleton, List.map_append, ← List.append_assoc]
        at folded
      rw [List.flatMap_cons, List.map_append, List.append_assoc]
      cases piece with
      | plain c =>
          refine ⟨.code c :: others, .keep ?_ folded, ?_⟩
          · exact startsNoRollup_of_plain ended cut
          · rw [List.flatMap_cons, text]
            rfl
      | hit m =>
          refine ⟨_, .fold "WITH ROLLUP" ?_ folded, ?_⟩
          · exact foldable_of_hit ended cut before
          · rw [List.flatMap_cons, text]
            rfl

end

theorem exists_folded_segments {segs : List Segment} {ls : List Lexeme}
    (spell : Segment.Spell segs ls)
    (front : List Lexeme) (apart : (∃ y rest, segs = .code y :: rest) →
      (front.map Lexeme.outline).getLast?.any isWordChar = false) :
    ∃ ms, Folded "WITH" StartsNoRollup front ls ms ∧ ms.flatMap Lexeme.text =
      segs.flatMap (Segment.mapCode (rollupPattern.replace fun m => comment (rollup m.text))) := by
  induction spell generalizing front with
  | nil => exact ⟨[], .done front, rfl⟩
  | @literal kind text segs ls _ ih =>
      obtain ⟨ms, folded, whole⟩ := ih (front ++ [.literal kind text]) fun _ => by
        rw [List.map_append, List.map_singleton, List.getLast?_concat]
        exact isWordChar_of_isBlank (show isBlank ' ' = true by decide)
      refine ⟨.literal kind text :: ms, .keep ?_ folded, congrArg (text ++ ·) whole⟩
      intro x behind same rollup
      obtain ⟨c, x, rfl⟩ := List.exists_cons_of_ne_nil rollup.words.ne_nil
      cases same
  | @code x segs ls alone later ih =>
      obtain ⟨ms, folded, whole⟩ := ih (front ++ x.map .code) fun ⟨y, rest, same⟩ =>
        absurd same (alone y rest)
      obtain ⟨others, joined, text⟩ :=
        exists_folded_replace (later.startsNoCode alone) (apart ⟨x, segs, rfl⟩) folded
      exact ⟨others, joined, by rw [text, whole]; rfl⟩

theorem folded_rollupsMarked (s : Text) :
    Folded "WITH" StartsNoRollup [] (lexemes s) (lexemes (rollupsMarked s)) := by
  obtain ⟨ms, folded, text⟩ := exists_folded_segments (spell_segments s) [] fun _ => rfl
  have read := (folded.readsAlike isAsciiWord_with []).lexemes_text (by rw [flatMap_text_lexemes])
  rw [text] at read
  rw [rollupsMarked, Pattern.replaceCode, mapCode, read]
  exact folded

theorem rollupFree_rollupsMarked (s : Text) : RollupFree (lexemes (rollupsMarked s)) := by
  intro early x late read rollup
  obtain ⟨first, rest, -, before, none⟩ := (folded_rollupsMarked s).exists_rollup isAsciiWord_with
    (text_ne_nil_of_mem_lexemes s) read rollup
  exact none x rest rfl before

end Unsupported

end LiteSql
