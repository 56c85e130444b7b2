import LiteSql.Proofs.Marking
import LiteSql.Proofs.Regrouping

/-! Marks for SEPARATOR clauses. A call loses its clause, its values hold none, and what is reported
nowhere in the arguments is not to be reported in the values. -/

namespace LiteSql

open Unsupported

theorem undivided_callLexemes {name written : Text} (ascii : IsAsciiWord name)
    (named : spelled name written = true) {inner : List Lexeme} (balanced : Balanced inner)
    (front : List Lexeme) : Undivided front (callLexemes written inner) := by
  intro y z divided level
  have letters := (isWordChar_of_spelled ascii named).2
  rw [callLexemes] at divided
  rcases List.append_eq_append_iff.mp divided with ⟨b, rfl, rest⟩ | ⟨b, split, rest⟩
  · cases b with
    | nil => cases rest
    | cons l b =>
        obtain ⟨rfl, -⟩ := List.cons.inj rest
        have inside : inner ++ [.code ')'] = b ++ .code ',' :: z := (List.cons.inj rest).2
        obtain ⟨more, rfl⟩ : ∃ more, inner = b ++ more := by
          rcases List.append_eq_append_iff.mp inside with ⟨e, -, last⟩ | ⟨e, cut, -⟩
          · rcases List.cons_eq_append_iff.mp last with ⟨-, wrong⟩ | ⟨_, -, wrong⟩
            · cases wrong
            · cases (List.append_eq_nil_iff.mp wrong.symm).2
          · exact ⟨e, cut⟩
        -- inside the parentheses of the call the level is at least one
        rw [levelAfter_append, Option.bind_eq_some_iff] at level
        obtain ⟨depth, -, falls⟩ := level
        rw [Balanced, levelAfter_append, Option.bind_eq_some_iff] at balanced
        obtain ⟨height, rises, -⟩ := balanced
        have deeper := levelAfter_add rises (depth + 1)
        rw [(balanced_map_code (no_paren_of_spelled ascii named)).levelAfter_append] at falls
        have opened : levelAfter depth (.code '(' :: b) = levelAfter (0 + (depth + 1)) b := by
          rw [levelAfter, if_neg (by simp), Nat.zero_add]
          rfl
        rw [opened, deeper] at falls
        cases falls
  · have member : Lexeme.code ',' ∈ written.map Lexeme.code := by
      cases b with
      | nil => cases rest
      | cons l b =>
          cases (List.cons.inj rest).1
          simp [split]
    obtain ⟨c, inside, same⟩ := List.mem_map.mp member
    cases same
    exact absurd (letters ',' inside) (by decide)

theorem compact_callLexemes {name written : Text} (ascii : IsAsciiWord name)
    (named : spelled name written = true) (inner : List Lexeme) :
      Compact (callLexemes written inner) := by
  obtain ⟨present, letters⟩ := isWordChar_of_spelled ascii named
  obtain ⟨c, w, rfl⟩ := List.exists_cons_of_ne_nil present
  exact ⟨⟨.code c, rfl, (solid_ends letters).1⟩, .code ')', getLast?_callLexemes _ _, by decide⟩

namespace Respaced

variable {xs ys : List Lexeme} (respaced : Respaced xs ys)

include respaced

theorem settled (present : ∀ l ∈ xs, l.text ≠ []) (filled : ∀ l ∈ ys, l.text ≠ [])
    (settled : Settled xs) :
    Settled ys := by
  intro front written inner behind read cut
  obtain ⟨early, late, rfl, same⟩ := respaced.exists_cut
    (compact_callLexemes isAsciiWord_groupConcat cut.named inner)
    read (undivided_callLexemes isAsciiWord_groupConcat cut.named cut.balanced front)
  refine settled early written inner late rfl ⟨cut.named, ?_, cut.balanced⟩
  have separate := cut.separate
  rw [← endsIn_eq _ fun l member => filled l (by simp [read, member])] at separate
  rw [← endsIn_eq _ fun l member => present l (by simp [member]),
    same.endsIn_eq excludes_continuesName, separate]

theorem rollupFree (free : RollupFree xs) : RollupFree ys := by
  intro front x behind read rollup
  have solid {o : Option Char} (letter : o.any isWordChar = true) : o.any isBlank = false := by
    cases o with
    | none => rfl
    | some c => exact isBlank_of_isWordChar letter
  obtain ⟨first, last⟩ := rollup.words.ends
  have loose : ∀ l : Lexeme, l.isFirm = false → isWordChar l.outline = false := by
    intro l soft
    obtain ⟨c, rfl, outside⟩ := SameCut.code_of_not_isFirm excludes_isWordChar l soft
    exact outside
  obtain ⟨early, late, rfl, same⟩ := respaced.exists_code rollup.words.ne_nil (solid first)
    (solid last)
    (rollup.words.not_mem (by simp)) read
  refine free early x late rfl ⟨rollup.words, ?_, ?_⟩
  · have before := rollup.before
    rw [List.getLast?_map, Option.any_map] at before ⊢
    rw [any_eq_of_filter loose same.before]
    exact before
  · have after := rollup.after
    rw [List.head?_map, Option.any_map] at after ⊢
    rw [any_eq_of_filter loose same.after]
    exact after

end Respaced

theorem Settled.left {first second : List Lexeme} (settled : Settled (first ++ second)) :
    Settled first := by
  rintro front written inner behind rfl cut
  exact settled front written inner (behind ++ second) (by simp) cut

theorem calm_values {ls kept rest : List Lexeme} (respaced : Respaced ls (kept ++ rest))
    (source : Sealed ls) (closed : Sealed (kept ++ rest)) (balanced : Balanced kept)
    (seam : endsIn isWordChar kept = false ∨ startsIn isWordChar rest = false)
    (none : ∀ front w behind, kept = front ++ (w.map .code ++ behind) →
      ¬ Standing separatorWord front w behind) (settled : Settled ls) (free : RollupFree ls) :
        Calm kept where
  closed := closed.left
  balanced := balanced
  unsplit split := by
    obtain ⟨front, w, behind, read, standing, -⟩ := split.clause
    exact none front w behind read standing
  settled := (respaced.settled source.text_ne_nil closed.text_ne_nil settled).left
  free := by
    rintro front x behind rfl rollup
    refine respaced.rollupFree free front x (behind ++ rest) (by simp)
      ⟨rollup.words, rollup.before, ?_⟩
    have after := rollup.after
    cases behind with
    | cons l behind => exact after
    | nil =>
        -- a word at the end would reach on
        rcases seam with ended | apart
        · rw [List.append_nil, endsIn, List.getLast?_append_of_ne_nil _
            (by simpa using rollup.words.ne_nil), List.getLast?_map, Option.any_map] at ended
          have wrong : x.getLast?.any isWordChar = false := ended
          rw [rollup.words.ends.2] at wrong
          cases wrong
        · exact any_head?_outline apart

theorem exists_answer {written : Text} (named : spelled GroupConcat.function written = true)
    {ls : List Lexeme}
    (closed : Sealed ls) (balanced : Balanced ls) (settled : Settled ls) (free : RollupFree ls) :
    ∃ name arguments trail, spelled GroupConcat.function name = true ∧ Calm arguments ∧
      IsRemark trail ∧
      (callLexemes name arguments ++ trail).flatMap Lexeme.text =
        (withoutSeparator (splitArguments (ls.flatMap Lexeme.text))).getD
          (written ++ '(' :: (ls.flatMap Lexeme.text ++ [')'])) := by
  have split := isSome_splitSeparator?_iff closed balanced
  cases found : GroupConcat.splitSeparator? (splitArguments (ls.flatMap Lexeme.text)) with
  | none =>
      rw [found] at split
      refine ⟨written, ls, [], named, ⟨closed, balanced, ?_, settled, free⟩, .inl rfl, ?_⟩
      · rw [← split]
        simp
      · rw [List.append_nil, flatMap_text_callLexemes, withoutSeparator, found]
        rfl
  | some clause =>
      obtain ⟨values, delimiter⟩ := clause
      obtain ⟨ms, respaced, closed', text⟩ := exists_respaced closed balanced
      have read : lexemes (joinArguments (splitArguments (ls.flatMap Lexeme.text))) = ms := by
        rw [← text, closed'.lexemes_text]
      have balanced' := respaced.balanced balanced
      rw [← read] at closed' balanced' respaced
      obtain ⟨kept, rest, cut, rfl, level, seam, none⟩ := exists_values closed' balanced' found
      rw [cut] at closed' respaced
      refine ⟨"GROUP_CONCAT", kept, [.code ' ', .literal .blockComment
        (comment (separator delimiter))], by decide,
          calm_values respaced closed closed' level seam none settled free, .inr ⟨_, rfl⟩, ?_⟩
      rw [List.flatMap_append, flatMap_text_callLexemes, withoutSeparator, found]
      simp [Lexeme.text]

def PlainCalls (ls : List Lexeme) : Prop :=
  ∀ front written inner behind, ls = front ++ (callLexemes written inner ++ behind) →
    CallCut GroupConcat.function front written inner → ∀ l ∈ inner, l.isLineComment = false

theorem plainCalls_of_plain {ls : List Lexeme} (plain : ∀ l ∈ ls, l.isLineComment = false) :
    PlainCalls ls := by
  rintro front written inner behind rfl - l member
  exact plain l (by simp [callLexemes, member])

theorem rollupFree_inner {front inner behind : List Lexeme} {written : Text}
    (free : RollupFree (front ++ (callLexemes written inner ++ behind))) : RollupFree inner := by
  rintro early x late rfl rollup
  refine free (front ++ written.map .code ++ .code '(' :: early) x (late ++ .code ')' :: behind)
    (by simp [callLexemes]) ⟨rollup.words, ?_, ?_⟩
  · rw [← (EndsSame.opened _ early).outline]
    exact rollup.before
  · have after := rollup.after
    cases late with
    | nil => exact (by decide : isWordChar ')' = false)
    | cons l late => exact after

theorem lexemes_arguments {s : Text} {front inner behind : List Lexeme} {written : Text}
    (read : lexemes s = front ++ (callLexemes written inner ++ behind)) :
    lexemes ((inner ++ .code ')' :: behind).flatMap Lexeme.text) =
      inner ++ .code ')' :: behind := by
  have regroup : front ++ (callLexemes written inner ++ behind) =
      (front ++ (written ++ ['(']).map .code) ++ (inner ++ .code ')' :: behind) := by
    simp [callLexemes]
  rw [regroup] at read
  exact (lexemes_of_append read).2

theorem slice_arguments {s : Text} {front inner behind : List Lexeme} {written : Text}
    (read : lexemes s = front ++ (callLexemes written inner ++ behind)) :
    slice s ((front.flatMap Lexeme.text).length + written.length + 1)
      ((front.flatMap Lexeme.text).length + written.length + 1 +
        (inner.flatMap Lexeme.text).length) =
        inner.flatMap Lexeme.text := by
  obtain ⟨text, -⟩ := lexemes_of_append read
  rw [List.flatMap_append, flatMap_text_callLexemes] at text
  have whole : s = (front.flatMap Lexeme.text ++ written ++ ['(']) ++
      (inner.flatMap Lexeme.text ++ ')' :: behind.flatMap Lexeme.text) := by
    rw [text]
    simp
  have length : (front.flatMap Lexeme.text).length + written.length + 1 =
      (front.flatMap Lexeme.text ++ written ++ ['(']).length := by simp; omega
  rw [slice, Nat.add_sub_cancel_left, length, whole, List.drop_left, List.take_left]

theorem sealed_inner {s : Text} {front inner behind : List Lexeme} {written : Text}
    (read : lexemes s = front ++ (callLexemes written inner ++ behind))
    (plain : ∀ l ∈ inner, l.isLineComment = false) : Sealed inner :=
  .of_lexemes (lexemes_arguments read) (by simp) plain

theorem Parsed.exists_regrouped {front ls : List Lexeme} {calls : Calls}
    (parsed : Parsed GroupConcat.function front ls calls) {s : Text}
    (read : lexemes s = front ++ ls)
    (plain : PlainCalls (front ++ ls)) (free : RollupFree (front ++ ls)) :
    ∃ ms, Regrouped front ls ms ∧ ms.flatMap Lexeme.text = calls.replace withoutSeparator := by
  induction parsed generalizing s with
  | done front => exact ⟨[], .done front, rfl⟩
  | @copy front l ls rest uncalled _ ih =>
      rw [List.append_cons] at read plain free
      obtain ⟨ms, regrouped, text⟩ := ih read plain free
      refine ⟨l :: ms, .keep uncalled regrouped, ?_⟩
      rw [Calls.replace_copy, List.flatMap_cons, text]
  | @call front written inner ls inside rest cut _ _ ihInner ih =>
      have quiet := plain front written inner ls rfl cut
      have closed := sealed_inner read quiet
      obtain ⟨arguments, changed, text⟩ := ihInner closed.lexemes_text (plainCalls_of_plain quiet)
        (rollupFree_inner free)
      have closed' := changed.sealed closed
      obtain ⟨name, arguments', trail, named, calm, remark, answer⟩ :=
        exists_answer cut.named closed'
        (changed.closesAlike.balanced cut.balanced)
        (changed.settled closed.text_ne_nil closed'.text_ne_nil)
        (changed.rollupFree (rollupFree_inner free))
      rw [← List.append_assoc] at read plain free
      obtain ⟨ms, regrouped, tail⟩ := ih read plain free
      refine ⟨_, .call cut named calm remark regrouped, ?_⟩
      rw [Calls.replace_call, ← text, ← answer, ← tail, ← List.append_assoc, List.flatMap_append]

theorem regrouped_replaceCalls {s : Text} (plain : PlainCalls (lexemes s))
    (free : RollupFree (lexemes s)) :
    Regrouped [] (lexemes s) (lexemes (replaceCalls GroupConcat.function withoutSeparator s)) := by
  have word : ∀ c ∈ GroupConcat.function, isWordChar c = true := by decide
  obtain ⟨ms, regrouped, text⟩ := (parsed_ofText word s).exists_regrouped rfl plain free
  have same := (regrouped.readsAlike []).lexemes_text (by rw [flatMap_text_lexemes])
  rw [text] at same
  rwa [replaceCalls_eq, same]

end LiteSql
