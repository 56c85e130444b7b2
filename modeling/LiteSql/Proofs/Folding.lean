import Mathlib.Data.List.Chain
import LiteSql.Proofs.Piecewise

/-! Pieces of code that have become comments. A comment is one lexeme whatever its text is, and
where balanced pieces become comments the calls that are left are calls that stood there before. -/

namespace LiteSql

/-! ### Comments that close where they should -/

def Unclosing (s : Text) : Prop := s.IsChain fun c d => ¬ (c = '*' ∧ d = '/')

theorem unclosing_spaceOut (s : Text) : Unclosing (spaceOut '*' '/' s) := by
  fun_induction spaceOut '*' '/' s with
  | case1 c d s closing ih =>
      have second : Unclosing (d :: spaceOut '*' '/' s) := by
        rw [Unclosing, closing.2, List.isChain_cons]
        exact ⟨fun _ _ => by simp, ih⟩
      rw [Unclosing, List.isChain_cons_cons, List.isChain_cons_cons]
      exact ⟨by simp, by simp, second⟩
  | case2 c d s apart ih =>
      rw [Unclosing, List.isChain_cons]
      refine ⟨fun e head => ?_, ih⟩
      have first : (spaceOut '*' '/' (d :: s)).head? = some d := by
        cases s with
        | nil => rfl
        | cons f s => rw [spaceOut]; split <;> rfl
      rw [first] at head
      cases head
      exact apart
  | case3 s short =>
      match s with
      | [] => exact List.isChain_nil
      | [c] => exact List.isChain_singleton c
      | c :: d :: s => exact absurd rfl (short c d s)

theorem blockLength_append {body : Text} (unclosing : Unclosing body) (rest : Text) :
    blockLength (body ++ '*' :: '/' :: rest) = body.length + 2 := by
  induction body with
  | nil => rfl
  | cons c body ih =>
      obtain ⟨next, later⟩ := List.isChain_cons.mp unclosing
      obtain ⟨d, tail, cut⟩ : ∃ d tail, body ++ '*' :: '/' :: rest = d :: tail := by
        cases body <;> exact ⟨_, _, rfl⟩
      have opened : ¬ (c = '*' ∧ d = '/') := by
        cases body with
        | nil =>
            cases cut
            simp
        | cons e body =>
            cases cut
            exact next _ rfl
      rw [List.cons_append, cut, blockLength, if_neg opened, ← cut, ih later, List.length_cons]

/-- A block comment that closes where it should is one lexeme, whatever stands behind it. -/
theorem leads_blockComment {body : Text} (unclosing : Unclosing body) (rest : Text) :
    (Lexeme.literal .blockComment ('/' :: '*' :: (body ++ "*/"))).Leads rest := by
  have length := blockLength_append unclosing rest
  have text : '/' :: '*' :: (body ++ "*/") ++ rest = '/' :: '*' ::
      (body ++ '*' :: '/' :: rest) := by simp
  refine ⟨by rw [text]; rfl, ?_⟩
  rw [text, LiteralKind.length, List.drop_succ_cons, List.drop_succ_cons, List.drop_zero, length]
  simp

theorem Unclosing.spaced {s : Text} (unclosing : Unclosing s) :
    Unclosing (' ' :: (s ++ [' '])) := by
  rw [Unclosing, List.isChain_cons, List.isChain_append]
  refine ⟨fun c _ => by simp, unclosing, List.isChain_singleton _, fun c _ d head => ?_⟩
  obtain rfl : ' ' = d := Option.some.inj head
  simp

theorem leads_notSupported (fragment rest : Text) :
    (Lexeme.literal .blockComment (notSupported fragment)).Leads rest := by
  have body : Unclosing (spaceOut '*' '/' (spaceOut '/' '*' fragment) ++ " not supported") := by
    rw [Unclosing, List.isChain_append]
    refine ⟨unclosing_spaceOut _, by decide, fun c _ d head => ?_⟩
    obtain rfl : ' ' = d := Option.some.inj head
    simp
  have written : notSupported fragment =
      "/* " ++ spaceOut '*' '/' (spaceOut '/' '*' fragment) ++ " not supported */" := rfl
  have leads := leads_blockComment body.spaced rest
  simpa [written] using leads

/-! ### Folding -/

/-- Whether a piece of code can become a comment: it is balanced and starts with a certain word,
which is not part of a longer one, and no word reaches over its end. -/
structure Foldable (name : Text) (front chunk behind : List Lexeme) : Prop where
  balanced : Balanced chunk
  word : ∃ w c rest, chunk = w.map .code ++ .code c :: rest ∧ spelled name w = true ∧
    isWordChar c = false
  before : (front.map Lexeme.outline).getLast?.any isWordChar = false
  after : (chunk.flatMap Lexeme.text).getLast?.any continuesName = false ∨
    (behind.map Lexeme.outline).head?.any isWordChar = false

/-- Lexemes in which pieces of code that start with a word have become comments. What is kept can
`stay` where it stands, behind the lexemes in front and before the rest. -/
inductive Folded (name : Text) (stays : List Lexeme → List Lexeme → Prop) :
    (front ls ms : List Lexeme) → Prop
  | done (front : List Lexeme) : Folded name stays front [] []
  | keep {front : List Lexeme} {l : Lexeme} {ls ms : List Lexeme} :
    stays front (l :: ls) → Folded name stays (front ++ [l]) ls ms →
      Folded name stays front (l :: ls) (l :: ms)
  | fold {front chunk ls ms : List Lexeme} (fragment : Text) :
    Foldable name front chunk ls → Folded name stays (front ++ chunk) ls ms →
      Folded name stays front (chunk ++ ls) (.literal .blockComment (notSupported fragment) :: ms)

abbrev Folding (name : Text) (front ls ms : List Lexeme) : Prop :=
  Folded name (fun _ _ => True) front ls ms

theorem Foldable.of_append {name : Text} {front chunk behind more : List Lexeme}
    (foldable : Foldable name front chunk (behind ++ more)) : Foldable name front chunk behind where
  balanced := foldable.balanced
  word := foldable.word
  before := foldable.before
  after := foldable.after.imp_right fun separate => by
    cases behind with
    | nil => rfl
    | cons l behind => exact separate

section

variable {name : Text} (ascii : IsAsciiWord name)

include ascii

theorem Foldable.exists_cons {front chunk behind : List Lexeme}
    (foldable : Foldable name front chunk behind) :
    ∃ c rest, chunk = .code c :: rest ∧ isWordChar c = true := by
  obtain ⟨w, d, rest, rfl, named, -⟩ := foldable.word
  obtain ⟨present, letters⟩ := isWordChar_of_spelled ascii named
  obtain ⟨c, w, rfl⟩ := List.exists_cons_of_ne_nil present
  exact ⟨c, _, rfl, letters c List.mem_cons_self⟩

namespace Folded

variable {stays : List Lexeme → List Lexeme → Prop} {front ls ms : List Lexeme}

theorem readsAlike (folded : Folded name stays front ls ms) (rest : Text) :
    ReadsAlike ls ms rest := by
  induction folded with
  | done => exact .nil rest
  | keep _ _ ih => exact ih.cons _
  | @fold front chunk ls ms fragment foldable _ ih =>
      let mark : Lexeme := .literal .blockComment (notSupported fragment)
      have read (t : Text) : lexemes ([mark].flatMap Lexeme.text ++ t) = [mark] ++ lexemes t := by
        rw [List.flatMap_singleton, lexemes_append_of_leads (leads_notSupported fragment t)]
        rfl
      refine ih.append read fun s t => ?_
      obtain ⟨c, more, rfl, word⟩ := foldable.exists_cons ascii
      exact .of_letter word (by decide) _ _

omit ascii in
theorem closesAlike (folded : Folded name stays front ls ms) : ClosesAlike ls ms := by
  induction folded with
  | done => exact .nil
  | keep _ _ ih => exact ih.cons _
  | fold fragment foldable _ ih =>
      have mark : Balanced [.literal .blockComment (notSupported fragment)] := rfl
      exact ih.append foldable.balanced mark

omit ascii in
theorem keepsWords : KeepsWords (Folded name stays) where
  next folded inside := by
    cases folded with
    | done => exact .inl ⟨rfl, rfl⟩
    | keep _ later => exact .inr ⟨_, _, _, rfl, rfl, later⟩
    | fold fragment foldable _ =>
        rw [foldable.before] at inside
        cases inside

omit ascii in
theorem exists_code {x : Text} {last : List Lexeme}
    (folded : Folded name stays front ls (x.map .code ++ last)) :
    ∃ rest, ls = x.map .code ++ rest ∧ Folded name stays (front ++ x.map .code) rest last ∧
      (x ≠ [] → stays front ls) := by
  induction x generalizing front ls with
  | nil => exact ⟨ls, rfl, by rwa [List.map_nil, List.append_nil], fun filled => absurd rfl filled⟩
  | cons c x ih =>
      cases folded with
      | keep kept later =>
          obtain ⟨rest, rfl, folded, -⟩ := ih later
          refine ⟨rest, rfl, ?_, fun _ => kept⟩
          rwa [List.append_assoc] at folded

/-- How lexemes end before and after a folding, before `behind`: in the same lexeme, or in a piece
and its comment. -/
def EndsAlike (name : Text) (front ls ms behind : List Lexeme) : Prop :=
  (ls = [] ∧ ms = []) ∨ (∃ l first second, ls = first ++ [l] ∧ ms = second ++ [l]) ∨
    ∃ first chunk, ls = first ++ chunk ∧ Foldable name (front ++ first) chunk behind

omit ascii in
theorem EndsAlike.append (front : List Lexeme) {first rest others behind : List Lexeme} (l : Lexeme)
    (filled : others ≠ []) (alike : EndsAlike name (front ++ first) rest others behind) :
    EndsAlike name front (first ++ rest) (l :: others) behind := by
  rcases alike with ⟨-, rfl⟩ | ⟨last, early, late, rfl, rfl⟩ | ⟨early, chunk, rfl, foldable⟩
  · exact absurd rfl filled
  · exact .inr (.inl ⟨last, first ++ early, l :: late, by rw [List.append_assoc], rfl⟩)
  · refine .inr (.inr ⟨first ++ early, chunk, by rw [List.append_assoc], ?_⟩)
    rwa [← List.append_assoc]

omit ascii in
theorem exists_append {first second : List Lexeme}
    (folded : Folded name stays front ls (first ++ second)) :
    ∃ early late, ls = early ++ late ∧ Folding name front early first ∧
      Folded name stays (front ++ early) late second ∧ EndsAlike name front early first late := by
  induction first generalizing front ls with
  | nil =>
      refine ⟨[], ls, rfl, .done front, ?_, .inl ⟨rfl, rfl⟩⟩
      rwa [List.append_nil]
  | cons l first ih =>
      cases folded with
      | keep kept later =>
          obtain ⟨early, late, rfl, begins, goes, alike⟩ := ih later
          refine ⟨l :: early, late, rfl, .keep trivial begins, ?_, ?_⟩
          · rwa [List.append_assoc] at goes
          · cases first with
            | nil =>
                cases begins
                exact .inr (.inl ⟨l, [], [], rfl, rfl⟩)
            | cons => exact alike.append front l (by simp)
      | fold fragment foldable later =>
          obtain ⟨early, late, rfl, begins, goes, alike⟩ := ih later
          refine ⟨_ ++ early,
            late, by rw [List.append_assoc], .fold fragment foldable.of_append begins, ?_, ?_⟩
          · rwa [List.append_assoc] at goes
          · cases first with
            | nil =>
                cases begins
                refine .inr (.inr ⟨[], _, List.append_nil _, ?_⟩)
                rwa [List.append_nil]
            | cons => exact alike.append front _ (by simp)

theorem EndsAlike.separate {behind : List Lexeme} {c : Char} (word : isWordChar c = true)
    (alike : EndsAlike name [] ls ms (.code c :: behind)) (filled : ∀ l ∈ ls, l.text ≠ [])
    (separate : (ms.flatMap Lexeme.text).getLast?.any continuesName = false) :
    (ls.flatMap Lexeme.text).getLast?.any continuesName = false := by
  rcases alike with ⟨rfl, -⟩ | ⟨l, first, second, rfl, rfl⟩ | ⟨first, chunk, rfl, foldable⟩
  · rfl
  · have present := filled l (by simp)
    rw [List.flatMap_append, List.flatMap_singleton, List.getLast?_append_of_ne_nil _ present]
      at separate ⊢
    exact separate
  · obtain ⟨d, rest, rfl, -⟩ := foldable.exists_cons ascii
    rw [List.flatMap_append, List.getLast?_append_of_ne_nil _ (by simp [Lexeme.text])]
    rcases foldable.after with ended | apart
    · exact ended
    · rw [List.map_cons, List.head?_cons, Option.any_some, Lexeme.outline, word] at apart
      cases apart

theorem exists_callCut {function : Text} (called : IsAsciiWord function)
    (folded : Folded name stays [] ls ms) (filled : ∀ l ∈ ls, l.text ≠ [])
    {before arguments after : List Lexeme} {written : Text}
    (cut : CallCut function before written arguments)
    (read : ms = before ++ (callLexemes written arguments ++ after)) :
    ∃ first inner rest, ls = first ++ (callLexemes written inner ++ rest) ∧
      CallCut function first written inner ∧
      Folding name (first ++ (written ++ ['(']).map .code) inner arguments ∧
      stays first (callLexemes written inner ++ rest) := by
  have call (inner rest : List Lexeme) : callLexemes written inner ++ rest =
      (written ++ ['(']).map .code ++ (inner ++ ([')'].map .code ++ rest)) := by
    simp [callLexemes]
  subst read
  rw [call] at folded
  obtain ⟨first, _, rfl, -, folded, alike⟩ := folded.exists_append
  obtain ⟨_, rfl, folded, kept⟩ := folded.exists_code
  obtain ⟨inner, _, rfl, inside, folded, -⟩ := folded.exists_append
  obtain ⟨rest, rfl, -, -⟩ := folded.exists_code
  refine ⟨first, inner, rest, by rw [call], ⟨cut.named, ?_, ?_⟩, ?_, ?_⟩
  · obtain ⟨present, letters⟩ := isWordChar_of_spelled called cut.named
    obtain ⟨c, tail, rfl⟩ := List.exists_cons_of_ne_nil present
    exact alike.separate ascii (letters c List.mem_cons_self)
      (fun l member => filled l (by simp [member]))
      cut.separate
  · rw [Balanced, ← inside.closesAlike.level]
    exact cut.balanced
  · exact inside
  · rw [call]
    exact kept (by simp)

end Folded

end

/-! ### Calls that become comments -/

theorem CallCut.foldable {name : Text} (ascii : IsAsciiWord name) {front inner : List Lexeme}
    {written : Text} (cut : CallCut name front written inner) (behind : List Lexeme) :
    Foldable name front (callLexemes written inner) behind := by
  refine ⟨balanced_callLexemes ascii cut.named cut.balanced,
    ⟨written, '(', _, rfl, cut.named, by decide⟩, any_getLast?_outline rfl cut.separate, .inl ?_⟩
  rw [flatMap_text_callLexemes, ← List.cons_append, ← List.append_assoc, List.getLast?_concat]
  decide

theorem Parsed.exists_folded {name : Text} (ascii : IsAsciiWord name) (fragment : List Text → Text)
    {front ls : List Lexeme} {calls : Calls} (parsed : Parsed name front ls calls) :
    ∃ ms, Folded name (StartsNoCall name) front ls ms ∧
      ms.flatMap Lexeme.text = calls.replace fun arguments =>
        some (notSupported (fragment arguments)) := by
  induction parsed with
  | done front => exact ⟨[], .done front, rfl⟩
  | @copy front l ls rest uncalled _ ih =>
      obtain ⟨ms, folded, text⟩ := ih
      refine ⟨l :: ms, .keep uncalled folded, ?_⟩
      rw [Calls.replace_copy, List.flatMap_cons, text]
  | call cut _ _ ihInner ih =>
      obtain ⟨arguments, -, inside⟩ := ihInner
      obtain ⟨ms, folded, text⟩ := ih
      refine ⟨_, .fold (fragment (splitArguments (arguments.flatMap Lexeme.text)))
        (cut.foldable ascii _) folded, ?_⟩
      rw [Calls.replace_call, List.flatMap_cons, text, inside]
      rfl

section

variable {name s t : Text} (ascii : IsAsciiWord name)

include ascii

theorem folded_replaceCalls (fragment : List Text → Text) (s : Text) :
    Folded name (StartsNoCall name) [] (lexemes s) (lexemes (replaceCalls name
      (fun arguments => some (notSupported (fragment arguments))) s)) := by
  have word : ∀ c ∈ name, isWordChar c = true := fun c member => (ascii.2 c member).2
  obtain ⟨ms, folded, text⟩ := (parsed_ofText word s).exists_folded ascii fragment
  have read := (folded.readsAlike ascii []).lexemes_text (by rw [flatMap_text_lexemes])
  rw [text] at read
  rwa [replaceCalls_eq, read]

theorem exists_callCut_of_isCall {function : Text} (called : IsAsciiWord function)
    {stays : List Lexeme → List Lexeme → Prop}
    (folded : Folded name stays [] (lexemes s) (lexemes t))
    {pos close : Nat} (call : IsCall function t pos close) :
    ∃ first written inner rest, lexemes s = first ++ (callLexemes written inner ++ rest) ∧
      CallCut function first written inner ∧ stays first (callLexemes written inner ++ rest) := by
  have word : ∀ c ∈ function, isWordChar c = true := fun c member => (called.2 c member).2
  obtain ⟨front, cut, read⟩ := call.exists_cut word
  obtain ⟨first, inner, rest, source, before, -, kept⟩ :=
    folded.exists_callCut ascii called (text_ne_nil_of_mem_lexemes s) cut read
  exact ⟨first, _, inner, rest, source, before, kept⟩

theorem not_isCall_of_folded (folded : Folded name (StartsNoCall name) [] (lexemes s) (lexemes t))
    (pos close : Nat) : ¬ IsCall name t pos close := by
  intro call
  obtain ⟨first, written, inner, rest, -, cut, uncalled⟩ :=
    exists_callCut_of_isCall ascii ascii folded call
  exact uncalled written inner rest rfl cut

theorem not_isCall_of_folding {function : Text} (called : IsAsciiWord function)
    {stays : List Lexeme → List Lexeme → Prop}
    (folded : Folded name stays [] (lexemes s) (lexemes t))
    (none : ∀ pos close, ¬ IsCall function s pos close) (pos close : Nat) :
    ¬ IsCall function t pos close := by
  intro call
  obtain ⟨first, written, inner, rest, read, cut, -⟩ :=
    exists_callCut_of_isCall ascii called folded call
  exact none _ _ (cut.isCall read)

end

end LiteSql
