import LiteSql.Proofs.RollupMarks
import LiteSql.Proofs.SeparatorClause

/-! Calls that lose their SEPARATOR clause. What takes the place of a call is balanced and has no
clause any more, and no call is there that was not there before. -/

namespace LiteSql

open Unsupported

/-- Lexemes in which no call of a group concatenation has a line comment or a clause among its
arguments. -/
def Settled (ls : List Lexeme) : Prop :=
  ∀ front written inner behind, ls = front ++ (callLexemes written inner ++ behind) →
    CallCut GroupConcat.function front written inner →
      (∀ l ∈ inner, l.isLineComment = false) ∧ ¬ Splits inner

structure Calm (inner : List Lexeme) : Prop where
  closed : Sealed inner
  balanced : Balanced inner
  unsplit : ¬ Splits inner
  settled : Settled inner
  free : RollupFree inner

theorem getLast?_callLexemes (written : Text) (inner : List Lexeme) :
    (callLexemes written inner).getLast? = some (.code ')') := by
  rw [callLexemes, ← List.cons_append, ← List.append_assoc, List.getLast?_concat]

/-- What can stand behind a call that was changed: a comment, if anything. -/
def IsRemark (trail : List Lexeme) : Prop :=
  trail = [] ∨ ∃ fragment, trail = [.code ' ', .literal .blockComment (notSupported fragment)]

theorem Sealed.lexemes_callLexemes {name written : Text} (ascii : IsAsciiWord name)
    (named : spelled name written = true) {inner : List Lexeme} (closed : Sealed inner)
    (rest : Text) :
    lexemes ((callLexemes written inner).flatMap Lexeme.text ++ rest) =
      callLexemes written inner ++ lexemes rest := by
  have letters := (isWordChar_of_spelled ascii named).2
  have plain : ∀ c ∈ written ++ ['('], isPlain c = true := by
    rw [List.forall_mem_append]
    exact ⟨fun c member => isPlain_of_isNeutral (ScanState.isNeutral_of_class (by decide)
      (letters c member)), by decide⟩
  have text : (callLexemes written inner).flatMap Lexeme.text ++ rest =
      (written ++ ['(']) ++ (inner.flatMap Lexeme.text ++ ')' :: rest) := by
    rw [flatMap_text_callLexemes]
    simp
  have close : lexemes (')' :: rest) = .code ')' :: lexemes rest :=
    lexemes_append_of_leads (Lexeme.leads_code_of_isPlain ')' (by decide) rest)
  rw [text, lexemes_append_of_isPlain _ _ plain, closed.read (')' :: rest) rfl, close, callLexemes]
  simp

namespace IsRemark

variable {trail : List Lexeme} (remark : IsRemark trail)

include remark

theorem exists_append {ms a behind : List Lexeme} {c : Char} (word : isWordChar c = true)
    (read : trail ++ ms = a ++ .code c :: behind) : ∃ rest, a = trail ++ rest ∧
      ms = rest ++ .code c :: behind := by
  rcases remark with rfl | ⟨fragment, rfl⟩
  · exact ⟨a, rfl, read⟩
  · cases a with
    | nil =>
        cases read
        cases word
    | cons l a =>
        cases a with
        | nil => cases read
        | cons l' a =>
            cases read
            exact ⟨a, rfl, rfl⟩

theorem balanced : Balanced trail := by
  rcases remark with rfl | ⟨fragment, rfl⟩
  · rfl
  · rfl

theorem plain : ∀ l ∈ trail, l.isLineComment = false := by
  rcases remark with rfl | ⟨fragment, rfl⟩
  · exact List.forall_mem_nil _
  · simp [Lexeme.isLineComment]

theorem read (rest : Text) : lexemes (trail.flatMap Lexeme.text ++ rest) =
    trail ++ lexemes rest := by
  rcases remark with rfl | ⟨fragment, rfl⟩
  · rfl
  · have text : [Lexeme.code ' ', .literal .blockComment (notSupported fragment)].flatMap
        Lexeme.text ++ rest =
        (Lexeme.code ' ').text ++ ((Lexeme.literal .blockComment (notSupported fragment)).text ++
          rest) := by
      simp
    rw [text, lexemes_append_of_leads (Lexeme.leads_code_of_isPlain ' ' (by decide) _),
      lexemes_append_of_leads (leads_notSupported fragment rest)]
    rfl

theorem exists_getLast? (written : Text) (inner : List Lexeme) :
    ∃ l, (callLexemes written inner ++ trail).getLast? = some l ∧
      (l = .code ')' ∨ ∃ fragment, l = .literal .blockComment (notSupported fragment)) := by
  rcases remark with rfl | ⟨fragment, rfl⟩
  · exact ⟨_, by rw [List.append_nil, getLast?_callLexemes], .inl rfl⟩
  · exact ⟨_, by rw [List.getLast?_append]; rfl, .inr ⟨fragment, rfl⟩⟩

end IsRemark

/-- Lexemes in which calls of a group concatenation have other arguments. No call is kept as it is.
-/
inductive Regrouped : (front ls ms : List Lexeme) → Prop
  | done (front : List Lexeme) : Regrouped front [] []
  | keep {front : List Lexeme} {l : Lexeme} {ls ms : List Lexeme} :
    StartsNoCall GroupConcat.function front (l :: ls) → Regrouped (front ++ [l]) ls ms →
      Regrouped front (l :: ls) (l :: ms)
  | call {front inner arguments trail ls ms : List Lexeme} {written name : Text} :
    CallCut GroupConcat.function front written inner → spelled GroupConcat.function name = true →
      Calm arguments → IsRemark trail → Regrouped (front ++ callLexemes written inner) ls ms →
      Regrouped front (callLexemes written inner ++ ls)
        (callLexemes name arguments ++ (trail ++ ms))

/-- Whether lexemes end alike, as far as it matters for what follows. Neither parentheses nor
comments matter. -/
def EndsSame (front early : List Lexeme) : Prop :=
  ∀ q : Lexeme → Bool, (∀ c ∈ ['(', ')'], q (.code c) = false) →
    (∀ fragment, q (.literal .blockComment (notSupported fragment)) = false) →
      front.getLast?.any q = early.getLast?.any q

namespace EndsSame

theorem append_singleton (front early : List Lexeme) (l : Lexeme) :
    EndsSame (front ++ [l]) (early ++ [l]) := by
  intro q _ _
  rw [List.getLast?_concat, List.getLast?_concat]

theorem call (front inner : List Lexeme) (written : Text) (early : List Lexeme)
    {others : List Lexeme}
    {l : Lexeme} (last : others.getLast? = some l)
    (ended : l = .code ')' ∨ ∃ fragment, l = .literal .blockComment (notSupported fragment)) :
    EndsSame (front ++ callLexemes written inner) (early ++ others) := by
  intro q parens comments
  rw [List.getLast?_append, getLast?_callLexemes, List.getLast?_append, last, Option.some_or,
    Option.some_or, Option.any_some, Option.any_some, parens ')' (by simp)]
  rcases ended with rfl | ⟨fragment, rfl⟩
  · rw [parens ')' (by simp)]
  · rw [comments fragment]

theorem opened (front first : List Lexeme) : EndsSame first (front ++ .code '(' :: first) := by
  intro q parens _
  rcases List.eq_nil_or_concat first with rfl | ⟨first, l, rfl⟩
  · rw [List.getLast?_concat, Option.any_some, parens '(' (by simp)]
    rfl
  · rw [List.concat_eq_append, List.getLast?_concat, ← List.cons_append, ← List.append_assoc,
      List.getLast?_concat]

theorem separate {front early : List Lexeme} (same : EndsSame front early)
    (present : ∀ l ∈ front, l.text ≠ [])
    (filled : ∀ l ∈ early, l.text ≠ [])
    (apart : (early.flatMap Lexeme.text).getLast?.any continuesName = false) :
    (front.flatMap Lexeme.text).getLast?.any continuesName = false := by
  rw [← endsIn_eq continuesName filled] at apart
  rw [← endsIn_eq continuesName present, endsIn, same, ← endsIn, apart]
  · exact fun c paren => (by decide : ∀ c ∈ ['(', ')'], continuesName c = false) c paren
  · intro fragment
    rw [Lexeme.text, notSupported, List.getLast?_append_of_ne_nil _ (by decide)]
    decide

theorem outline {front early : List Lexeme} (same : EndsSame front early) :
    (front.map Lexeme.outline).getLast?.any isWordChar =
    (early.map Lexeme.outline).getLast?.any isWordChar := by
  rw [List.getLast?_map, List.getLast?_map, Option.any_map, Option.any_map]
  refine same _ (fun c paren => ?_) fun _ => rfl
  exact (by decide : ∀ c ∈ ['(', ')'], isWordChar c = false) c paren

end EndsSame

theorem callLexemes_cut {name : Text} (ascii : IsAsciiWord name) {written : Text}
    (named : spelled name written = true) {inner front behind : List Lexeme} {c : Char}
    (word : isWordChar c = true) (cut : callLexemes written inner = front ++ .code c :: behind)
    (apart : (front.map Lexeme.outline).getLast?.any isWordChar = false) :
    front = [] ∨ ∃ first second, front = written.map .code ++ .code '(' :: first ∧
      inner = first ++ .code c :: second ∧ behind = second ++ [.code ')'] := by
  have parens : ∀ d ∈ ['(', ')'], isWordChar d = false := by decide
  rw [callLexemes] at cut
  rcases List.append_eq_append_iff.mp cut with ⟨b, rfl, rest⟩ | ⟨b, early, rest⟩
  · cases b with
    | nil =>
        cases (List.cons.inj rest).1
        rw [parens '(' (by simp)] at word
        cases word
    | cons l first =>
        obtain ⟨rfl, -⟩ := List.cons.inj rest
        have next : inner ++ [.code ')'] = first ++ .code c :: behind := (List.cons.inj rest).2
        rcases List.eq_nil_or_concat behind with rfl | ⟨second, last, rfl⟩
        · cases (List.append_inj' next rfl).2
          rw [parens ')' (by simp)] at word
          cases word
        · rw [List.concat_eq_append, ← List.cons_append, ← List.append_assoc] at next
          obtain ⟨rfl, close⟩ := List.append_inj' next rfl
          cases close
          exact .inr ⟨first, second, rfl, rfl, List.concat_eq_append⟩
  · -- inside the name a word would go on
    refine .inl (Classical.byContradiction fun present => ?_)
    obtain ⟨x, y, rfl, rfl, rfl⟩ := List.map_eq_append_iff.mp early
    have filled : x ≠ [] := by simpa using present
    have letter := (isWordChar_of_spelled ascii named).2 (x.getLast filled)
      (List.mem_append_left _ (List.getLast_mem filled))
    rw [map_outline_map_code, List.getLast?_eq_some_getLast filled, Option.any_some,
      letter] at apart
    cases apart

theorem isAsciiWord_groupConcat : IsAsciiWord GroupConcat.function := by decide

/-- Where a word can stand in lexemes whose calls have other arguments: between the pieces, or among
the arguments of a call. -/
def Placed (front ls early before : List Lexeme) (c : Char) (behind : List Lexeme) : Prop :=
  (∃ first rest, ls = first ++ rest ∧ Regrouped (front ++ first) rest (.code c :: behind) ∧
    EndsSame (front ++ first) (early ++ before)) ∨
  ∃ first second more, Calm (first ++ .code c :: second) ∧ behind = second ++ .code ')' :: more ∧
    EndsSame first (early ++ before)

theorem Placed.append {front chunk ls early others before behind : List Lexeme} {c : Char}
    (placed : Placed (front ++ chunk) ls (early ++ others) before c behind) :
    Placed front (chunk ++ ls) early (others ++ before) c behind := by
  rcases placed with ⟨first, rest, rfl, regrouped, same⟩ | ⟨first, second, more, calm, rfl, same⟩
  · refine .inl ⟨chunk ++ first, rest, by rw [List.append_assoc], ?_, ?_⟩
    · rwa [← List.append_assoc]
    · rwa [← List.append_assoc, ← List.append_assoc]
  · exact .inr ⟨first, second, more, calm, rfl, by rwa [← List.append_assoc]⟩

namespace Regrouped

variable {front ls ms : List Lexeme}

theorem placed (regrouped : Regrouped front ls ms) {early before behind : List Lexeme} {c : Char}
    (same : EndsSame front early) (read : ms = before ++ .code c :: behind)
    (word : isWordChar c = true)
    (apart : ((early ++ before).map Lexeme.outline).getLast?.any isWordChar = false) :
    Placed front ls early before c behind := by
  -- a word at the start of a piece stands between the pieces
  have here {front ls early : List Lexeme} (regrouped : Regrouped front ls (.code c :: behind))
      (same : EndsSame front early) : Placed front ls early [] c behind := by
    refine .inl ⟨[], ls, rfl, ?_, ?_⟩
    · rwa [List.append_nil]
    · rwa [List.append_nil, List.append_nil]
  induction regrouped generalizing early before with
  | done front => simp at read
  | @keep front l ls ms uncalled later ih =>
      cases before with
      | nil =>
          cases read
          exact here (.keep uncalled later) same
      | cons l' before =>
          cases read
          have next := ih (.append_singleton front early l) rfl (by rwa [← List.append_cons])
          exact next.append
  | @call front inner arguments trail ls ms written name cut named calm remark later ih =>
      -- behind the call and its comment
      have after (a : List Lexeme) (rest : trail ++ ms = a ++ .code c :: behind)
          (split : before = callLexemes name arguments ++ a) :
          Placed front (callLexemes written inner ++ ls) early before c behind := by
        obtain ⟨a, rfl, tail⟩ := remark.exists_append word rest
        obtain ⟨l, last, ended⟩ := remark.exists_getLast? name arguments
        rw [← List.append_assoc] at split
        subst split
        have next := ih (.call front inner written early last ended) tail
          (by rwa [List.append_assoc])
        exact next.append
      rcases List.append_eq_append_iff.mp read with ⟨a, split, rest⟩ | ⟨a, split, rest⟩
      · exact after a rest split
      · cases a with
        | nil => exact after [] rest.symm (by rw [split]; simp)
        | cons l a =>
            cases rest
            have alone : (before.map Lexeme.outline).getLast?.any isWordChar = false := by
              cases before with
              | nil => rfl
              | cons l before =>
                  rwa [List.map_append, List.getLast?_append_of_ne_nil _ (by simp)] at apart
            rcases callLexemes_cut isAsciiWord_groupConcat named word split alone with
              rfl | ⟨first, second, rfl, rfl, rfl⟩
            · have whole := Regrouped.call cut named calm remark later
              rw [split] at whole
              exact here whole same
            · refine .inr ⟨first, second, trail ++ ms, calm, by simp, ?_⟩
              rw [← List.append_assoc]
              exact .opened _ first

theorem keepsWords : KeepsWords Regrouped where
  next regrouped inside := by
    cases regrouped with
    | done => exact .inl ⟨rfl, rfl⟩
    | keep _ later => exact .inr ⟨_, _, _, rfl, rfl, later⟩
    | call cut _ _ _ _ =>
        rw [any_getLast?_outline rfl cut.separate] at inside
        cases inside

theorem starts {c : Char} (regrouped : Regrouped front ls (.code c :: ms)) :
    (∃ rest, ls = Lexeme.code c :: rest ∧ StartsNoCall GroupConcat.function front ls ∧
        Regrouped (front ++ [.code c]) rest ms) ∨
      ∃ name arguments more, spelled GroupConcat.function name = true ∧ Calm arguments ∧
        Lexeme.code c :: ms = callLexemes name arguments ++ more := by
  generalize read : Lexeme.code c :: ms = whole at regrouped ⊢
  cases regrouped with
  | done => cases read
  | keep uncalled later =>
      cases read
      exact .inl ⟨_, rfl, uncalled, later⟩
  | call _ named calm _ _ => exact .inr ⟨_, _, _, named, calm, rfl⟩

theorem closesAlike (regrouped : Regrouped front ls ms) : ClosesAlike ls ms := by
  induction regrouped with
  | done => exact .nil
  | keep _ _ ih => exact ih.cons _
  | call cut named calm remark _ ih =>
      have old := balanced_callLexemes isAsciiWord_groupConcat cut.named cut.balanced
      have new := balanced_callLexemes isAsciiWord_groupConcat named calm.balanced
      rw [← List.append_assoc]
      exact ih.append old (new.append remark.balanced)

theorem exists_calm {written : Text} {inner behind : List Lexeme}
    (regrouped : Regrouped front ls (callLexemes written inner ++ behind))
    (cut : CallCut GroupConcat.function front written inner) : Calm inner := by
  generalize read : callLexemes written inner ++ behind = whole at regrouped
  cases regrouped with
  | done => simp [callLexemes] at read
  | keep uncalled later =>
      have none := keepsWords.startsNoCall closesAlike isAsciiWord_groupConcat uncalled later id
      exact absurd cut (none written inner behind read.symm)
  | call _ named calm _ _ =>
      rw [(callLexemes_inj cut.named named cut.balanced calm.balanced read).2.1]
      exact calm

theorem settled (regrouped : Regrouped [] ls ms) (present : ∀ l ∈ ls, l.text ≠ [])
    (filled : ∀ l ∈ ms, l.text ≠ []) : Settled ms := by
  intro front written inner behind read cut
  obtain ⟨somewhat, letters⟩ := isWordChar_of_spelled isAsciiWord_groupConcat cut.named
  obtain ⟨c, name, rfl⟩ := List.exists_cons_of_ne_nil somewhat
  have apart := any_getLast?_outline rfl cut.separate
  have alike {first : List Lexeme} (same : EndsSame first front)
      (present : ∀ l ∈ first, l.text ≠ []) :
      (first.flatMap Lexeme.text).getLast?.any continuesName = false :=
    same.separate present (fun l member => filled l (by simp [read, member])) cut.separate
  rcases regrouped.placed (fun _ _ _ => rfl) read (letters c List.mem_cons_self) apart with
    ⟨first, rest, rfl, whole, same⟩ | ⟨first, second, more, calm, tail, same⟩
  · have calm := whole.exists_calm ⟨cut.named, alike same fun l member =>
      present l (List.mem_append_left _ member), cut.balanced⟩
    exact ⟨calm.closed.plain, calm.unsplit⟩
  · have inside := calm.closed.text_ne_nil
    have piece : (Lexeme.code c :: second) ++ .code ')' :: more =
        callLexemes (c :: name) inner ++ behind :=
      congrArg (Lexeme.code c :: ·) tail.symm
    obtain ⟨z, arguments, -⟩ := calm.balanced.exists_append
      (balanced_callLexemes isAsciiWord_groupConcat cut.named cut.balanced) piece
    rw [arguments] at calm inside
    exact calm.settled first (c :: name) inner z rfl
      ⟨cut.named, alike same fun l member => inside l (by simp [member]), cut.balanced⟩

theorem exists_word {v : Text} (present : v ≠ []) (letters : ∀ c ∈ v, isWordChar c = true)
    (other : v.length ≠ GroupConcat.function.length)
    (apart : (ms.map Lexeme.outline).head?.any isWordChar = false)
    (regrouped : Regrouped front ls (v.map .code ++ ms)) :
    ∃ rest, ls = v.map .code ++ rest ∧ Regrouped (front ++ v.map .code) rest ms ∧
      ((front ++ v.map Lexeme.code).map Lexeme.outline).getLast?.any isWordChar = true := by
  obtain ⟨c, v, rfl⟩ := List.exists_cons_of_ne_nil present
  rcases regrouped.starts with ⟨rest, rfl, -, later⟩ | ⟨name, arguments, more, named, -, same⟩
  · obtain ⟨letter, others⟩ := List.forall_mem_cons.mp letters
    obtain ⟨rest, rfl, later, inside⟩ := keepsWords.exists_word letter others later
    exact ⟨rest, rfl, later, inside⟩
  · have letters' := (isWordChar_of_spelled isAsciiWord_groupConcat named).2
    have text : ((c :: v).map Lexeme.code ++ ms).map Lexeme.outline =
        (callLexemes name arguments ++ more).map Lexeme.outline := congrArg _ same
    rw [callLexemes, List.append_assoc, List.map_append, map_outline_map_code, List.map_append,
      map_outline_map_code] at text
    have whole := Pattern.eq_of_words text letters letters' apart
      (show isWordChar '(' = false by decide)
    exact absurd (by rw [whole, ((spelled_iff _ _).mp named).2]) other

theorem exists_blanks {x : Text} (blank : ∀ c ∈ x, isBlank c = true)
    (regrouped : Regrouped front ls (x.map .code ++ ms)) :
    ∃ rest, ls = x.map .code ++ rest ∧ Regrouped (front ++ x.map .code) rest ms := by
  induction x generalizing front ls with
  | nil => exact ⟨ls, rfl, by simpa using regrouped⟩
  | cons c x ih =>
      rcases regrouped.starts with ⟨rest, rfl, -, later⟩ | ⟨name, arguments, more, named, -, same⟩
      · obtain ⟨rest, rfl, goes⟩ :=
          ih (fun d member => blank d (List.mem_cons_of_mem c member)) later
        rw [List.append_assoc] at goes
        exact ⟨rest, rfl, goes⟩
      · -- a call starts with a letter
        obtain ⟨present, letters⟩ := isWordChar_of_spelled isAsciiWord_groupConcat named
        obtain ⟨d, name, rfl⟩ := List.exists_cons_of_ne_nil present
        cases (List.cons.inj same).1
        have letter := letters c List.mem_cons_self
        rw [isWordChar_of_isBlank (blank c List.mem_cons_self)] at letter
        cases letter

theorem exists_rollupWords {x : Text} (words : RollupWords x)
    (apart : (ms.map Lexeme.outline).head?.any isWordChar = false)
    (regrouped : Regrouped front ls (x.map .code ++ ms)) :
    ∃ rest, ls = x.map .code ++ rest ∧ (rest.map Lexeme.outline).head?.any isWordChar = false := by
  obtain ⟨u, gap, v, rfl, first, second, present, blank⟩ := words
  obtain ⟨early, letters⟩ := isWordChar_of_spelled isAsciiWord_with first
  obtain ⟨late, letters'⟩ := isWordChar_of_spelled isAsciiWord_rollup second
  have short : GroupConcat.function.length ∉ ["WITH".length, "ROLLUP".length] := by decide
  simp only [List.mem_cons, List.not_mem_nil, or_false, not_or] at short
  rw [List.map_append, List.map_append, List.append_assoc, List.append_assoc] at regrouped
  obtain ⟨_, rfl, later, -⟩ := regrouped.exists_word early letters
    (by rw [((spelled_iff _ _).mp first).2]; exact Ne.symm short.1) (by
      obtain ⟨c, gap, rfl⟩ := List.exists_cons_of_ne_nil present
      exact isWordChar_of_isBlank (blank c List.mem_cons_self))
  obtain ⟨_, rfl, last⟩ := later.exists_blanks blank
  obtain ⟨rest, rfl, goes, inside⟩ := last.exists_word late letters'
    (by rw [((spelled_iff _ _).mp second).2]; exact Ne.symm short.2) apart
  refine ⟨rest, by simp, ?_⟩
  rw [List.head?_map, keepsWords.head?_eq goes inside, ← List.head?_map]
  exact apart

theorem rollupFree (regrouped : Regrouped [] ls ms) (free : RollupFree ls) : RollupFree ms := by
  intro front x behind read rollup
  obtain ⟨starts, -⟩ := rollup.words.ends
  obtain ⟨c, y, rfl⟩ := List.exists_cons_of_ne_nil rollup.words.ne_nil
  rcases regrouped.placed (fun _ _ _ => rfl) read starts rollup.before with
    ⟨first, rest, rfl, whole, same⟩ | ⟨first, second, more, calm, tail, same⟩
  · obtain ⟨rest, rfl, after⟩ := whole.exists_rollupWords rollup.words rollup.after
    exact free first (c :: y) rest rfl ⟨rollup.words, same.outline.trans rollup.before, after⟩
  · have piece : (Lexeme.code c :: second) ++ .code ')' :: more = (c :: y).map .code ++ behind :=
      congrArg (Lexeme.code c :: ·) tail.symm
    obtain ⟨z, arguments, rfl⟩ := calm.balanced.exists_append rollup.words.balanced piece
    rw [arguments] at calm
    refine calm.free first (c :: y) z rfl ⟨rollup.words, same.outline.trans rollup.before, ?_⟩
    have after := rollup.after
    cases z with
    | nil => rfl
    | cons l z => exact after

theorem readsAlike (regrouped : Regrouped front ls ms) (rest : Text) : ReadsAlike ls ms rest := by
  induction regrouped with
  | done => exact .nil rest
  | keep _ _ ih => exact ih.cons _
  | @call front inner arguments trail ls ms written name cut named calm remark _ ih =>
      rw [← List.append_assoc]
      refine ih.append (fun t => ?_) fun s t => ?_
      · rw [List.flatMap_append, List.append_assoc,
          calm.closed.lexemes_callLexemes isAsciiWord_groupConcat named, remark.read,
          List.append_assoc]
      · obtain ⟨present, letters⟩ := isWordChar_of_spelled isAsciiWord_groupConcat cut.named
        obtain ⟨present', letters'⟩ := isWordChar_of_spelled isAsciiWord_groupConcat named
        obtain ⟨c, written, rfl⟩ := List.exists_cons_of_ne_nil present
        obtain ⟨d, name, rfl⟩ := List.exists_cons_of_ne_nil present'
        exact .of_letter (letters c List.mem_cons_self)
          (not_mem_special_of_isWordChar (letters' d List.mem_cons_self)) _ _

theorem plain (regrouped : Regrouped front ls ms) (source : ∀ l ∈ ls, l.isLineComment = false) :
    ∀ l ∈ ms, l.isLineComment = false := by
  induction regrouped with
  | done => exact source
  | keep _ _ ih =>
      rw [List.forall_mem_cons] at source ⊢
      exact ⟨source.1, ih source.2⟩
  | call _ _ calm remark _ ih =>
      rw [List.forall_mem_append] at source
      simp only [callLexemes, List.forall_mem_append, List.forall_mem_cons, List.forall_mem_map]
      exact ⟨⟨fun _ _ => rfl, rfl, calm.closed.plain, rfl, List.forall_mem_nil _⟩, remark.plain,
        ih source.2⟩

theorem sealed (regrouped : Regrouped front ls ms) (source : Sealed ls) : Sealed ms where
  plain := regrouped.plain source.plain
  read rest neutral := (regrouped.readsAlike rest (source.read rest neutral)).1

end Regrouped

end LiteSql
