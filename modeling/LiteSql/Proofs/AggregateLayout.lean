import LiteSql.Proofs.NeatList
import LiteSql.Proofs.MarkStability

/-! The layout of aggregate queries. Only the calls of a group concatenation are written anew, and
what is written is in normal form on every level, so that a second layout changes nothing. -/

namespace LiteSql

/-! ### Calls in normal form -/

def AllNeat (ls : List Lexeme) : Prop :=
  ∀ front written inner behind, ls = front ++ (callLexemes written inner ++ behind) →
    CallCut GroupConcat.function front written inner → written = GroupConcat.function ∧ Neat inner

theorem callLexemes_append (front : List Lexeme) (written : Text) (inner behind : List Lexeme) :
    front ++ (callLexemes written inner ++ behind) =
      (front ++ written.map .code) ++ .code '(' :: (inner ++ .code ')' :: behind) := by
  simp [callLexemes]

/-- Changes of lexemes that go over no parenthesis, bring no name and keep what is in normal form.
-/
structure Gentle (change : List Lexeme → List Lexeme) : Prop where
  cut : ∀ {ls p q : List Lexeme} {c : Char}, c ∈ ['(', ')'] → change ls = p ++ .code c :: q →
    ∃ a b, ls = a ++ .code c :: b ∧ change a = p ∧ change b = q
  word : ∀ {ls p : List Lexeme} {w : Text}, w ≠ [] → (∀ c ∈ w, isWordChar c = true) →
    endsIn continuesName p = false → change ls = p ++ w.map .code →
      ∃ a, ls = a ++ w.map .code ∧ endsIn continuesName a = false
  level : ∀ ls, levelAfter 0 (change ls) = levelAfter 0 ls
  neat : ∀ {ls : List Lexeme}, Neat ls → change ls = ls

theorem AllNeat.change {change : List Lexeme → List Lexeme} (gentle : Gentle change)
    {ls : List Lexeme}
    (all : AllNeat ls) (present : ∀ l ∈ ls, l.text ≠ []) (filled : ∀ l ∈ change ls, l.text ≠ []) :
    AllNeat (change ls) := by
  intro front written inner behind whole cut
  obtain ⟨somewhat, letters⟩ := isWordChar_of_spelled isAsciiWord_groupConcat cut.named
  have apart := cut.separate
  rw [← endsIn_eq _ fun l member => filled l (by simp [whole, member])] at apart
  rw [callLexemes_append] at whole
  obtain ⟨a, b, rfl, early, late⟩ := gentle.cut (by decide) whole
  obtain ⟨arguments, rest, rfl, inside, -⟩ := gentle.cut (by decide) late
  obtain ⟨a, rfl, separate⟩ := gentle.word somewhat letters apart early
  rw [endsIn_eq _ fun l member => present l (by simp [member])] at separate
  obtain ⟨same, neat⟩ := all a written arguments rest (callLexemes_append ..).symm
    ⟨cut.named, separate, by rw [Balanced, ← gentle.level, inside]; exact cut.balanced⟩
  refine ⟨same, ?_⟩
  rw [← inside, gentle.neat neat]
  exact neat

theorem exists_of_squeeze_append {ls p q : List Lexeme} {l : Lexeme} (solid : l.isBlank = false)
    (cut : squeeze ls = p ++ l :: q) : ∃ a b, ls = a ++ l :: b ∧ squeeze a = p ∧ squeeze b = q := by
  induction ls generalizing p with
  | nil => simp [squeeze] at cut
  | cons m ls ih =>
      rw [squeeze] at cut
      split at cut
      · next blank =>
          split at cut
          · next more =>
              obtain ⟨a, b, rfl, rfl, rfl⟩ := ih cut
              refine ⟨m :: a, b, rfl, ?_, rfl⟩
              cases a with
              | nil => simp [solid] at more
              | cons n a => rw [squeeze, if_pos blank, if_pos (by exact more)]
          · next last =>
              cases p with
              | nil =>
                  obtain ⟨rfl, -⟩ := List.cons.inj cut
                  exact absurd solid (by decide)
              | cons n p =>
                  obtain ⟨rfl, later⟩ := List.cons.inj cut
                  obtain ⟨a, b, rfl, rfl, rfl⟩ := ih later
                  refine ⟨m :: a, b, rfl, ?_, rfl⟩
                  cases a with
                  | nil => exact if_pos blank
                  | cons n a => rw [squeeze, if_pos blank, if_neg (by exact last)]
      · next filled =>
          rw [Bool.not_eq_true] at filled
          cases p with
          | nil =>
              obtain ⟨rfl, rfl⟩ := List.cons.inj cut
              exact ⟨[], ls, rfl, rfl, rfl⟩
          | cons n p =>
              obtain ⟨rfl, later⟩ := List.cons.inj cut
              obtain ⟨a, b, rfl, rfl, rfl⟩ := ih later
              exact ⟨m :: a, b, rfl, squeeze_cons_filled filled a, rfl⟩

theorem eq_of_squeeze_solid {ls ms : List Lexeme} (solid : ∀ l ∈ ms, l.isBlank = false)
    (same : squeeze ls = ms) :
    ls = ms := by
  induction ms generalizing ls with
  | nil =>
      cases ls with
      | nil => rfl
      | cons l ls =>
          have first := head?_squeeze (l :: ls)
          simp [same] at first
  | cons m ms ih =>
      obtain ⟨here, later⟩ := List.forall_mem_cons.mp solid
      obtain ⟨a, b, rfl, none, rest⟩ := exists_of_squeeze_append here (p := []) same
      rw [ih later rest]
      cases a with
      | nil => rfl
      | cons l a =>
          have first := head?_squeeze (l :: a)
          simp [none] at first

theorem endsIn_squeeze {p : Char → Bool} (blank : ∀ c, isBlank c = true → p c = false)
    (ls : List Lexeme) :
    endsIn p (squeeze ls) = endsIn p ls := by
  have grow {l m : Lexeme} {ms : List Lexeme} : endsIn p (l :: m :: ms) = endsIn p (m :: ms) := by
    rw [endsIn, endsIn, List.getLast?_cons_cons]
  induction ls with
  | nil => rfl
  | cons l ls ih =>
      cases ls with
      | nil =>
          rw [show squeeze [l] = if l.isBlank then [.code ' '] else [l] from rfl]
          split
          · next space =>
              cases l with
              | code c => simp [endsIn, Lexeme.text, blank c space, blank ' ' (by decide)]
              | literal kind text => cases space
          · rfl
      | cons m ls =>
          obtain ⟨n, ns, more⟩ : ∃ n ns, squeeze (m :: ls) = n :: ns := by
            apply List.exists_cons_of_ne_nil
            intro none
            have first := head?_squeeze (m :: ls)
            simp [none] at first
          rw [grow, ← ih]
          rw [squeeze]
          split
          · split
            · rfl
            · rw [more, grow]
          · rw [more, grow]

theorem gentle_squeeze : Gentle squeeze where
  cut {ls p q c} paren whole := by
    have solid : ∀ c ∈ ['(', ')'], (Lexeme.code c).isBlank = false := by decide
    exact exists_of_squeeze_append (solid c paren) whole
  word {ls p w} present letters apart whole := by
    have solid : ∀ l ∈ w.map Lexeme.code, l.isBlank = false := by
      simp only [List.forall_mem_map]
      exact fun c member => isBlank_of_isWordChar (letters c member)
    obtain ⟨c, w, rfl⟩ := List.exists_cons_of_ne_nil present
    obtain ⟨a, b, rfl, rfl, rest⟩ := exists_of_squeeze_append (solid (.code c) (by simp)) whole
    rw [eq_of_squeeze_solid (fun l member => solid l (List.mem_cons_of_mem _ member)) rest]
    rw [endsIn_squeeze excludes_continuesName.2] at apart
    exact ⟨a, rfl, apart⟩
  level ls := by rw [← levelAfter_filled, filled_squeeze, levelAfter_filled]
  neat neat := squeeze_eq_self neat.squeezed

theorem gentle_tighten : Gentle tighten where
  cut {ls p q c} paren whole := by
    have broken : ∀ c ∈ ['(', ')'], (Lexeme.code c).isBreak = true := by decide
    exact exists_of_tighten_append (broken c paren) whole
  word {ls p w} present letters apart whole := by
    have other : p.getLast? ≠ some (.code '.') := by
      intro last
      rw [endsIn, last] at apart
      exact absurd apart (by decide)
    obtain ⟨a, rfl, rfl⟩ := exists_of_tighten_word present letters other whole
    rw [endsIn, getLast?_tighten] at apart
    exact ⟨a, rfl, apart⟩
  level ls := by rw [← levelAfter_filled, filled_tighten, levelAfter_filled]
  neat neat := neat.tight

theorem eq_map_code_of_closed {x : List Lexeme} {w : Text}
    (same : x.map Lexeme.closed = w.map .code) :
    x = w.map .code := by
  induction w generalizing x with
  | nil => exact List.map_eq_nil_iff.mp same
  | cons c w ih =>
      obtain ⟨l, x, rfl, here, later⟩ := List.map_eq_cons_iff.mp same
      rw [Lexeme.closed_eq_code_iff.mp here, ih later]
      rfl

theorem endsIn_of_map_closed {a rest : List Lexeme} {c : Char} {s : Text}
    (read : lexemes s = a ++ .code c :: rest)
    (word : isWordChar c = true) (apart : endsIn continuesName (a.map Lexeme.closed) = false) :
    endsIn continuesName a = false := by
  rcases List.eq_nil_or_concat a with rfl | ⟨front, l, rfl⟩
  · rfl
  · rw [List.concat_eq_append] at read apart ⊢
    cases comment : l.isLineComment with
    | false => simpa [endsIn, Lexeme.closed_of_plain comment] using apart
    | true =>
        obtain ⟨text, rfl⟩ := exists_eq_lineComment comment
        rw [List.append_assoc] at read
        obtain ⟨-, later⟩ := lexemes_of_append read
        obtain ⟨tail, whole, leads, -⟩ := exists_leads_of_lexemes_eq_cons later
        rw [List.singleton_append, List.flatMap_cons, List.append_cancel_left_eq] at whole
        rcases head?_of_leads_lineComment leads with none | feed
        · simp [← whole, Lexeme.text] at none
        · rw [← whole] at feed
          cases feed
          exact absurd word (by decide)

theorem AllNeat.map_closed {ls : List Lexeme} {rest : Text} (all : AllNeat ls) (present : rest ≠ [])
    (read : lexemes (ls.flatMap Lexeme.text ++ rest) = ls ++ lexemes rest) :
      AllNeat (ls.map Lexeme.closed) := by
  intro front written inner behind whole cut
  obtain ⟨somewhat, letters⟩ := isWordChar_of_spelled isAsciiWord_groupConcat cut.named
  have apart := cut.separate
  have filled := (sealed_map_closed present read).text_ne_nil
  rw [← endsIn_eq _ fun l member => filled l (by simp [whole, member])] at apart
  rw [callLexemes_append, List.append_assoc] at whole
  obtain ⟨a, b, rfl, rfl, tail⟩ := List.map_eq_append_iff.mp whole
  obtain ⟨w, b, rfl, name, tail⟩ := List.map_eq_append_iff.mp tail
  obtain ⟨l, b, rfl, opened, tail⟩ := List.map_eq_cons_iff.mp tail
  obtain ⟨arguments, b, rfl, inside, tail⟩ := List.map_eq_append_iff.mp tail
  obtain ⟨m, late, rfl, ended, -⟩ := List.map_eq_cons_iff.mp tail
  obtain rfl := Lexeme.closed_eq_code_iff.mp opened
  obtain rfl := Lexeme.closed_eq_code_iff.mp ended
  obtain rfl := eq_map_code_of_closed name
  have separate : endsIn continuesName a = false := by
    obtain ⟨c, w, rfl⟩ := List.exists_cons_of_ne_nil somewhat
    rw [List.append_assoc] at read
    exact endsIn_of_map_closed read (letters c List.mem_cons_self) apart
  rw [endsIn_eq _ fun l member => text_ne_nil_of_mem_lexemes _ l (by rw [read]; simp [member])]
    at separate
  obtain ⟨same, neat⟩ := all a written arguments late
    (by rw [callLexemes_append, List.append_assoc])
    ⟨cut.named, separate, by rw [Balanced, ← levelAfter_map_closed, inside]; exact cut.balanced⟩
  refine ⟨same, ?_⟩
  rwa [← inside, neat.closed.map_closed]

theorem Respaced.allNeat {xs ys : List Lexeme} (respaced : Respaced xs ys)
    (present : ∀ l ∈ xs, l.text ≠ [])
    (filled : ∀ l ∈ ys, l.text ≠ []) (all : AllNeat xs) : AllNeat ys := by
  intro front written inner behind read cut
  obtain ⟨early, late, rfl, same⟩ := respaced.exists_cut
    (compact_callLexemes isAsciiWord_groupConcat cut.named inner)
    read (undivided_callLexemes isAsciiWord_groupConcat cut.named cut.balanced front)
  refine all early written inner late rfl ⟨cut.named, ?_, cut.balanced⟩
  have separate := cut.separate
  rw [← endsIn_eq _ fun l member => filled l (by simp [read, member])] at separate
  rw [← endsIn_eq _ fun l member => present l (by simp [member]),
    same.endsIn_eq excludes_continuesName, separate]

structure Tidy (ls : List Lexeme) : Prop extends Neat ls where
  calls : AllNeat ls

theorem Rejoined.tidy {ls ms : List Lexeme} (rejoined : Rejoined (neaten ls) ms)
    (balanced : Balanced ls) {rest : Text}
    (present : rest ≠ []) (read : lexemes (ls.flatMap Lexeme.text ++ rest) = ls ++ lexemes rest)
    (all : AllNeat ls) :
    Tidy ms := by
  have closed := sealed_map_closed present read
  have neat := rejoined.neat balanced closed
  refine ⟨neat, rejoined.respaced.allNeat closed.squeeze.tighten.text_ne_nil
    neat.closed.text_ne_nil ?_⟩
  exact ((all.map_closed present read).change gentle_squeeze closed.text_ne_nil
    closed.squeeze.text_ne_nil).change
    gentle_tighten closed.squeeze.text_ne_nil closed.squeeze.tighten.text_ne_nil

/-! ### Calls that are written anew -/

/-- Lexemes in which each call of a group concatenation is written anew, with its arguments in
normal form. -/
inductive LaidOut : (front ls ms : List Lexeme) → Prop
  | done (front : List Lexeme) : LaidOut front [] []
  | keep {front : List Lexeme} {l : Lexeme} {ls ms : List Lexeme} :
    StartsNoCall GroupConcat.function front (l :: ls) → LaidOut (front ++ [l]) ls ms →
      LaidOut front (l :: ls) (l :: ms)
  | call {front inner others arguments ls ms : List Lexeme} {written : Text} :
    CallCut GroupConcat.function front written inner → LaidOut [] inner others →
      Rejoined (neaten others) arguments → Tidy arguments →
        LaidOut (front ++ callLexemes written inner) ls ms →
      LaidOut front (callLexemes written inner ++ ls)
        (callLexemes GroupConcat.function arguments ++ ms)

def Renewed (inner arguments : List Lexeme) : Prop :=
  Tidy arguments ∧ ∃ others, LaidOut [] inner others ∧ Rejoined (neaten others) arguments

/-- Whether a call stems from one among lexemes: it is what was written for it, or stands among its
arguments. -/
def Stems (front ls : List Lexeme) (written : Text) (inner : List Lexeme) : Prop :=
  ∃ x source old y arguments, ls = x ++ (callLexemes source old ++ y) ∧
    CallCut GroupConcat.function (front ++ x) source old ∧ Renewed old arguments ∧
    (written = GroupConcat.function ∧ inner = arguments ∨ ∃ first rest,
      arguments = first ++ (callLexemes written inner ++ rest) ∧
        CallCut GroupConcat.function first written inner)

theorem GroupConcat.isWordChar_function : ∀ c ∈ function, isWordChar c = true := by decide

theorem spelled_groupConcat : spelled GroupConcat.function GroupConcat.function = true := by decide

/-- Where a call can stand among lexemes that start with a call: behind it, at its place, or among
its arguments. -/
theorem callLexemes_cases {name written : Text} {arguments ms before inner behind : List Lexeme}
    (named : spelled GroupConcat.function name = true) (level : Balanced arguments)
    (spelling : spelled GroupConcat.function written = true) (balanced : Balanced inner)
    (apart : (before.map Lexeme.outline).getLast?.any isWordChar = false)
    (whole : callLexemes name arguments ++ ms = before ++ (callLexemes written inner ++ behind)) :
    (∃ a, before = callLexemes name arguments ++ a ∧
      ms = a ++ (callLexemes written inner ++ behind)) ∨
      (before = [] ∧ written = name ∧ inner = arguments) ∨
      ∃ first rest, before = name.map .code ++ .code '(' :: first ∧
        arguments = first ++ (callLexemes written inner ++ rest) := by
  rcases List.append_eq_append_iff.mp whole with ⟨a, split, rest⟩ | ⟨a, split, rest⟩
  · exact .inl ⟨a, split, rest⟩
  · obtain ⟨somewhat, letters⟩ := isWordChar_of_spelled isAsciiWord_groupConcat spelling
    obtain ⟨c, w, rfl⟩ := List.exists_cons_of_ne_nil somewhat
    cases a with
    | nil => exact .inl ⟨[], by rw [split]; simp, rest.symm⟩
    | cons l a =>
        obtain ⟨rfl, tail⟩ := List.cons.inj rest
        rcases callLexemes_cut isAsciiWord_groupConcat named
          (letters c List.mem_cons_self) split apart with
          rfl | ⟨first, second, rfl, rfl, rfl⟩
        · obtain ⟨same, inside, -⟩ := callLexemes_inj named spelling level balanced whole
          exact .inr (.inl ⟨rfl, same.symm, inside.symm⟩)
        · have piece : (Lexeme.code c :: second) ++ .code ')' :: ms =
              callLexemes (c :: w) inner ++ behind := by
            rw [rest]
            simp
          obtain ⟨z, inside, -⟩ := level.exists_append
            (balanced_callLexemes isAsciiWord_groupConcat spelling balanced) piece
          exact .inr (.inr ⟨first, z, rfl, by rw [inside]⟩)

theorem any_getLast?_outline_right {x before : List Lexeme}
    (apart : ((x ++ before).flatMap Lexeme.text).getLast?.any continuesName = false) :
    (before.map Lexeme.outline).getLast?.any isWordChar = false := by
  have whole := any_getLast?_outline rfl apart
  cases before with
  | nil => rfl
  | cons l before => rwa [List.map_append, List.getLast?_append_of_ne_nil _ (by simp)] at whole

namespace LaidOut

variable {front ls ms : List Lexeme}

theorem closesAlike (laidOut : LaidOut front ls ms) : ClosesAlike ls ms := by
  induction laidOut with
  | done => exact .nil
  | keep _ _ ih => exact ih.cons _
  | call cut _ _ tidy _ _ ih =>
      exact ih.append (balanced_callLexemes isAsciiWord_groupConcat cut.named cut.balanced)
        (balanced_callLexemes isAsciiWord_groupConcat spelled_groupConcat tidy.balanced)

theorem readsAlike (laidOut : LaidOut front ls ms) (rest : Text) : ReadsAlike ls ms rest := by
  induction laidOut with
  | done => exact .nil rest
  | keep _ _ ih => exact ih.cons _
  | call cut _ _ tidy _ _ ih =>
      refine ih.append (tidy.closed.lexemes_callLexemes isAsciiWord_groupConcat spelled_groupConcat)
        fun s t => ?_
      obtain ⟨present, letters⟩ := isWordChar_of_spelled isAsciiWord_groupConcat cut.named
      obtain ⟨c, written, rfl⟩ := List.exists_cons_of_ne_nil present
      exact .of_letter (d := 'G') (letters c List.mem_cons_self) (by decide) _ _

theorem keepsWords : KeepsWords LaidOut where
  next laidOut inside := by
    cases laidOut with
    | done => exact .inl ⟨rfl, rfl⟩
    | keep _ later => exact .inr ⟨_, _, _, rfl, rfl, later⟩
    | call cut _ _ _ _ =>
        rw [any_getLast?_outline rfl cut.separate] at inside
        cases inside

theorem stems (laidOut : LaidOut front ls ms) {early before inner behind : List Lexeme}
    {written : Text}
    (same : EndsSame front early) (whole : ms = before ++ (callLexemes written inner ++ behind))
    (cut : CallCut GroupConcat.function (early ++ before) written inner)
    (present : ∀ l ∈ front ++ ls, l.text ≠ [])
    (filled : ∀ l ∈ early ++ ms, l.text ≠ []) : Stems front ls written inner := by
  induction laidOut generalizing early before with
  | done front => simp [callLexemes] at whole
  | @keep front l ls ms uncalled later ih =>
      cases before with
      | nil =>
          rw [List.append_nil] at cut
          have separate := same.separate (fun l member => present l (by simp [member]))
            (fun l member => filled l (by simp [member])) cut.separate
          have none := keepsWords.startsNoCall closesAlike isAsciiWord_groupConcat uncalled later id
          exact absurd ⟨cut.named, separate, cut.balanced⟩ (none written inner behind whole)
      | cons m before =>
          obtain ⟨rfl, rest⟩ := List.cons.inj whole
          rw [List.append_cons] at cut present filled
          obtain ⟨x, source, old, y, arguments, rfl, known, found⟩ :=
            ih (.append_singleton front early l) rest cut present filled
          rw [← List.append_cons] at known
          exact ⟨l :: x, source, old, y, arguments, rfl, known, found⟩
  | @call front inner' others arguments ls ms written' known nested rejoined tidy later _ ih =>
      have renewed : Renewed inner' arguments := ⟨tidy, others, nested, rejoined⟩
      have here : CallCut GroupConcat.function (front ++ []) written' inner' := by
        rwa [List.append_nil]
      rcases callLexemes_cases spelled_groupConcat tidy.balanced cut.named cut.balanced
        (any_getLast?_outline_right cut.separate) whole
          with ⟨a, rfl, rest⟩ | ⟨rfl, rfl, rfl⟩ | ⟨first, rest, rfl, inside⟩
      · rw [← List.append_assoc] at cut present filled
        obtain ⟨x, source, old, y, arguments, rfl, known, found⟩ :=
          ih (.call front inner' written' early (getLast?_callLexemes _ arguments) (.inl rfl)) rest
            cut present filled
        rw [List.append_assoc] at known
        exact ⟨_, source, old, y, arguments, (List.append_assoc ..).symm, known, found⟩
      · exact ⟨[], written', inner', ls, _, rfl, here, renewed, .inl ⟨rfl, rfl⟩⟩
      · have separate := cut.separate
        rw [← List.append_assoc] at separate
        refine ⟨[], written', inner', ls, _, rfl, here, renewed,
          .inr ⟨first, rest, inside, cut.named, ?_, cut.balanced⟩⟩
        exact (EndsSame.opened _ first).separate
          (fun l member => tidy.closed.text_ne_nil l
            (by rw [inside]; exact List.mem_append_left _ member))
          (fun l member => filled l (by
            rw [List.append_assoc] at member
            rw [whole, ← List.append_assoc]
            exact List.mem_append_left _ member)) separate

theorem exists_renewal (laidOut : LaidOut front ls ms) {early before inner behind : List Lexeme}
    {written : Text}
    (same : EndsSame front early) (whole : ls = before ++ (callLexemes written inner ++ behind))
    (cut : CallCut GroupConcat.function (front ++ before) written inner)
    (present : ∀ l ∈ front ++ ls, l.text ≠ [])
    (filled : ∀ l ∈ early ++ ms, l.text ≠ []) :
    ∃ x arguments y old, ms = x ++ (callLexemes GroupConcat.function arguments ++ y) ∧
      CallCut GroupConcat.function (early ++ x) GroupConcat.function arguments ∧
        Renewed old arguments ∧
      (inner = old ∨ ∃ first rest, old = first ++ (callLexemes written inner ++ rest)) := by
  induction laidOut generalizing early before with
  | done front => simp [callLexemes] at whole
  | @keep front l ls ms uncalled later ih =>
      cases before with
      | nil =>
          rw [List.append_nil] at cut
          exact absurd cut (uncalled written inner behind whole)
      | cons m before =>
          obtain ⟨rfl, rest⟩ := List.cons.inj whole
          rw [List.append_cons] at cut present filled
          obtain ⟨x, arguments, y, old, rfl, known, found⟩ :=
            ih (.append_singleton front early l) rest cut present filled
          rw [← List.append_cons] at known
          exact ⟨l :: x, arguments, y, old, rfl, known, found⟩
  | @call front inner' others arguments ls ms written' known nested rejoined tidy later _ ih =>
      have renewed : Renewed inner' arguments := ⟨tidy, others, nested, rejoined⟩
      have alike : EndsSame early front := fun q signs remarks => (same q signs remarks).symm
      have new : CallCut GroupConcat.function (early ++ []) GroupConcat.function arguments := by
        rw [List.append_nil]
        exact ⟨spelled_groupConcat, alike.separate (fun l member => filled l (by simp [member]))
          (fun l member => present l (by simp [member])) known.separate, tidy.balanced⟩
      rcases callLexemes_cases known.named known.balanced cut.named cut.balanced
        (any_getLast?_outline_right cut.separate) whole
          with ⟨a, rfl, rest⟩ | ⟨-, -, same⟩ | ⟨first, rest, -, inside⟩
      · rw [← List.append_assoc] at cut present filled
        obtain ⟨x, arguments', y, old, rfl, other, found⟩ :=
          ih (.call front inner' written' early (getLast?_callLexemes _ arguments) (.inl rfl)) rest
            cut present filled
        rw [List.append_assoc] at other
        exact ⟨_, arguments', y, old, (List.append_assoc ..).symm, other, found⟩
      · exact ⟨[], arguments, ms, inner', rfl, new, renewed, .inl same⟩
      · exact ⟨[], arguments, ms, inner', rfl, new, renewed, .inr ⟨first, rest, inside⟩⟩

theorem allNeat (laidOut : LaidOut [] ls ms) (present : ∀ l ∈ ls, l.text ≠ [])
    (filled : ∀ l ∈ ms, l.text ≠ []) :
    AllNeat ms := by
  intro front written inner behind whole cut
  obtain ⟨-, -, -, -, arguments, -, -, ⟨tidy, -⟩, ⟨rfl, rfl⟩ | ⟨first, rest, rfl, nested⟩⟩ :=
    laidOut.stems (fun _ _ _ => rfl) whole cut present filled
  · exact ⟨rfl, tidy.toNeat⟩
  · exact tidy.calls first written inner rest rfl nested

end LaidOut

theorem text_ne_nil_of_read {ls : List Lexeme} {rest : Text}
    (read : lexemes (ls.flatMap Lexeme.text ++ rest) = ls ++ lexemes rest) : ∀ l ∈ ls,
    l.text ≠ [] := by
  intro l member
  exact text_ne_nil_of_mem_lexemes _ l (by rw [read]; exact List.mem_append_left _ member)

theorem Parsed.exists_laidOut {front ls : List Lexeme} {calls : Calls}
    (parsed : Parsed GroupConcat.function front ls calls) {rest : Text}
    (source : lexemes (ls.flatMap Lexeme.text ++ rest) = ls ++ lexemes rest) :
    ∃ ms, LaidOut front ls ms ∧
      ms.flatMap Lexeme.text = calls.replace fun arguments =>
        some (GroupConcat.normalize arguments) := by
  induction parsed generalizing rest with
  | done front => exact ⟨[], .done front, rfl⟩
  | @copy front l ls _ uncalled _ ih =>
      obtain ⟨-, later⟩ := read_cut (a := [l]) source
      obtain ⟨ms, laidOut, text⟩ := ih later
      refine ⟨l :: ms, .keep uncalled laidOut, ?_⟩
      rw [Calls.replace_copy, List.flatMap_cons, text]
  | @call front written inner ls inside tail cut _ _ ihInner ih =>
      obtain ⟨early, later⟩ := read_cut source
      -- the arguments stand before a parenthesis
      have behind : lexemes (inner.flatMap Lexeme.text ++
          ')' :: (ls.flatMap Lexeme.text ++ rest)) = inner ++ lexemes
            (')' :: (ls.flatMap Lexeme.text ++ rest)) := by
        have whole : callLexemes written inner = written.map .code ++ [.code '('] ++
            (inner ++ [.code ')']) := by
          simp [callLexemes]
        rw [whole] at early
        exact (read_cut (read_cut early).2).1
      obtain ⟨others, nested, answer⟩ := ihInner behind
      obtain ⟨ms, laidOut, text⟩ := ih later
      have read := (nested.readsAlike _ behind).1
      have balanced := nested.closesAlike.balanced cut.balanced
      have level : Balanced (neaten others) := by
        rw [Balanced, ← levelAfter_filled, filled_neaten, levelAfter_filled, levelAfter_map_closed]
        exact balanced
      obtain ⟨arguments, rejoined⟩ := exists_rejoined level
      have all : AllNeat others := nested.allNeat (text_ne_nil_of_read behind)
        (text_ne_nil_of_read read)
      have tidy := rejoined.tidy balanced (List.cons_ne_nil _ _) read all
      refine ⟨_, .call cut nested rejoined tidy laidOut, ?_⟩
      rw [Calls.replace_call, ← answer, Option.getD_some,
        normalize_splitArguments balanced (List.cons_ne_nil _ _) read rejoined, ← text,
        List.flatMap_append]

theorem laidOut_aggregateQuery (s : Text) : LaidOut [] (lexemes s)
    (lexemes (Layout.aggregateQuery s)) := by
  have source : lexemes ((lexemes s).flatMap Lexeme.text ++ []) = lexemes s ++ lexemes [] := by
    rw [List.append_nil, flatMap_text_lexemes, lexemes_nil, List.append_nil]
  obtain ⟨ms, laidOut, text⟩ :=
    (parsed_ofText GroupConcat.isWordChar_function s).exists_laidOut source
  have same := (laidOut.readsAlike []).lexemes_text (by rw [flatMap_text_lexemes])
  rw [text] at same
  rwa [Layout.aggregateQuery, replaceCalls_eq, same]

theorem AllNeat.aggregateQuery_eq {s : Text} (all : AllNeat (lexemes s)) :
    Layout.aggregateQuery s = s := by
  have stays : (Calls.ofText GroupConcat.function s).replace
      (fun arguments => some (GroupConcat.normalize arguments)) =
      (lexemes s).flatMap Lexeme.text := by
    refine (parsed_ofText GroupConcat.isWordChar_function s).replace_self
      fun early written inner late read cut => ?_
    obtain ⟨rfl, neat⟩ := all early written inner late read cut
    rw [Option.getD_some, neat.normalize_splitArguments]
  rwa [flatMap_text_lexemes] at stays

theorem aggregateQuery_aggregateQuery (s : Text) :
    Layout.aggregateQuery (Layout.aggregateQuery s) = Layout.aggregateQuery s :=
  ((laidOut_aggregateQuery s).allNeat (text_ne_nil_of_mem_lexemes s)
    (text_ne_nil_of_mem_lexemes _)).aggregateQuery_eq

end LiteSql
