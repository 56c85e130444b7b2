import LiteSql.Proofs.Heading
import LiteSql.Proofs.Settling
import LiteSql.Statement.Cleanup

/-! Changes of blanks. Blanks in code can be exchanged for others and cut off at the ends of a text
without a change of its words, its other code and its literals. -/

namespace LiteSql

def Lexeme.isBlank : Lexeme → Bool
  | .code c => LiteSql.isBlank c
  | .literal _ _ => false

/-- The texts of literals. One with only blanks behind it is taken without the blanks at its end. -/
def settledLiterals : List Lexeme → List Text
  | [] => []
  | .code _ :: ls => settledLiterals ls
  | .literal _ text :: ls =>
    (if ls.all Lexeme.isBlank then trimEnd text else text) :: settledLiterals ls

def Lexeme.solid? : Lexeme → Option Char
  | .code c => if LiteSql.isBlank c then none else some c
  | .literal _ _ => none

def solidCode (ls : List Lexeme) : Text := ls.filterMap Lexeme.solid?

theorem solidCode_append (ls ms : List Lexeme) :
    solidCode (ls ++ ms) = solidCode ls ++ solidCode ms :=
  List.filterMap_append

section

variable {x : Text} (blank : ∀ c ∈ x, isBlank c = true)

theorem settledLiterals_append_code (x : Text) (ls : List Lexeme) :
    settledLiterals (x.map .code ++ ls) = settledLiterals ls := by
  induction x with
  | nil => rfl
  | cons c x ih => exact ih

include blank

theorem solidCode_append_code (ls : List Lexeme) :
    solidCode (x.map .code ++ ls) = solidCode ls := by
  have none : solidCode (x.map .code) = [] := by
    rw [solidCode, List.filterMap_eq_nil_iff]
    intro l member
    obtain ⟨c, inside, rfl⟩ := List.mem_map.mp member
    exact if_pos (blank c inside)
  rw [solidCode_append, none, List.nil_append]

theorem words_append_code (ls : List Lexeme) :
    words ((x.map Lexeme.code ++ ls).map Lexeme.outline) = words (ls.map Lexeme.outline) := by
  have none : ∀ c ∈ x, isWordChar c = false := fun c member =>
    isWordChar_of_isBlank (blank c member)
  have apart : x.getLast?.any isWordChar = false := by
    cases last : x.getLast? with
    | none => rfl
    | some c => exact none c (List.mem_of_getLast? last)
  rw [List.map_append, map_outline_map_code, words_append x _ (.inl apart), words_eq_nil none,
    List.nil_append]

theorem all_append_code (ls : List Lexeme) :
    (x.map Lexeme.code ++ ls).all Lexeme.isBlank = ls.all Lexeme.isBlank := by
  have every : (x.map Lexeme.code).all Lexeme.isBlank = true := by
    rw [List.all_map, List.all_eq_true]
    exact blank
  rw [List.all_append, every, Bool.true_and]

end

structure SameContent (ls ms : List Lexeme) : Prop where
  literals : settledLiterals ms = settledLiterals ls
  code : solidCode ms = solidCode ls
  words : words (ms.map Lexeme.outline) = words (ls.map Lexeme.outline)

theorem SameContent.trans {ls ms ns : List Lexeme} (first : SameContent ls ms)
    (second : SameContent ms ns) : SameContent ls ns where
  literals := second.literals.trans first.literals
  code := second.code.trans first.code
  words := second.words.trans first.words

structure Alike (ls ms : List Lexeme) : Prop extends SameContent ls ms where
  blank : ms.all Lexeme.isBlank = ls.all Lexeme.isBlank
  head : (ms.map Lexeme.outline).head?.any isWordChar = (ls.map Lexeme.outline).head?.any isWordChar

namespace Alike

variable {ls ms : List Lexeme}

theorem refl (ls : List Lexeme) : Alike ls ls := ⟨⟨rfl, rfl, rfl⟩, rfl, rfl⟩

theorem cons (l : Lexeme) (alike : Alike ls ms) : Alike (l :: ls) (l :: ms) where
  literals := by
    cases l with
    | code c => exact alike.literals
    | literal kind text => rw [settledLiterals, settledLiterals, alike.blank, alike.literals]
  code := by
    rw [← List.singleton_append, solidCode_append, alike.code, ← solidCode_append,
      List.singleton_append]
  words := by
    rw [List.map_cons, List.map_cons, LiteSql.words, LiteSql.words, alike.words, alike.head]
  blank := by rw [List.all_cons, List.all_cons, alike.blank]
  head := rfl

theorem append (front : List Lexeme) (alike : Alike ls ms) : Alike (front ++ ls) (front ++ ms) := by
  induction front with
  | nil => exact alike
  | cons l front ih => exact ih.cons l

theorem swap {x y : Text} (first : ∀ c ∈ x, isBlank c = true) (second : ∀ c ∈ y, isBlank c = true)
    (exchange : Swap x y (ls.flatMap Lexeme.text)) (alike : Alike ls ms) :
    Alike (x.map .code ++ ls) (y.map .code ++ ms) where
  literals := by rw [settledLiterals_append_code, settledLiterals_append_code, alike.literals]
  code := by rw [solidCode_append_code first, solidCode_append_code second, alike.code]
  words := by rw [words_append_code first, words_append_code second, alike.words]
  blank := by rw [all_append_code first, all_append_code second, alike.blank]
  head := by
    obtain ⟨c, x, rfl⟩ := List.exists_cons_of_ne_nil exchange.filled
    have spaced : isWordChar c = false := isWordChar_of_isBlank (first c List.mem_cons_self)
    cases y with
    | cons d y =>
        have other : isWordChar d = false := isWordChar_of_isBlank (second d List.mem_cons_self)
        exact other.trans spaced.symm
    | nil =>
        -- a line feed, or the space that stands for a literal, follows
        refine Eq.trans ?_ spaced.symm
        have feed := exchange.gone rfl
        rw [List.map_nil, List.nil_append, alike.head]
        cases ls with
        | nil => cases feed
        | cons l ls =>
            cases l with
            | literal kind text => rfl
            | code d =>
                cases feed
                exact isWordChar_of_isBlank (c := '\n') (by decide)

end Alike

def Blanks (x y : Text) : Prop := (∀ c ∈ x, isBlank c = true) ∧ ∀ c ∈ y, isBlank c = true

theorem Exchanged.alike {ls ms : List Lexeme} (exchanged : Exchanged Blanks ls ms) :
    Alike ls ms := by
  induction exchanged with
  | nil => exact .refl []
  | keep l _ ih => exact ih.cons l
  | swap exchange blanks _ ih => exact .swap blanks.1 blanks.2 exchange ih

theorem LiteralKind.length_le_append {kind : LiteralKind} {text : Text}
    (opens : opening? text = some kind) (whole : kind.length text = text.length) (more : Text) :
    text.length ≤ kind.length (text ++ more) := by
  have opens' : opening? (text ++ more) = some kind := by
    rw [opening?_eq_some_iff] at opens ⊢
    exact opens.trans (List.prefix_append text more)
  apply Nat.le_of_not_lt
  intro shorter
  have cut : text.take (kind.length (text ++ more)) ++ text.drop
      (kind.length (text ++ more)) = text :=
    List.take_append_drop _ _
  have inside : (text.take (kind.length (text ++ more))).length = kind.length (text ++ more) := by
    rw [List.length_take]
    omega
  have present : text.drop (kind.length (text ++ more)) ≠ [] := by
    rw [Ne, List.drop_eq_nil_iff]
    omega
  have seam : SameSeam (text.drop (kind.length (text ++ more)) ++ more)
      (text.drop (kind.length (text ++ more))) := by
    obtain ⟨c, rest, first⟩ := List.exists_cons_of_ne_nil present
    rw [first]
    exact SameSeam.of_head _ _ (List.cons_ne_nil _ _) rfl
  have early := kind.length_append_congr (text.take (kind.length (text ++ more))) _ _
    (by rw [← List.append_assoc, cut, opens']) (by rw [← List.append_assoc, cut, inside]) seam
  rw [cut, inside] at early
  omega

theorem lexemes_of_isPlain {s : Text} (plain : ∀ c ∈ s, isPlain c = true) :
    lexemes s = s.map .code := by
  have read := lexemes_append_of_isPlain s [] plain
  rwa [lexemes_nil, List.append_nil, List.append_nil] at read

theorem lexemes_of_isBlank {s : Text} (blank : ∀ c ∈ s, isBlank c = true) :
    lexemes s = s.map .code :=
  lexemes_of_isPlain fun c member =>
    isPlain_of_isNeutral (ScanState.isNeutral_of_class (by decide) (blank c member))

theorem lexemes_append_neutral (s : Text) {tail : Text}
    (neutral : ∀ c ∈ tail, ScanState.isNeutral c = true) :
    lexemes (s ++ tail) = lexemes s ++ tail.map .code ∨
      ∃ front kind text more rest, lexemes s = front ++ [.literal kind text] ∧ tail = more ++ rest ∧
        lexemes (s ++ tail) = front ++ .literal kind (text ++ more) :: rest.map .code := by
  have alone {x : Text} (part : ∀ c ∈ x, c ∈ tail) : lexemes x = x.map .code :=
    lexemes_of_isPlain fun c member => isPlain_of_isNeutral (neutral c (part c member))
  induction read : lexemes s generalizing s with
  | nil =>
      have empty := flatMap_text_lexemes s
      rw [read] at empty
      left
      rw [← empty]
      exact alone fun _ => id
  | cons l ls ih =>
      obtain ⟨rest, rfl, leads, later⟩ := exists_leads_of_lexemes_eq_cons read
      by_cases last : rest = []
      · subst last
        rw [List.append_nil]
        cases l with
        | code c =>
            left
            have next : (Lexeme.code c).Leads tail := by
              rw [Lexeme.Leads, opening?_cons_eq_none] at leads ⊢
              have other (sign : Char) (active : ScanState.isNeutral sign = false) :
                  tail.head? ≠ some sign := by
                intro head
                rw [neutral sign (List.mem_of_head? head)] at active
                cases active
              exact ⟨leads.1, fun minus => other '-' (by decide) minus.2,
                fun slash => other '*' (by decide) slash.2⟩
            rw [lexemes_append_of_leads next, alone fun _ => id, ← later]
            rfl
        | literal kind text =>
            right
            obtain ⟨opens, whole⟩ := leads
            rw [List.append_nil] at opens whole
            have longer := kind.length_le_append opens whole tail
            obtain ⟨k, length⟩ := Nat.exists_eq_add_of_le longer
            have opens' : LiteralKind.opening? (text ++ tail) = some kind := by
              rw [LiteralKind.opening?_eq_some_iff] at opens ⊢
              exact opens.trans (List.prefix_append text tail)
            refine ⟨[], kind, text, tail.take k, tail.drop k, by rw [← later]; rfl,
              (List.take_append_drop k tail).symm, ?_⟩
            rw [Lexeme.text, lexemes_literal _ kind opens', length, List.take_length_add_append,
              List.drop_length_add_append,
              alone fun c member => List.mem_of_mem_drop member]
            rfl
      · have seam : SameSeam rest (rest ++ tail) := by
          obtain ⟨c, rest, rfl⟩ := List.exists_cons_of_ne_nil last
          exact SameSeam.of_head _ _ last rfl
        have next := lexemes_append_of_leads (leads.congr seam)
        rw [List.append_assoc, next]
        rcases ih rest later with plain | ⟨front, kind, text, more, others, cut, split, whole⟩
        · exact .inl (congrArg (l :: ·) plain)
        · exact .inr ⟨l :: front, kind, text, more, others, congrArg (l :: ·) cut, split,
            congrArg (l :: ·) whole⟩

theorem lexemes_append_blanks (s : Text) {tail : Text} (blank : ∀ c ∈ tail, isBlank c = true) :
    lexemes (s ++ tail) = lexemes s ++ tail.map .code ∨
      ∃ front kind text more rest, lexemes s = front ++ [.literal kind text] ∧ tail = more ++ rest ∧
        lexemes (s ++ tail) = front ++ .literal kind (text ++ more) :: rest.map .code :=
  lexemes_append_neutral s fun c member => ScanState.isNeutral_of_class (by decide) (blank c member)

theorem dropEndWhile_append (p : Char → Bool) (s : Text) {tail : Text}
    (members : ∀ c ∈ tail, p c = true) :
    dropEndWhile p (s ++ tail) = dropEndWhile p s := by
  induction s with
  | nil =>
      induction tail with
      | nil => rfl
      | cons c tail ih =>
          have later : dropEndWhile p tail = [] := ih fun d member =>
            members d (List.mem_cons_of_mem c member)
          rw [List.nil_append, dropEndWhile, dropEndWhile, later, members c List.mem_cons_self]
          rfl
  | cons c s ih => rw [List.cons_append, dropEndWhile, dropEndWhile, ih]

theorem alike_blanks {tail : Text} (blank : ∀ c ∈ tail, isBlank c = true) :
    Alike (tail.map .code) [] where
  literals := by simpa [settledLiterals] using (settledLiterals_append_code tail []).symm
  code := by simpa using (solidCode_append_code blank []).symm
  words := by simpa using (words_append_code blank []).symm
  blank := by simpa using (all_append_code blank []).symm
  head := by
    cases tail with
    | nil => rfl
    | cons c tail => exact (isWordChar_of_isBlank (blank c List.mem_cons_self)).symm

theorem alike_literal (kind : LiteralKind) (text : Text) {more rest : Text}
    (first : ∀ c ∈ more, isBlank c = true) (second : ∀ c ∈ rest, isBlank c = true) :
    Alike (.literal kind (text ++ more) :: rest.map .code) [.literal kind text] := by
  obtain ⟨⟨literals, code, words⟩, blank, -⟩ := alike_blanks second
  refine ⟨⟨?_, code, words⟩, rfl, rfl⟩
  simp only [settledLiterals, trimEnd, dropEndWhile_append isBlank text first, ← blank, ← literals]
  rfl

theorem alike_append_blanks (s : Text) {tail : Text} (blank : ∀ c ∈ tail, isBlank c = true) :
    Alike (lexemes (s ++ tail)) (lexemes s) := by
  rcases lexemes_append_blanks s blank with plain | ⟨front, kind, text, more, rest, cut, rfl, whole⟩
  · rw [plain]
    simpa using (alike_blanks blank).append (lexemes s)
  · rw [whole, cut]
    exact (alike_literal kind text (fun c member => blank c (List.mem_append_left rest member))
      fun c member => blank c (List.mem_append_right more member)).append front

theorem sameContent_trim (s : Text) : SameContent (lexemes s) (lexemes (trim s)) := by
  have blank : ∀ c ∈ s.takeWhile isBlank, isBlank c = true := fun c member =>
    List.all_eq_true.mp List.all_takeWhile c member
  have leading : SameContent (lexemes s) (lexemes (s.dropWhile isBlank)) := by
    have plain : ∀ c ∈ s.takeWhile isBlank, isPlain c = true := fun c member =>
      isPlain_of_isNeutral (ScanState.isNeutral_of_class (by decide) (blank c member))
    have read := lexemes_append_of_isPlain (s.takeWhile isBlank) (s.dropWhile isBlank) plain
    rw [List.takeWhile_append_dropWhile] at read
    rw [read]
    exact ⟨(settledLiterals_append_code _ _).symm, (solidCode_append_code blank _).symm,
      (words_append_code blank _).symm⟩
  obtain ⟨tail, cut, spaces⟩ := exists_dropEndWhile isBlank (s.dropWhile isBlank)
  have trailing := (alike_append_blanks (trim s) spaces).toSameContent
  rw [trim, trimEnd, ← cut] at trailing
  exact leading.trans trailing

def solid (s : Text) : Nat := s.countP fun c => !isBlank c

theorem solid_append (s t : Text) : solid (s ++ t) = solid s + solid t := List.countP_append

theorem solid_eq_zero {s : Text} (blank : ∀ c ∈ s, isBlank c = true) : solid s = 0 := by
  rw [solid, List.countP_eq_zero]
  intro c member
  rw [blank c member]
  nofun

theorem solid_trimEnd (s : Text) : solid (trimEnd s) = solid s := by
  obtain ⟨tail, cut, blank⟩ := exists_dropEndWhile isBlank s
  calc
    solid (trimEnd s) = solid (trimEnd s) + solid tail := by rw [solid_eq_zero blank, Nat.add_zero]
    _ = solid s := by rw [← solid_append, trimEnd, ← cut]

theorem solid_trim (s : Text) : solid (trim s) = solid s := by
  have blank : ∀ c ∈ s.takeWhile isBlank, isBlank c = true := fun c member =>
    List.all_eq_true.mp List.all_takeWhile c member
  calc
    solid (trim s) = solid (s.takeWhile isBlank) + solid (s.dropWhile isBlank) := by
      rw [trim, solid_trimEnd, solid_eq_zero blank, Nat.zero_add]
    _ = solid s := by rw [← solid_append, List.takeWhile_append_dropWhile]

theorem solid_flatMap_text (ls : List Lexeme) :
    solid (ls.flatMap Lexeme.text) = (solidCode ls).length + solid
      (settledLiterals ls).flatten := by
  induction ls with
  | nil => rfl
  | cons l ls ih =>
      rw [List.flatMap_cons, solid_append, ih, ← List.singleton_append, solidCode_append,
        List.length_append]
      cases l with
      | code c =>
          have single : solid (Lexeme.code c).text = (solidCode [.code c]).length := by
            cases blank : isBlank c <;> simp [solid, solidCode, Lexeme.solid?, Lexeme.text, blank]
          rw [single, List.singleton_append, settledLiterals]
          omega
      | literal kind text =>
          have whole : solid (if ls.all Lexeme.isBlank then trimEnd text else text) =
              solid text := by
            split
            · exact solid_trimEnd text
            · rfl
          rw [List.singleton_append, settledLiterals, List.flatten_cons, solid_append, whole]
          simp only [Lexeme.text, solidCode, Lexeme.solid?, List.filterMap_cons, List.filterMap_nil,
            List.length_nil]
          omega

theorem SameContent.solid_eq {s t : Text} (same : SameContent (lexemes s) (lexemes t)) :
    solid t = solid s := by
  calc
    solid t = (solidCode (lexemes t)).length + solid (settledLiterals (lexemes t)).flatten := by
      rw [← solid_flatMap_text, flatMap_text_lexemes]
    _ = (solidCode (lexemes s)).length + solid (settledLiterals (lexemes s)).flatten := by
      rw [same.code, same.literals]
    _ = solid s := by rw [← solid_flatMap_text, flatMap_text_lexemes]

section

variable (p : Pattern) {replacement : Match → Text} (blank : ∀ m, solid (replacement m) = 0)

include blank

theorem solid_replace (x : Text) :
    solid (p.replace replacement x) + solid ((p.hits x).flatMap Match.text) = solid x := by
  have whole := congrArg solid (p.flatMap_text_pieces x)
  rw [← whole, Pattern.replace, Pattern.hits]
  generalize p.pieces x = pieces
  induction pieces with
  | nil => rfl
  | cons piece pieces ih =>
      rw [List.flatMap_cons, List.flatMap_cons, solid_append, solid_append, ← ih]
      cases piece with
      | plain c => simp only [Piece.text, Piece.hit?, List.filterMap_cons]; omega
      | hit m =>
          simp only [Piece.text, Piece.hit?, List.filterMap_cons, List.flatMap_cons,
            solid_append, blank m]
          omega

theorem solid_replaceCode (s : Text) :
    solid (p.replaceCode replacement s) + solid ((p.codeHits s).flatMap Match.text) = solid s := by
  have whole := congrArg solid (flatMap_text_segments s)
  rw [← whole, Pattern.replaceCode, mapCode, Pattern.codeHits, codeSegments]
  generalize segments s = segs
  induction segs with
  | nil => rfl
  | cons segment segs ih =>
      rw [List.flatMap_cons, List.flatMap_cons, solid_append, solid_append, ← ih]
      cases segment with
      | literal text => simp only [Segment.mapCode, Segment.text, List.filterMap_cons]; omega
      | code x =>
          have here := solid_replace p blank x
          simp only [Segment.mapCode, Segment.text, List.filterMap_cons, List.flatMap_cons,
            List.flatMap_append, solid_append]
          omega

end

namespace Cleanup

open Pattern

theorem mild_spacesAndTabs : spacesAndTabs.Mild Blanks fun _ => " " := by
  intro before m after caps filled taken
  obtain ⟨⟨-, members⟩, -⟩ := (spans_someOf_iff _ _ _ _ _ _).mp taken.spans
  dsimp only
  refine .inr ⟨⟨filled, by decide, ?_, nofun⟩, ?_, by decide⟩
  · intro feed
    exact absurd feed (head?_ne_of_spans (by decide) taken.spans)
  · intro c member
    have either := members c member
    rw [Bool.or_eq_true, beq_iff_eq, beq_iff_eq] at either
    rcases either with rfl | rfl <;> decide

theorem mild_spacesAtLineEnd : spacesAtLineEnd.Mild Blanks fun _ => [] := by
  intro before m after caps filled taken
  obtain ⟨y, z, _, _, text, -, spaces, rfl, -, _, rest, _, next, ⟨c, feed, rfl⟩, -⟩ := taken.spans
  obtain ⟨⟨-, members⟩, -⟩ := (spans_someOf_iff _ _ _ _ _ _).mp spaces
  refine .inr ⟨⟨filled, by simp, ?_, ?_⟩, ?_, by simp⟩
  · intro start
    exact absurd start (head?_ne_of_spans (by decide) taken.spans)
  · intro _
    rw [next, eq_of_beq feed]
    rfl
  · intro c member
    rw [text, List.append_nil] at member
    rw [eq_of_beq (members c member)]
    decide

theorem mild_blankLines : blankLines.Mild Blanks fun _ => "\n" := by
  intro before m after caps filled taken
  obtain ⟨_, _, _, _, text, -, ⟨⟨c, first, rfl⟩, -⟩, _, _, _, _, rfl, -, ⟨members, -⟩,
      ⟨d, last, rfl⟩, -⟩ :=
    taken.spans
  dsimp only
  refine .inr ⟨⟨filled, by decide, fun _ => by decide, nofun⟩, ?_, by decide⟩
  intro e member
  rw [text, eq_of_beq first, eq_of_beq last] at member
  simp only [List.singleton_append, List.mem_cons, List.mem_append, List.not_mem_nil, or_false]
    at member
  rcases member with rfl | inner | rfl
  · decide
  · exact members e inner
  · decide

theorem sameContent_clean {s : Text} (none : option.replaceCode (fun _ => []) s = s) :
    SameContent (lexemes s) (lexemes (clean s)) := by
  rw [clean, none]
  have spaces := (mild_spacesAndTabs.exchanged_replaceCode s).alike.toSameContent
  have ends := (mild_spacesAtLineEnd.exchanged_replaceCode
    (spacesAndTabs.replaceCode (fun _ => " ") s)).alike.toSameContent
  have lines := (mild_blankLines.exchanged_replaceCode (spacesAtLineEnd.replaceCode (fun _ => [])
    (spacesAndTabs.replaceCode (fun _ => " ") s))).alike.toSameContent
  exact ((spaces.trans ends).trans lines).trans (sameContent_trim _)

theorem solid_pos_of_mem_codeHits {s : Text} {m : Match} (member : m ∈ option.codeHits s) :
    0 < solid m.text := by
  obtain ⟨x, -, hit⟩ := List.mem_flatMap.mp member
  obtain ⟨_, _, _, -, -, filled, taken⟩ := takes_of_mem_hits hit
  obtain ⟨c, rest, text⟩ := List.exists_cons_of_ne_nil filled
  rw [solid, List.countP_pos_iff]
  refine ⟨c, by simp [text], ?_⟩
  cases blank : isBlank c with
  | false => rfl
  | true =>
      have refused := forall_inRanges (fun c => option.refuses c) (by decide +kernel) blank
      exact absurd (by rw [text]; rfl) (head?_ne_of_spans refused taken.spans)

theorem solid_clean_le (s : Text) : solid (clean s) ≤ solid
    (option.replaceCode (fun _ => []) s) := by
  have spaces (t : Text) : solid (spacesAndTabs.replaceCode (fun _ => " ") t) ≤ solid t :=
    Nat.le.intro (solid_replaceCode _ (fun _ => by decide) t)
  have ends (t : Text) : solid (spacesAtLineEnd.replaceCode (fun _ => []) t) ≤ solid t :=
    Nat.le.intro (solid_replaceCode _ (fun _ => rfl) t)
  have lines (t : Text) : solid (blankLines.replaceCode (fun _ => "\n") t) ≤ solid t :=
    Nat.le.intro (solid_replaceCode _ (fun _ => by decide) t)
  rw [clean, solid_trim]
  exact Nat.le_trans (lines _) (Nat.le_trans (ends _) (spaces _))

theorem sameContent_clean_iff (s : Text) :
    SameContent (lexemes s) (lexemes (clean s)) ↔ option.codeHits s = [] := by
  constructor
  · intro same
    have kept := same.solid_eq
    have fewer := solid_clean_le s
    have deleted : solid (option.replaceCode (fun _ => []) s) +
        solid ((option.codeHits s).flatMap Match.text) = solid s :=
      solid_replaceCode option (fun _ => rfl) s
    cases hits : option.codeHits s with
    | nil => rfl
    | cons m ms =>
        have lost : 0 < solid m.text := solid_pos_of_mem_codeHits
          (by rw [hits]; exact List.mem_cons_self)
        rw [hits, List.flatMap_cons, solid_append] at deleted
        omega
  · intro none
    exact sameContent_clean (replaceCode_of_codeHits_eq_nil none _)

end Cleanup

end LiteSql
