import LiteSql.Construct.GroupConcat
import LiteSql.Proofs.Rejoining
import LiteSql.Proofs.WholeWord

/-! SEPARATOR clauses in the arguments of a call. Whether there is one shows in the lexemes of the
arguments, however they are spaced, and the values before the first one hold none. -/

namespace LiteSql

def separatorWord : Text := "SEPARATOR"

theorem isAsciiWord_separatorWord : IsAsciiWord separatorWord := by decide

/-- Whether lexemes fall into values and a SEPARATOR clause: the word stands outside parentheses
with something behind it, and it does not come first. -/
structure Splits (ls : List Lexeme) : Prop where
  clause : ∃ front w behind, ls = front ++ (w.map .code ++ behind) ∧
    Standing separatorWord front w behind ∧ filled behind ≠ []
  values : ∀ front w behind, ls = front ++ (w.map .code ++ behind) →
    Standing separatorWord front w behind → filled front ≠ []

theorem trimEnd_eq_nil_iff (s : Text) : trimEnd s = [] ↔ ∀ c ∈ s, isBlank c = true := by
  constructor
  · intro none
    obtain ⟨tail, cut, blank⟩ := exists_dropEndWhile isBlank s
    rw [trimEnd] at none
    rw [none, List.nil_append] at cut
    rwa [cut]
  · intro blank
    exact dropEndWhile_append isBlank [] blank

theorem trim_eq_nil_iff (s : Text) : trim s = [] ↔ ∀ c ∈ s, isBlank c = true := by
  rw [trim, trimEnd_eq_nil_iff]
  constructor
  · intro blank c member
    rw [← List.takeWhile_append_dropWhile (p := isBlank) (l := s), List.mem_append] at member
    rcases member with early | late
    · exact List.mem_takeWhile_imp early
    · exact blank c late
  · intro blank c member
    exact blank c ((List.dropWhile_suffix isBlank).mem member)

theorem Sealed.filled_eq_nil_iff {ls : List Lexeme} (closed : Sealed ls) :
    filled ls = [] ↔ ∀ c ∈ ls.flatMap Lexeme.text, isBlank c = true := by
  rw [LiteSql.filled_eq_nil_iff]
  constructor
  · intro blank c member
    obtain ⟨l, inside, here⟩ := List.mem_flatMap.mp member
    have first := blank l inside
    cases l with
    | code d => rwa [List.mem_singleton.mp here]
    | literal kind text => cases first
  · intro blank l member
    cases l with
    | code c => exact blank c (List.mem_flatMap.mpr ⟨_, member, List.mem_singleton_self c⟩)
    | literal kind text =>
        -- what closes a literal is not blank
        obtain ⟨early, late, rfl⟩ := List.append_of_mem member
        obtain ⟨⟨c, close, last⟩, -⟩ := closed.right.literal_ends
        have hard : ∀ c ∈ closers, isBlank c = false := by decide
        have soft := blank c (List.mem_flatMap.mpr ⟨_, member, List.mem_of_getLast? last⟩)
        rw [hard c close] at soft
        cases soft

theorem take_drop_of_lexemes {s w : Text} {front behind : List Lexeme}
    (read : lexemes s = front ++ (w.map .code ++ behind)) :
    s.take (front.flatMap Lexeme.text).length = front.flatMap Lexeme.text ∧
      s.drop ((front.flatMap Lexeme.text).length + w.length) = behind.flatMap Lexeme.text := by
  obtain ⟨whole, -⟩ := lexemes_of_append read
  rw [List.flatMap_append, flatMap_text_map_code] at whole
  constructor
  · rw [whole, List.take_left]
  · rw [whole, ← List.length_append, ← List.append_assoc, List.drop_left]

section

variable {arguments : List Text}

theorem exists_cut_of_splitSeparator? (balanced : Balanced (lexemes (joinArguments arguments)))
    {values delimiter : Text} (found : GroupConcat.splitSeparator? arguments =
      some (values, delimiter)) :
    ∃ front w behind, lexemes (joinArguments arguments) = front ++ (w.map .code ++ behind) ∧
      Standing separatorWord front w behind ∧ values = trimEnd (front.flatMap Lexeme.text) ∧
      values ≠ [] ∧ trim (behind.flatMap Lexeme.text) ≠ [] ∧
      ∀ front' w' behind', lexemes (joinArguments arguments) = front' ++ (w'.map .code ++ behind') →
        Standing separatorWord front' w' behind' →
        (front.flatMap Lexeme.text).length ≤ (front'.flatMap Lexeme.text).length := by
  obtain ⟨clause, top, found⟩ := Option.bind_eq_some_iff.mp found
  obtain ⟨front, behind, read, place, standing, first⟩ :=
    Pattern.topLevel?_eq_some isAsciiWord_separatorWord balanced top
  obtain ⟨early, late⟩ := take_drop_of_lexemes read
  simp only [Match.stop, ← place, early, late] at found
  split at found
  · cases found
  · next filled =>
      cases found
      rw [Bool.or_eq_true, List.isEmpty_iff, List.isEmpty_iff, not_or] at filled
      rw [← place] at first
      exact ⟨front, clause.text, behind, read, standing, rfl, filled.1, filled.2, first⟩

theorem splits_of_isSome_splitSeparator? (closed : Sealed (lexemes (joinArguments arguments)))
    (balanced : Balanced (lexemes (joinArguments arguments)))
    (split : (GroupConcat.splitSeparator? arguments).isSome = true) :
    Splits (lexemes (joinArguments arguments)) := by
  obtain ⟨⟨values, delimiter⟩, found⟩ := Option.isSome_iff_exists.mp split
  obtain ⟨front, w, behind, read, standing, rfl, present, more, first⟩ :=
    exists_cut_of_splitSeparator? balanced found
  have parts := closed
  rw [read] at parts
  refine ⟨⟨front, w, behind, read, standing, ?_⟩,
    fun front' w' behind' read' other none => present ?_⟩
  · rwa [ne_eq, parts.right.right.filled_eq_nil_iff, ← trim_eq_nil_iff]
  · -- the first clause would have only blanks before it
    have short := first front' w' behind' read' other
    have others := closed
    rw [read'] at others
    rw [others.left.filled_eq_nil_iff, ← (take_drop_of_lexemes read').1] at none
    rw [trimEnd_eq_nil_iff, ← (take_drop_of_lexemes read).1]
    intro c member
    exact none c ((List.take_subset_take_left _ short) member)

theorem isSome_splitSeparator?_of_splits (closed : Sealed (lexemes (joinArguments arguments)))
    (balanced : Balanced (lexemes (joinArguments arguments)))
    (splits : Splits (lexemes (joinArguments arguments))) :
    (GroupConcat.splitSeparator? arguments).isSome = true := by
  obtain ⟨front, w, behind, read, standing, more⟩ := splits.clause
  obtain ⟨clause, top, -⟩ := Pattern.topLevel?_of_standing isAsciiWord_separatorWord read standing
  obtain ⟨front', behind', read', place, standing', first⟩ :=
    Pattern.topLevel?_eq_some isAsciiWord_separatorWord balanced top
  have parts := closed
  have others := closed
  rw [read] at parts
  rw [read'] at others
  have values := splits.values _ _ _ read' standing'
  rw [ne_eq, others.left.filled_eq_nil_iff, ← trimEnd_eq_nil_iff] at values
  have delimiter : trim (behind'.flatMap Lexeme.text) ≠ [] := by
    rw [ne_eq, trim_eq_nil_iff]
    intro blank
    rw [ne_eq, parts.right.right.filled_eq_nil_iff] at more
    apply more
    intro c member
    have short := first _ _ _ read standing
    have same := ((spelled_iff _ _).mp standing.named).2.trans
      ((spelled_iff _ _).mp standing'.named).2.symm
    rw [← place] at short
    rw [← (take_drop_of_lexemes read).2] at member
    rw [← (take_drop_of_lexemes read').2] at blank
    exact blank c (List.drop_subset_drop_left _ (by omega) member)
  obtain ⟨early, late⟩ := take_drop_of_lexemes read'
  have split : GroupConcat.splitSeparator? arguments =
      some (trimEnd (front'.flatMap Lexeme.text), trim (behind'.flatMap Lexeme.text)) := by
    refine Option.bind_eq_some_iff.mpr ⟨clause, top, ?_⟩
    simp only [Match.stop, ← place, early, late]
    rw [if_neg (by simp [values, delimiter])]
  rw [split]
  rfl

end

/-! ### Other blanks around the arguments -/

/-- Whether a class of characters holds neither blanks nor the comma. -/
def Excludes (p : Char → Bool) : Prop := p ',' = false ∧ ∀ c, isBlank c = true → p c = false

theorem excludes_isWordChar : Excludes isWordChar :=
  ⟨by decide, fun _ blank => isWordChar_of_isBlank blank⟩

theorem excludes_continuesName : Excludes continuesName := by
  refine ⟨by decide, fun c blank => ?_⟩
  have letter := isWordChar_of_isBlank blank
  have dots : ∀ d ∈ ['.', '$'], isBlank d = false := by decide
  rw [isWordChar] at letter
  rw [continuesName, letter, Bool.false_or, Bool.or_eq_false_iff, beq_eq_false_iff_ne,
    beq_eq_false_iff_ne]
  constructor
  · rintro rfl
    rw [dots '.' (by simp)] at blank
    cases blank
  · rintro rfl
    rw [dots '$' (by simp)] at blank
    cases blank

theorem any_eq_of_filter {q : Lexeme → Bool} (loose : ∀ l, l.isFirm = false → q l = false)
    {one other : Option Lexeme} (same : one.filter Lexeme.isFirm = other.filter Lexeme.isFirm) :
    one.any q = other.any q := by
  have firm (o : Option Lexeme) : o.any q = (o.filter Lexeme.isFirm).any q := by
    cases o with
    | none => rfl
    | some l =>
        cases hard : l.isFirm with
        | true => rw [Option.filter_some_pos hard]
        | false =>
            rw [Option.filter_some_neg (by simp [hard])]
            exact loose l hard
  rw [firm one, firm other, same]

namespace SameCut

variable {front other behind more : List Lexeme} (same : SameCut front other behind more)
  {p : Char → Bool} (excludes : Excludes p)

include excludes

theorem code_of_not_isFirm (l : Lexeme) (loose : l.isFirm = false) :
    ∃ c, l = .code c ∧ p c = false := by
  cases l with
  | literal kind text => cases loose
  | code c =>
      refine ⟨c, rfl, ?_⟩
      rw [Lexeme.isFirm, Bool.not_eq_false', Bool.or_eq_true, beq_iff_eq] at loose
      rcases loose with blank | rfl
      · exact excludes.2 c blank
      · exact excludes.1

include same

theorem endsIn_eq : endsIn p front = endsIn p other := by
  refine any_eq_of_filter (fun l loose => ?_) same.before
  obtain ⟨c, rfl, outside⟩ := code_of_not_isFirm excludes l loose
  exact outside

theorem startsIn_eq : startsIn p behind = startsIn p more := by
  refine any_eq_of_filter (fun l loose => ?_) same.after
  obtain ⟨c, rfl, outside⟩ := code_of_not_isFirm excludes l loose
  exact outside

end SameCut

theorem compact_map_code {x : Text} (present : x ≠ []) (first : x.head?.any isBlank = false)
    (last : x.getLast?.any isBlank = false) : Compact (x.map .code) := by
  constructor
  · obtain ⟨c, x, rfl⟩ := List.exists_cons_of_ne_nil present
    exact ⟨.code c, rfl, first⟩
  · rw [List.getLast?_eq_some_getLast present] at last
    exact ⟨.code
      (x.getLast present), by rw [List.getLast?_map, List.getLast?_eq_some_getLast present]; rfl,
      last⟩

theorem solid_ends {w : Text} (letters : ∀ c ∈ w, isWordChar c = true) :
    w.head?.any isBlank = false ∧ w.getLast?.any isBlank = false := by
  constructor
  · cases first : w.head? with
    | none => rfl
    | some c => exact isBlank_of_isWordChar (letters c (List.mem_of_head? first))
  · cases last : w.getLast? with
    | none => rfl
    | some c => exact isBlank_of_isWordChar (letters c (List.mem_of_getLast? last))

namespace Respaced

variable {xs ys : List Lexeme} (respaced : Respaced xs ys)

include respaced

theorem exists_code {x : Text} (present : x ≠ []) (first : x.head?.any isBlank = false)
    (last : x.getLast?.any isBlank = false) (none : ',' ∉ x) {front behind : List Lexeme}
    (read : ys = front ++ (x.map .code ++ behind)) :
    ∃ early late, xs = early ++ (x.map .code ++ late) ∧ SameCut early front late behind :=
  respaced.exists_cut (compact_map_code present first last) read (undivided_map_code none front)

theorem exists_standing {k : Text} (ascii : IsAsciiWord k) {front behind : List Lexeme} {w : Text}
    (read : ys = front ++ (w.map .code ++ behind)) (standing : Standing k front w behind) :
    ∃ early late, xs = early ++ (w.map .code ++ late) ∧ Standing k early w late ∧
      SameCut early front late behind := by
  obtain ⟨present, letters⟩ := isWordChar_of_spelled ascii standing.named
  obtain ⟨first, last⟩ := solid_ends letters
  have none : ',' ∉ w := fun member => absurd (letters ',' member) (by decide)
  obtain ⟨early, late, cut, same⟩ := respaced.exists_code present first last none read
  refine ⟨early, late, cut, ⟨standing.named, ?_, ?_, ?_⟩, same⟩
  · rw [same.endsIn_eq excludes_isWordChar, standing.before]
  · rw [same.startsIn_eq excludes_isWordChar, standing.after]
  · rw [same.levelAfter_eq, standing.level]

theorem splits (split : Splits ys) : Splits xs := by
  constructor
  · obtain ⟨front, w, behind, read, standing, more⟩ := split.clause
    obtain ⟨early, late, cut, standing', same⟩ :=
      respaced.exists_standing isAsciiWord_separatorWord read standing
    exact ⟨early, w, late, cut, standing', by rwa [same.late]⟩
  · intro front w behind read standing
    obtain ⟨early, late, cut, standing', same⟩ :=
      respaced.symm.exists_standing isAsciiWord_separatorWord read standing
    rw [← same.early]
    exact split.values early w late cut standing'

end Respaced

theorem isSome_splitSeparator?_iff {ls : List Lexeme} (closed : Sealed ls)
    (balanced : Balanced ls) :
    (GroupConcat.splitSeparator? (splitArguments (ls.flatMap Lexeme.text))).isSome = true ↔
      Splits ls := by
  obtain ⟨ms, respaced, closed', text⟩ := exists_respaced closed balanced
  have read : lexemes (joinArguments (splitArguments (ls.flatMap Lexeme.text))) = ms := by
    rw [← text, closed'.lexemes_text]
  have balanced' := respaced.balanced balanced
  rw [← read] at closed' balanced' respaced
  constructor
  · intro split
    exact respaced.splits (splits_of_isSome_splitSeparator? closed' balanced' split)
  · intro split
    exact isSome_splitSeparator?_of_splits closed' balanced' (respaced.symm.splits split)

theorem exists_values {arguments : List Text} (closed : Sealed (lexemes (joinArguments arguments)))
    (balanced : Balanced (lexemes (joinArguments arguments))) {values delimiter : Text}
    (found : GroupConcat.splitSeparator? arguments = some (values, delimiter)) :
    ∃ kept rest, lexemes (joinArguments arguments) = kept ++ rest ∧
      values = kept.flatMap Lexeme.text ∧
      Balanced kept ∧ (endsIn isWordChar kept = false ∨ startsIn isWordChar rest = false) ∧
      ∀ front w behind, kept = front ++ (w.map .code ++ behind) →
        ¬ Standing separatorWord front w behind := by
  obtain ⟨front, w, behind, read, standing, rfl, -, -, first⟩ :=
    exists_cut_of_splitSeparator? balanced found
  have parts := closed
  rw [read] at parts
  obtain ⟨kept, blanks, rfl, blank, trimmed⟩ := parts.left.exists_trimEnd
  have seam : endsIn isWordChar kept = false ∨
      startsIn isWordChar (blanks.map .code ++ (w.map .code ++ behind)) = false := by
    cases blanks with
    | nil => exact .inl (by simpa using standing.before)
    | cons c blanks => exact .inr (isWordChar_of_isBlank (blank c List.mem_cons_self))
  have level : Balanced kept := by
    have whole := standing.level
    rw [levelAfter_append, Option.bind_eq_some_iff] at whole
    obtain ⟨depth, level, rest⟩ := whole
    rw [levelAfter_of_isBlank (isBlank_of_mem_map blank)] at rest
    cases rest
    exact level
  refine ⟨kept, _, by rw [read, List.append_assoc], trimmed, level, seam, ?_⟩
  rintro early w' late rfl other
  obtain ⟨present, letters⟩ := isWordChar_of_spelled isAsciiWord_separatorWord other.named
  have inside : Standing separatorWord early w'
      (late ++ (blanks.map .code ++ (w.map .code ++ behind))) := by
    refine ⟨other.named, other.before, ?_, other.level⟩
    cases late with
    | cons l late => exact other.after
    | nil =>
        -- a word at the end would reach on
        rcases seam with ended | apart
        · rw [List.append_nil, endsIn, List.getLast?_append_of_ne_nil _ (by simpa using present),
            List.getLast?_map, List.getLast?_eq_some_getLast present] at ended
          have last : isWordChar (w'.getLast present) = false := ended
          rw [letters _ (List.getLast_mem present)] at last
          cases last
        · exact apart
  have short := first early w' _ (by rw [read]; simp only [List.append_assoc]) inside
  have filled := List.length_pos_of_ne_nil present
  simp only [List.flatMap_append, flatMap_text_map_code, List.length_append] at short
  omega

end LiteSql
