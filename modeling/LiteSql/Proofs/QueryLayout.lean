import LiteSql.Proofs.LineLayout

/-! The lines of a plain query after its layout: which of them are indented, and that a second
layout finds them as they are. -/

namespace LiteSql

/-! ### Lines of a joined text -/

theorem lines_of_flat {x : Text} (flat : '\n' ∉ x) : lines x = [x] := by
  induction x with
  | nil => rfl
  | cons c x ih =>
      rw [List.mem_cons, not_or] at flat
      rw [lines, if_neg (Ne.symm flat.1), ih flat.2]
      rfl

theorem lines_append {x : Text} (flat : '\n' ∉ x) (y : Text) :
    lines (x ++ '\n' :: y) = x :: lines y := by
  induction x with
  | nil => exact if_pos rfl
  | cons c x ih =>
      rw [List.mem_cons, not_or] at flat
      rw [List.cons_append, lines, if_neg (Ne.symm flat.1), ih flat.2]
      rfl

theorem lines_joinWith {ls : List Text} (present : ls ≠ []) (flat : ∀ line ∈ ls, '\n' ∉ line) :
    lines (joinWith "\n" ls) = ls := by
  induction ls with
  | nil => exact absurd rfl present
  | cons line rest ih =>
      obtain ⟨first, later⟩ := List.forall_mem_cons.mp flat
      cases rest with
      | nil => exact lines_of_flat first
      | cons next rest =>
          calc
            lines (line ++ "\n" ++ joinWith "\n" (next :: rest))
              = lines (line ++ '\n' :: joinWith "\n" (next :: rest)) := by
                rw [List.append_assoc]
                rfl
            _ = line :: lines (joinWith "\n" (next :: rest)) := lines_append first _
            _ = line :: next :: rest := by rw [ih (List.cons_ne_nil _ _) later]

theorem not_mem_of_mem_lines {s line : Text} (member : line ∈ lines s) : '\n' ∉ line := by
  induction s generalizing line with
  | nil =>
      rw [lines, List.mem_singleton] at member
      rw [member]
      exact List.not_mem_nil
  | cons c s ih =>
      rw [lines] at member
      split at member
      · rcases List.mem_cons.mp member with rfl | later
        · exact List.not_mem_nil
        · exact ih later
      · next other =>
        cases read : lines s with
        | nil => exact absurd read (lines_ne_nil s)
        | cons first rest =>
            rw [read, extendFirst, List.mem_cons] at member
            rcases member with rfl | later
            · have flat := ih (read ▸ List.mem_cons_self)
              exact List.not_mem_cons_of_ne_of_not_mem (Ne.symm other) flat
            · exact ih (read ▸ List.mem_cons_of_mem _ later)

/-! ### Characters that are not blank -/

theorem filter_solid_of_blank {b : Text} (blank : ∀ c ∈ b, isBlank c = true) :
    b.filter (!isBlank ·) = [] := by
  rw [List.filter_eq_nil_iff]
  intro c member
  simp [blank c member]

theorem Relaid.filter_solid {x y : Text} (relaid : Relaid x y) :
    x.filter (!isBlank ·) = y.filter (!isBlank ·) := by
  induction relaid with
  | nil => rfl
  | keep c _ ih => rw [List.filter_cons, List.filter_cons, ih]
  | swap one other _ ih =>
      rw [List.filter_append, List.filter_append, filter_solid_of_blank one.1,
        filter_solid_of_blank other.1, ih]

theorem filter_solid_trim (s : Text) : (trim s).filter (!isBlank ·) = s.filter (!isBlank ·) := by
  obtain ⟨before, after, whole, blank, blank'⟩ := Layout.exists_trim_eq s
  conv_rhs => rw [whole]
  rw [List.filter_append, List.filter_append, filter_solid_of_blank blank,
    filter_solid_of_blank blank', List.append_nil, List.nil_append]

theorem filter_solid_squeeze (ls : List Lexeme) :
    ((squeeze ls).flatMap Lexeme.text).filter (!isBlank ·) = (ls.flatMap Lexeme.text).filter
    (!isBlank ·) := by
  induction ls with
  | nil => rfl
  | cons l ls ih =>
      rw [squeeze]
      split
      · next blank =>
        obtain ⟨c, rfl, space⟩ : ∃ c, l = .code c ∧ isBlank c = true := by
          cases l with
          | code c => exact ⟨c, rfl, blank⟩
          | literal kind text => cases blank
        have gone : ((Lexeme.code c :: ls).flatMap Lexeme.text).filter (!isBlank ·) =
            (ls.flatMap Lexeme.text).filter (!isBlank ·) := by
          rw [List.flatMap_cons, Lexeme.text, List.singleton_append, List.filter_cons, space]
          rfl
        rw [gone, ← ih]
        split <;> rfl
      · rw [List.flatMap_cons, List.filter_append, ih, ← List.filter_append, ← List.flatMap_cons]

/-! ### A query on one line -/

theorem not_mem_trim {c : Char} {s : Text} (apart : c ∉ s) : c ∉ trim s := by
  obtain ⟨before, after, whole, -⟩ := Layout.exists_trim_eq s
  intro member
  apply apart
  rw [whole]
  exact List.mem_append_right _ (List.mem_append_left _ member)

theorem squeezed_lexemes_trim {s : Text} (squeezed : Squeezed (lexemes s)) :
    Squeezed (lexemes (trim s)) := by
  rcases lexemes_trim s with whole | ⟨front, kind, text, ends, inner⟩
  · exact squeezed.of_isInfix whole
  · rw [ends]
    have shorter := squeezed.of_isInfix inner
    refine ⟨?_, ?_⟩
    · apply List.isChain_append.mpr
      refine ⟨shorter.apart, List.isChain_singleton _, ?_⟩
      intro l _ m last
      cases last
      rintro ⟨-, blank⟩
      cases blank
    · intro l member blank
      rcases List.mem_append.mp member with earlier | last
      · exact shorter.space l earlier blank
      · cases List.mem_singleton.mp last
        cases blank

theorem squeezed_collapseBlanks {s : Text} (flat : '\n' ∉ s) :
    Squeezed (lexemes (collapseBlanks s)) := by
  have whole := flatMap_text_lexemes s
  have read : lexemes ((squeeze (lexemes s)).flatMap Lexeme.text) = squeeze (lexemes s) :=
    Layout.lexemes_squeeze_of_flat (by rw [whole]) (by rwa [whole])
  apply squeezed_lexemes_trim
  rw [replaceCode_gap, read]
  exact squeezed_squeeze _

theorem collapseBlanks_collapseBlanks {s : Text} (flat : '\n' ∉ s) :
    collapseBlanks (collapseBlanks s) = collapseBlanks s := by
  have same : Pattern.gap.replaceCode (fun _ => " ") (collapseBlanks s) = collapseBlanks s := by
    rw [replaceCode_gap, squeeze_eq_self (squeezed_collapseBlanks flat), flatMap_text_lexemes]
  calc
    collapseBlanks (collapseBlanks s) = trim (Pattern.gap.replaceCode (fun _ => " ")
      (collapseBlanks s)) := rfl
    _ = trim (collapseBlanks s) := by rw [same]
    _ = collapseBlanks s := trim_trim _

theorem mem_squeeze {l : Lexeme} {ls : List Lexeme} (member : l ∈ squeeze ls) :
    l = .code ' ' ∨ l ∈ ls := by
  induction ls with
  | nil => cases member
  | cons m ls ih =>
      have later : l ∈ squeeze ls → l = .code ' ' ∨ l ∈ m :: ls := fun among =>
        (ih among).imp_right (List.mem_cons_of_mem m)
      rw [squeeze] at member
      split at member
      · split at member
        · exact later member
        · rcases List.mem_cons.mp member with space | among
          · exact .inl space
          · exact later among
      · rcases List.mem_cons.mp member with rfl | among
        · exact .inr List.mem_cons_self
        · exact later among

theorem not_mem_collapseBlanks {s : Text} (flat : '\n' ∉ s) : '\n' ∉ collapseBlanks s := by
  apply not_mem_trim
  rw [replaceCode_gap]
  intro feed
  obtain ⟨l, member, inside⟩ := List.mem_flatMap.mp feed
  rcases mem_squeeze member with rfl | among
  · exact absurd inside (by decide)
  · apply flat
    rw [← flatMap_text_lexemes s]
    exact List.mem_flatMap.mpr ⟨l, among, inside⟩

theorem filter_solid_collapseBlanks (s : Text) :
    (collapseBlanks s).filter (!isBlank ·) = s.filter (!isBlank ·) := by
  rw [collapseBlanks, filter_solid_trim, replaceCode_gap, filter_solid_squeeze,
    flatMap_text_lexemes]

namespace Layout

/-! ### Lines in the column list of a SELECT -/

def Unbroken (kept : List Text) (i : Nat) : Prop := ∀ k ≤ i, kept[k]?.any startsClause = false

/-- Line `i` stands in the column list of a SELECT: some earlier line starts with SELECT, and no
line after that one starts a clause, up to line `i` and with it. -/
def InSelect (kept : List Text) (i : Nat) : Prop :=
  ∃ j < i, kept[j]?.any startsSelect = true ∧ ∀ k ≤ i, j < k → kept[k]?.any startsClause = false

instance (kept : List Text) (i : Nat) : Decidable (Unbroken kept i) :=
  inferInstanceAs (Decidable (∀ k ≤ i, kept[k]?.any startsClause = false))

instance (kept : List Text) (i : Nat) : Decidable (InSelect kept i) :=
  inferInstanceAs (Decidable
    (∃ j < i, kept[j]?.any startsSelect = true ∧ ∀ k ≤ i, j < k →
      kept[k]?.any startsClause = false))

theorem unbroken_zero (line : Text) (rest : List Text) : Unbroken (line :: rest) 0 ↔
    startsClause line = false := by
  constructor
  · intro unbroken
    exact unbroken 0 (le_refl 0)
  · intro apart k low
    cases Nat.le_zero.mp low
    exact apart

theorem unbroken_succ (line : Text) (rest : List Text) (i : Nat) :
    Unbroken (line :: rest) (i + 1) ↔ startsClause line = false ∧ Unbroken rest i := by
  constructor
  · intro unbroken
    refine ⟨unbroken 0 (Nat.zero_le _), ?_⟩
    intro k low
    exact unbroken (k + 1) (Nat.succ_le_succ low)
  · rintro ⟨apart, unbroken⟩ k low
    cases k with
    | zero => exact apart
    | succ k => exact unbroken k (Nat.le_of_succ_le_succ low)

theorem not_inSelect_zero (kept : List Text) : ¬ InSelect kept 0 := by
  rintro ⟨j, low, -⟩
  exact absurd low (Nat.not_lt_zero j)

theorem inSelect_succ (line : Text) (rest : List Text) (i : Nat) :
    InSelect (line :: rest) (i + 1) ↔ startsSelect line = true ∧ Unbroken rest i ∨
      InSelect rest i := by
  constructor
  · rintro ⟨j, low, starts, unbroken⟩
    cases j with
    | zero =>
        refine .inl ⟨starts, ?_⟩
        intro k below
        exact unbroken (k + 1) (Nat.succ_le_succ below) (Nat.succ_pos k)
    | succ j =>
        refine .inr ⟨j, Nat.lt_of_succ_lt_succ low, starts, ?_⟩
        intro k below above
        exact unbroken (k + 1) (Nat.succ_le_succ below) (Nat.succ_lt_succ above)
  · rintro (⟨starts, unbroken⟩ | ⟨j, low, starts, unbroken⟩)
    · refine ⟨0, Nat.succ_pos i, starts, ?_⟩
      intro k below above
      obtain ⟨k, rfl⟩ := Nat.exists_eq_succ_of_ne_zero (Nat.ne_of_gt above)
      exact unbroken k (Nat.le_of_succ_le_succ below)
    · refine ⟨j + 1, Nat.succ_lt_succ low, starts, ?_⟩
      intro k below above
      obtain ⟨k, rfl⟩ := Nat.exists_eq_succ_of_ne_zero (Nat.ne_of_gt (Nat.zero_lt_of_lt above))
      exact unbroken k (Nat.le_of_succ_le_succ below) (Nat.lt_of_succ_lt_succ above)

/-- The flag that is carried from line to line stands for a SELECT before the first line. -/
theorem getElem?_indentLines (inSelect : Bool) (kept : List Text) (i : Nat) :
    (indentLines inSelect kept)[i]? = kept[i]?.map fun line =>
      if inSelect = true ∧ Unbroken kept i ∨ InSelect kept i then indent ++ line else line := by
  induction kept generalizing inSelect i with
  | nil => rfl
  | cons line rest ih =>
      rw [indentLines]
      cases i with
      | zero => simp [unbroken_zero, not_inSelect_zero]
      | succ i =>
          rw [List.getElem?_cons_succ, List.getElem?_cons_succ, ih]
          congr! 3
          rw [unbroken_succ, inSelect_succ]
          simp only [Bool.or_eq_true, Bool.and_eq_true, Bool.not_eq_true']
          tauto

theorem indentLines_eq (kept : List Text) :
    indentLines false kept = kept.mapIdx fun i line => if InSelect kept i then indent ++ line
      else line := by
  apply List.ext_getElem?
  intro i
  rw [getElem?_indentLines, List.getElem?_mapIdx]
  simp

/-! ### The lines that are kept -/

theorem mem_solidLines {ls : List Text} {line : Text} (member : line ∈ solidLines ls) :
    ∃ whole ∈ ls, line = trim whole ∧ trim whole ≠ [] := by
  obtain ⟨among, filled⟩ := List.mem_filter.mp member
  obtain ⟨whole, inside, rfl⟩ := List.mem_map.mp among
  refine ⟨whole, inside, rfl, ?_⟩
  simpa using filled

theorem trim_indent {line : Text} (trimmed : trim line = line) : trim (indent ++ line) = line := by
  conv_rhs => rw [← trimmed]
  rfl

theorem solidLines_indentLines (inSelect : Bool) {kept : List Text}
    (solid : ∀ line ∈ kept, trim line = line ∧ line ≠ []) :
      solidLines (indentLines inSelect kept) = kept := by
  induction kept generalizing inSelect with
  | nil => rfl
  | cons line rest ih =>
      obtain ⟨⟨trimmed, filled⟩, later⟩ := List.forall_mem_cons.mp solid
      have same : ∀ deeper : Bool, trim (if deeper then indent ++ line else line) = line := by
        intro deeper
        cases deeper with
        | true => exact trim_indent trimmed
        | false => exact trimmed
      rw [indentLines, solidLines_cons (by rw [same]; exact filled), same, ih _ later]

theorem plainQuery_of_complex {s : Text} (complex : isSimple s = false) :
    plainQuery s = joinWith "\n" (indentLines false (solidLines (lines s))) := by
  rw [plainQuery, complex]
  rfl

theorem lines_plainQuery {s : Text} (complex : isSimple s = false) (filled : trim s ≠ []) :
    lines (plainQuery s) = indentLines false (solidLines (lines s)) := by
  rw [plainQuery_of_complex complex]
  apply lines_joinWith
  · intro none
    apply filled
    apply (relaid_plainQuery complex).eq_nil_iff.mpr
    rw [plainQuery_of_complex complex, none]
    rfl
  · rw [indentLines_eq]
    intro line member
    obtain ⟨i, inside, rfl⟩ := List.mem_mapIdx.mp member
    obtain ⟨whole, among, same, -⟩ := mem_solidLines (List.getElem_mem inside)
    have flat : '\n' ∉ (solidLines (lines s))[i] := by
      rw [same]
      exact not_mem_trim (not_mem_of_mem_lines among)
    split
    · rw [List.mem_append, not_or]
      exact ⟨by decide, flat⟩
    · exact flat

/-! ### The layout of a trimmed query -/

section

variable {s : Text} (trimmed : trim s = s)

include trimmed

theorem filter_solid_plainQuery : (plainQuery s).filter (!isBlank ·) = s.filter (!isBlank ·) := by
  cases simple : isSimple s with
  | true => rw [plainQuery, if_pos simple, filter_solid_collapseBlanks]
  | false => rw [← (relaid_plainQuery simple).filter_solid, trimmed]

theorem plainQuery_of_flat (complex : isSimple s = false) (flat : '\n' ∉ s) : plainQuery s = s := by
  have relaid := relaid_plainQuery complex
  rw [trimmed] at relaid
  exact relaid.eq_of_not_mem flat

omit trimmed in
theorem not_mem_of_isSimple (simple : isSimple s = true) : '\n' ∉ s := by
  intro feed
  simp [isSimple, feed] at simple

theorem plainQuery_plainQuery : plainQuery (plainQuery s) = plainQuery s := by
  -- The second layout need not take the path of the first.
  cases simple : isSimple s with
  | true =>
      have flat := not_mem_of_isSimple simple
      have same : plainQuery s = collapseBlanks s := by rw [plainQuery, if_pos simple]
      rw [same]
      cases again : isSimple (collapseBlanks s) with
      | true => rw [plainQuery, if_pos again, collapseBlanks_collapseBlanks flat]
      | false => exact plainQuery_of_flat (trim_trim _) again (not_mem_collapseBlanks flat)
  | false =>
      have relaid := relaid_plainQuery simple
      rw [trimmed] at relaid
      cases again : isSimple (plainQuery s) with
      | true =>
          -- Without a line feed in the result there is none in the query, and nothing has changed.
          have same := relaid.symm.eq_of_not_mem (not_mem_of_isSimple again)
          rw [← same, simple] at again
          cases again
      | false =>
          have filled : trim s ≠ [] := by
            rw [trimmed]
            rintro rfl
            cases simple
          rw [plainQuery_of_complex again, lines_plainQuery simple filled, solidLines_indentLines,
            ← plainQuery_of_complex simple]
          intro line member
          obtain ⟨whole, -, rfl, present⟩ := mem_solidLines member
          exact ⟨trim_trim whole, present⟩

end

/-- The layout of a plain query without blanks at its ends is found again by a second layout and
keeps all characters that are not blank. Where it goes line by line, its lines are the trimmed lines
of the query that are not blank, indented in the column list of a SELECT and nowhere else. -/
theorem plainQuery_layout {s : Text} (trimmed : trim s = s) :
    plainQuery (plainQuery s) = plainQuery s ∧ (plainQuery s).filter (!isBlank ·) =
      s.filter (!isBlank ·) ∧
      (isSimple s = false → lines (plainQuery s) = (solidLines (lines s)).mapIdx fun i line =>
        if InSelect (solidLines (lines s)) i then indent ++ line else line) := by
  refine ⟨plainQuery_plainQuery trimmed, filter_solid_plainQuery trimmed, ?_⟩
  intro complex
  have filled : trim s ≠ [] := by
    rw [trimmed]
    rintro rfl
    cases complex
  rw [lines_plainQuery complex filled, indentLines_eq]

theorem plainQuery_layout_nested :
    let s : Text := "SELECT a,\n  \n\tb\nFROM (SELECT c\nfrom u) -- x\n, t"
    trim s = s ∧ isSimple s = false ∧ plainQuery (plainQuery s) = plainQuery s ∧
      lines (plainQuery s) =
      ["SELECT a,".toList, "    b".toList, "FROM (SELECT c".toList, "from u) -- x".toList,
        ", t".toList] := by
  intro s
  have trimmed : trim s = s := by decide +kernel
  have complex : isSimple s = false := by decide +kernel
  obtain ⟨stable, -, laid⟩ := plainQuery_layout trimmed
  exact ⟨trimmed, complex, stable, (laid complex).trans (by decide +kernel)⟩

end Layout

end LiteSql
