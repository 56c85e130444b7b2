import LiteSql.Proofs.Rejoining

/-! Texts listed with commas between them. Pieces whose parentheses match and that no comma outside
parentheses divides are found again where their list is split, whatever blanks stand around them. -/

namespace LiteSql

/-! ### Trimming -/

theorem trimEnd_trimEnd (s : Text) : trimEnd (trimEnd s) = trimEnd s := by
  obtain ⟨tail, cut, blank⟩ := exists_dropEndWhile isBlank s
  have same := dropEndWhile_append isBlank (dropEndWhile isBlank s) blank
  rw [← cut] at same
  exact same.symm

theorem head?_trim (s : Text) : (trim s).head?.any isBlank = false := by
  have stopped := List.head?_dropWhile_not isBlank s
  obtain ⟨tail, cut, -⟩ := exists_dropEndWhile isBlank (s.dropWhile isBlank)
  rw [← trimEnd, ← trim] at cut
  cases text : trim s with
  | nil => rfl
  | cons c rest =>
      rw [cut, text, List.cons_append, List.head?_cons] at stopped
      simpa using stopped

theorem trim_trim (s : Text) : trim (trim s) = trim s := by
  have same : (trim s).dropWhile isBlank = trim s := by
    have filled := head?_trim s
    cases text : trim s with
    | nil => rfl
    | cons c rest =>
        rw [text] at filled
        exact List.dropWhile_cons_of_neg (by simpa using filled)
  rw [trim, same, trim, trimEnd_trimEnd]

theorem trim_eq_nil {s : Text} (blank : ∀ c ∈ s, isBlank c = true) : trim s = [] := by
  rw [trim, List.dropWhile_eq_nil_iff.mpr blank]
  rfl

theorem dropWhile_of_head? {s : Text} (filled : s.head?.any isBlank = false) :
    s.dropWhile isBlank = s := by
  cases s with
  | nil => rfl
  | cons c s => exact List.dropWhile_cons_of_neg (by simpa using filled)

theorem trimEnd_append (s t : Text) : trimEnd (s ++ t) = if trimEnd t = [] then trimEnd s
    else s ++ trimEnd t := by
  induction s with
  | nil => split <;> simp_all [trimEnd, dropEndWhile]
  | cons c s ih =>
      simp only [trimEnd] at ih
      simp only [List.cons_append, trimEnd, dropEndWhile, ih]
      by_cases none : dropEndWhile isBlank t = [] <;> simp [none]

theorem trimEnd_eq_nil {s : Text} (blank : ∀ c ∈ s, isBlank c = true) : trimEnd s = [] := by
  have none := dropEndWhile_append isBlank [] blank
  rwa [List.nil_append] at none

theorem trim_padded {before after : Text} (leading : ∀ c ∈ before, isBlank c = true)
    (trailing : ∀ c ∈ after, isBlank c = true) (s : Text) :
      trim (before ++ (s ++ after)) = trim s := by
  rw [trim, List.dropWhile_append_of_pos leading, trim]
  by_cases blank : ∀ c ∈ s, isBlank c = true
  · have none : ∀ c ∈ s ++ after, isBlank c = true := fun c member =>
      (List.mem_append.mp member).elim (blank c) (trailing c)
    rw [List.dropWhile_eq_nil_iff.mpr blank, List.dropWhile_eq_nil_iff.mpr none]
  · have kept : (s ++ after).dropWhile isBlank = s.dropWhile isBlank ++ after := by
      rw [List.dropWhile_append, if_neg]
      rw [List.isEmpty_iff, List.dropWhile_eq_nil_iff]
      exact blank
    rw [kept]
    exact dropEndWhile_append isBlank _ trailing

theorem trim_eq_self {s : Text} (first : s.head?.any isBlank = false)
    (last : s.getLast?.any isBlank = false) :
    trim s = s := by
  rcases List.eq_nil_or_concat s with rfl | ⟨front, c, rfl⟩
  · rfl
  · rw [List.concat_eq_append] at first last ⊢
    rw [List.getLast?_concat, Option.any_some] at last
    rw [trim, dropWhile_of_head? first, trimEnd_append_filled front last]

theorem getLast?_trim (s : Text) : (trim s).getLast?.any isBlank = false := by
  rcases List.eq_nil_or_concat (trim s) with none | ⟨front, c, text⟩
  · rw [none]
    rfl
  · rw [List.concat_eq_append] at text
    rw [text, List.getLast?_concat, Option.any_some, ← Bool.not_eq_true]
    intro blank
    have shorter : trimEnd (trim s) = trimEnd front := by
      rw [text]
      exact dropEndWhile_append isBlank front (by simpa using blank)
    obtain ⟨tail, cut, -⟩ := exists_dropEndWhile isBlank front
    rw [trim, trimEnd_trimEnd, ← trim, text] at shorter
    have sizes := congrArg List.length cut
    rw [← trimEnd, ← shorter] at sizes
    simp only [List.length_append, List.length_singleton] at sizes
    omega

theorem isBlank_of_mem_flatMap_text {ls : List Lexeme} (blank : ∀ l ∈ ls, l.isBlank = true) :
    ∀ c ∈ ls.flatMap Lexeme.text, isBlank c = true := by
  intro c member
  obtain ⟨l, inside, here⟩ := List.mem_flatMap.mp member
  have spaced := blank l inside
  cases l with
  | code d => rwa [List.mem_singleton.mp here]
  | literal kind text => cases spaced

theorem Padding.trim_text {core padded : List Lexeme} (padding : Padding core padded) :
    trim (padded.flatMap Lexeme.text) = trim (core.flatMap Lexeme.text) := by
  obtain ⟨before, after, rfl, leading, trailing⟩ := padding
  rw [List.flatMap_append, List.flatMap_append]
  exact trim_padded (isBlank_of_mem_flatMap_text leading) (isBlank_of_mem_flatMap_text trailing) _

/-! ### Joining -/

theorem joinWith_append_one {separator z : Text} {pieces : List Text} (present : pieces ≠ []) :
    joinWith separator (pieces ++ [z]) = joinWith separator pieces ++ (separator ++ z) := by
  fun_induction joinWith separator pieces with
  | case1 => exact absurd rfl present
  | case2 piece => simp [joinWith]
  | case3 piece next rest ih =>
      have later := ih (by simp)
      rw [List.cons_append, List.cons_append, joinWith, ← List.cons_append, later]
      simp

theorem joinWith_cons {separator piece : Text} {pieces : List Text} (present : pieces ≠ []) :
    joinWith separator (piece :: pieces) = piece ++ separator ++ joinWith separator pieces := by
  obtain ⟨next, rest, rfl⟩ := List.exists_cons_of_ne_nil present
  rfl

/-! ### Pieces -/

/-- A piece of a list: its parentheses match and no comma outside them divides it. -/
structure Item (x : List Lexeme) : Prop where
  balanced : Balanced x
  undivided : Undivided [] x

theorem Item.congr {x y : List Lexeme} (item : Item x) (same : filled y = filled x) : Item y where
  balanced := by
    rw [Balanced, ← levelAfter_filled, same, levelAfter_filled]
    exact item.balanced
  undivided := by
    rintro y z rfl shallow
    rw [filled_append, filled_comma] at same
    obtain ⟨front, rest, rfl, early, late⟩ := List.filter_eq_append_iff.mp same.symm
    obtain ⟨blanks, behind, rfl, spaces, -, -⟩ := List.filter_eq_cons_iff.mp late
    refine item.undivided (front ++ blanks) behind (by simp) ?_
    have none : filled blanks = [] := by simpa [filled] using spaces
    have same : filled front = filled y := early
    rw [List.nil_append, ← levelAfter_filled] at shallow ⊢
    rwa [filled_append, none, List.append_nil, same]

theorem Padding.item {core padded : List Lexeme} (padding : Padding core padded)
    (item : Item core) :
    Item padded := item.congr padding.filled_eq

inductive Listed : List (List Lexeme) → List Lexeme → Prop
  | last {core x : List Lexeme} : Padding core x → Listed [core] x
  | comma {core x xs : List Lexeme} {cores : List (List Lexeme)} :
    Padding core x → Listed cores xs → Listed (core :: cores) (x ++ .code ',' :: xs)

theorem levelAfter_append_one {depth : Nat} {front : List Lexeme} {l : Lexeme}
    (start : levelAfter 0 front = some depth) (later : ¬ (l = .code ')' ∧ depth = 0)) :
    levelAfter 0 (front ++ [l]) = some (depthAfter depth l) := by
  rw [levelAfter_append, start, Option.bind_some, levelAfter, if_neg later]
  rfl

theorem piecesAt_append_comma {depth : Nat} {front x : List Lexeme}
    (start : levelAfter 0 front = some depth)
    (level : levelAfter depth x = some 0) (undivided : Undivided front x) (rest : List Lexeme) :
    piecesAt depth (x ++ .code ',' :: rest) = x.flatMap Lexeme.text :: piecesAt 0 rest ∧
      piecesAt depth x = [x.flatMap Lexeme.text] := by
  induction x generalizing depth front with
  | nil =>
      cases level
      exact ⟨by simp [piecesAt], rfl⟩
  | cons l x ih =>
      have deep : ¬ (l = .code ',' ∧ (depth : Int) = 0) := by
        rintro ⟨rfl, shallow⟩
        refine undivided [] x rfl ?_
        rw [List.append_nil, start]
        congr
        omega
      rw [levelAfter] at level
      split at level
      · cases level
      · next later =>
          have behind : Undivided (front ++ [l]) x := by
            intro y z divided
            rw [List.append_assoc]
            exact undivided (l :: y) z (by rw [divided]; rfl)
          obtain ⟨both, alone⟩ := ih (levelAfter_append_one start later) level behind
          rw [List.cons_append, piecesAt, piecesAt, if_neg deep, if_neg deep, add_turn later,
            both, alone]
          exact ⟨rfl, rfl⟩

theorem Item.piecesAt_comma {x : List Lexeme} (item : Item x) (rest : List Lexeme) :
    piecesAt 0 (x ++ .code ',' :: rest) = x.flatMap Lexeme.text :: piecesAt 0 rest :=
  (piecesAt_append_comma (show levelAfter 0 [] = some 0 from rfl) item.balanced
    item.undivided rest).1

theorem Item.piecesAt_eq {x : List Lexeme} (item : Item x) :
    piecesAt 0 x = [x.flatMap Lexeme.text] :=
  (piecesAt_append_comma (show levelAfter 0 [] = some 0 from rfl) item.balanced item.undivided []).2

namespace Listed

variable {cores : List (List Lexeme)} {whole : List Lexeme} (listed : Listed cores whole)

include listed

theorem isInfix {core : List Lexeme} (member : core ∈ cores) : core <:+: whole := by
  have inside {core x : List Lexeme} (padding : Padding core x) : core <:+: x := by
    obtain ⟨before, after, rfl, -, -⟩ := padding
    exact ⟨before, after, by simp⟩
  induction listed with
  | last padding => rw [List.mem_singleton.mp member]; exact inside padding
  | @comma first x xs cores padding _ ih =>
      rcases List.mem_cons.mp member with rfl | later
      · exact (inside padding).trans (List.prefix_append x _).isInfix
      · exact (ih later).trans ⟨x ++ [.code ','], [], by simp⟩

variable (items : ∀ core ∈ cores, Item core)

include items

theorem balanced : Balanced whole := by
  induction listed with
  | last padding => exact (padding.item (items _ List.mem_cons_self)).balanced
  | @comma core x xs cores padding _ ih =>
      have first := (padding.item (items core List.mem_cons_self)).balanced
      have second : Balanced ([.code ','] ++ xs) := Balanced.append rfl
        (ih fun core member => items core (List.mem_cons_of_mem _ member))
      exact first.append second

theorem map_trim_piecesAt :
    (piecesAt 0 whole).map trim = cores.map fun core => trim (core.flatMap Lexeme.text) := by
  induction listed with
  | last padding =>
      rw [(padding.item (items _ List.mem_cons_self)).piecesAt_eq, List.map_singleton,
        padding.trim_text]
      rfl
  | @comma core x xs cores padding _ ih =>
      have others := ih fun core member => items core (List.mem_cons_of_mem _ member)
      rw [(padding.item (items core List.mem_cons_self)).piecesAt_comma, List.map_cons,
        padding.trim_text, others]
      rfl

theorem splitArguments_eq (closed : Sealed whole)
    (present : ∃ core ∈ cores, trim (core.flatMap Lexeme.text) ≠ []) :
    splitArguments (whole.flatMap Lexeme.text) = cores.map fun core =>
      trim (core.flatMap Lexeme.text) := by
  obtain ⟨core, member, filled⟩ := present
  have solid : ¬ (whole.flatMap Lexeme.text).all isBlank = true := by
    intro blank
    refine filled (trim_eq_nil fun c inside => List.all_eq_true.mp blank c ?_)
    obtain ⟨l, piece, here⟩ := List.mem_flatMap.mp inside
    exact List.mem_flatMap.mpr ⟨l, (listed.isInfix member).subset piece, here⟩
  rw [splitArguments, closed.lexemes_text, if_neg solid, listed.map_trim_piecesAt items]

end Listed

theorem exists_items_behind {depth : Nat} {front ls : List Lexeme}
    (start : levelAfter 0 front = some depth)
    (level : levelAfter depth ls = some 0) :
    ∃ first others, piecesAt depth ls = (first :: others).map (List.flatMap Lexeme.text) ∧
      levelAfter depth first = some 0 ∧ Undivided front first ∧ first <+: ls ∧
      ∀ x ∈ others, Item x ∧ x <:+: ls := by
  induction ls generalizing depth front with
  | nil => exact ⟨[], [], rfl, level, by simp [Undivided], by simp, by simp⟩
  | cons l ls ih =>
      rw [levelAfter] at level
      split at level
      · cases level
      · next later =>
          have longer {x : List Lexeme} (inside : x <:+: ls) : x <:+: l :: ls :=
            inside.trans (List.suffix_cons l ls).isInfix
          rw [piecesAt]
          split
          · next comma =>
              obtain ⟨rfl, shallow⟩ := comma
              obtain rfl : depth = 0 := by omega
              obtain ⟨first, others, pieces, ends, undivided, start, items⟩ :=
                ih (show levelAfter 0 [] = some 0 from rfl) level
              refine ⟨[],
                first :: others, by rw [shallow] at *; rw [pieces]; rfl, rfl, by simp [Undivided],
                List.nil_prefix, List.forall_mem_cons.mpr
                  ⟨⟨⟨ends, undivided⟩, longer start.isInfix⟩, ?_⟩⟩
              exact fun x member => ⟨(items x member).1, longer (items x member).2⟩
          · next deep =>
              obtain ⟨first, others, pieces, ends, undivided, whole, items⟩ :=
                ih (levelAfter_append_one start later) level
              refine ⟨l :: first, others, by rw [add_turn later, pieces]; rfl,
                by rw [levelAfter, if_neg later, ends], ?_, (List.prefix_cons_inj l).mpr whole,
                fun x member => ⟨(items x member).1, longer (items x member).2⟩⟩
              rintro (_ | ⟨m, y⟩) z divided
              · obtain ⟨rfl, -⟩ := List.cons.inj divided
                rw [List.append_nil, start]
                intro shallow
                exact deep ⟨rfl, by simpa using shallow⟩
              · obtain ⟨rfl, rest⟩ := List.cons.inj divided
                have apart := undivided y z rest
                rwa [List.append_assoc] at apart

theorem exists_items {ls : List Lexeme} (balanced : Balanced ls) : ∃ items : List (List Lexeme),
    piecesAt 0 ls = items.map (List.flatMap Lexeme.text) ∧ ∀ x ∈ items, Item x ∧ x <:+: ls := by
  obtain ⟨first, others, pieces, ends, undivided, start, items⟩ :=
    exists_items_behind (show levelAfter 0 [] = some 0 from rfl) balanced
  exact ⟨first :: others, pieces, List.forall_mem_cons.mpr
    ⟨⟨⟨ends, undivided⟩, start.isInfix⟩, items⟩⟩

end LiteSql
