import Mathlib.Data.List.TakeWhile
import LiteSql.Proofs.Balance
import LiteSql.Proofs.Sealing

/-! Arguments that are split and written one after another again. Only the blanks around the commas
outside parentheses change, so what lies between such commas is found in both texts. -/

namespace LiteSql

def Lexeme.isFirm : Lexeme → Bool
  | .code c => !(LiteSql.isBlank c || c == ',')
  | .literal _ _ => true

theorem Lexeme.isFirm_of_isBlank {l : Lexeme} (blank : l.isBlank = true) : l.isFirm = false := by
  cases l with
  | code c =>
      have here : LiteSql.isBlank c = true := blank
      simp [isFirm, here]
  | literal kind text => cases blank

def filled (ls : List Lexeme) : List Lexeme := ls.filter fun l => !l.isBlank

theorem filled_append (first second : List Lexeme) :
    filled (first ++ second) = filled first ++ filled second := List.filter_append first second

theorem filled_comma (ls : List Lexeme) : filled (.code ',' :: ls) = .code ',' :: filled ls := by
  have comma : (Lexeme.code ',').isBlank = false := by decide
  simp [filled, comma]

theorem isBlank_of_mem_map {blanks : Text} (blank : ∀ c ∈ blanks, isBlank c = true) :
    ∀ l ∈ blanks.map Lexeme.code, l.isBlank = true := by
  intro l member
  obtain ⟨c, inside, rfl⟩ := List.mem_map.mp member
  exact blank c inside

theorem filled_eq_nil_iff (ls : List Lexeme) : filled ls = [] ↔ ∀ l ∈ ls, l.isBlank = true := by
  simp [filled, List.filter_eq_nil_iff]

theorem levelAfter_of_isBlank {ls : List Lexeme} (blank : ∀ l ∈ ls, l.isBlank = true)
    (depth : Nat) : levelAfter depth ls = some depth := by
  induction ls with
  | nil => rfl
  | cons l ls ih =>
      have first := blank l List.mem_cons_self
      have stays : l.turn = 0 ∧ l ≠ .code ')' := by
        cases l with
        | literal kind text => cases first
        | code c =>
            have opened : c ≠ '(' := fun here => by
              rw [here] at first
              exact absurd first (by decide)
            have closed : c ≠ ')' := fun here => by
              rw [here] at first
              exact absurd first (by decide)
            exact ⟨by simp [Lexeme.turn, opened, closed], by simpa using closed⟩
      have level : depthAfter depth l = depth := by simp [depthAfter, stays.1]
      rw [levelAfter, if_neg (by simp [stays.2]), level]
      exact ih fun other member => blank other (List.mem_cons_of_mem l member)

theorem levelAfter_filled (depth : Nat) (ls : List Lexeme) :
    levelAfter depth (filled ls) = levelAfter depth ls := by
  induction ls generalizing depth with
  | nil => rfl
  | cons l ls ih =>
      cases blank : l.isBlank with
      | false =>
          have kept : filled (l :: ls) = l :: filled ls := by simp [filled, blank]
          rw [kept, levelAfter, levelAfter, ih]
      | true =>
          have dropped : filled (l :: ls) = filled ls := by simp [filled, blank]
          have here : levelAfter depth [l] = some depth :=
            levelAfter_of_isBlank (by simpa using blank) depth
          rw [dropped, ih, ← List.singleton_append, levelAfter_append, here, Option.bind_some]

/-! ### Blanks around commas -/

def Padding (core padded : List Lexeme) : Prop :=
  ∃ before after, padded = before ++ (core ++ after) ∧ (∀ l ∈ before, l.isBlank = true) ∧
    ∀ l ∈ after, l.isBlank = true

/-- Balanced pieces between commas, with different blanks around them. -/
inductive Respaced : List Lexeme → List Lexeme → Prop
  | last {core xs ys : List Lexeme} :
    Balanced core → Padding core xs → Padding core ys → Respaced xs ys
  | comma {core x y xs ys : List Lexeme} :
    Balanced core → Padding core x → Padding core y → Respaced xs ys →
      Respaced (x ++ .code ',' :: xs) (y ++ .code ',' :: ys)

theorem Padding.filled_eq {core padded : List Lexeme} (padding : Padding core padded) :
    filled padded = filled core := by
  obtain ⟨before, after, rfl, front, back⟩ := padding
  rw [filled_append, filled_append, (filled_eq_nil_iff _).mpr front, (filled_eq_nil_iff _).mpr back]
  simp

theorem Padding.balanced {core padded : List Lexeme} (padding : Padding core padded)
    (balanced : Balanced core) : Balanced padded := by
  rw [Balanced, ← levelAfter_filled, padding.filled_eq, levelAfter_filled]
  exact balanced

structure Compact (x : List Lexeme) : Prop where
  first : ∃ l, x.head? = some l ∧ l.isBlank = false
  last : ∃ l, x.getLast? = some l ∧ l.isBlank = false

theorem Compact.ne_nil {x : List Lexeme} (compact : Compact x) : x ≠ [] := by
  obtain ⟨l, head, -⟩ := compact.first
  rintro rfl
  cases head

theorem Compact.exists_of_blanks {x : List Lexeme} (compact : Compact x)
    {before core after front behind : List Lexeme}
    (whole : before ++ (core ++ after) = front ++ (x ++ behind))
    (leading : ∀ l ∈ before, l.isBlank = true) (trailing : ∀ l ∈ after, l.isBlank = true) :
    ∃ early late, core = early ++ (x ++ late) ∧ front = before ++ early ∧
      behind = late ++ after := by
  obtain ⟨first, head, firm⟩ := compact.first
  obtain ⟨last, final, hard⟩ := compact.last
  obtain ⟨early, rfl, rest⟩ : ∃ early, front = before ++ early ∧
      core ++ after = early ++ (x ++ behind) := by
    rcases List.append_eq_append_iff.mp whole with ⟨early, rfl, rest⟩ | ⟨extra, rfl, rest⟩
    · exact ⟨early, rfl, rest⟩
    · cases extra with
      | nil => exact ⟨[], by simp, by simpa using rest.symm⟩
      | cons l extra =>
          -- the piece would start with a blank
          have same : first = l := by
            have start : (x ++ behind).head? = some first := by
              rw [List.head?_append_of_ne_nil _ compact.ne_nil, head]
            rw [rest] at start
            exact (Option.some.inj start).symm
          rw [same, leading l (by simp)] at firm
          cases firm
  rw [← List.append_assoc] at rest
  rcases List.append_eq_append_iff.mp rest with ⟨extra, cut, blanks⟩ | ⟨late, cut, rfl⟩
  · cases extra with
    | nil =>
        rw [List.append_nil] at cut
        refine ⟨early, [], by simp [cut], rfl, by simpa using blanks.symm⟩
    | cons l extra =>
        -- the piece would end with a blank
        have member : last ∈ after := by
          have ended : (early ++ x).getLast? = some last := by
            rw [List.getLast?_append_of_ne_nil _ compact.ne_nil, final]
          rw [cut, List.getLast?_append_of_ne_nil _ (by simp)] at ended
          rw [blanks]
          exact List.mem_append_left _ (List.mem_of_getLast? ended)
        rw [trailing last member] at hard
        cases hard
  · exact ⟨early, late, by rw [cut, List.append_assoc], rfl, rfl⟩

structure SameCut (front other behind more : List Lexeme) : Prop where
  before : front.getLast?.filter Lexeme.isFirm = other.getLast?.filter Lexeme.isFirm
  after : behind.head?.filter Lexeme.isFirm = more.head?.filter Lexeme.isFirm
  early : filled front = filled other
  late : filled behind = filled more

theorem SameCut.levelAfter_eq {front other behind more : List Lexeme}
    (same : SameCut front other behind more) (depth : Nat) :
    levelAfter depth front = levelAfter depth other := by
  rw [← levelAfter_filled, same.early, levelAfter_filled]

/-- Whether no comma outside parentheses stands in a piece behind other lexemes. -/
def Undivided (front x : List Lexeme) : Prop :=
  ∀ y z, x = y ++ .code ',' :: z → levelAfter 0 (front ++ y) ≠ some 0

theorem undivided_map_code {x : Text} (none : ',' ∉ x) (front : List Lexeme) :
    Undivided front (x.map .code) := by
  intro y z divided
  have member : Lexeme.code ',' ∈ x.map Lexeme.code := by rw [divided]; simp
  obtain ⟨c, inside, same⟩ := List.mem_map.mp member
  cases same
  exact absurd inside none

theorem filter_getLast?_of_blanks {blanks rest : List Lexeme}
    (blank : ∀ l ∈ blanks, l.isBlank = true) :
    (blanks ++ rest).getLast?.filter Lexeme.isFirm = rest.getLast?.filter Lexeme.isFirm := by
  cases last : rest.getLast? with
  | some l => rw [List.getLast?_append, last, Option.some_or]
  | none =>
      rw [List.getLast?_eq_none_iff.mp last, List.append_nil, Option.filter_none,
        Option.filter_eq_none_iff]
      intro l final
      simp [Lexeme.isFirm_of_isBlank (blank l (List.mem_of_getLast? final))]

theorem filter_head?_of_blanks {blanks rest : List Lexeme}
    (blank : ∀ l ∈ blanks, l.isBlank = true) (loose : rest.head?.filter Lexeme.isFirm = none) :
    (blanks ++ rest).head?.filter Lexeme.isFirm = none := by
  cases blanks with
  | nil => exact loose
  | cons l blanks =>
      rw [List.cons_append, List.head?_cons, Option.filter_eq_none_iff]
      intro other same
      cases same
      simp [Lexeme.isFirm_of_isBlank (blank l List.mem_cons_self)]

theorem filter_getLast?_comma (front rest : List Lexeme) :
    (front ++ .code ',' :: rest).getLast?.filter Lexeme.isFirm =
      rest.getLast?.filter Lexeme.isFirm := by
  have comma : (Lexeme.code ',').isFirm = false := by decide
  cases last : rest.getLast? with
  | some l => rw [List.getLast?_append, List.getLast?_cons, last, Option.getD_some, Option.some_or]
  | none =>
      rw [List.getLast?_eq_none_iff.mp last, List.getLast?_concat, Option.filter_none,
        Option.filter_some_neg (by simp [comma])]

namespace Respaced

theorem symm {xs ys : List Lexeme} (respaced : Respaced xs ys) : Respaced ys xs := by
  induction respaced with
  | last balanced one other => exact .last balanced other one
  | comma balanced one other _ ih => exact .comma balanced other one ih

theorem filled_eq {xs ys : List Lexeme} (respaced : Respaced xs ys) : filled xs = filled ys := by
  induction respaced with
  | last _ one other => rw [one.filled_eq, other.filled_eq]
  | comma _ one other _ ih =>
      rw [filled_append, filled_append, one.filled_eq, other.filled_eq, filled_comma,
        filled_comma, ih]

theorem balanced {xs ys : List Lexeme} (respaced : Respaced xs ys) (balanced : Balanced xs) :
    Balanced ys := by
  rw [Balanced, ← levelAfter_filled, ← respaced.filled_eq, levelAfter_filled]
  exact balanced

theorem cons_blank {xs ys : List Lexeme} (respaced : Respaced xs ys) {l : Lexeme}
    (blank : l.isBlank = true) : Respaced xs (l :: ys) := by
  have more {core y : List Lexeme} (padding : Padding core y) : Padding core (l :: y) := by
    obtain ⟨before, after, rfl, leading, trailing⟩ := padding
    exact ⟨l :: before, after, rfl, by simpa [blank] using leading, trailing⟩
  cases respaced with
  | last balanced one other => exact .last balanced one (more other)
  | comma balanced one other later => exact .comma balanced one (more other) later

theorem exists_cut_of_padding {core one other : List Lexeme} (first : Padding core one)
    (second : Padding core other) {x front behind : List Lexeme} (compact : Compact x)
    (whole : other = front ++ (x ++ behind)) (tail rest : List Lexeme)
    (tails : filled tail = filled rest)
    (loose : tail.head?.filter Lexeme.isFirm = none ∧ rest.head?.filter Lexeme.isFirm = none) :
    ∃ early late, one = early ++ (x ++ late) ∧ SameCut early front (late ++ tail)
      (behind ++ rest) := by
  obtain ⟨before, after, rfl, leading, trailing⟩ := first
  obtain ⟨before', after', rfl, leading', trailing'⟩ := second
  obtain ⟨early, late, rfl, rfl, rfl⟩ := compact.exists_of_blanks whole leading' trailing'
  refine ⟨before ++ early, late ++ after, by simp only [List.append_assoc], ?_, ?_, ?_, ?_⟩
  · rw [filter_getLast?_of_blanks leading, filter_getLast?_of_blanks leading']
  · rw [List.append_assoc, List.append_assoc]
    cases late with
    | nil =>
        rw [List.nil_append, List.nil_append, filter_head?_of_blanks trailing loose.1,
          filter_head?_of_blanks trailing' loose.2]
    | cons l late => rfl
  · rw [filled_append, filled_append, (filled_eq_nil_iff _).mpr leading,
      (filled_eq_nil_iff _).mpr leading']
  · rw [filled_append, filled_append, filled_append, filled_append, tails,
      (filled_eq_nil_iff _).mpr trailing, (filled_eq_nil_iff _).mpr trailing']

theorem exists_cut {xs ys : List Lexeme} (respaced : Respaced xs ys) {x front behind : List Lexeme}
    (compact : Compact x) (whole : ys = front ++ (x ++ behind)) (undivided : Undivided front x) :
    ∃ early late, xs = early ++ (x ++ late) ∧ SameCut early front late behind := by
  induction respaced generalizing front behind with
  | last _ one other =>
      obtain ⟨early, late, cut, same⟩ :=
        exists_cut_of_padding one other compact whole [] [] rfl ⟨rfl, rfl⟩
      rw [List.append_nil, List.append_nil] at same
      exact ⟨early, late, cut, same⟩
  | @comma core one other xs ys balanced first second later ih =>
      have comma : (Lexeme.code ',').isFirm = false := by decide
      have level := (second.balanced balanced).levelAfter_append 0
      rcases List.append_eq_append_iff.mp whole with ⟨more, rfl, rest⟩ | ⟨more, cut, rest⟩
      · -- the piece stands behind the comma
        cases more with
        | nil =>
            obtain ⟨l, x, rfl⟩ := List.exists_cons_of_ne_nil compact.ne_nil
            obtain ⟨rfl, -⟩ := List.cons.inj rest
            refine absurd ?_ (undivided [] x rfl)
            rw [List.append_nil, level]
            rfl
        | cons l more =>
            obtain ⟨rfl, next⟩ := List.cons.inj rest
            have inside : Undivided more x := by
              intro y z divided shallow
              refine undivided y z divided ?_
              rw [List.append_assoc, level]
              exact shallow
            obtain ⟨early, late, rfl, same⟩ := ih next inside
            refine ⟨one ++ .code ',' :: early, late, by simp, ?_, same.after, ?_, same.late⟩
            · rw [filter_getLast?_comma, filter_getLast?_comma, same.before]
            · rw [filled_append, filled_append, first.filled_eq, second.filled_eq, filled_comma,
                filled_comma, same.early]
      · have reach : (∃ late, more = x ++ late ∧ behind = late ++ .code ',' :: ys) ∨
            ∃ extra, x = more ++ .code ',' :: extra := by
          rcases List.append_eq_append_iff.mp rest with inside | ⟨extra, divided, tail⟩
          · exact .inl inside
          · cases extra with
            | nil => exact .inl ⟨[], by simpa using divided.symm, by simpa using tail.symm⟩
            | cons l extra =>
                obtain ⟨rfl, -⟩ := List.cons.inj tail
                exact .inr ⟨extra, divided⟩
        rcases reach with ⟨late, rfl, rfl⟩ | ⟨extra, divided⟩
        · obtain ⟨early, rest, rfl, same⟩ := exists_cut_of_padding first second compact cut
            (.code ',' :: xs) (.code ',' :: ys)
            (by rw [filled_comma, filled_comma, later.filled_eq])
            (by simp [comma])
          exact ⟨early, rest ++ .code ',' :: xs, by simp, same⟩
        · -- the piece would be divided by the comma
          refine absurd ?_ (undivided more extra divided)
          rw [← cut]
          exact second.balanced balanced

end Respaced

/-! ### Arguments -/

theorem piecesAt_cases {depth : Nat} {ls : List Lexeme} (level : levelAfter depth ls = some 0) :
    piecesAt depth ls = [ls.flatMap Lexeme.text] ∨
      ∃ first rest, ls = first ++ .code ',' :: rest ∧ levelAfter depth first = some 0 ∧
        Balanced rest ∧
        piecesAt depth ls = first.flatMap Lexeme.text :: piecesAt 0 rest := by
  induction ls generalizing depth with
  | nil => exact .inl rfl
  | cons l ls ih =>
      rw [levelAfter] at level
      split at level
      · cases level
      · next later =>
          rw [piecesAt]
          by_cases comma : l = .code ',' ∧ depth = 0
          · obtain ⟨rfl, rfl⟩ := comma
            exact .inr ⟨[], ls, rfl, rfl, level, by simp⟩
          · have shallow : ¬ (l = .code ',' ∧ (depth : Int) = 0) := fun here =>
              comma ⟨here.1, by omega⟩
            rw [if_neg shallow, add_turn later]
            rcases ih level with single | ⟨first, rest, rfl, ends, balanced, pieces⟩
            · rw [single]
              exact .inl rfl
            · refine .inr ⟨l :: first, rest, rfl, ?_, balanced, ?_⟩
              · rw [levelAfter, if_neg later, ends]
              · rw [pieces]
                rfl

theorem piecesAt_ne_nil (depth : Int) (ls : List Lexeme) : piecesAt depth ls ≠ [] := by
  cases ls with
  | nil => simp [piecesAt]
  | cons l ls =>
      rw [piecesAt]
      split
      · simp
      · exact extendFirst_ne_nil _ _

theorem Sealed.text_ne_nil {ls : List Lexeme} (closed : Sealed ls) : ∀ l ∈ ls, l.text ≠ [] := by
  have filled := text_ne_nil_of_mem_lexemes (ls.flatMap Lexeme.text)
  rwa [closed.lexemes_text] at filled

theorem Sealed.padding_trim {ls : List Lexeme} (closed : Sealed ls) (balanced : Balanced ls) :
    ∃ core, Balanced core ∧ Sealed core ∧ Padding core ls ∧
      trim (ls.flatMap Lexeme.text) = core.flatMap Lexeme.text := by
  obtain ⟨before, core, after, rfl, leading, trailing, trimmed⟩ := closed.exists_trim
  have padding : Padding core (before.map .code ++ (core ++ after.map .code)) :=
    ⟨_, _, rfl, isBlank_of_mem_map leading, isBlank_of_mem_map trailing⟩
  refine ⟨core, ?_, closed.right.left, padding, trimmed⟩
  rw [Balanced, ← levelAfter_filled, ← padding.filled_eq, levelAfter_filled]
  exact balanced

theorem padding_self (core : List Lexeme) : Padding core core :=
  ⟨[], [], by simp, by simp, by simp⟩

/-- Pieces that are trimmed and joined again only have other blanks around their commas. -/
theorem exists_respaced_pieces {ls : List Lexeme} (closed : Sealed ls) (balanced : Balanced ls) :
    ∃ ms, Respaced ls ms ∧ Sealed ms ∧
      ms.flatMap Lexeme.text = joinArguments ((piecesAt 0 ls).map trim) := by
  induction size : ls.length using Nat.strongRecOn generalizing ls with
  | ind n ih =>
      subst size
      rcases piecesAt_cases balanced with single | ⟨first, rest, rfl, ends, level, pieces⟩
      · obtain ⟨core, level, sealed, padding, trimmed⟩ := closed.padding_trim balanced
        refine ⟨core, .last level padding (padding_self core), sealed, ?_⟩
        rw [show ((0 : Nat) : Int) = 0 from rfl] at single
        rw [single, List.map_singleton, trimmed]
        rfl
      · obtain ⟨core, even, sealed, padding, trimmed⟩ := closed.left.padding_trim ends
        have behind : Sealed rest := (show Sealed ([.code ','] ++ rest) from closed.right).right
        obtain ⟨ms, respaced, closed', text⟩ := ih rest.length
          (by simp only [List.length_cons, List.length_append]; omega) behind level rfl
        have blank : (Lexeme.code ' ').isBlank = true := by decide
        refine ⟨core ++ .code ',' :: .code ' ' :: ms, .comma even padding (padding_self core)
          (respaced.cons_blank blank), sealed.append (by decide)
          (Sealed.nil.append (by decide) closed'), ?_⟩
        obtain ⟨piece, others, listed⟩ := List.exists_cons_of_ne_nil (piecesAt_ne_nil 0 rest)
        rw [show ((0 : Nat) : Int) = 0 from rfl] at pieces
        rw [pieces, List.map_cons, trimmed, joinArguments, listed, List.map_cons, joinWith,
          ← List.map_cons, ← listed, ← joinArguments, ← text]
        simp [Lexeme.text]

theorem exists_respaced {ls : List Lexeme} (closed : Sealed ls) (balanced : Balanced ls) :
    ∃ ms, Respaced ls ms ∧ Sealed ms ∧
      ms.flatMap Lexeme.text = joinArguments (splitArguments (ls.flatMap Lexeme.text)) := by
  rw [splitArguments]
  split
  · next blank =>
      obtain ⟨core, even, sealed, padding, trimmed⟩ := closed.padding_trim balanced
      refine ⟨core, .last even padding (padding_self core), sealed, ?_⟩
      rw [← trimmed, trim, List.dropWhile_eq_nil_iff.mpr (List.all_eq_true.mp blank)]
      rfl
  · rw [closed.lexemes_text]
    exact exists_respaced_pieces closed balanced

end LiteSql
