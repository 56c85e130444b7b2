import LiteSql.Proofs.OneLine
import LiteSql.Statement.Layout

/-! The layout of a query line by line. The blanks around its line feeds change and nothing else
does, so its quoted literals stay, in order, up to the blanks around the line feeds inside them. -/

namespace LiteSql

/-! ### Texts that are laid out again -/

def IsBreak (b : Text) : Prop := (∀ c ∈ b, isBlank c = true) ∧ '\n' ∈ b

/-- Texts that are the same up to the blanks around their line feeds. -/
inductive Relaid : Text → Text → Prop
  | nil : Relaid [] []
  | keep (c : Char) {x y : Text} : Relaid x y → Relaid (c :: x) (c :: y)
  | swap {b d x y : Text} : IsBreak b → IsBreak d → Relaid x y → Relaid (b ++ x) (d ++ y)

theorem IsBreak.exists_cons {b : Text} (breaks : IsBreak b) :
    ∃ c rest, b = c :: rest ∧ isBlank c = true := by
  obtain ⟨c, rest, rfl⟩ := List.exists_cons_of_ne_nil (List.ne_nil_of_mem breaks.2)
  exact ⟨c, rest, rfl, breaks.1 c List.mem_cons_self⟩

namespace Relaid

theorem refl (s : Text) : Relaid s s := by
  induction s with
  | nil => exact .nil
  | cons c s ih => exact .keep c ih

theorem append {u v x y : Text} (first : Relaid u v) (second : Relaid x y) :
    Relaid (u ++ x) (v ++ y) := by
  induction first with
  | nil => exact second
  | keep c _ ih => exact .keep c ih
  | swap one other _ ih =>
      rw [List.append_assoc, List.append_assoc]
      exact .swap one other ih

theorem eq_nil {t : Text} (relaid : Relaid [] t) : t = [] := by
  generalize start : ([] : Text) = s at relaid
  cases relaid with
  | nil => rfl
  | keep c _ => cases start
  | swap one _ _ =>
      obtain ⟨c, rest, rfl, -⟩ := one.exists_cons
      cases start

theorem of_cons {c : Char} {x t : Text} (relaid : Relaid (c :: x) t) :
    (∃ y, t = c :: y ∧ Relaid x y) ∨
    ∃ b d u v, c :: x = b ++ u ∧ t = d ++ v ∧ IsBreak b ∧ IsBreak d ∧ Relaid u v := by
  generalize start : c :: x = s at relaid
  cases relaid with
  | nil => cases start
  | keep d later =>
      cases start
      exact .inl ⟨_, rfl, later⟩
  | swap one other later => exact .inr ⟨_, _, _, _, rfl, rfl, one, other, later⟩

theorem exists_cons_of_solid {c : Char} (solid : isBlank c = false) {x t : Text}
    (relaid : Relaid (c :: x) t) :
    ∃ y, t = c :: y ∧ Relaid x y := by
  rcases relaid.of_cons with kept | ⟨b, d, u, v, cut, -, one, -, -⟩
  · exact kept
  · obtain ⟨e, rest, rfl, blank⟩ := one.exists_cons
    obtain ⟨rfl, -⟩ := List.cons.inj cut
    rw [solid] at blank
    cases blank

theorem exists_append_of_solid {front x t : Text} (solid : ∀ c ∈ front, isBlank c = false)
    (relaid : Relaid (front ++ x) t) : ∃ y, t = front ++ y ∧ Relaid x y := by
  induction front generalizing t with
  | nil => exact ⟨t, rfl, relaid⟩
  | cons c front ih =>
      obtain ⟨first, others⟩ := List.forall_mem_cons.mp solid
      obtain ⟨rest, rfl, later⟩ := relaid.exists_cons_of_solid first
      obtain ⟨y, rfl, last⟩ := ih others later
      exact ⟨y, rfl, last⟩

theorem eq_of_not_mem {x y : Text} (relaid : Relaid x y) (flat : '\n' ∉ x) : y = x := by
  induction relaid with
  | nil => rfl
  | keep c _ ih => rw [ih fun inside => flat (List.mem_cons_of_mem c inside)]
  | swap one _ _ _ => exact absurd (List.mem_append_left _ one.2) flat

theorem symm {x y : Text} (relaid : Relaid x y) : Relaid y x := by
  induction relaid with
  | nil => exact .nil
  | keep c _ ih => exact .keep c ih
  | swap one other _ ih => exact .swap other one ih

theorem eq_nil_iff {x y : Text} (relaid : Relaid x y) : x = [] ↔ y = [] :=
  ⟨fun none => (none ▸ relaid).eq_nil, fun none => (none ▸ relaid).symm.eq_nil⟩

end Relaid

theorem Relaid.trimEnd {x y : Text} (relaid : Relaid x y) : Relaid (trimEnd x) (trimEnd y) := by
  have step {u v x y : Text} (front : Relaid u v) (ends :
      Relaid (LiteSql.trimEnd u) (LiteSql.trimEnd v))
      (behind : Relaid (LiteSql.trimEnd x) (LiteSql.trimEnd y)) :
      Relaid (LiteSql.trimEnd (u ++ x)) (LiteSql.trimEnd (v ++ y)) := by
    rw [trimEnd_append, trimEnd_append]
    by_cases none : LiteSql.trimEnd x = []
    · rwa [if_pos none, if_pos (behind.eq_nil_iff.mp none)]
    · rw [if_neg none, if_neg fun gone => none (behind.eq_nil_iff.mpr gone)]
      exact front.append behind
  induction relaid with
  | nil => exact .nil
  | keep c _ ih => exact step (refl [c]) (refl _) ih
  | @swap b d x y one other _ ih =>
      have front : Relaid b d := by simpa using Relaid.swap one other .nil
      refine step front ?_ ih
      rw [trimEnd_eq_nil one.1, trimEnd_eq_nil other.1]
      exact .nil

/-! ### Literals that are laid out again -/

/-- Two texts that are cut behind a literal at their start, laid out again on both sides of the cut.
-/
def CutAlike (length : Text → Nat) (x y : Text) : Prop :=
  ∃ x₁ x₂ y₁ y₂, x = x₁ ++ x₂ ∧ y = y₁ ++ y₂ ∧ length x = x₁.length ∧ length y = y₁.length ∧
    Relaid x₁ y₁ ∧ Relaid x₂ y₂

namespace CutAlike

variable {length : Text → Nat} {x y : Text}

theorem stop {u v : Text} (front : Relaid u v) (behind : Relaid x y)
    (first : length (u ++ x) = u.length)
    (second : length (v ++ y) = v.length) : CutAlike length (u ++ x) (v ++ y) :=
  ⟨u, x, v, y, rfl, rfl, first, second, front, behind⟩

theorem go {u v : Text} (front : Relaid u v) (cut : CutAlike length x y)
    (first : length (u ++ x) = u.length + length x)
    (second : length (v ++ y) = v.length + length y) :
    CutAlike length (u ++ x) (v ++ y) := by
  obtain ⟨x₁, x₂, y₁, y₂, rfl, rfl, one, other, early, late⟩ := cut
  refine ⟨u ++ x₁, x₂, v ++ y₁, y₂, by simp, by simp, ?_, ?_, front.append early, late⟩
  · rw [first, one, List.length_append]
  · rw [second, other, List.length_append]

end CutAlike

theorem length_append_of_step {length : Text → Nat}
    (step : ∀ c s, isBlank c = true → length (c :: s) = length s + 1)
    {b : Text} (blank : ∀ c ∈ b, isBlank c = true) (x : Text) :
      length (b ++ x) = b.length + length x := by
  induction b with
  | nil => simp
  | cons c b ih =>
      obtain ⟨first, others⟩ := List.forall_mem_cons.mp blank
      rw [List.cons_append, step c _ first, ih others, List.length_cons]
      omega

section

variable {length : Text → Nat} (step : ∀ c s, isBlank c = true → length (c :: s) = length s + 1)

include step

theorem CutAlike.swap {b d x y : Text} (one : IsBreak b) (other : IsBreak d)
    (cut : CutAlike length x y) :
    CutAlike length (b ++ x) (d ++ y) :=
  .go (by simpa using Relaid.swap one other .nil) cut (length_append_of_step step one.1 x)
    (length_append_of_step step other.1 y)

end

theorem quotedLength_cutAlike {mark : Char} (solid : isBlank mark = false) {x y : Text}
    (relaid : Relaid x y) :
    CutAlike (quotedLength mark) x y := by
  induction relaid with
  | nil => exact .stop (x := []) (y := []) .nil .nil rfl rfl
  | @keep c x y later ih =>
      by_cases close : c = mark
      · exact .stop (Relaid.refl [c]) later (by simp [quotedLength, close])
          (by simp [quotedLength, close])
      · exact .go (Relaid.refl [c]) ih (by simp [quotedLength, close, Nat.add_comm])
          (by simp [quotedLength, close, Nat.add_comm])
  | swap one other _ ih =>
      refine .swap (fun c s blank => ?_) one other ih
      have inside : c ≠ mark := by
        rintro rfl
        rw [solid] at blank
        cases blank
      simp [quotedLength, inside]

theorem ne_of_isBlank {c d : Char} (blank : isBlank c = true)
    (solid : isBlank d = false) : c ≠ d := by
  rintro rfl
  rw [solid] at blank
  cases blank

theorem stringLength_cons {c : Char} (escape : c ≠ '\x5c') (quote : c ≠ '\x27') (s : Text) :
    stringLength (c :: s) = stringLength s + 1 := by
  cases s with
  | nil => rfl
  | cons d s => rw [stringLength, if_neg escape, if_neg quote]

theorem stringLength_blank (c : Char) (s : Text) (blank : isBlank c = true) :
    stringLength (c :: s) = stringLength s + 1 :=
  stringLength_cons (ne_of_isBlank blank (by decide)) (ne_of_isBlank blank (by decide)) s

/-- A backslash takes a blank with it, whichever blank it is. -/
theorem stringLength_escape {b : Text} (breaks : IsBreak b) (x : Text) :
    stringLength ('\x5c' :: b ++ x) = ('\x5c' :: b).length + stringLength x := by
  obtain ⟨c, b, rfl, -⟩ := breaks.exists_cons
  have others : ∀ d ∈ b, isBlank d = true := fun d member =>
    breaks.1 d (List.mem_cons_of_mem c member)
  rw [List.cons_append, List.cons_append, stringLength, if_pos rfl,
    length_append_of_step stringLength_blank others, List.length_cons, List.length_cons]
  omega

theorem stringLength_close {x : Text} (single : x.head? ≠ some '\x27') :
    stringLength ('\x27' :: x) = 1 := by
  cases x with
  | nil => rfl
  | cons d x =>
      have other : d ≠ '\x27' := by simpa using single
      simp [stringLength, other]

theorem stringLength_cutAlike {x y : Text} (relaid : Relaid x y) : CutAlike stringLength x y := by
  induction size : x.length using Nat.strongRecOn generalizing x y with
  | ind n ih =>
      subst size
      cases relaid with
      | nil => exact .stop (x := []) (y := []) .nil .nil rfl rfl
      | swap one other later =>
          refine .swap stringLength_blank one other (ih _ ?_ later rfl)
          rw [List.length_append]
          exact Nat.lt_add_of_pos_left (List.length_pos_of_mem one.2)
      | @keep c x y later =>
          by_cases escape : c = '\x5c'
          · subst escape
            cases x with
            | nil =>
                rw [later.eq_nil]
                exact .stop (x := []) (y := []) (Relaid.refl ['\x5c']) .nil rfl rfl
            | cons d x =>
                rcases later.of_cons with ⟨y, rfl, behind⟩ | ⟨b, e, u, v, cut, rfl, one,
                  other, behind⟩
                · exact .go (Relaid.refl ['\x5c', d])
                    (ih x.length (by simp only [List.length_cons]; omega) behind rfl)
                    (by simp [stringLength, Nat.add_comm]) (by simp [stringLength, Nat.add_comm])
                · rw [cut]
                  have shorter : u.length < ('\x5c' :: d :: x).length := by
                    rw [List.length_cons, cut, List.length_append]
                    omega
                  exact .go (.keep '\x5c' (by simpa using Relaid.swap one other .nil))
                    (ih u.length shorter behind rfl)
                    (stringLength_escape one u) (stringLength_escape other v)
          · by_cases quote : c = '\x27'
            · subst quote
              -- a quote closes the string unless another one follows it, and blanks are not quotes
              have closes (single : x.head? ≠ some '\x27') (alone : y.head? ≠ some '\x27') :
                  CutAlike stringLength (['\x27'] ++ x) (['\x27'] ++ y) :=
                .stop (Relaid.refl _) later (stringLength_close single) (stringLength_close alone)
              cases x with
              | nil => exact closes (by simp) (by simp [later.eq_nil])
              | cons d x =>
                  rcases later.of_cons with ⟨y, rfl, behind⟩ | ⟨b, e, u, v, cut, rfl, one, other, -⟩
                  · by_cases double : d = '\x27'
                    · subst double
                      exact .go (Relaid.refl ['\x27', '\x27'])
                        (ih x.length (by simp only [List.length_cons]; omega) behind rfl)
                        (by simp [stringLength, Nat.add_comm])
                        (by simp [stringLength, Nat.add_comm])
                    · exact closes (by simpa using double) (by simpa using double)
                  · have spaced {b : Text} (breaks : IsBreak b) (u : Text) :
                        (b ++ u).head? ≠ some '\x27' := by
                      obtain ⟨f, b, rfl, blank⟩ := breaks.exists_cons
                      simpa using ne_of_isBlank blank (by decide)
                    exact closes (by rw [cut]; exact spaced one u) (spaced other v)
            · have inside := stringLength_cons escape quote
              exact .go (Relaid.refl [c]) (ih x.length (by simp) later rfl)
                (by rw [List.singleton_append, inside, Nat.add_comm]; rfl)
                (by rw [List.singleton_append, inside, Nat.add_comm]; rfl)

theorem blockLength_cons {c : Char} {s : Text} (inside : ¬ (c = '*' ∧ s.head? = some '/')) :
    blockLength (c :: s) = blockLength s + 1 := by
  cases s with
  | nil => rfl
  | cons d s => rw [blockLength, if_neg (by simpa using inside)]

theorem blockLength_cutAlike {x y : Text} (relaid : Relaid x y) : CutAlike blockLength x y := by
  induction relaid with
  | nil => exact .stop (x := []) (y := []) .nil .nil rfl rfl
  | @keep c x y later ih =>
      by_cases close : c = '*' ∧ x.head? = some '/'
      · obtain ⟨rfl, slash⟩ := close
        obtain ⟨x, rfl⟩ : ∃ rest, x = '/' :: rest := List.head?_eq_some_iff.mp slash
        obtain ⟨y, rfl, behind⟩ := later.exists_cons_of_solid (by decide)
        exact .stop (Relaid.refl ['*', '/']) behind (by simp [blockLength]) (by simp [blockLength])
      · have other : ¬ (c = '*' ∧ y.head? = some '/') := by
          rintro ⟨star, slash⟩
          obtain ⟨y, rfl⟩ : ∃ rest, y = '/' :: rest := List.head?_eq_some_iff.mp slash
          obtain ⟨x, rfl, -⟩ := later.symm.exists_cons_of_solid (by decide)
          exact close ⟨star, rfl⟩
        exact .go (Relaid.refl [c]) ih
          (by rw [List.singleton_append, blockLength_cons close, Nat.add_comm]; rfl)
          (by rw [List.singleton_append, blockLength_cons other, Nat.add_comm]; rfl)
  | swap one other _ ih =>
      exact .swap (fun c s blank => blockLength_cons fun here =>
        ne_of_isBlank blank (by decide) here.1) one other ih

theorem lineLength_append {x : Text} (flat : '\n' ∉ x) (rest : Text) :
    lineLength (x ++ '\n' :: rest) = x.length := by
  induction x with
  | nil => rfl
  | cons c x ih =>
      rw [List.mem_cons, not_or] at flat
      rw [List.cons_append, lineLength, if_neg (Ne.symm flat.1), ih flat.2, List.length_cons]

theorem exists_cut_lineLength {x y : Text} (relaid : Relaid x y) :
    ∃ x₁ x₂ y₁ y₂, x = x₁ ++ x₂ ∧ y = y₁ ++ y₂ ∧
    lineLength x = x₁.length ∧ lineLength y = y₁.length ∧ Relaid x₂ y₂ := by
  induction relaid with
  | nil => exact ⟨[], [], [], [], rfl, rfl, rfl, rfl, .nil⟩
  | @keep c x y later ih =>
      by_cases feed : c = '\n'
      · exact ⟨[], c :: x, [], c :: y, rfl,
          rfl, by simp [lineLength, feed], by simp [lineLength, feed], .keep c later⟩
      · obtain ⟨x₁, x₂, y₁, y₂, rfl, rfl, one, other, behind⟩ := ih
        exact ⟨c :: x₁, x₂, c :: y₁, y₂, rfl,
          rfl, by simp [lineLength, feed, one], by simp [lineLength, feed, other], behind⟩
  | @swap b d x y one other later _ =>
      obtain ⟨b₁, b₂, rfl, early⟩ := List.eq_append_cons_of_mem one.2
      obtain ⟨d₁, d₂, rfl, late⟩ := List.eq_append_cons_of_mem other.2
      have tail {b₁ b₂ : Text} (breaks : IsBreak (b₁ ++ '\n' :: b₂)) : IsBreak ('\n' :: b₂) :=
        ⟨fun c member => breaks.1 c (List.mem_append_right b₁ member), List.mem_cons_self⟩
      refine ⟨b₁, '\n' :: b₂ ++ x, d₁, '\n' :: d₂ ++
        y, by simp, by simp, ?_, ?_, .swap (tail one) (tail other) later⟩
      · rw [List.append_assoc, List.cons_append, lineLength_append early]
      · rw [List.append_assoc, List.cons_append, lineLength_append late]

def isQuote (c : Char) : Bool := ['\x27', '\x22', '\x60'].contains c

/-- Two texts with a literal of a kind at their start, the same up to its blanks if it is quoted. -/
def LiteralAlike (kind : LiteralKind) (s t : Text) : Prop :=
  ∃ c x₁ x₂ y₁ y₂, s = c :: x₁ ++ x₂ ∧ t = c :: y₁ ++ y₂ ∧ isBlank c = false ∧
    kind.length s = (c :: x₁).length ∧
    kind.length t = (c :: y₁).length ∧ (isQuote c = true → Relaid x₁ y₁) ∧ Relaid x₂ y₂

theorem CutAlike.literalAlike {kind : LiteralKind} {c : Char} {length : Text → Nat} {x y : Text}
    (cut : CutAlike length x y) (solid : isBlank c = false)
    (size : ∀ s : Text, kind.length (c :: s) = length s + 1) :
      LiteralAlike kind (c :: x) (c :: y) := by
  obtain ⟨x₁, x₂, y₁, y₂, rfl, rfl, one, two, early, late⟩ := cut
  refine ⟨c, x₁, x₂, y₁, y₂, rfl, rfl, solid, ?_, ?_, fun _ => early, late⟩
  · rw [size, one, List.length_cons]
  · rw [size, two, List.length_cons]

theorem Relaid.literalAlike {s t : Text} {kind : LiteralKind} (relaid : Relaid s t)
    (opens : LiteralKind.opening? s = some kind) :
    LiteralKind.opening? t = some kind ∧ LiteralAlike kind s t := by
  obtain ⟨body, rfl⟩ := (LiteralKind.opening?_eq_some_iff _ _).mp opens
  obtain ⟨other, rfl, inner⟩ := relaid.exists_append_of_solid (by cases kind <;> decide)
  refine ⟨(LiteralKind.opening?_eq_some_iff _ _).mpr (List.prefix_append _ _), ?_⟩
  cases kind with
  | string => exact (stringLength_cutAlike inner).literalAlike (by decide) fun _ => rfl
  | doubleQuoted =>
      exact (quotedLength_cutAlike (by decide) inner).literalAlike (by decide) fun _ => rfl
  | backQuoted =>
      exact (quotedLength_cutAlike (by decide) inner).literalAlike (by decide) fun _ => rfl
  | lineComment =>
      obtain ⟨x₁, x₂, y₁, y₂, rfl, rfl, one, two, late⟩ := exists_cut_lineLength inner
      exact ⟨'-', '-' :: x₁, x₂, '-' :: y₁, y₂, rfl,
        rfl, by decide, congrArg (· + 2) one, congrArg (· + 2) two, fun quote =>
          absurd quote (by decide), late⟩
  | blockComment =>
      obtain ⟨x₁, x₂, y₁, y₂, rfl, rfl, one, two, -, late⟩ := blockLength_cutAlike inner
      exact ⟨'/', '*' :: x₁, x₂, '*' :: y₁, y₂, rfl,
        rfl, by decide, congrArg (· + 2) one, congrArg (· + 2) two, fun quote =>
          absurd quote (by decide), late⟩

inductive Aligned : List Lexeme → List Lexeme → Prop
  | nil : Aligned [] []
  | code (c : Char) {ls ms : List Lexeme} : Aligned ls ms → Aligned (.code c :: ls) (.code c :: ms)
  | swap {b d : Text} {ls ms : List Lexeme} :
    IsBreak b → IsBreak d → Aligned ls ms → Aligned (b.map .code ++ ls) (d.map .code ++ ms)
  | literal (kind : LiteralKind) {c : Char} {x y : Text} {ls ms : List Lexeme} :
    isBlank c = false → (isQuote c = true → Relaid x y) → Aligned ls ms →
      Aligned (.literal kind (c :: x) :: ls) (.literal kind (c :: y) :: ms)

theorem IsBreak.lexemes_append {b : Text} (breaks : IsBreak b) (s : Text) :
    lexemes (b ++ s) = b.map .code ++ lexemes s :=
  lexemes_append_of_isPlain b s fun c member =>
    isPlain_of_isNeutral (ScanState.isNeutral_of_class (by decide) (breaks.1 c member))

/-- Texts that are the same up to the blanks around their line feeds have the same lexemes up to
those. -/
theorem Relaid.aligned {s t : Text} (relaid : Relaid s t) : Aligned (lexemes s) (lexemes t) := by
  induction size : s.length using Nat.strongRecOn generalizing s t with
  | ind n ih =>
      subst size
      cases opens : LiteralKind.opening? s with
      | some kind =>
          obtain ⟨again, c, x₁, x₂, y₁, y₂, rfl, rfl, solid, one, two, quoted, late⟩ :=
            relaid.literalAlike opens
          rw [lexemes_literal _ kind opens, lexemes_literal _ kind again, one, two, List.take_left,
            List.take_left, List.drop_left, List.drop_left]
          exact .literal kind solid quoted
            (ih x₂.length (by simp only [List.length_append, List.length_cons]; omega) late rfl)
      | none =>
          cases relaid with
          | nil => exact .nil
          | @keep c x y later =>
              have again : LiteralKind.opening? (c :: y) = none := by
                cases other : LiteralKind.opening? (c :: y) with
                | none => rfl
                | some kind =>
                    rw [((Relaid.keep c later).symm.literalAlike other).1] at opens
                    cases opens
              rw [lexemes_code c x opens, lexemes_code c y again]
              exact .code c (ih x.length (by simp) later rfl)
          | @swap b d x y one other later =>
              rw [one.lexemes_append, other.lexemes_append]
              refine .swap one other (ih x.length ?_ later rfl)
              rw [List.length_append]
              exact Nat.lt_add_of_pos_left (List.length_pos_of_mem one.2)

namespace Aligned

variable {ls ms : List Lexeme}

theorem all_isBlank (aligned : Aligned ls ms) : ms.all Lexeme.isBlank = ls.all Lexeme.isBlank := by
  induction aligned with
  | nil => rfl
  | code c _ ih => rw [List.all_cons, List.all_cons, ih]
  | swap one other _ ih => rw [all_append_code one.1, all_append_code other.1, ih]
  | literal => rfl

theorem forall₂_settledLiterals (aligned : Aligned ls ms) :
    List.Forall₂ Relaid ((settledLiterals ls).filter fun text => text.head?.any isQuote)
      ((settledLiterals ms).filter fun text => text.head?.any isQuote) := by
  induction aligned with
  | nil => exact .nil
  | code c _ ih => exact ih
  | swap _ _ _ ih => rwa [settledLiterals_append_code, settledLiterals_append_code]
  | @literal kind c x y ls ms solid quoted later ih =>
      have settled (x : Text) : (if ls.all Lexeme.isBlank then trimEnd (c :: x) else c :: x) =
          c :: if ls.all Lexeme.isBlank then trimEnd x else x := by
        split
        · simp [trimEnd, dropEndWhile, solid]
        · rfl
      rw [settledLiterals, settledLiterals, later.all_isBlank, settled, settled]
      cases quote : isQuote c with
      | false => simpa [List.filter_cons, quote] using ih
      | true =>
          rw [List.filter_cons_of_pos (by exact quote), List.filter_cons_of_pos (by exact quote)]
          refine .cons (.keep c ?_) ih
          split
          · exact (quoted quote).trimEnd
          · exact quoted quote

end Aligned

/-! ### Lines -/

/-- The strings and quoted names of a text. One with only blanks behind it is taken without the
blanks at its end. -/
def quotedLiterals (s : Text) : List Text :=
  (settledLiterals (lexemes s)).filter fun text => text.head?.any isQuote

namespace Layout

theorem exists_trim_eq (s : Text) : ∃ before after, s = before ++ (trim s ++ after) ∧
    (∀ c ∈ before, isBlank c = true) ∧ ∀ c ∈ after, isBlank c = true := by
  obtain ⟨after, cut, blank⟩ := exists_dropEndWhile isBlank (s.dropWhile isBlank)
  refine ⟨s.takeWhile isBlank, after, ?_, fun c member =>
    List.all_eq_true.mp List.all_takeWhile c member, blank⟩
  rw [trim, trimEnd, ← cut, List.takeWhile_append_dropWhile]

theorem indentLines_cons (inSelect : Bool) (line : Text) (rest : List Text) :
    ∃ (pre : Text) (next : Bool), (∀ c ∈ pre, isBlank c = true) ∧ (inSelect = false → pre = []) ∧
      indentLines inSelect (line :: rest) = (pre ++ line) :: indentLines next rest := by
  cases inside : inSelect && !startsClause line with
  | false => exact ⟨[], startsSelect line, by simp, fun _ => rfl, by simp [indentLines, inside]⟩
  | true =>
      refine ⟨indent, true, by decide, fun outside => ?_, by simp [indentLines, inside]⟩
      rw [outside] at inside
      cases inside

def solidLines (ls : List Text) : List Text := (ls.map trim).filter (!·.isEmpty)

theorem solidLines_cons_blank {line : Text} (blank : trim line = []) (ls : List Text) :
    solidLines (line :: ls) = solidLines ls := by
  simp [solidLines, blank]

theorem solidLines_cons {line : Text} (filled : trim line ≠ []) (ls : List Text) :
    solidLines (line :: ls) = trim line :: solidLines ls := by
  simp [solidLines, filled]

/-- A text without the blanks at its ends is the same as `out` without `pre`, up to the blanks
around line feeds. -/
structure RelaidBehind (pre s out : Text) : Prop where
  blank : ∀ c ∈ pre, isBlank c = true
  relaid : ∃ lead core rest, s = lead ++ core ∧ out = pre ++ rest ∧ (∀ c ∈ lead, isBlank c = true) ∧
    core ≠ [] ∧ core.head?.any isBlank = false ∧ Relaid (trimEnd core) rest

theorem RelaidBehind.append {pre s out : Text} (relaid : RelaidBehind pre s out) {blanks : Text}
    (blank : ∀ c ∈ blanks, isBlank c = true) : RelaidBehind pre (blanks ++ s) out := by
  obtain ⟨indented, lead, core, rest, rfl, written, leading, later⟩ := relaid
  refine ⟨indented, blanks ++ lead, core, rest, by simp, written, ?_, later⟩
  exact fun c member => (List.mem_append.mp member).elim (blank c) (leading c)

theorem trimEnd_trim (s : Text) : trimEnd (trim s) = trim s := trimEnd_trimEnd _

section

variable {line pre : Text} (filled : trim line ≠ []) (blank : ∀ c ∈ pre, isBlank c = true)

include filled blank

theorem RelaidBehind.last {tail : Text} (empty : ∀ c ∈ tail, isBlank c = true) :
    RelaidBehind pre (line ++ tail) (pre ++ trim line) := by
  obtain ⟨before, after, cut, leading, trailing⟩ := exists_trim_eq line
  have spaces : ∀ c ∈ after ++ tail, isBlank c = true := fun c member =>
    (List.mem_append.mp member).elim (trailing c) (empty c)
  refine ⟨blank, before, trim line ++ (after ++ tail), trim line, ?_, rfl,
    leading, by simp [filled], ?_, ?_⟩
  · conv_lhs => rw [cut]
    simp
  · rw [List.head?_append_of_ne_nil _ filled]
    exact head?_trim line
  · rw [trimEnd_append, if_pos (trimEnd_eq_nil spaces), trimEnd_trim]
    exact Relaid.refl _

theorem RelaidBehind.cons {indented s out : Text} (later : RelaidBehind indented s out) :
    RelaidBehind pre (line ++ "\n" ++ s) (pre ++ trim line ++ "\n" ++ out) := by
  obtain ⟨before, after, cut, leading, trailing⟩ := exists_trim_eq line
  obtain ⟨spaces, lead, core, rest, rfl, rfl, leading', present, solid, relaid⟩ := later
  have one : IsBreak (after ++ '\n' :: lead) := by
    refine ⟨fun c member => ?_, by simp⟩
    rcases List.mem_append.mp member with early | late
    · exact trailing c early
    · rcases List.mem_cons.mp late with rfl | inside
      · decide
      · exact leading' c inside
  have other : IsBreak ('\n' :: indented) :=
    ⟨List.forall_mem_cons.mpr ⟨by decide, spaces⟩, List.mem_cons_self⟩
  have kept : trimEnd core ≠ [] := by
    obtain ⟨c, text, rfl⟩ := List.exists_cons_of_ne_nil present
    have first : isBlank c = false := solid
    simp [trimEnd, dropEndWhile, first]
  refine ⟨blank, before, trim line ++ (after ++ '\n' :: lead ++ core),
    trim line ++ ('\n' :: indented ++ rest), ?_, ?_, leading, by simp [filled], ?_, ?_⟩
  · conv_lhs => rw [cut]
    simp
  · simp
  · rw [List.head?_append_of_ne_nil _ filled]
    exact head?_trim line
  · have ends : trimEnd (after ++ '\n' :: lead ++ core) =
        after ++ '\n' :: lead ++ trimEnd core := by
      rw [trimEnd_append, if_neg kept]
    rw [trimEnd_append, ends, if_neg (by simp)]
    exact (Relaid.refl _).append (.swap one other relaid)

end

theorem exists_relaid_lines (inSelect : Bool) (ls : List Text) :
    solidLines ls = [] ∧ (∀ c ∈ joinWith "\n" ls, isBlank c = true) ∨
      solidLines ls ≠ [] ∧ ∃ pre, (inSelect = false → pre = []) ∧
        RelaidBehind pre (joinWith "\n" ls)
          (joinWith "\n" (indentLines inSelect (solidLines ls))) := by
  have newline : ∀ c ∈ "\n".toList, isBlank c = true := by decide
  induction ls generalizing inSelect with
  | nil => exact .inl ⟨rfl, by simp [joinWith]⟩
  | cons line ls ih =>
      by_cases blank : trim line = []
      · obtain ⟨before, after, cut, leading, trailing⟩ := exists_trim_eq line
        have spaces : ∀ c ∈ line, isBlank c = true := by
          rw [cut, blank]
          exact fun c member => (List.mem_append.mp member).elim (leading c) (trailing c)
        rw [solidLines_cons_blank blank]
        by_cases last : ls = []
        · subst last
          exact .inl ⟨rfl, spaces⟩
        · have feed : ∀ c ∈ line ++ "\n".toList, isBlank c = true := fun c member =>
            (List.mem_append.mp member).elim (spaces c) (newline c)
          rw [joinWith_cons last]
          rcases ih inSelect with ⟨none, empty⟩ | ⟨some, pre, outside, relaid⟩
          · exact .inl ⟨none, fun c member => (List.mem_append.mp member).elim (feed c) (empty c)⟩
          · exact .inr ⟨some, pre, outside, relaid.append feed⟩
      · obtain ⟨pre, next, spaces, outside, lines⟩ :=
          indentLines_cons inSelect (trim line) (solidLines ls)
        rw [solidLines_cons blank, lines]
        refine .inr ⟨by simp, pre, outside, ?_⟩
        by_cases last : ls = []
        · subst last
          have none : ∀ c ∈ ([] : Text), isBlank c = true := by simp
          simpa [solidLines, indentLines, joinWith] using RelaidBehind.last blank spaces none
        · rw [joinWith_cons last]
          rcases ih next with ⟨none, empty⟩ | ⟨some, indented, -, relaid⟩
          · rw [none, List.append_assoc]
            exact .last blank spaces fun c member => (List.mem_append.mp member).elim (newline c)
              (empty c)
          · obtain ⟨first, rest, listed⟩ := List.exists_cons_of_ne_nil some
            obtain ⟨_, _, -, -, other⟩ := indentLines_cons next first rest
            rw [joinWith_cons (by rw [listed, other]; simp)]
            exact relaid.cons blank spaces

theorem relaid_plainQuery {s : Text} (complex : isSimple s = false) :
    Relaid (trim s) (plainQuery s) := by
  have written : plainQuery s = joinWith "\n" (indentLines false (solidLines (lines s))) := by
    rw [plainQuery, complex]
    rfl
  have whole : joinWith "\n" (lines s) = s := joinWith_lines s
  rw [written]
  rcases exists_relaid_lines false (lines s) with ⟨none, empty⟩ | ⟨-, pre, outside, -, lead, core,
    rest, cut, out, leading, present, solid, relaid⟩
  · rw [whole] at empty
    rw [none, trim_eq_nil empty]
    exact .nil
  · rw [outside rfl, List.nil_append] at out
    rw [whole] at cut
    obtain ⟨c, text, rfl⟩ := List.exists_cons_of_ne_nil present
    have first : isBlank c = false := solid
    rwa [out, cut, trim, List.dropWhile_append_of_pos leading,
      List.dropWhile_cons_of_neg (by simp [first])]

/-! ### Simple queries -/

theorem eq_nil_of_leads_lineComment {text rest : Text}
    (leads : (Lexeme.literal .lineComment text).Leads rest)
    (flat : '\n' ∉ rest) : rest = [] := by
  rcases head?_of_leads_lineComment leads with none | feed
  · exact none
  · exact absurd (List.mem_of_head? feed) flat

theorem lexemes_squeeze_of_flat {ls : List Lexeme} (read : lexemes (ls.flatMap Lexeme.text) = ls)
    (flat : '\n' ∉ ls.flatMap Lexeme.text) : lexemes ((squeeze ls).flatMap Lexeme.text) =
      squeeze ls := by
  apply lexemes_squeeze read
  rintro x l y rfl comment
  obtain ⟨text, rfl⟩ := exists_eq_lineComment comment
  obtain ⟨-, later⟩ := lexemes_of_append read
  obtain ⟨rest, whole, leads, behind⟩ := exists_leads_of_lexemes_eq_cons later
  rw [List.flatMap_cons, List.append_cancel_left_eq] at whole
  subst whole
  have last := eq_nil_of_leads_lineComment leads fun feed => flat (by simp [feed])
  rw [last, lexemes_nil] at behind
  exact behind.symm

theorem all_isBlank_squeeze (ls : List Lexeme) :
    (squeeze ls).all Lexeme.isBlank = ls.all Lexeme.isBlank := by
  rw [Bool.eq_iff_iff, List.all_eq_true, List.all_eq_true, ← filled_eq_nil_iff, ← filled_eq_nil_iff,
    filled_squeeze]

theorem settledLiterals_squeeze (ls : List Lexeme) :
    settledLiterals (squeeze ls) = settledLiterals ls := by
  induction ls with
  | nil => rfl
  | cons l ls ih =>
      cases l with
      | literal kind text =>
          rw [squeeze_cons_filled rfl, settledLiterals, settledLiterals, all_isBlank_squeeze, ih]
      | code c =>
          rw [squeeze]
          split
          · split
            · exact ih
            · exact ih
          · exact ih

theorem quotedLiterals_trim (s : Text) : quotedLiterals (trim s) = quotedLiterals s := by
  rw [quotedLiterals, (sameContent_trim s).literals, ← quotedLiterals]

theorem eq_of_forall₂_relaid {texts others : List Text} (relaid : List.Forall₂ Relaid texts others)
    (flat : ∀ text ∈ texts, '\n' ∉ text) : others = texts := by
  induction relaid with
  | nil => rfl
  | cons first _ ih =>
      obtain ⟨one, others⟩ := List.forall_mem_cons.mp flat
      rw [first.eq_of_not_mem one, ih others]

theorem quotedLiterals_collapseBlanks {s : Text} (flat : '\n' ∉ s) :
    quotedLiterals (collapseBlanks s) = quotedLiterals s := by
  have whole := flatMap_text_lexemes s
  rw [collapseBlanks, quotedLiterals_trim, replaceCode_gap, quotedLiterals,
    lexemes_squeeze_of_flat (by rw [whole]) (by rwa [whole]), settledLiterals_squeeze,
    ← quotedLiterals]

/-- The layout of a plain query keeps its strings and quoted names in order, each of them up to the
blanks around the line feeds in it; where none of them has a line feed, they all stay as they are.
-/
theorem quotedLiterals_plainQuery (s : Text) :
    List.Forall₂ Relaid (quotedLiterals s) (quotedLiterals (plainQuery s)) ∧
      ((∀ text ∈ quotedLiterals s, '\n' ∉ text) → quotedLiterals (plainQuery s) =
        quotedLiterals s) := by
  have relaid : List.Forall₂ Relaid (quotedLiterals s) (quotedLiterals (plainQuery s)) := by
    cases simple : isSimple s with
    | true =>
        have flat : '\n' ∉ s := by
          intro feed
          simp [isSimple, feed] at simple
        have same : plainQuery s = collapseBlanks s := by rw [plainQuery, if_pos simple]
        rw [same, quotedLiterals_collapseBlanks flat]
        exact List.forall₂_same.mpr fun text _ => Relaid.refl text
    | false =>
        rw [← quotedLiterals_trim s]
        exact (relaid_plainQuery simple).aligned.forall₂_settledLiterals
  refine ⟨relaid, fun flat => ?_⟩
  exact eq_of_forall₂_relaid relaid flat

/-- Literals on one line stay in a query of several lines, also where a comment before them has a
quote in it. -/
theorem quotedLiterals_plainQuery_commented :
    let s : Text := "SELECT 'it''s', -- don't\n  `a  b`,\n\n \"c\" \nFROM t "
    quotedLiterals (plainQuery s) = ["'it''s'", "`a  b`", "\"c\""] := by
  intro s
  have literals : quotedLiterals s = ["'it''s'", "`a  b`", "\"c\""] := by decide +kernel
  rw [(quotedLiterals_plainQuery s).2 (by rw [literals]; decide), literals]

/-- A line feed in a string does not keep the string from being indented. -/
theorem not_forall_quotedLiterals_plainQuery :
    ¬ ∀ s : Text, quotedLiterals (plainQuery s) = quotedLiterals s := by
  intro same
  exact absurd (same "SELECT 'a\nb'") (by decide +kernel)

end Layout

end LiteSql
