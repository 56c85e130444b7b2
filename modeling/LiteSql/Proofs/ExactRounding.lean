import LiteSql.Proofs.Arithmetic
import LiteSql.Proofs.Draw
import LiteSql.Proofs.LineLayout

/-! Rounding is exact. The text that is written for rounding an arithmetic expression up or down has
the ceiling or the floor of the expression's value, whatever signs, parentheses and blanks the
expression has: its three copies stand where nothing around them takes a part of them, and the
truncation is corrected on the side where it went the wrong way. -/

namespace LiteSql.Arithmetic

theorem isDigit_or_point_of_numeral? {w : Text} {v : ℚ} (read : numeral? w = some v) :
    ∀ c ∈ w, c.isDigit = true ∨ c = '.' := by
  rw [numeral?, Option.ite_none_right_eq_some] at read
  obtain ⟨point, fraction, -⟩ := read.1
  rw [← List.takeWhile_append_dropWhile (p := Char.isDigit) (l := w), List.forall_mem_append]
  refine ⟨fun c member => .inl (List.all_eq_true.mp List.all_takeWhile c member),
    fun c member => ?_⟩
  cases rest : w.dropWhile Char.isDigit with
  | nil => rw [rest] at member; cases member
  | cons d s =>
      rw [rest] at member point fraction
      rcases List.mem_cons.mp member with rfl | later
      · exact .inr (by simpa using point)
      · exact .inl (List.all_eq_true.mp fraction c later)

/-! ### The tokens of a part of a text -/

theorem tokensFrom_append_cons {c : Char} (outside : isOperandChar c = false) (dash : c ≠ '-')
    (word x y : Text) :
    tokensFrom word (x ++ c :: y) = do
      return (← tokensFrom word x) ++ ((← Token.ofChar? c) ++ (← tokens y)) := by
  fun_induction tokensFrom word x with
  | case1 word =>
      rw [List.nil_append, tokensFrom, if_neg (by simp [outside]), if_neg fun both => dash both.1]
      rfl
  | case2 word d s letter ih => rw [List.cons_append, tokensFrom, if_pos letter, ih]
  | case3 word d s foreign dashes =>
      have next : (s ++ c :: y).head? = some '-' := by rw [List.head?_append, dashes.2]; rfl
      rw [List.cons_append, tokensFrom, if_neg foreign, if_pos ⟨dashes.1, next⟩]
      rfl
  | case4 word d s foreign apart ih =>
      have next : ¬ (d = '-' ∧ (s ++ c :: y).head? = some '-') := by
        rintro ⟨own, head⟩
        cases s with
        | nil => exact dash (Option.some.inj head)
        | cons e s => exact apart ⟨own, head⟩
      rw [List.cons_append, tokensFrom, if_neg foreign, if_neg next, ih]
      simp [Option.bind_assoc]

theorem tokens_append_cons {c : Char} (outside : isOperandChar c = false) (dash : c ≠ '-')
    {x y : Text}
    {own ss ts : List Token} (first : tokens x = some ss) (here : Token.ofChar? c = some own)
    (rest : tokens y = some ts) : tokens (x ++ c :: y) = some (ss ++ (own ++ ts)) := by
  have whole := tokensFrom_append_cons outside dash [] x y
  rw [show tokensFrom [] x = some ss from first, here, rest] at whole
  exact whole

theorem ofChar?_of_isBlank {c : Char} (blank : isBlank c = true) : Token.ofChar? c = some [] :=
  if_pos blank

theorem ne_dash_of_isBlank {c : Char} (blank : isBlank c = true) : c ≠ '-' := by
  rintro rfl
  exact absurd blank (by decide)

theorem tokens_blank_cons {c : Char} (blank : isBlank c = true) (s : Text) :
    tokens (c :: s) = tokens s := by
  have cut := tokensFrom_append_cons (isOperandChar_of_isBlank blank)
    (ne_dash_of_isBlank blank) [] [] s
  rw [ofChar?_of_isBlank blank] at cut
  refine cut.trans ?_
  cases tokens s <;> rfl

theorem tokens_concat_blank {c : Char} (blank : isBlank c = true) (s : Text) :
    tokens (s ++ [c]) = tokens s := by
  have cut := tokensFrom_append_cons (isOperandChar_of_isBlank blank)
    (ne_dash_of_isBlank blank) [] s []
  rw [ofChar?_of_isBlank blank] at cut
  rw [tokens, tokens, cut]
  cases tokensFrom [] s with
  | none => rfl
  | some ts => exact congrArg some (List.append_nil ts)

theorem tokens_trim (s : Text) : tokens (trim s) = tokens s := by
  obtain ⟨before, after, cut, leading, trailing⟩ := Layout.exists_trim_eq s
  have front (x : Text) : tokens (before ++ x) = tokens x := by
    clear cut
    induction before with
    | nil => rfl
    | cons c before ih =>
        obtain ⟨blank, others⟩ := List.forall_mem_cons.mp leading
        rw [List.cons_append, tokens_blank_cons blank, ih others]
  have back (x : Text) : tokens (x ++ after) = tokens x := by
    clear cut
    induction after using List.reverseRecOn with
    | nil => rw [List.append_nil]
    | append_singleton after c ih =>
        obtain ⟨others, blank⟩ := List.forall_mem_append.mp trailing
        rw [← List.append_assoc, tokens_concat_blank (blank c List.mem_cons_self), ih others]
  conv_rhs => rw [cut, front, back]

/-! ### Expressions as arguments -/

namespace Token

def isKeyword : Token → Bool
  | castWord | asWord | integerWord => true
  | _ => false

def parenthesis : Token → List Lexeme
  | opening => [.code '(']
  | closing => [.code ')']
  | _ => []

theorem cases_of_ofWord? {w : Text} {t : Token} (read : ofWord? w = some t) :
    t.isKeyword = true ∨ ∃ v, t = number v ∧ numeral? w = some v := by
  rw [ofWord?] at read
  split at read
  · cases read
    exact .inl rfl
  split at read
  · cases read
    exact .inl rfl
  split at read
  · cases read
    exact .inl rfl
  · obtain ⟨v, own, rfl⟩ := Option.map_eq_some_iff.mp read
    exact .inr ⟨v, rfl, own⟩

theorem cases_of_ofLetters? {word : Text} {ts : List Token} (read : ofLetters? word = some ts) :
    word = [] ∧ ts = [] ∨ ∃ t, ts = [t] ∧ ofWord? word.reverse = some t := by
  rw [ofLetters?] at read
  split at read
  next none =>
    cases read
    exact .inl ⟨none, rfl⟩
  next =>
    obtain ⟨t, own, rfl⟩ := Option.map_eq_some_iff.mp read
    exact .inr ⟨t, rfl, own⟩

theorem parenthesis_of_ofLetters? {word : Text} {ts : List Token}
    (read : ofLetters? word = some ts) :
    ts.flatMap parenthesis = [] := by
  rcases cases_of_ofLetters? read with ⟨-, rfl⟩ | ⟨t, rfl, own⟩
  · rfl
  rcases cases_of_ofWord? own with keyword | ⟨v, rfl, -⟩
  · cases t with
    | castWord | asWord | integerWord => rfl
    | number _ | sign _ | opening | closing => cases keyword
  · rfl

theorem class_of_ofChar? {c : Char} {own : List Token} (here : ofChar? c = some own) :
    c ∉ ['\x27', '\x22', '\x60', ',', '/'] ∧ (own.flatMap parenthesis = [] ∧ c ≠ '(' ∧ c ≠ ')' ∨
      own.flatMap parenthesis = [.code c]) := by
  rw [ofChar?.eq_def] at here
  split at here
  next blank =>
    have other {d : Char} (sign : isBlank d = false) : c ≠ d := by
      rintro rfl
      rw [sign] at blank
      cases blank
    cases here
    refine ⟨fun member => ?_, .inl ⟨rfl, other (by decide), other (by decide)⟩⟩
    exact other ((by decide : ∀ c ∈ ['\x27', '\x22', '\x60', ',', '/'], isBlank c = false) c
      member) rfl
  next =>
    split at here
    all_goals cases here
    all_goals exact ⟨by decide, by decide⟩

end Token

theorem class_of_isOperandChar {c : Char} (letter : isOperandChar c = true) :
    c ∉ ['\x27', '\x22', '\x60', ',', '/'] ∧ c ≠ '-' ∧ c ≠ '(' ∧ c ≠ ')' := by
  have other {d : Char} (sign : isOperandChar d = false) : c ≠ d := by
    rintro rfl
    rw [sign] at letter
    cases letter
  refine ⟨fun member => ?_, other (by decide), other (by decide), other (by decide)⟩
  exact other ((by decide : ∀ c ∈ ['\x27', '\x22', '\x60', ',', '/'], isOperandChar c = false) c
    member) rfl

theorem lexemes_cons_of_class {c : Char} {s : Text} (other : c ∉ ['\x27', '\x22', '\x60', ',', '/'])
    (apart : ¬ (c = '-' ∧ s.head? = some '-')) : lexemes (c :: s) = .code c :: lexemes s := by
  apply lexemes_code
  rw [opening?_cons_eq_none]
  refine ⟨fun member => other (List.mem_append_left [',', '/'] member), apart, ?_⟩
  rintro ⟨rfl, -⟩
  exact other (by decide)

theorem levelAfter_cons_of_ne {c : Char} (opening : c ≠ '(') (closing : c ≠ ')') (depth : Nat)
    (ls : List Lexeme) :
    levelAfter depth (.code c :: ls) = levelAfter depth ls :=
  (balanced_map_code (x := [c]) (by simp [opening, closing])).levelAfter_append depth ls

theorem lexemes_of_tokensFrom {word x : Text} {ts : List Token}
    (read : tokensFrom word x = some ts) :
    ',' ∉ x ∧ (∀ rest, StartsNeutral rest → lexemes (x ++ rest) = x.map .code ++ lexemes rest) ∧
      ∀ depth, levelAfter depth (x.map .code) = levelAfter depth
        (ts.flatMap Token.parenthesis) := by
  have undivided {c : Char} {s : Text} (other : c ∉ ['\x27', '\x22', '\x60', ',', '/'])
      (later : ',' ∉ s) :
      ',' ∉ c :: s := by
    rw [List.mem_cons, not_or]
    refine ⟨?_, later⟩
    rintro rfl
    exact other (by decide)
  fun_induction tokensFrom word x generalizing ts with
  | case1 word =>
      refine ⟨List.not_mem_nil, fun rest _ => rfl, fun depth => ?_⟩
      rw [Token.parenthesis_of_ofLetters? read]
      rfl
  | case2 word c s letter ih =>
      obtain ⟨other, dash, opening, closing⟩ := class_of_isOperandChar letter
      obtain ⟨free, later, level⟩ := ih read
      refine ⟨undivided other free, fun rest neutral => ?_, fun depth => ?_⟩
      · rw [List.cons_append, lexemes_cons_of_class other fun both => dash both.1,
          later rest neutral]
        rfl
      · rw [List.map_cons, levelAfter_cons_of_ne opening closing, level]
  | case3 => cases read
  | case4 word c s foreign apart ih =>
      obtain ⟨letters, word, more⟩ := Option.bind_eq_some_iff.mp read
      obtain ⟨own, here, more⟩ := Option.bind_eq_some_iff.mp more
      obtain ⟨others, behind, same⟩ := Option.bind_eq_some_iff.mp more
      cases same
      obtain ⟨free, later, level⟩ := ih behind
      obtain ⟨other, parenthesis⟩ := Token.class_of_ofChar? here
      refine ⟨undivided other free, fun rest neutral => ?_, fun depth => ?_⟩
      · have next : ¬ (c = '-' ∧ (s ++ rest).head? = some '-') := by
          rintro ⟨dash, head⟩
          cases s with
          | nil => exact neutral.head?_ne (by decide) head
          | cons d s => exact apart ⟨dash, head⟩
        rw [List.cons_append, lexemes_cons_of_class other next, later rest neutral]
        rfl
      · rw [List.map_cons, List.flatMap_append, Token.parenthesis_of_ofLetters? word,
          List.nil_append, List.flatMap_append]
        rcases parenthesis with ⟨none, opening, closing⟩ | turned
        · rw [none, List.nil_append, levelAfter_cons_of_ne opening closing, level]
        · rw [turned, List.singleton_append, levelAfter, levelAfter, level]

theorem sealed_of_tokens {x : Text} {ts : List Token} (read : tokens x = some ts) :
    Sealed (x.map .code) where
  plain l member := by
    obtain ⟨c, -, rfl⟩ := List.mem_map.mp member
    rfl
  read rest neutral := by rw [flatMap_text_map_code, (lexemes_of_tokensFrom read).2.1 rest neutral]

theorem Reads.balanced {level : Nat} {ts : List Token} {v : ℚ} (reads : Reads level ts v) :
    Balanced (ts.flatMap Token.parenthesis) := by
  induction reads with
  | number v => rfl
  | positive _ ih => exact ih
  | negative _ ih => exact ih
  | @parenthesized ts v _ ih =>
      have around := ih.between
      rwa [List.flatMap_cons, List.flatMap_append]
  | @cast ts v _ ih =>
      have around := ih.between
      rwa [List.flatMap_cons, List.flatMap_cons, List.flatMap_append]
  | binary o _ _ left right =>
      rw [List.flatMap_append, List.flatMap_cons]
      exact left.append right
  | looser _ ih => exact ih

theorem Reads.ne_nil {level : Nat} {ts : List Token} {v : ℚ} (reads : Reads level ts v) :
    ts ≠ [] := by
  induction reads with
  | looser _ ih => exact ih
  | binary o _ _ _ _ => exact List.append_ne_nil_of_right_ne_nil _ (List.cons_ne_nil _ _)
  | number _ | positive _ _ | negative _ _ | parenthesized _ _ | cast _ _ =>
      exact List.cons_ne_nil _ _

theorem isDigit_of_tokensFrom {word x : Text} {ts : List Token} (read : tokensFrom word x = some ts)
    (plain : ∀ t ∈ ts, t.isKeyword = false) :
    ∀ c ∈ word.reverse ++ x, isWordChar c = true → c.isDigit = true := by
  have digits {word : Text} {ts : List Token} (read : Token.ofLetters? word = some ts)
      (plain : ∀ t ∈ ts, t.isKeyword = false) : ∀ c ∈ word.reverse, isWordChar c = true →
        c.isDigit = true := by
    intro c member letter
    rcases Token.cases_of_ofLetters? read with ⟨rfl, -⟩ | ⟨t, rfl, own⟩
    · cases member
    rcases Token.cases_of_ofWord? own with keyword | ⟨v, rfl, numeral⟩
    · rw [plain t List.mem_cons_self] at keyword
      cases keyword
    rcases isDigit_or_point_of_numeral? numeral c member with digit | rfl
    · exact digit
    · exact absurd letter (by decide)
  fun_induction tokensFrom word x generalizing ts with
  | case1 word =>
      rw [List.append_nil]
      exact digits read plain
  | case2 word c s letter ih =>
      have later := ih read plain
      rwa [List.reverse_cons, List.append_assoc] at later
  | case3 => cases read
  | case4 word c s foreign apart ih =>
      obtain ⟨letters, front, more⟩ := Option.bind_eq_some_iff.mp read
      obtain ⟨own, here, more⟩ := Option.bind_eq_some_iff.mp more
      obtain ⟨others, behind, same⟩ := Option.bind_eq_some_iff.mp more
      cases same
      rw [List.forall_mem_append, List.forall_mem_cons]
      refine ⟨digits front fun t member => plain t (List.mem_append_left _ member),
        fun letter => ?_, ih behind fun t member =>
          plain t (List.mem_append_right _ (List.mem_append_right _ member))⟩
      rw [isOperandChar, letter, Bool.true_or] at foreign
      exact absurd rfl foreign

/-! ### Names in expressions -/

theorem not_spelled_of_digits {k w : Text} (ascii : IsAsciiWord k)
    (named : (k.map foldCase).all Char.isDigit = false)
    (digits : ∀ c ∈ w, isWordChar c = true → c.isDigit = true) : spelled k w = false := by
  rw [Bool.eq_false_iff]
  intro same
  have letters := (isWordChar_of_spelled ascii same).2
  rw [spelled_iff_foldCase] at same
  rw [same, List.all_map, Bool.eq_false_iff] at named
  refine named (List.all_eq_true.mpr fun c member => ?_)
  have digit := digits c member (letters c member)
  have small : c.toNat < 0x80 := by
    rw [Char.isDigit, Bool.and_eq_true, decide_eq_true_iff, decide_eq_true_iff] at digit
    exact Nat.lt_of_le_of_lt (UInt32.le_iff_toNat_le.mp digit.2) (by decide)
  have checked := forall_ascii (fun c => !c.isDigit || (foldCase c).isDigit) (by decide) c small
  simpa [digit] using checked

theorem uncalling_of_digits {name x : Text} (ascii : IsAsciiWord name)
    (named : (name.map foldCase).all Char.isDigit = false)
    (digits : ∀ c ∈ x, isWordChar c = true → c.isDigit = true) : Uncalling name x := by
  intro pos _ starts opened
  have bound := (List.getElem?_eq_some_iff.mp opened).1
  have same : spelled name ((x.drop pos).take name.length) = true := by
    rw [spelled_iff, startsIgnoringCase_take _ _ _ (Nat.le_refl _), List.length_take,
      List.length_drop]
    exact ⟨starts, by omega⟩
  rw [not_spelled_of_digits ascii named fun c member =>
    digits c (List.mem_of_mem_drop (List.mem_of_mem_take member))] at same
  cases same

theorem isRandom_of_digits {x : Text} (digits : ∀ c ∈ x, isWordChar c = true → c.isDigit = true) :
    Rounding.isRandom x = false := by
  rw [Rounding.isRandom, Pattern.startsInCode, List.any_eq_false]
  intro m member
  obtain ⟨front, after, caps, rfl, -, -, taken⟩ := Pattern.takes_of_mem_hits member
  obtain ⟨⟨v, blanks, text, named, -⟩, -⟩ := (spans_randomCall_iff ..).mp taken.spans
  have inside : ∀ c ∈ v, isWordChar c = true → c.isDigit = true := fun c here =>
    digits c (by simp [text, here])
  rw [not_spelled_of_digits (by decide) (by decide) inside,
    not_spelled_of_digits (by decide) (by decide) inside] at named
  simp at named

/-! ### Rounding -/

/-- An expression of numerals, signs and parentheses, and its value. -/
def Denotes (x : Text) (v : ℚ) : Prop :=
  ∃ ts, tokens x = some ts ∧ Reads 0 ts v ∧ ∀ t ∈ ts, t.isKeyword = false

variable {x : Text} {v : ℚ}

theorem Denotes.digits (denotes : Denotes x v) : ∀ c ∈ x, isWordChar c = true →
    c.isDigit = true := by
  obtain ⟨ts, read, -, plain⟩ := denotes
  exact isDigit_of_tokensFrom read plain

theorem Denotes.apply_rounding (denotes : Denotes x v) (direction : Rounding.Direction)
    {function : Text} (name : Text)
    (ascii : IsAsciiWord function) (named : (function.map foldCase).all Char.isDigit = false) :
    (Rule.total name function (Rounding.convert direction)).apply
    (function ++ '(' :: (x ++ [')'])) =
      .ok (Rounding.round direction (trim x)) := by
  obtain ⟨ts, read, reads, -⟩ := id denotes
  have word : ∀ c ∈ function, isWordChar c = true := fun c member => (ascii.2 c member).2
  obtain ⟨free, code, level⟩ := lexemes_of_tokensFrom read
  replace code : lexemes x = x.map .code := by simpa [lexemes_nil] using code [] rfl
  have balanced : Balanced (x.map .code) := (level 0).trans reads.balanced
  have item : Item (x.map .code) := ⟨balanced, undivided_map_code free []⟩
  have solid : ¬ x.all isBlank = true := by
    intro blank
    have none : tokens x = some [] := by
      rw [← tokens_trim, trim_eq_nil (List.all_eq_true.mp blank)]
      rfl
    rw [read] at none
    exact reads.ne_nil (Option.some.inj none)
  have split : splitArguments x = [trim x] := by
    rw [splitArguments, if_neg solid, code, item.piecesAt_eq, flatMap_text_map_code]
    rfl
  have calm : Rounding.isRandom (trim x) = false :=
    isRandom_of_digits fun c member => denotes.digits c ((trim_sublist x).subset member)
  have uncalled := (uncalling_of_digits ascii named denotes.digits).not_isCall
  rw [Rule.total, Rule.apply, replaceCallsM_enclosed word _ (code ▸ sealed_of_tokens read)
    (code ▸ balanced)
    (replaceCallsM_uncalled word _ uncalled), split, Rounding.convert, calm]
  rfl

theorem ceil_eq_truncate (v : ℚ) : (⌈v⌉ : ℚ) = truncate v + if (truncate v : ℚ) < v then 1
    else 0 := by
  rw [truncate]
  split
  next =>
    split
    next above =>
      have next : ⌈v⌉ = ⌊v⌋ + 1 := by
        rw [Int.ceil_eq_iff, Int.cast_add, Int.cast_one, add_sub_cancel_right]
        exact ⟨above, (Int.lt_floor_add_one v).le⟩
      rw [next, Int.cast_add, Int.cast_one]
    next whole =>
      have same : v = ⌊v⌋ := le_antisymm (not_lt.mp whole) (Int.floor_le v)
      rw [add_zero, ← same, same, Int.ceil_intCast]
  next => rw [if_neg (not_lt.mpr (Int.le_ceil v)), add_zero]

theorem floor_eq_truncate (v : ℚ) : (⌊v⌋ : ℚ) = truncate v - if v < (truncate v : ℚ) then 1
    else 0 := by
  rw [truncate]
  split
  next => rw [if_neg (not_lt.mpr (Int.floor_le v)), sub_zero]
  next =>
    split
    next below =>
      have next : ⌊v⌋ = ⌈v⌉ - 1 := by
        rw [Int.floor_eq_iff, Int.cast_sub, Int.cast_one, sub_add_cancel]
        exact ⟨sub_le_iff_le_add.mpr (Int.ceil_lt_add_one v).le, below⟩
      rw [next, Int.cast_sub, Int.cast_one]
    next whole =>
      have same : v = ⌈v⌉ := le_antisymm (Int.le_ceil v) (not_lt.mp whole)
      rw [sub_zero, ← same, same, Int.floor_intCast]

/-- The signs that a direction is written with: that of the correction, and that of the comparison.
-/
def correction : Rounding.Direction → Sign × Sign
  | .up => (.plus, .greater)
  | .down => (.minus, .less)

def truncation (ts : List Token) : List Token :=
  .castWord :: .opening :: (ts ++ [.asWord, .integerWord, .closing])

def rounded (signs : Sign × Sign) (ts : List Token) : List Token :=
  .opening :: (truncation ts ++ .sign signs.1 ::
    (.opening :: ((ts ++ .sign signs.2 :: truncation ts) ++ [.closing])) ++ [.closing])

theorem tokens_round {ts : List Token} (read : tokens x = some ts)
    (direction : Rounding.Direction) :
    tokens (Rounding.round direction x) = some (rounded (correction direction) ts) := by
  have spaced {y : Text} {us : List Token} (rest : tokens y = some us) :
      tokens (x ++ ' ' :: y) = some (ts ++ us) :=
    tokens_append_cons (c := ' ') (by decide) (by decide) read rfl rest
  have opened {s y : Text} {ss us : List Token} (first : tokens s = some ss)
      (rest : tokens y = some us) :
      tokens (s ++ '(' :: y) = some (ss ++ (.opening :: us)) :=
    tokens_append_cons (c := '(') (by decide) (by decide) first rfl rest
  have first : tokens "(CAST" = some [.opening, .castWord] := by decide +kernel
  have last : tokens "AS INTEGER)))" = some [.asWord, .integerWord, .closing, .closing,
      .closing] := by decide +kernel
  have whole {s t : Text} {o p : Sign} (second : tokens s =
      some [.asWord, .integerWord, .closing, .sign o])
      (third : tokens t = some [.sign p, .castWord]) :
      tokens ("(CAST" ++ '(' ::
        (x ++ ' ' :: (s ++ '(' :: (x ++ ' ' :: (t ++ '(' :: (x ++ ' ' :: "AS INTEGER)))")))))) =
        some (rounded (o, p) ts) := by
    rw [opened first (spaced (opened second (spaced (opened third (spaced last)))))]
    simp [rounded, truncation]
  cases direction with
  | up =>
      have written := whole (s := "AS INTEGER) + ") (t := "> CAST") (o := .plus) (p := .greater)
        (by decide +kernel)
        (by decide +kernel)
      simpa [Rounding.round_up, correction] using written
  | down =>
      have written := whole (s := "AS INTEGER) - ") (t := "< CAST") (o := .minus) (p := .less)
        (by decide +kernel)
        (by decide +kernel)
      simpa [Rounding.round_down, correction] using written

/-- The comparison stands in parentheses and binds less tightly than the cast beside it, the
correction binds less tightly than both. -/
theorem reads_rounded {ts : List Token} (reads : Reads 0 ts v) {o p : Sign} (sum : o.level = 1)
    (compare : p.level = 0) :
    Reads 0 (rounded (o, p) ts) (o.apply (truncate v) (p.apply v (truncate v))) := by
  have truncated : Reads 3 (truncation ts) (truncate v) := reads.cast
  have compared : Reads p.level (ts ++ .sign p :: truncation ts) (p.apply v (truncate v)) :=
    .binary p (compare ▸ reads) (truncated.of_le (by omega))
  have corrected : Reads o.level (truncation ts ++ .sign o ::
      (.opening :: ((ts ++ .sign p :: truncation ts) ++ [.closing])))
      (o.apply (truncate v) (p.apply v (truncate v))) :=
    .binary o (truncated.of_le (by omega)) ((compare ▸ compared).parenthesized.of_le (by omega))
  exact (corrected.of_le (Nat.zero_le _)).parenthesized.of_le (Nat.zero_le 3)

theorem Denotes.evaluate_round (denotes : Denotes x v) :
    evaluate (Rounding.round .up (trim x)) = some (⌈v⌉ : ℚ) ∧
      evaluate (Rounding.round .down (trim x)) = some (⌊v⌋ : ℚ) := by
  obtain ⟨ts, read, reads, -⟩ := denotes
  rw [← tokens_trim] at read
  rw [ceil_eq_truncate, floor_eq_truncate]
  exact ⟨evaluate_eq (tokens_round read .up) (reads_rounded reads rfl rfl),
    evaluate_eq (tokens_round read .down) (reads_rounded reads rfl rfl)⟩

def ceilRule : Rule := .total "ceil" "CEIL" (Rounding.convert .up)

def ceilingRule : Rule := .total "ceiling" "CEILING" (Rounding.convert .up)

def floorRule : Rule := .total "floor" "FLOOR" (Rounding.convert .down)

theorem roundingRules_subset : [ceilRule, ceilingRule, floorRule] ⊆ Rule.table := by
  have ceil : ceilRule ∈ Rule.numericRules := .head _
  have ceiling : ceilingRule ∈ Rule.numericRules := .tail _ (.head _)
  have floor : floorRule ∈ Rule.numericRules := .tail _ (.tail _ (.head _))
  simp only [List.cons_subset, List.nil_subset, Rule.table, List.mem_append, ceil, ceiling, floor,
    true_or, or_true, and_self]

/-- What is written for rounding an expression up or down evaluates to the ceiling or the floor of
its value. -/
theorem evaluate_rounding (denotes : Denotes x v) :
    [ceilRule, ceilingRule, floorRule] ⊆ Rule.table ∧ evaluate x = some v ∧
      ∃ up down, ceilRule.apply ("CEIL(" ++ (x ++ ")")) = .ok up ∧
        ceilingRule.apply ("CEILING(" ++ (x ++ ")")) = .ok up ∧
          floorRule.apply ("FLOOR(" ++ (x ++ ")")) = .ok down ∧
        evaluate up = some (⌈v⌉ : ℚ) ∧ evaluate down = some (⌊v⌋ : ℚ) := by
  obtain ⟨ts, read, reads, -⟩ := id denotes
  obtain ⟨up, down⟩ := denotes.evaluate_round
  exact ⟨roundingRules_subset, evaluate_eq read reads, _, _,
    denotes.apply_rounding .up "ceil" (by decide) (by decide),
    denotes.apply_rounding .up "ceiling" (by decide) (by decide),
    denotes.apply_rounding .down "floor" (by decide) (by decide), up, down⟩

/-- A negative product with a fraction in parentheses. -/
theorem evaluate_rounding_product :
    Denotes " -2.3 * (1 - .5)\n" (-23 / 20) ∧
      ∃ up down, ceilRule.apply "CEIL( -2.3 * (1 - .5)\n)" = .ok up ∧
        floorRule.apply "FLOOR( -2.3 * (1 - .5)\n)" = .ok down ∧ evaluate up = some (-1) ∧
          evaluate down = some (-2) := by
  have denotes : Denotes " -2.3 * (1 - .5)\n" (-23 / 20) := by
    refine ⟨[.sign .minus, .number (23 / 10), .sign .times, .opening, .number 1, .sign .minus,
      .number (1 / 2), .closing], by decide +kernel, ?_, by decide⟩
    have inner : Reads 0 ([.number 1] ++ .sign .minus :: [.number (1 / 2)]) (1 - 1 / 2) :=
      Reads.looser (.binary .minus ((Reads.number 1).of_le (by decide))
        ((Reads.number (1 / 2)).of_le (by decide)))
    have product : Reads 2 ([.sign .minus, .number (23 / 10)] ++ .sign .times ::
        (.opening :: ([.number 1] ++ .sign .minus :: [.number (1 / 2)] ++ [.closing])))
          (-(23 / 10) * (1 - 1 / 2)) :=
      .binary .times (Reads.number (23 / 10)).negative.looser inner.parenthesized
    have value : (-(23 / 10) * (1 - 1 / 2) : ℚ) = -23 / 20 := by norm_num
    exact value ▸ product.of_le (by decide)
  obtain ⟨-, -, up, down, ceil, -, floor, above, below⟩ := evaluate_rounding denotes
  have upper : ⌈(-23 / 20 : ℚ)⌉ = -1 := by decide +kernel
  have lower : ⌊(-23 / 20 : ℚ)⌋ = -2 := by decide +kernel
  rw [upper] at above
  rw [lower] at below
  exact ⟨denotes, up, down, ceil, floor, above, below⟩

end LiteSql.Arithmetic
