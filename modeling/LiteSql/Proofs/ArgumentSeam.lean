import LiteSql.Proofs.CallSeam
import LiteSql.Proofs.Listing
import LiteSql.Proofs.PatternSeam

/-! Arguments among other texts. What a rule does to an argument, and to the text before or behind
it, it does to both together: a call that an argument opens is closed in it, and no match reaches
over its ends. -/

namespace LiteSql

theorem sealed_of_not_inLiteral {s : Text} (closed : ¬ InLiteral (s ++ [' ']) s.length)
    (uncommented : ∀ l ∈ lexemes s, l.isLineComment = false) : Sealed (lexemes s) := by
  obtain ⟨front, read, text⟩ := exists_cut_of_not_inLiteral (s ++ [' ']) s.length (by simp) closed
  rw [List.take_left] at text
  rw [List.drop_left, show lexemes [' '] = [.code ' '] by decide] at read
  have own := lexemes_front read
  rw [text] at own
  rw [own]
  exact .of_lexemes read (by simp) (own ▸ uncommented)

theorem Sealed.not_inLiteral {s : Text} (closed : Sealed (lexemes s)) :
    ¬ InLiteral (s ++ [' ']) s.length := by
  have read := closed.read [' '] (show ScanState.isNeutral ' ' = true by decide)
  have size : ((lexemes s).flatMap Lexeme.marked).length = s.length := by
    rw [length_flatMap_marked, flatMap_text_lexemes]
  rw [flatMap_text_lexemes, show lexemes [' '] = [.code ' '] by decide] at read
  rw [inLiteral_iff_marked, marked, read, List.flatMap_append,
    List.getElem?_append_right (by rw [size]), size, Nat.sub_self]
  simp [Lexeme.marked]

/-- A text that can be an argument: trimmed and not blank, with its literals and parentheses closed,
and without a line comment or a comma outside parentheses. -/
structure IsArgument (s : Text) : Prop where
  filled : s ≠ []
  trimmed : trim s = s
  closed : ¬ InLiteral (s ++ [' ']) s.length
  uncommented : ∀ l ∈ lexemes s, l.isLineComment = false
  item : Item (lexemes s)

theorem item_iff (x : List Lexeme) : Item x ↔
    levelAfter 0 x = some 0 ∧ ∀ n < x.length, x[n]? = some (.code ',') →
      levelAfter 0 (x.take n) ≠ some 0 := by
  constructor
  · rintro ⟨balanced, undivided⟩
    refine ⟨balanced, fun n bound comma => undivided (x.take n) (x.drop (n + 1)) ?_⟩
    obtain ⟨_, here⟩ := List.getElem?_eq_some_iff.mp comma
    rw [← here, ← List.drop_eq_getElem_cons bound, List.take_append_drop]
  · rintro ⟨balanced, undivided⟩
    refine ⟨balanced, ?_⟩
    rintro y z rfl
    have apart := undivided y.length (by simp) (by simp)
    rwa [List.take_left] at apart

instance (x : List Lexeme) : Decidable (Item x) :=
  decidable_of_iff _ (item_iff x).symm

instance (s : Text) : Decidable (IsArgument s) :=
  decidable_of_iff (s ≠ [] ∧ trim s = s ∧ ¬ InLiteral (s ++ [' ']) s.length ∧
      (∀ l ∈ lexemes s, l.isLineComment = false) ∧ Item (lexemes s))
    ⟨fun ⟨filled, trimmed, closed, uncommented, item⟩ =>
      ⟨filled, trimmed, closed, uncommented, item⟩, fun argument =>
        ⟨argument.filled, argument.trimmed, argument.closed, argument.uncommented, argument.item⟩⟩

namespace IsArgument

variable {s : Text} (argument : IsArgument s)

include argument

theorem sealed : Sealed (lexemes s) := sealed_of_not_inLiteral argument.closed argument.uncommented

theorem head?_ne_blank (rest : Text) : (s ++ rest).head?.any isBlank = false := by
  obtain ⟨c, s, rfl⟩ := List.exists_cons_of_ne_nil argument.filled
  have first := head?_trim (c :: s)
  rwa [argument.trimmed] at first

theorem lexemes_append {v : Text} (neutral : StartsNeutral v) :
    lexemes (s ++ v) = lexemes s ++ lexemes v := by
  have read := argument.sealed.read v neutral
  rwa [flatMap_text_lexemes] at read

end IsArgument

def Lexeme.isNeutral : Lexeme → Bool
  | code c => ScanState.isNeutral c
  | literal _ _ => false

def IsClosed (t : Text) : Prop :=
  (lexemes t).getLast?.any Lexeme.isNeutral = true ∧ ∀ l ∈ lexemes t, l.isLineComment = false

instance (t : Text) : Decidable (IsClosed t) :=
  inferInstanceAs (Decidable ((lexemes t).getLast?.any Lexeme.isNeutral = true ∧
    ∀ l ∈ lexemes t, l.isLineComment = false))

theorem IsClosed.lexemes_append {t : Text} (closed : IsClosed t) (v : Text) :
    lexemes (t ++ v) = lexemes t ++ lexemes v := by
  obtain ⟨front, c, read, neutral⟩ : ∃ front c, lexemes t = front ++ [.code c] ∧
      ScanState.isNeutral c = true := by
    obtain ⟨l, last, neutral⟩ := (Option.any_eq_true _ _).mp closed.1
    obtain ⟨front, cut⟩ := List.getLast?_eq_some_iff.mp last
    cases l with
    | literal kind text => cases neutral
    | code c => exact ⟨front, c, cut, neutral⟩
  have sealed : Sealed front := .of_lexemes read (by simp) fun l member =>
    closed.2 l (read ▸ List.mem_append_left _ member)
  have text : t = front.flatMap Lexeme.text ++ [c] := by
    rw [← flatMap_text_lexemes t, read, List.flatMap_append]
    rfl
  have code : lexemes (c :: v) = .code c :: lexemes v :=
    lexemes_append_of_leads (Lexeme.leads_code_of_isPlain c (isPlain_of_isNeutral neutral) v)
  rw [text, List.append_assoc, List.singleton_append, sealed.read (c :: v) (by exact neutral), code,
    ← text, read, List.append_assoc]
  rfl

/-- A text that an argument can follow: it ends in code, with a parenthesis or a space. -/
def IsLead (t : Text) : Prop :=
  ((lexemes t).getLast? = some (.code '(') ∨ (lexemes t).getLast? = some (.code ' ')) ∧
    ∀ l ∈ lexemes t, l.isLineComment = false

instance (t : Text) : Decidable (IsLead t) :=
  inferInstanceAs (Decidable (((lexemes t).getLast? = some (.code '(') ∨
    (lexemes t).getLast? = some (.code ' ')) ∧ ∀ l ∈ lexemes t, l.isLineComment = false))

namespace IsLead

variable {t : Text} (lead : IsLead t)

include lead

theorem exists_last : ∃ front c, lexemes t = front ++ [.code c] ∧ (c = '(' ∨ c = ' ') := by
  rcases lead.1 with last | last
  · obtain ⟨front, cut⟩ := List.getLast?_eq_some_iff.mp last
    exact ⟨front, '(', cut, .inl rfl⟩
  · obtain ⟨front, cut⟩ := List.getLast?_eq_some_iff.mp last
    exact ⟨front, ' ', cut, .inr rfl⟩

theorem getLast? : ∃ c, t.getLast? = some c ∧ (c = '(' ∨ c = ' ') := by
  obtain ⟨front, c, read, sign⟩ := lead.exists_last
  have text := flatMap_text_lexemes t
  rw [read, List.flatMap_append] at text
  exact ⟨c, by rw [← text]; exact List.getLast?_concat, sign⟩

theorem any_getLast?_run {front : List Lexeme} {x : Text} (cut : lexemes t = front ++ x.map .code) :
    x.getLast?.any isWordChar = false := by
  rcases List.eq_nil_or_concat x with rfl | ⟨x, d, rfl⟩
  · rfl
  · obtain ⟨others, c, last, sign⟩ := lead.exists_last
    rw [last, List.concat_eq_append, List.map_append, ← List.append_assoc] at cut
    have code : Lexeme.code c = Lexeme.code d := (List.cons.inj (List.append_inj_right' cut rfl)).1
    rw [List.concat_eq_append, List.getLast?_concat, Option.any_some, ← Lexeme.code.inj code]
    rcases sign with rfl | rfl <;> decide

theorem isClosed : IsClosed t := by
  refine ⟨?_, lead.2⟩
  rcases lead.1 with last | last <;> rw [last] <;> decide

theorem lexemes_append (v : Text) : lexemes (t ++ v) = lexemes t ++ lexemes v :=
  lead.isClosed.lexemes_append v

end IsLead

def IsFollow (t : Text) : Prop := t.head? = some ')' ∨ t.head? = some ',' ∨ t.head? = some ' '

instance (t : Text) : Decidable (IsFollow t) :=
  inferInstanceAs (Decidable (t.head? = some ')' ∨ t.head? = some ',' ∨ t.head? = some ' '))

theorem IsFollow.exists_cons {t : Text} (follow : IsFollow t) (rest : Text) :
    ∃ c s, t ++ rest = c :: s ∧ t.head? = some c ∧ (c = ')' ∨ c = ',' ∨ c = ' ') := by
  cases t with
  | nil => rcases follow with head | head | head <;> cases head
  | cons c t =>
      refine ⟨c, t ++ rest, rfl, rfl, ?_⟩
      simpa [IsFollow] using follow

/-! ### Calls -/

section

variable {name : Text} (word : ∀ c ∈ name, isWordChar c = true)
  {m : Type → Type} [Monad m] [LawfulMonad m]
  (action : List Text → m (Option Text))

include word

theorem replaceCallsM_lead {t : Text} (lead : IsLead t) (free : Uncalling name t) (v : Text) :
    replaceCallsM name action (t ++ v) = do return t ++ (← replaceCallsM name action v) := by
  obtain ⟨c, last, sign⟩ := lead.getLast?
  have ended : t.getLast?.any isSign = true := by
    rw [last]
    rcases sign with rfl | rfl <;> decide
  have apart : CallsApart name t v := fun pos inside close =>
    iff_of_false (free.not_isCall_append word ended inside close) (free.not_isCall pos close)
  have front : t.getLast?.any continuesName = false := by
    rw [last]
    rcases sign with rfl | rfl <;> decide
  rw [apart.replaceCallsM_append word action (lead.lexemes_append v) (.inl front),
    replaceCallsM_uncalled word action free.not_isCall, pure_bind]

theorem replaceCallsM_argument {a t : Text} (argument : IsArgument a) (follow : IsFollow t)
    (rest : Text) :
    replaceCallsM name action (a ++ (t ++ rest)) = do
      let first ← replaceCallsM name action a
      let second ← replaceCallsM name action (t ++ rest)
      return first ++ second := by
  obtain ⟨c, s, cut, -, sign⟩ := follow.exists_cons rest
  rw [cut]
  have read : lexemes (a ++ c :: s) = lexemes a ++ lexemes (c :: s) :=
    argument.lexemes_append (by rcases sign with rfl | rfl | rfl <;> rfl)
  have marks : (c :: s).head?.all (fun c => isSign c && c != '(') = true := by
    rw [List.head?_cons, Option.all_some]
    rcases sign with rfl | rfl | rfl <;> decide
  have apart : CallsApart name a (c :: s) := fun pos inside close =>
    isCall_append_iff word read argument.item.balanced marks inside close
  exact apart.replaceCallsM_append word action read (.inr marks)

theorem replaceCallsM_enclosed {inner : Text} (closed : Sealed (lexemes inner))
    (balanced : Balanced (lexemes inner))
    (stays : replaceCallsM name action inner = pure inner) :
    replaceCallsM name action (name ++ '(' :: (inner ++ [')'])) = do
      return (← action (splitArguments inner)).getD (name ++ '(' :: (inner ++ [')'])) := by
  have neutral : ∀ c ∈ name ++ ['('], ScanState.isNeutral c = true := by
    rw [List.forall_mem_append, List.forall_mem_singleton]
    exact ⟨fun c member => ScanState.isNeutral_of_class (by decide) (word c member), by decide⟩
  have read : lexemes (name ++ '(' :: (inner ++ [')'])) = callLexemes name (lexemes inner) := by
    have whole :=
      (Sealed.code_append neutral (closed.append (c := ')') (by decide) .nil)).lexemes_text
    simpa [callLexemes, flatMap_text_lexemes, flatMap_text_map_code, Lexeme.text] using whole
  have cut : CallCut name [] name (lexemes inner) := by
    refine ⟨?_, rfl, balanced⟩
    rw [spelled_iff]
    have same := startsIgnoringCase_append name []
    rw [List.append_nil] at same
    exact ⟨same, rfl⟩
  have call := cut.isCall (read.trans (List.append_nil _).symm)
  rw [flatMap_text_lexemes, List.flatMap_nil, List.length_nil] at call
  have inside : slice (name ++ '(' :: (inner ++ [')'])) (0 + name.length + 1)
      (0 + name.length + 1 + inner.length) = inner := by
    simp [slice]
  have front : slice (name ++ '(' :: (inner ++ [')'])) 0 (0 + name.length) = name := by
    simp [slice]
  have size : (name ++ '(' :: (inner ++ [')'])).length =
      0 + name.length + 1 + inner.length + 1 := by
    simp only [List.length_append, List.length_cons, List.length_nil]
    omega
  rw [replaceCallsM] at stays
  rw [replaceCallsM, ← callsFrom_zero, callsFrom_of_isCall call,
    callsFrom_of_length_le _ (Nat.le_of_eq size), inside, front, Calls.replaceM, stays, pure_bind]
  simp [Calls.replaceM]

end

/-! ### Patterns whose parentheses match -/

theorem Item.append {x y : List Lexeme} (first : Item x) (second : Item y) : Item (x ++ y) where
  balanced := first.balanced.append second.balanced
  undivided := by
    intro u v cut
    rw [List.nil_append]
    rcases List.append_eq_append_iff.mp cut with ⟨z, rfl, rest⟩ | ⟨z, rfl, rest⟩
    · rw [first.balanced.levelAfter_append]
      exact second.undivided z v rest
    · cases z with
      | nil => exact absurd rfl (second.undivided [] v rest.symm)
      | cons l z =>
          obtain ⟨rfl, -⟩ := List.cons.inj rest
          exact first.undivided u z rfl

theorem Item.between {inner : List Lexeme} (balanced : Balanced inner) :
    Item (.code '(' :: (inner ++ [.code ')'])) where
  balanced := balanced.between
  undivided := by
    rintro (_ | ⟨l, u⟩) v cut
    · cases cut
    · obtain ⟨rfl, rest⟩ := List.cons.inj cut
      have opened : levelAfter 0 ([] ++ .code '(' :: u) = levelAfter 1 u := rfl
      rw [opened]
      rcases List.append_eq_append_iff.mp rest with ⟨z, rfl, last⟩ | ⟨z, rfl, last⟩
      · cases z with
        | nil => cases last
        | cons l z => cases z <;> cases last
      · rw [Balanced, levelAfter_append, Option.bind_eq_some_iff] at balanced
        obtain ⟨depth, level, -⟩ := balanced
        rw [levelAfter_add level 1]
        simp

theorem item_map_code {x : Text} (flat : ∀ c ∈ x, c ≠ '(' ∧ c ≠ ')' ∧ c ≠ ',') :
    Item (x.map .code) where
  balanced := balanced_map_code fun c member => ⟨(flat c member).1, (flat c member).2.1⟩
  undivided := undivided_map_code (fun comma => (flat ',' comma).2.2 rfl) []

theorem Balanced.overlap {front z rest : List Lexeme} (outer : Balanced (front ++ z))
    (inner : Balanced (z ++ rest)) : Balanced z := by
  rw [Balanced, LiteSql.levelAfter_append, Option.bind_eq_some_iff] at outer inner
  obtain ⟨depth, -, falls⟩ := outer
  obtain ⟨level, rises, -⟩ := inner
  have deeper := levelAfter_add rises depth
  rw [Nat.zero_add, falls] at deeper
  have sum := Option.some.inj deeper
  rw [Balanced, rises]
  congr 1
  omega

/-- Neither a closing parenthesis nor a comma behind balanced lexemes belongs to a piece that starts
in them. -/
theorem Item.ne_of_overlap {front z rest : List Lexeme} {c : Char} (outer : Balanced (front ++ z))
    (item : Item (z ++ .code c :: rest)) : c ≠ ')' ∧ c ≠ ',' := by
  have level := outer.overlap item.balanced
  constructor
  · rintro rfl
    have closed := item.balanced
    rw [Balanced, level.levelAfter_append] at closed
    cases closed
  · rintro rfl
    exact item.undivided z rest rfl level

namespace Pattern

variable {p q : Pattern}

def omits (c : Char) : Pattern → Bool
  | one p | many p | few p => !p c
  | seq first second | either first second => first.omits c && second.omits c
  | capture _ inner => inner.omits c
  | empty | boundary | atEnd | ahead _ | notAhead _ => true

theorem ne_of_mem_of_spans {c : Char} (none : p.omits c = true) {before : Option Char} {pos : Nat}
    {x after : Text} {caps : List Capture} (taken : p.Spans before pos x after caps) : ∀ d ∈ x,
    d ≠ c := by
  have run {class_ : Char → Bool} (out : (!class_ c) = true) {y : Text}
      (members : ∀ d ∈ y, class_ d = true) :
      ∀ d ∈ y, d ≠ c := by
    rintro d member rfl
    rw [members d member] at out
    cases out
  induction p generalizing before pos x after caps with
  | empty | boundary | atEnd | ahead | notAhead => simp [taken.1]
  | one class_ =>
      obtain ⟨⟨d, inside, rfl⟩, -⟩ := taken
      exact run none (by simpa using inside)
  | many class_ | few class_ => exact run none taken.1
  | seq first second ihFirst ihSecond =>
      rw [omits, Bool.and_eq_true] at none
      obtain ⟨y, z, early, late, rfl, -, front, back⟩ := taken
      exact List.forall_mem_append.mpr ⟨ihFirst none.1 front, ihSecond none.2 back⟩
  | either first second ihFirst ihSecond =>
      rw [omits, Bool.and_eq_true] at none
      exact taken.elim (ihFirst none.1) (ihSecond none.2)
  | capture label inner ih =>
      obtain ⟨early, -, inside⟩ := taken
      exact ih none inside

def Tidy (p : Pattern) : Prop :=
  ∀ ⦃before pos x after caps⦄, p.Spans before pos x after caps → Item (x.map .code)

/-- Whether every text that a pattern takes ends in the partner of a parenthesis before it. -/
def Closes (p : Pattern) : Prop :=
  ∀ ⦃before pos x after caps⦄, p.Spans before pos x after caps →
    ∃ y, x = y ++ [')'] ∧ Balanced (y.map .code)

theorem eq_of_spans_parenthesis {c : Char} (sign : c = '(' ∨ c = ')') {before : Option Char}
    {pos : Nat}
    {x after : Text} {caps : List Capture}
    (taken : (Pattern.keyword [c]).Spans before pos x after caps) :
    x = [c] := by
  obtain ⟨⟨d, same, rfl⟩, -⟩ := taken
  have only : (d == c) = true := by
    rcases sign with rfl | rfl
    · exact forall_sameIgnoringCase (c := '(') (· == '(') (by decide) (by decide) (by decide) same
    · exact forall_sameIgnoringCase (c := ')') (· == ')') (by decide) (by decide) (by decide) same
  rw [eq_of_beq only]

namespace Tidy

theorem of_omits (flat : (p.omits '(' && p.omits ')' && p.omits ',') = true) : Tidy p := by
  intro before pos x after caps taken
  rw [Bool.and_eq_true, Bool.and_eq_true] at flat
  exact item_map_code fun c member => ⟨ne_of_mem_of_spans flat.1.1 taken c member,
    ne_of_mem_of_spans flat.1.2 taken c member, ne_of_mem_of_spans flat.2 taken c member⟩

theorem seq (first : Tidy p) (second : Tidy q) : Tidy (.seq p q) := by
  rintro before pos _ after _ ⟨y, z, early, late, rfl, rfl, front, back⟩
  rw [List.map_append]
  exact (first front).append (second back)

theorem either (first : Tidy p) (second : Tidy q) : Tidy (.either p q) := by
  rintro before pos x after caps (front | back)
  · exact first front
  · exact second back

theorem optional (inner : Tidy p) : Tidy (Pattern.optional p) := inner.either (of_omits rfl)

theorem parenthesis (closes : Closes q) : Tidy (.seq "(" q) := by
  rintro before pos _ after _ ⟨y, z, early, late, rfl, rfl, front, back⟩
  obtain rfl := eq_of_spans_parenthesis (.inl rfl) front
  obtain ⟨w, rfl, balanced⟩ := closes back
  simpa using Item.between balanced

end Tidy

theorem Closes.parenthesis : Closes ")" := by
  intro before pos x after caps taken
  exact ⟨[], eq_of_spans_parenthesis (.inr rfl) taken, rfl⟩

theorem Closes.seq (flat : (p.omits '(' && p.omits ')') = true) (closes : Closes q) :
    Closes (.seq p q) := by
  rintro before pos _ after _ ⟨y, z, early, late, rfl, rfl, front, back⟩
  obtain ⟨w, rfl, balanced⟩ := closes back
  rw [Bool.and_eq_true] at flat
  refine ⟨y ++ w, (List.append_assoc ..).symm, ?_⟩
  rw [List.map_append]
  exact (balanced_map_code fun c member => ⟨ne_of_mem_of_spans flat.1 front c member,
    ne_of_mem_of_spans flat.2 front c member⟩).append balanced

theorem tidy_width : Tidy width :=
  .seq (.of_omits (by decide)) (.parenthesis
    (.seq (by decide) (.seq (by decide) (.seq (by decide) .parenthesis))))

/-! ### Matches at the ends of an argument -/

def stopsBefore (p : Pattern) (t : Text) : Bool :=
  t.head?.all (fun c => p.refuses c) &&
    (t.head? != some ' ' || t.all ScanState.isNeutral && blocked p.rests t)

theorem head?_of_run {v y : Text} {behind : List Lexeme}
    (read : lexemes v = y.map .code ++ behind) :
    y.head? = none ∨ y.head? = v.head? := by
  rw [← flatMap_text_lexemes v, read, List.flatMap_append, flatMap_text_map_code]
  cases y with
  | nil => exact .inl rfl
  | cons c y => exact .inr rfl

theorem exists_append_of_run {x y : Text} {ls behind : List Lexeme}
    (same : y.map .code ++ behind = x.map .code ++ ls)
    (ended : ∀ c rest, behind ≠ .code c :: rest) :
    ∃ z, y = x ++ z := by
  induction x generalizing y with
  | nil => exact ⟨y, rfl⟩
  | cons c x ih =>
      cases y with
      | nil => exact absurd same (ended c _)
      | cons d y =>
          obtain ⟨first, others⟩ := List.cons.inj same
          obtain ⟨z, rfl⟩ := ih others
          exact ⟨z, by rw [Lexeme.code.inj first]; rfl⟩

theorem local_argument (plain : p.looksAhead = false) (tidy : p.Tidy) {a t rest : Text}
    (argument : IsArgument a)
    (follow : IsFollow t) (stops : p.stopsBefore t = true) {front behind : List Lexeme} {x y : Text}
    (cut : lexemes a = front ++ x.map .code) (read : lexemes (t ++ rest) = y.map .code ++ behind)
    (ended : ∀ c rest, behind ≠ .code c :: rest) : p.Local none 0 x y := by
  obtain ⟨c, s, start, first, sign⟩ := follow.exists_cons rest
  have head := head?_of_run read
  rw [start, List.head?_cons] at head
  refine local_of_spans_stop plain ?_ ?_
  · rcases head with head | head
    · rw [head]
      rfl
    · rw [head, Option.any_some]
      rcases sign with rfl | rfl | rfl <;> decide
  · intro w z whole present u after caps there taken
    cases u with
    | nil => rfl
    | cons d u =>
        obtain rfl : d = c := by simpa [there] using head
        have outer : Balanced ((front ++ w.map .code) ++ z.map .code) := by
          rw [List.append_assoc, ← List.map_append, ← whole, ← cut]
          exact argument.item.balanced
        have item := tidy taken
        rw [List.map_append, List.map_cons] at item
        have other := Item.ne_of_overlap outer item
        rcases sign with rfl | rfl | rfl
        · exact absurd rfl other.1
        · exact absurd rfl other.2
        · rw [stopsBefore, first, bne_self_eq_false, Bool.false_or, Bool.and_eq_true,
            Bool.and_eq_true] at stops
          obtain ⟨-, neutral, stuck⟩ := stops
          rw [lexemes_append_of_isPlain t rest fun c member =>
            isPlain_of_isNeutral (List.all_eq_true.mp neutral c member)] at read
          obtain ⟨more, rfl⟩ := exists_append_of_run read.symm ended
          obtain ⟨q, left, late, goes⟩ := exists_rests taken present
          exact eq_nil_of_blocked stuck left there.symm goes

variable {replacement : Match → Text} (placeless : Placeless replacement)

include placeless

theorem replaceCode_lead {t v : Text} (lead : IsLead t)
    (same : ∀ front x y behind, lexemes t = front ++ x.map .code →
      lexemes v = y.map .code ++ behind →
      (∀ c rest, behind ≠ .code c :: rest) → x ∈ codeSegments t → p.Local none 0 x y) :
    p.replaceCode replacement (t ++ v) = p.replaceCode replacement t ++
      p.replaceCode replacement v := by
  refine mapCode_append rfl (lead.lexemes_append v) fun front x y behind cut read ended member _ =>
    replace_append placeless (same front x y behind cut read ended member)
      (.inl (lead.any_getLast?_run cut))

/-- What a pattern replaces in an argument and in a text behind it, if it finds the same in the
argument alone. -/
theorem replaceCode_argument {a t rest : Text} (argument : IsArgument a) (follow : IsFollow t)
    (refused : t.head?.all (fun c => p.refuses c) = true)
    (same : ∀ front x y behind, lexemes a = front ++ x.map .code →
      lexemes (t ++ rest) = y.map .code ++ behind →
      (∀ c rest, behind ≠ .code c :: rest) → x ∈ codeSegments a → p.Local none 0 x y) :
    p.replaceCode replacement (a ++ (t ++ rest)) =
      p.replaceCode replacement a ++ p.replaceCode replacement (t ++ rest) := by
  obtain ⟨c, s, start, first, sign⟩ := follow.exists_cons rest
  have neutral : StartsNeutral (t ++ rest) := by
    rw [start]
    rcases sign with rfl | rfl | rfl <;> rfl
  refine mapCode_append rfl (argument.lexemes_append neutral)
    fun front x y behind cut read ended member _ =>
    replace_append placeless (same front x y behind cut read ended member) (.inr ?_)
  rcases head?_of_run read with head | head
  · rw [head]
    rfl
  · rwa [head, start, List.head?_cons, ← first]

end Pattern

end LiteSql
