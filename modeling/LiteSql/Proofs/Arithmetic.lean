import Mathlib.Algebra.Order.Round
import Mathlib.Data.Rat.Floor
import Mathlib.Tactic.Ring
import LiteSql.Proofs.OperatorForm

/-! Arithmetic over the rationals. A text of numerals, signs, parentheses and casts has a value: a
cast to an integer truncates toward zero, a comparison gives one or zero and binds less tightly than
sums, and sums less tightly than products. The grammar says what a text is read as, and a machine
that goes over the text once computes its value. -/

namespace LiteSql.Arithmetic

inductive Sign
  | plus
  | minus
  | times
  | less
  | greater
  deriving DecidableEq, Repr

namespace Sign

def level : Sign → Nat
  | less | greater => 0
  | plus | minus => 1
  | times => 2

def apply : Sign → ℚ → ℚ → ℚ
  | plus, a, b => a + b
  | minus, a, b => a - b
  | times, a, b => a * b
  | less, a, b => if a < b then 1 else 0
  | greater, a, b => if b < a then 1 else 0

end Sign

def truncate (v : ℚ) : ℤ := if 0 ≤ v then ⌊v⌋ else ⌈v⌉

/-! ### The tokens of a text -/

inductive Token
  | number (value : ℚ)
  | sign (o : Sign)
  | opening
  | closing
  | castWord
  | asWord
  | integerWord
  deriving DecidableEq

def numeral? (w : Text) : Option ℚ :=
  let whole := w.takeWhile Char.isDigit
  let rest := w.dropWhile Char.isDigit
  let fraction := rest.drop 1
  if rest.head?.all (· == '.') ∧ fraction.all Char.isDigit ∧ whole ++ fraction ≠ [] then
    some (Nat.ofDigitChars 10 (whole ++ fraction) 0 / 10 ^ fraction.length)
  else none

namespace Token

def ofWord? (w : Text) : Option Token :=
  if w = "CAST" then some castWord
  else if w = "AS" then some asWord
  else if w = "INTEGER" then some integerWord
  else (numeral? w).map number

/-- The token of a word whose characters have been read, last character first. -/
def ofLetters? (word : Text) : Option (List Token) :=
  if word = [] then some [] else (ofWord? word.reverse).map ([·])

def ofChar? (c : Char) : Option (List Token) :=
  if isBlank c then some []
  else
    match c with
    | '(' => some [opening]
    | ')' => some [closing]
    | '+' => some [sign .plus]
    | '-' => some [sign .minus]
    | '*' => some [sign .times]
    | '<' => some [sign .less]
    | '>' => some [sign .greater]
    | _ => none

end Token

/-- The tokens of a text behind the characters of a word that has been read so far, last character
first. Two dashes would open a comment. -/
def tokensFrom : (word : Text) → Text → Option (List Token)
  | word, [] => Token.ofLetters? word
  | word, c :: s =>
    if isOperandChar c then tokensFrom (c :: word) s
    else if c = '-' ∧ s.head? = some '-' then none
    else do return (← Token.ofLetters? word) ++ ((← Token.ofChar? c) ++ (← tokensFrom [] s))

def tokens (s : Text) : Option (List Token) := tokensFrom [] s

/-! ### The grammar -/

/-- What tokens are read as whose signs outside parentheses bind at least as tightly as a level. -/
inductive Reads : (level : Nat) → List Token → ℚ → Prop
  | number (v : ℚ) : Reads 3 [.number v] v
  | positive {ts : List Token} {v : ℚ} (operand : Reads 3 ts v) : Reads 3 (.sign .plus :: ts) v
  | negative {ts : List Token} {v : ℚ} (operand : Reads 3 ts v) : Reads 3 (.sign .minus :: ts) (-v)
  | parenthesized {ts : List Token} {v : ℚ} (inner : Reads 0 ts v) :
      Reads 3 (.opening :: (ts ++ [.closing])) v
  | cast {ts : List Token} {v : ℚ} (inner : Reads 0 ts v) :
      Reads 3 (.castWord :: .opening :: (ts ++ [.asWord, .integerWord, .closing])) (truncate v)
  | binary {ls rs : List Token} {a b : ℚ} (o : Sign) (left : Reads o.level ls a)
      (right : Reads (o.level + 1) rs b) :
      Reads o.level (ls ++ .sign o :: rs) (o.apply a b)
  | looser {level : Nat} {ts : List Token} {v : ℚ} (tight : Reads (level + 1) ts v) :
      Reads level ts v

/-! ### The machine -/

/-- What waits for the next operand: the left side of a comparison, the terms before, and the
factors before with the sign of the term. -/
structure Pending where
  left : Option (Sign × ℚ)
  sum : ℚ
  factor : ℚ

namespace Pending

def start : Pending := ⟨none, 0, 1⟩

def sumWith (p : Pending) (q : ℚ) : ℚ := p.sum + p.factor * q

def total (p : Pending) (q : ℚ) : ℚ :=
  match p.left with
  | none => p.sumWith q
  | some (o, a) => o.apply a (p.sumWith q)

def put (p : Pending) (q : ℚ) : Sign → Pending
  | .times => { p with factor := p.factor * q }
  | .plus => { p with sum := p.sumWith q, factor := 1 }
  | .minus => { p with sum := p.sumWith q, factor := -1 }
  | o => ⟨some (o, p.total q), 0, 1⟩

end Pending

/-- What has been read last: nothing that ends an operand, the name of a cast, an operand, or the
type of a cast. -/
inductive Stage
  | operand
  | cast
  | value (q : ℚ)
  | named (q : ℚ)
  | typed (q : ℚ)

/-- The open parentheses, inner ones first: whether they are those of a cast, and what waits in
front of them. -/
structure Machine where
  stage : Stage
  pending : Pending
  outer : List (Bool × Pending)

namespace Machine

def step : Machine → Token → Option Machine
  | ⟨.operand, p, outer⟩, .number q => some ⟨.value q, p, outer⟩
  | ⟨.operand, p, outer⟩, .sign .plus => some ⟨.operand, p, outer⟩
  | ⟨.operand, p, outer⟩, .sign .minus => some ⟨.operand, { p with factor := -p.factor }, outer⟩
  | ⟨.operand, p, outer⟩, .opening => some ⟨.operand, .start, (false, p) :: outer⟩
  | ⟨.operand, p, outer⟩, .castWord => some ⟨.cast, p, outer⟩
  | ⟨.cast, p, outer⟩, .opening => some ⟨.operand, .start, (true, p) :: outer⟩
  | ⟨.value q, p, outer⟩, .sign o => some ⟨.operand, p.put q o, outer⟩
  | ⟨.value q, p, (false, before) :: outer⟩, .closing => some ⟨.value (p.total q), before, outer⟩
  | ⟨.value q, p, (true, before) :: outer⟩, .asWord => some ⟨.named (p.total q), before, outer⟩
  | ⟨.named q, p, outer⟩, .integerWord => some ⟨.typed q, p, outer⟩
  | ⟨.typed q, p, outer⟩, .closing => some ⟨.value (truncate q), p, outer⟩
  | _, _ => none

def run (m : Machine) (ts : List Token) : Option Machine := ts.foldlM step m

theorem run_cons (m : Machine) (t : Token) (ts : List Token) :
    m.run (t :: ts) = (m.step t).bind (·.run ts) :=
  List.foldlM_cons

theorem run_append (m : Machine) (ss ts : List Token) :
    m.run (ss ++ ts) = (m.run ss).bind (·.run ts) :=
  List.foldlM_append

/-- Tokens that are read as a product: the factors and the sign in front of them are taken in. -/
def Product (ts : List Token) (v : ℚ) : Prop :=
  ∀ p outer, ∃ c q, run ⟨.operand, p, outer⟩ ts = some ⟨.value q, { p with factor := c }, outer⟩ ∧
    c * q = p.factor * v

def Sum (ts : List Token) (v : ℚ) : Prop :=
  ∀ p outer, p.factor = 1 → ∃ s c q,
    run ⟨.operand, p, outer⟩ ts = some ⟨.value q, { p with sum := s, factor := c }, outer⟩ ∧
      s + c * q = p.sum + v

/-- Tokens that are read as a whole, where nothing stands in front of them. -/
def Whole (ts : List Token) (v : ℚ) : Prop :=
  ∀ outer, ∃ p q, run ⟨.operand, .start, outer⟩ ts = some ⟨.value q, p, outer⟩ ∧ p.total q = v

variable {ls rs ts : List Token} {a b v : ℚ}

theorem Product.sum (product : Product ts v) : Sum ts v := by
  intro p outer one
  obtain ⟨c, q, reads, same⟩ := product p outer
  exact ⟨p.sum, c, q, reads, by rw [same, one, one_mul]⟩

theorem Sum.whole (sum : Sum ts v) : Whole ts v := by
  intro outer
  obtain ⟨s, c, q, reads, same⟩ := sum .start outer rfl
  exact ⟨_, q, reads, same.trans (zero_add v)⟩

theorem Product.negative (product : Product ts v) : Product (.sign .minus :: ts) (-v) := by
  intro p outer
  obtain ⟨c, q, reads, same⟩ := product { p with factor := -p.factor } outer
  exact ⟨c, q, reads, same.trans (neg_mul_comm p.factor v)⟩

theorem Whole.parenthesized (whole : Whole ts v) : Product (.opening :: (ts ++ [.closing])) v := by
  intro p outer
  obtain ⟨inner, q, reads, same⟩ := whole ((false, p) :: outer)
  refine ⟨p.factor, v, ?_, rfl⟩
  rw [run_cons, step, Option.bind_some, run_append, reads, ← same]
  rfl

theorem Whole.cast (whole : Whole ts v) :
    Product (.castWord :: .opening :: (ts ++ [.asWord, .integerWord, .closing])) (truncate v) := by
  intro p outer
  obtain ⟨inner, q, reads, same⟩ := whole ((true, p) :: outer)
  refine ⟨p.factor, truncate v, ?_, rfl⟩
  rw [run_cons, step, Option.bind_some, run_cons, step, Option.bind_some, run_append, reads, ← same]
  rfl

theorem Product.times (left : Product ls a) (right : Product rs b) :
    Product (ls ++ .sign .times :: rs) (a * b) := by
  intro p outer
  obtain ⟨c, q, first, same⟩ := left p outer
  obtain ⟨d, r, second, equal⟩ := right { p with factor := c * q } outer
  refine ⟨d, r, ?_, ?_⟩
  · rw [run_append, first, Option.bind_some, run_cons, step, Option.bind_some]
    exact second
  · rw [equal, same, mul_assoc]

theorem Sum.term (left : Sum ls a) (right : Product rs b) {o : Sign} (linear : o.level = 1) :
    Sum (ls ++ .sign o :: rs) (o.apply a b) := by
  intro p outer one
  obtain ⟨s, c, q, first, same⟩ := left p outer one
  -- the sign of the new term is the factor in front of it
  obtain ⟨unit, put, signed⟩ : ∃ unit : ℚ,
      Pending.put { p with sum := s, factor := c } q o =
        { p with sum := s + c * q, factor := unit } ∧
        o.apply a b = a + unit * b := by
    cases o with
    | plus => exact ⟨1, rfl, by rw [one_mul]; rfl⟩
    | minus => exact ⟨-1, rfl, by rw [neg_one_mul, ← sub_eq_add_neg]; rfl⟩
    | times | less | greater => cases linear
  obtain ⟨d, r, second, equal⟩ := right { p with sum := s + c * q, factor := unit } outer
  refine ⟨s + c * q, d, r, ?_, ?_⟩
  · rw [run_append, first, Option.bind_some, run_cons, step, Option.bind_some, put]
    exact second
  · rw [equal, same, signed, add_assoc]

theorem Whole.compare (left : Whole ls a) (right : Sum rs b) {o : Sign} (loose : o.level = 0) :
    Whole (ls ++ .sign o :: rs) (o.apply a b) := by
  intro outer
  obtain ⟨p, q, first, same⟩ := left outer
  have put : p.put q o = ⟨some (o, a), 0, 1⟩ := by
    cases o with
    | plus | minus | times => cases loose
    | less | greater => rw [← same]; rfl
  obtain ⟨s, c, r, second, equal⟩ := right ⟨some (o, a), 0, 1⟩ outer rfl
  refine ⟨⟨some (o, a), s, c⟩, r, ?_, congrArg (o.apply a) (equal.trans (zero_add b))⟩
  rw [run_append, first, Option.bind_some, run_cons, step, Option.bind_some, put]
  exact second

def Computes : (level : Nat) → List Token → ℚ → Prop
  | 0 => Whole
  | 1 => Sum
  | _ + 2 => Product

theorem Computes.looser {level : Nat} (computes : Computes (level + 1) ts v) :
    Computes level ts v := by
  match level with
  | 0 => exact Sum.whole computes
  | 1 => exact Product.sum computes
  | _ + 2 => exact computes

theorem computes_of_reads {level : Nat} (reads : Reads level ts v) : Computes level ts v := by
  induction reads with
  | number v => exact fun p outer => ⟨p.factor, v, rfl, rfl⟩
  | positive _ ih => exact ih
  | negative _ ih => exact Product.negative ih
  | parenthesized _ ih => exact Whole.parenthesized ih
  | cast _ ih => exact Whole.cast ih
  | binary o _ _ left right =>
      cases o with
      | plus => exact Sum.term left right rfl
      | minus => exact Sum.term left right rfl
      | times => exact Product.times left right
      | less => exact Whole.compare left right rfl
      | greater => exact Whole.compare left right rfl
  | looser _ ih => exact ih.looser

end Machine

theorem Reads.of_le {level least : Nat} {ts : List Token} {v : ℚ} (reads : Reads least ts v)
    (below : level ≤ least) :
    Reads level ts v := by
  induction below with
  | refl => exact reads
  | step _ ih => exact ih reads.looser

def evaluate (s : Text) : Option ℚ := do
  match ← (Machine.mk .operand .start []).run (← tokens s) with
  | ⟨.value q, p, []⟩ => return p.total q
  | _ => none

/-- The machine computes the value that a text is read as. -/
theorem evaluate_eq {s : Text} {ts : List Token} {v : ℚ} (split : tokens s = some ts)
    (reads : Reads 0 ts v) :
    evaluate s = some v := by
  obtain ⟨p, q, computed, total⟩ := Machine.computes_of_reads reads []
  rw [evaluate, split, Option.bind_eq_bind, Option.bind_some, computed, ← total]
  rfl

end LiteSql.Arithmetic
