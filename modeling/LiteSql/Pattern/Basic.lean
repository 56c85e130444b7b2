import LiteSql.Text.Basic
import LiteSql.Text.Case
import LiteSql.Text.Digit
import LiteSql.Text.Word

/-! Patterns over texts. A pattern read from a place in a text can end at several places; `ends`
lists them with the preferred one first. A search does not need the whole list: `first?` tries the
ends one by one, and its answer is the first on the list. Letters are compared without regard to
case. -/

namespace LiteSql

inductive Pattern
  | empty
  | one (p : Char → Bool)
  /-- As many characters of a class as possible, fewer if the rest of the pattern needs them. -/
  | many (p : Char → Bool)
  /-- As few characters of a class as possible, more if the rest of the pattern needs them. -/
  | few (p : Char → Bool)
  | seq (first second : Pattern)
  /-- Either pattern, the first preferred. -/
  | either (first second : Pattern)
  /-- Remembers what the pattern took under a label. -/
  | capture (label : String) (inner : Pattern)
  /-- A place with a word character on exactly one side. -/
  | boundary
  /-- The end of the text, or the place before a line feed that ends it. -/
  | atEnd
  | ahead (inner : Pattern)
  | notAhead (inner : Pattern)

structure Capture where
  label : String
  start : Nat
  stop : Nat
  deriving DecidableEq, Repr

/-- A place in a text: its position, the character before it, the text after it, and what has been
captured on the way. -/
structure Reading where
  pos : Nat
  before : Option Char
  rest : Text
  captures : List Capture
  deriving DecidableEq, Repr

namespace Reading

def start (s : Text) : Reading := ⟨0, none, s, []⟩

def atBoundary (r : Reading) : Bool := r.before.any isWordChar != r.rest.head?.any isWordChar

def atEnd (r : Reading) : Bool := r.rest.isEmpty || r.rest == ['\n']

/-- The places reached by taking characters of a class one by one, from none on. -/
def runs (p : Char → Bool) (captures : List Capture) :
    (pos : Nat) → (before : Option Char) → (rest : Text) → List Reading
  | pos, before, [] => [⟨pos, before, [], captures⟩]
  | pos, before, c :: rest =>
    ⟨pos, before, c :: rest, captures⟩ ::
      if p c then runs p captures (pos + 1) (some c) rest else []

/-- The first answer of `next` at the places that `runs` lists, the nearest place first. -/
def firstOfFew (p : Char → Bool) (captures : List Capture) (next : Reading → Option Reading) :
    (pos : Nat) → (before : Option Char) → (rest : Text) → Option Reading
  | pos, before, [] => next ⟨pos, before, [], captures⟩
  | pos, before, c :: rest =>
    (next ⟨pos, before, c :: rest, captures⟩).orElse fun _ =>
      if p c then firstOfFew p captures next (pos + 1) (some c) rest else none

/-- The first answer of `next` at the places that `runs` lists, the farthest place first. -/
def firstOfMany (p : Char → Bool) (captures : List Capture) (next : Reading → Option Reading) :
    (pos : Nat) → (before : Option Char) → (rest : Text) → Option Reading
  | pos, before, [] => next ⟨pos, before, [], captures⟩
  | pos, before, c :: rest =>
    if p c then
      (firstOfMany p captures next (pos + 1) (some c) rest).orElse fun _ =>
        next ⟨pos, before, c :: rest, captures⟩
    else next ⟨pos, before, c :: rest, captures⟩

theorem firstOfFew_eq (p : Char → Bool) (captures : List Capture)
    (next : Reading → Option Reading) (pos : Nat) (before : Option Char) (rest : Text) :
    firstOfFew p captures next pos before rest =
      (runs p captures pos before rest).findSome? next := by
  induction rest generalizing pos before with
  | nil => simp [firstOfFew, runs]
  | cons c rest ih =>
      rw [firstOfFew, runs, List.findSome?_cons]
      cases next ⟨pos, before, c :: rest, captures⟩ with
      | some found => rfl
      | none => cases member : p c <;> simp [ih]

theorem firstOfMany_eq (p : Char → Bool) (captures : List Capture)
    (next : Reading → Option Reading) (pos : Nat) (before : Option Char) (rest : Text) :
    firstOfMany p captures next pos before rest =
      (runs p captures pos before rest).reverse.findSome? next := by
  induction rest generalizing pos before with
  | nil => simp [firstOfMany, runs]
  | cons c rest ih =>
      rw [firstOfMany, runs]
      cases member : p c with
      | false => simp
      | true => simp [ih]

end Reading

namespace Pattern

/-- Where a pattern read from a place can end, the preferred end first. -/
def ends : Pattern → Reading → List Reading
  | empty, r => [r]
  | one p, r =>
    match r.rest with
    | [] => []
    | c :: rest => if p c then [⟨r.pos + 1, some c, rest, r.captures⟩] else []
  | many p, r => (Reading.runs p r.captures r.pos r.before r.rest).reverse
  | few p, r => Reading.runs p r.captures r.pos r.before r.rest
  | seq first second, r => (first.ends r).flatMap second.ends
  | either first second, r => first.ends r ++ second.ends r
  | capture label inner, r =>
    (inner.ends r).map fun stop =>
      { stop with captures := ⟨label, r.pos, stop.pos⟩ :: stop.captures }
  | boundary, r => if r.atBoundary then [r] else []
  | atEnd, r => if r.atEnd then [r] else []
  | ahead inner, r => if (inner.ends r).isEmpty then [] else [r]
  | notAhead inner, r => if (inner.ends r).isEmpty then [r] else []

/-- The first answer of `next` at the ends of a pattern, in the order of preference. -/
def first? : Pattern → (next : Reading → Option Reading) → Reading → Option Reading
  | empty, next, r => next r
  | one p, next, r =>
    match r.rest with
    | [] => none
    | c :: rest => if p c then next ⟨r.pos + 1, some c, rest, r.captures⟩ else none
  | many p, next, r => Reading.firstOfMany p r.captures next r.pos r.before r.rest
  | few p, next, r => Reading.firstOfFew p r.captures next r.pos r.before r.rest
  | seq first second, next, r => first.first? (second.first? next) r
  | either first second, next, r => (first.first? next r).orElse fun _ => second.first? next r
  | capture label inner, next, r =>
    inner.first? (fun stop =>
      next { stop with captures := ⟨label, r.pos, stop.pos⟩ :: stop.captures }) r
  | boundary, next, r => if r.atBoundary then next r else none
  | atEnd, next, r => if r.atEnd then next r else none
  | ahead inner, next, r => if (inner.first? some r).isSome then next r else none
  | notAhead inner, next, r => if (inner.first? some r).isSome then none else next r

theorem findSome?_flatMap (next : Reading → Option Reading) (after : Reading → List Reading)
    (places : List Reading) :
    (places.flatMap after).findSome? next = places.findSome? fun r => (after r).findSome? next := by
  induction places with
  | nil => rfl
  | cons r places ih =>
      rw [List.flatMap_cons, List.findSome?_append, List.findSome?_cons, ih]
      cases (after r).findSome? next <;> rfl

/-- The search finds what comes first on the list of ends. -/
theorem first?_eq_findSome? (p : Pattern) (next : Reading → Option Reading) (r : Reading) :
    p.first? next r = (p.ends r).findSome? next := by
  induction p generalizing next r with
  | empty => simp [first?, ends]
  | one p =>
      rw [first?, ends]
      split
      · rfl
      · next c rest _ => cases member : p c <;> simp
  | many p => rw [first?, ends, Reading.firstOfMany_eq]
  | few p => rw [first?, ends, Reading.firstOfFew_eq]
  | seq first second ihFirst ihSecond =>
      have same : second.first? next = fun r => (second.ends r).findSome? next :=
        funext (ihSecond next)
      rw [first?, ends, ihFirst, findSome?_flatMap, same]
  | either first second ihFirst ihSecond =>
      rw [first?, ends, ihFirst, ihSecond, List.findSome?_append, Option.or_eq_orElse]
  | capture label inner ih =>
      rw [first?, ends, ih, List.findSome?_map]
      rfl
  | boundary => rw [first?, ends]; split <;> simp
  | atEnd => rw [first?, ends]; split <;> simp
  | ahead inner ih =>
      rw [first?, ends, ih]
      cases inner.ends r <;> simp
  | notAhead inner ih =>
      rw [first?, ends, ih]
      cases inner.ends r <;> simp

theorem first?_some (p : Pattern) (r : Reading) : p.first? some r = (p.ends r).head? := by
  rw [first?_eq_findSome?]
  cases p.ends r <;> simp

def keyword : Text → Pattern
  | [] => empty
  | [c] => one (sameIgnoringCase c)
  | c :: s => seq (one (sameIgnoringCase c)) (keyword s)

instance : Coe String Pattern := ⟨fun s => keyword s⟩

def all : List Pattern → Pattern
  | [] => empty
  | [p] => p
  | p :: rest => seq p (all rest)

def anyOf : List Pattern → Pattern
  | [] => notAhead empty
  | [p] => p
  | p :: rest => either p (anyOf rest)

def optional (p : Pattern) : Pattern := either p empty

def someOf (p : Char → Bool) : Pattern := seq (one p) (many p)

def blanks : Pattern := many isBlank

def gap : Pattern := someOf isBlank

def word : Pattern := someOf isWordChar

def digits : Pattern := someOf isDigit

def width : Pattern := all [blanks, "(", blanks, digits, blanks, ")"]

end Pattern

end LiteSql
