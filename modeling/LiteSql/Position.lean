import LiteSql.Fault
import LiteSql.Text.Word
import LiteSql.Lexeme.Depth

/-! Questions about a position in a text. A negative position counts from the end: the last
character is at `-1`. -/

namespace LiteSql

def from? (s : Text) (pos : Int) : Option Text :=
  let start := if pos < 0 then pos + s.length else pos
  if 0 ≤ start ∧ start < s.length then some (s.drop start.toNat) else none

/-- Whether a literal that opens at the start of `tail`, the end of a text, is read on from the
text's first character: a string always, a quoted name and a block comment when their opening is
the last thing in the text. -/
def readsAround (kind : LiteralKind) (tail : Text) : Bool :=
  match kind with
  | .string => true
  | .doubleQuoted | .backQuoted => tail.length == 1
  | .blockComment => tail.length == 2
  | .lineComment => false

/-- The position after the literal of a kind that opens at `pos`, where `tail` is the text from
there on. From a negative position, a literal that is read around the end keeps counting from
`pos`, and any other ends at its position from the start. -/
def stopOfLiteral (s : Text) (pos : Int) (tail : Text) (kind : LiteralKind) : Int :=
  if 0 ≤ pos then pos + kind.length tail
  else if readsAround kind tail then pos + kind.length (tail ++ s)
  else pos + s.length + kind.length tail

/-- The position after the literal that opens at `pos`, or `pos` if none does. -/
def literalStop (s : Text) (pos : Int) : Except Fault Int :=
  match from? s pos with
  | none => .error .outsideText
  | some tail =>
    match LiteralKind.opening? tail with
    | none => .ok pos
    | some kind => .ok (stopOfLiteral s pos tail kind)

theorem lt_stopOfLiteral (s : Text) (pos : Int) (tail : Text) (kind : LiteralKind)
    (inside : from? s pos = some tail) : pos < stopOfLiteral s pos tail kind := by
  have length := kind.length_pos tail
  have around := kind.length_pos (tail ++ s)
  simp only [from?, Option.ite_none_right_eq_some] at inside
  unfold stopOfLiteral
  split
  · omega
  · split <;> omega

/-- The first position from `pos` on whose parenthesis closes `depth + 1` open ones. A scan that
starts at a negative position passes the end of the text and goes on at its start. -/
def closingFrom (s : Text) (depth : Nat) (pos : Int) : Option Int :=
  match _inside : from? s pos with
  | none => none
  | some tail =>
    match LiteralKind.opening? tail with
    | some kind => closingFrom s depth (stopOfLiteral s pos tail kind)
    | none =>
      match tail.head? with
      | some ')' =>
        match depth with
        | 0 => some pos
        | depth + 1 => closingFrom s depth (pos + 1)
      | some '(' => closingFrom s (depth + 1) (pos + 1)
      | _ => closingFrom s depth (pos + 1)
termination_by (s.length - pos).toNat
decreasing_by
  all_goals
    have inside : from? s pos = some tail := by assumption
    have bound := inside
    simp only [from?, Option.ite_none_right_eq_some] at bound
  · have advance := lt_stopOfLiteral s pos tail kind inside
    omega
  all_goals omega

/-- The position of the parenthesis that closes the one at `pos`. -/
def matchingParen (s : Text) (pos : Int) : Except Fault Int :=
  match (from? s pos).bind List.head? with
  | none => .error .outsideText
  | some c =>
    if c ≠ '(' then .error (.notAnOpening pos c)
    else
      let found := match pos with
        | .ofNat n => (matching? s n).map Int.ofNat
        | .negSucc _ => closingFrom s 0 (pos + 1)
      match found with
      | some stop => .ok stop
      | none => .error (.unclosed pos)

/-- The parenthesis depth before a position; before a negative one it is zero. -/
def depthBefore (s : Text) (pos : Int) : Except Fault Int :=
  if pos ≤ s.length then .ok (depthAt s pos.toNat) else .error .outsideText

/-- Whether the character at a position would make a name after it part of a longer one. There is
no character at a negative position. -/
def continuesNameAt (s : Text) (pos : Int) : Except Fault Bool :=
  if pos < 0 then .ok false
  else match s[pos.toNat]? with
    | some c => .ok (continuesName c)
    | none => .error .outsideText

end LiteSql
