import LiteSql.Lexeme.Basic

/-! Spans of literals and the look-up of a position in them. -/

namespace LiteSql

/-- The positions from `start` up to and without `stop`. -/
structure Span where
  start : Nat
  stop : Nat
  deriving DecidableEq, Repr

def Span.covers (span : Span) (pos : Int) : Bool :=
  decide ((span.start : Int) ≤ pos) && decide (pos < (span.stop : Int))

def spansFrom (start : Nat) : List Lexeme → List Span
  | [] => []
  | .code _ :: rest => spansFrom (start + 1) rest
  | .literal _ text :: rest =>
    ⟨start, start + text.length⟩ :: spansFrom (start + text.length) rest

def literalSpans (s : Text) : List Span := spansFrom 0 (lexemes s)

/-- The last span that starts at or before a position. -/
def lastStarting? (spans : List Span) (pos : Int) : Option Span :=
  (spans.filter fun span => decide ((span.start : Int) ≤ pos)).getLast?

/-- Whether a position, which may be any integer, lies in one of the ordered spans. Only the last
span that starts at or before it can hold it. -/
def inSpans (spans : List Span) (pos : Int) : Bool :=
  ((lastStarting? spans pos).map (·.covers pos)).getD false

end LiteSql
