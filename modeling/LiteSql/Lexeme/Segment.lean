import LiteSql.Lexeme.Basic

/-! Segments of a text: runs of code between literals. A change of code goes through the segments
one by one and never sees past a literal. -/

namespace LiteSql

inductive Segment
  | code (text : Text)
  | literal (text : Text)
  deriving DecidableEq, Repr

namespace Segment

def text : Segment → Text
  | code text => text
  | literal text => text

/-- Puts a lexeme in front of segments; a code character joins a code segment that follows it. -/
def cons : Lexeme → List Segment → List Segment
  | .literal _ text, rest => .literal text :: rest
  | .code c, .code text :: rest => .code (c :: text) :: rest
  | .code c, rest => .code [c] :: rest

def mapCode (change : Text → Text) : Segment → Text
  | code text => change text
  | literal text => text

end Segment

def segments (s : Text) : List Segment := (lexemes s).foldr Segment.cons []

def mapCode (change : Text → Text) (s : Text) : Text :=
  (segments s).flatMap (Segment.mapCode change)

def codeSegments (s : Text) : List Text :=
  (segments s).filterMap fun
    | .code text => some text
    | .literal _ => none

theorem Segment.flatMap_text_cons (l : Lexeme) (rest : List Segment) :
    (Segment.cons l rest).flatMap Segment.text = l.text ++ rest.flatMap Segment.text := by
  cases l with
  | literal kind text => rfl
  | code c =>
      match rest with
      | [] => rfl
      | .code text :: rest => rfl
      | .literal text :: rest => rfl

theorem flatMap_text_segments (s : Text) : (segments s).flatMap Segment.text = s := by
  have all (ls : List Lexeme) :
      (ls.foldr Segment.cons []).flatMap Segment.text = ls.flatMap Lexeme.text := by
    induction ls with
    | nil => rfl
    | cons l ls ih => simp [Segment.flatMap_text_cons, ih]
  rw [segments, all, flatMap_text_lexemes]

end LiteSql
