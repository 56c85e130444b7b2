import LiteSql.Lexeme.Depth
import LiteSql.Lexeme.Segment
import LiteSql.Lexeme.Span
import LiteSql.Pattern.Basic

/-! Matches of a pattern in a text, from the left and without overlap; their replacement in code,
and the first one outside parentheses. -/

namespace LiteSql

structure Match where
  start : Nat
  text : Text
  captures : List (String × Text)
  deriving DecidableEq, Repr

namespace Match

def stop (m : Match) : Nat := m.start + m.text.length

/-- What was captured under a label, if the labelled part took part in the match. -/
def captured? (m : Match) (label : String) : Option Text := m.captures.lookup label

def between (first last : Reading) : Match where
  start := first.pos
  text := first.rest.take (last.pos - first.pos)
  captures := last.captures.map fun c =>
    (c.label, (first.rest.drop (c.start - first.pos)).take (c.stop - c.start))

end Match

inductive Piece
  | plain (c : Char)
  | hit (m : Match)
  deriving DecidableEq, Repr

namespace Piece

def text : Piece → Text
  | plain c => [c]
  | hit m => m.text

def hit? : Piece → Option Match
  | plain _ => none
  | hit m => some m

end Piece

namespace Pattern

def matchAt? (p : Pattern) (r : Reading) : Option Match :=
  (p.first? some r).map (Match.between r)

def matchStart? (p : Pattern) (s : Text) : Option Match := p.matchAt? (.start s)

/-- The pieces of a text whose first `covered` characters belong to a match already listed. A match
of no characters is none. -/
def piecesAfter (p : Pattern) :
    (covered pos : Nat) → (before : Option Char) → Text → List Piece
  | _, _, _, [] => []
  | covered + 1, pos, _, c :: s => piecesAfter p covered (pos + 1) (some c) s
  | 0, pos, before, c :: s =>
    match (p.matchAt? ⟨pos, before, c :: s, []⟩).filter (!·.text.isEmpty) with
    | none => .plain c :: piecesAfter p 0 (pos + 1) (some c) s
    | some m => .hit m :: piecesAfter p (m.text.length - 1) (pos + 1) (some c) s

def pieces (p : Pattern) (s : Text) : List Piece := piecesAfter p 0 0 none s

/-- The matches of a pattern in a text, from the left and without overlap. -/
def hits (p : Pattern) (s : Text) : List Match := (p.pieces s).filterMap Piece.hit?

def replace (p : Pattern) (replacement : Match → Text) (s : Text) : Text :=
  (p.pieces s).flatMap fun
    | .plain c => [c]
    | .hit m => replacement m

def replaceCode (p : Pattern) (replacement : Match → Text) (s : Text) : Text :=
  mapCode (p.replace replacement) s

/-- The matches in the code segments of a text, in order. Each has its position in its segment. -/
def codeHits (p : Pattern) (s : Text) : List Match := (codeSegments s).flatMap p.hits

/-- The first match of a pattern that starts outside literals and outside parentheses. The text is
read as a whole, so that a match that starts in a literal hides what it covers. -/
def topLevel? (p : Pattern) (s : Text) : Option Match :=
  let spans := literalSpans s
  (p.hits s).find? fun m => !inSpans spans m.start && depthAt s m.start == 0

def startsInCode (p : Pattern) (s : Text) : Bool :=
  let spans := literalSpans s
  (p.hits s).any fun m => !inSpans spans m.start

theorem text_matchAt? (p : Pattern) (r : Reading) (m : Match) (found : p.matchAt? r = some m) :
    ∃ n, m.text = r.rest.take n := by
  obtain ⟨last, _, rfl⟩ := Option.map_eq_some_iff.mp found
  exact ⟨last.pos - r.pos, rfl⟩

theorem flatMap_text_piecesAfter (p : Pattern) (covered pos : Nat) (before : Option Char)
    (s : Text) : (p.piecesAfter covered pos before s).flatMap Piece.text = s.drop covered := by
  induction s generalizing covered pos before with
  | nil => cases covered <;> simp [piecesAfter]
  | cons c s ih =>
      cases covered with
      | succ covered => simp [piecesAfter, ih]
      | zero =>
          rw [piecesAfter]
          split
          · simp [Piece.text, ih]
          · next m found =>
              obtain ⟨found, filled⟩ := Option.filter_eq_some_iff.mp found
              obtain ⟨n, text⟩ := text_matchAt? p _ m found
              cases n with
              | zero => simp [text] at filled
              | succ n =>
                  have kept : s.take n = s.take (min n s.length) := by simp
                  simp only [List.flatMap_cons, Piece.text, ih, text, List.take_succ_cons,
                    List.length_cons, List.length_take, Nat.add_sub_cancel, List.cons_append,
                    List.drop_zero]
                  rw [kept, List.take_append_drop]

theorem flatMap_text_pieces (p : Pattern) (s : Text) : (p.pieces s).flatMap Piece.text = s :=
  flatMap_text_piecesAfter p 0 0 none s

end Pattern

end LiteSql
