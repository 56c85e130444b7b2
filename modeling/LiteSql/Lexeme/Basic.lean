import LiteSql.Text.Basic

/-! The lexemes of a SQL text: single characters of code, and literals, which are strings, quoted
names and comments. Nothing looks inside a literal. The lexemes of a text put together give the
text back, and every character of the text knows whether it stands in a literal. -/

namespace LiteSql

inductive LiteralKind
  | string
  | doubleQuoted
  | backQuoted
  | lineComment
  | blockComment
  deriving DecidableEq, Repr

/-- Length of a string after its opening quote, with the closing quote if there is one. A backslash
takes the next character with it, and a doubled quote does not close the string. -/
def stringLength : Text → Nat
  | [] => 0
  | [_] => 1
  | c :: d :: s =>
    if c = '\x5c' then stringLength s + 2
    else if c = '\x27' then if d = '\x27' then stringLength s + 2 else 1
    else stringLength (d :: s) + 1

def quotedLength (mark : Char) : Text → Nat
  | [] => 0
  | c :: s => if c = mark then 1 else quotedLength mark s + 1

/-- Length of a line comment. The line feed after it is code. -/
def lineLength : Text → Nat
  | [] => 0
  | c :: s => if c = '\n' then 0 else lineLength s + 1

def blockLength : Text → Nat
  | [] => 0
  | [_] => 1
  | c :: d :: s => if c = '*' ∧ d = '/' then 2 else blockLength (d :: s) + 1

namespace LiteralKind

def opening? : Text → Option LiteralKind
  | [] => none
  | c :: s =>
    if c = '\x27' then some string
    else if c = '\x22' then some doubleQuoted
    else if c = '\x60' then some backQuoted
    else if c = '-' ∧ s.head? = some '-' then some lineComment
    else if c = '/' ∧ s.head? = some '*' then some blockComment
    else none

/-- Length of the literal of this kind at the start of a text. A literal that is never closed
reaches to the end. -/
def length : LiteralKind → Text → Nat
  | string, s => stringLength (s.drop 1) + 1
  | doubleQuoted, s => quotedLength '\x22' (s.drop 1) + 1
  | backQuoted, s => quotedLength '\x60' (s.drop 1) + 1
  | lineComment, s => lineLength (s.drop 2) + 2
  | blockComment, s => blockLength (s.drop 2) + 2

theorem length_pos (kind : LiteralKind) (s : Text) : 0 < kind.length s := by
  cases kind <;> simp [length]

end LiteralKind

inductive Lexeme
  | code (c : Char)
  | literal (kind : LiteralKind) (text : Text)
  deriving DecidableEq, Repr

namespace Lexeme

def text : Lexeme → Text
  | code c => [c]
  | literal _ text => text

def marked : Lexeme → List (Char × Bool)
  | code c => [(c, false)]
  | literal _ text => text.map (·, true)

def turn : Lexeme → Int
  | code '(' => 1
  | code ')' => -1
  | _ => 0

end Lexeme

/-- The lexemes of a text whose first `covered` characters belong to a literal already listed. -/
def lexemesAfter : (covered : Nat) → Text → List Lexeme
  | _, [] => []
  | covered + 1, _ :: s => lexemesAfter covered s
  | 0, c :: s =>
    match LiteralKind.opening? (c :: s) with
    | none => .code c :: lexemesAfter 0 s
    | some kind =>
      .literal kind ((c :: s).take (kind.length (c :: s))) ::
        lexemesAfter (kind.length (c :: s) - 1) s

def lexemes (s : Text) : List Lexeme := lexemesAfter 0 s

def marked (s : Text) : List (Char × Bool) := (lexemes s).flatMap Lexeme.marked

def Lexeme.literalText? : Lexeme → Option Text
  | .code _ => none
  | .literal _ text => some text

def literals (s : Text) : List Text := (lexemes s).filterMap Lexeme.literalText?

theorem lexemesAfter_eq_drop (covered : Nat) (s : Text) :
    lexemesAfter covered s = lexemes (s.drop covered) := by
  induction s generalizing covered with
  | nil => simp [lexemes, lexemesAfter]
  | cons c s ih =>
      cases covered with
      | zero => rfl
      | succ covered => simp [lexemesAfter, ih]

theorem lexemes_nil : lexemes [] = [] := rfl

theorem lexemes_code (c : Char) (s : Text) (plain : LiteralKind.opening? (c :: s) = none) :
    lexemes (c :: s) = .code c :: lexemes s := by
  simp [lexemes, lexemesAfter, plain]

theorem lexemes_literal (s : Text) (kind : LiteralKind)
    (opens : LiteralKind.opening? s = some kind) :
    lexemes s = .literal kind (s.take (kind.length s)) :: lexemes (s.drop (kind.length s)) := by
  match s with
  | [] => simp [LiteralKind.opening?] at opens
  | c :: s =>
      have positive := kind.length_pos (c :: s)
      obtain ⟨n, length⟩ : ∃ n, kind.length (c :: s) = n + 1 :=
        ⟨_, (Nat.sub_add_cancel positive).symm⟩
      rw [lexemes, lexemesAfter, opens]
      simp [length, lexemesAfter_eq_drop]

theorem flatMap_text_lexemesAfter (covered : Nat) (s : Text) :
    (lexemesAfter covered s).flatMap Lexeme.text = s.drop covered := by
  induction s generalizing covered with
  | nil => simp [lexemesAfter]
  | cons c s ih =>
      cases covered with
      | succ covered => simp [lexemesAfter, ih]
      | zero =>
          rw [lexemesAfter]
          split
          · simp [Lexeme.text, ih]
          · next kind _ =>
              have positive := kind.length_pos (c :: s)
              obtain ⟨n, length⟩ : ∃ n, kind.length (c :: s) = n + 1 :=
                ⟨_, (Nat.sub_add_cancel positive).symm⟩
              simp [Lexeme.text, ih, length]

theorem flatMap_text_lexemes (s : Text) : (lexemes s).flatMap Lexeme.text = s :=
  flatMap_text_lexemesAfter 0 s

theorem Lexeme.map_fst_marked (l : Lexeme) : l.marked.map Prod.fst = l.text := by
  cases l <;> simp [Lexeme.marked, Lexeme.text, Function.comp_def]

theorem map_fst_marked (s : Text) : (marked s).map Prod.fst = s := by
  rw [marked, List.map_flatMap]
  simp only [Lexeme.map_fst_marked]
  exact flatMap_text_lexemes s

theorem length_marked (s : Text) : (marked s).length = s.length := by
  rw [← List.length_map (f := Prod.fst), map_fst_marked]

end LiteSql
