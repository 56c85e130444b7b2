import LiteSql.Lexeme.Segment
import LiteSql.Pattern.Match

/-! Comments that end where they should, and the layout of a text on one line. -/

namespace LiteSql

/-- A block comment with the given text, which must not hold the end of one. -/
def blockComment (text : Text) : Text :=
  if text.isEmpty then "/* */" else "/* " ++ text ++ " */"

def Lexeme.withoutLineComment : Lexeme → Text
  | .literal .lineComment text => blockComment (spaceOut '*' '/' (trim (text.drop 2)))
  | l => l.text

/-- Makes every line comment a block comment, so that text joined to its line stays code. -/
def closeLineComments (s : Text) : Text := (lexemes s).flatMap Lexeme.withoutLineComment

def collapseBlanks (s : Text) : Text :=
  trim (Pattern.gap.replaceCode (fun _ => " ") s)

def onOneLine (s : Text) : Text := collapseBlanks (closeLineComments s)

/-- The comment that stands for a construct without an equivalent. Its text can neither open nor
close a comment. -/
def notSupported (fragment : Text) : Text :=
  "/* " ++ spaceOut '*' '/' (spaceOut '/' '*' fragment) ++ " not supported */"

end LiteSql
