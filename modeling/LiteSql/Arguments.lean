import LiteSql.Lexeme.Basic

/-! The arguments of a call, split at the commas that stand in code outside parentheses. -/

namespace LiteSql

/-- The pieces between the commas at depth zero, where the first lexeme stands at `depth`. There is
always at least one piece. -/
def piecesAt (depth : Int) : List Lexeme → List Text
  | [] => [[]]
  | l :: rest =>
    if l = .code ',' ∧ depth = 0 then [] :: piecesAt depth rest
    else extendFirst l.text (piecesAt (depth + l.turn) rest)

/-- The trimmed arguments that stand between the parentheses of a call. A blank text holds none;
otherwise each comma at depth zero ends one, blank or not. -/
def splitArguments (inner : Text) : List Text :=
  if inner.all isBlank then [] else (piecesAt 0 (lexemes inner)).map trim

def joinArguments (arguments : List Text) : Text := joinWith ", " arguments

end LiteSql
