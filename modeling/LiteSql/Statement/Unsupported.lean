import LiteSql.Call
import LiteSql.Comment
import LiteSql.Construct.GroupConcat

/-! Constructs that SQLite cannot express. Each is replaced by a comment and reported. -/

namespace LiteSql

inductive Unsupported
  /-- Subtotals of a grouping, as written in the statement. -/
  | rollup (written : Text)
  /-- The text between distinct values. -/
  | separator (delimiter : Text)
  /-- A date moved by something else than days. -/
  | interval (function : Text) (arguments : List Text)
  deriving DecidableEq, Repr

namespace Unsupported

def fragment : Unsupported → Text
  | rollup written => written
  | separator delimiter => "SEPARATOR " ++ delimiter
  | interval function arguments => function ++ "(" ++ joinArguments arguments ++ ")"

def message : Unsupported → Text
  | rollup _ => "GROUP BY ... WITH ROLLUP is not supported in SQLite"
  | separator _ => "GROUP_CONCAT(DISTINCT ...) only uses SQLite's default ',' separator"
  | interval function _ => function ++ " is only translated for DAY intervals"

/-- The comment that takes the place of the construct. A grouping is named the same way however it
was written. -/
def comment : Unsupported → Text
  | rollup _ => notSupported "WITH ROLLUP"
  | construct => notSupported construct.fragment

def rollupPattern : Pattern := .all [.boundary, "WITH", .gap, "ROLLUP", .boundary]

abbrev Recording := StateM (List Unsupported)

def record (construct : Unsupported) : Recording Unit := modify (· ++ [construct])

def markRollups (s : Text) : Recording Text := do
  modify (· ++ (rollupPattern.codeHits s).map fun m => rollup m.text)
  return rollupPattern.replaceCode (fun m => comment (rollup m.text)) s

def markSeparator (arguments : List Text) : Recording (Option Text) :=
  match GroupConcat.splitSeparator? arguments with
  | none => return none
  | some (values, delimiter) => do
    record (separator delimiter)
    return some ("GROUP_CONCAT(" ++ values ++ ") " ++ comment (separator delimiter))

def markInterval (function : Text) (arguments : List Text) : Recording (Option Text) := do
  record (interval function arguments)
  return some (comment (interval function arguments))

def markAll (s : Text) : Recording Text := do
  let s ← markRollups s
  let s ← replaceCallsM GroupConcat.function markSeparator s
  let s ← replaceCallsM "DATE_ADD" (markInterval "DATE_ADD") s
  replaceCallsM "DATE_SUB" (markInterval "DATE_SUB") s

end Unsupported

def markUnsupported (s : Text) : Text × List Unsupported := (Unsupported.markAll s).run []

end LiteSql
