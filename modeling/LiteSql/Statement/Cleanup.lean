import LiteSql.Pattern.Match

/-! Cleanup of a statement: options that SQLite does not know are deleted, and blanks in code are
brought to a normal form. -/

namespace LiteSql.Cleanup

open Pattern

/-- Table and column options without an equivalent. SQLite's own collations stay. -/
def option : Pattern :=
  anyOf [
    all [boundary, "ENGINE", blanks, "=", blanks, word],
    all [boundary, optional (all ["DEFAULT", gap]),
      anyOf ["CHARSET", all ["CHARACTER", gap, "SET"]], blanks, optional "=", blanks, word],
    all [boundary, "COLLATE", blanks, "=", blanks, word],
    all [boundary, "COLLATE", gap, notAhead (all [anyOf ["NOCASE", "BINARY", "RTRIM"], boundary]),
      word],
    all [boundary, "AUTO_INCREMENT", blanks, "=", blanks, digits],
    all [boundary, "ON", gap, "UPDATE", gap, "CURRENT_TIMESTAMP", boundary,
      optional (all [blanks, "(", blanks, many isDigit, blanks, ")"])]]

def spacesAndTabs : Pattern := someOf fun c => c == ' ' || c == '\t'

def spacesAtLineEnd : Pattern := all [someOf (· == ' '), ahead (one (· == '\n'))]

def blankLines : Pattern := all [one (· == '\n'), blanks, one (· == '\n')]

/-- Deletes options, then makes runs of spaces and tabs one space, deletes spaces before a line feed
and lines of blanks, and trims the ends. -/
def clean (s : Text) : Text :=
  let s := option.replaceCode (fun _ => []) s
  let s := spacesAndTabs.replaceCode (fun _ => " ") s
  let s := spacesAtLineEnd.replaceCode (fun _ => []) s
  let s := blankLines.replaceCode (fun _ => "\n") s
  trim s

end LiteSql.Cleanup
