import LiteSql.Pattern.Match

/-! Column types. SQLite has few storage classes, and no widths and precisions. -/

namespace LiteSql.ColumnType

open Pattern

def signedCast : Pattern :=
  all [boundary, "AS", gap, optional "UN", "SIGNED", optional (all [gap, "INTEGER"]), boundary]

def integer : Pattern :=
  all [boundary, optional (anyOf ["TINY", "SMALL", "MEDIUM", "BIG"]), "INT", optional "EGER",
    boundary, optional width, optional (all [gap, "UNSIGNED", boundary]),
    optional (all [gap, "ZEROFILL", boundary])]

def characters : Pattern :=
  either
    (all [boundary, optional "N", optional "VAR", "CHAR", width])
    (all [boundary, optional (anyOf ["TINY", "MEDIUM", "LONG"]), "TEXT", boundary, optional width])

def double : Pattern := all ["DOUBLE", optional (all [gap, "PRECISION"])]

def precision : Pattern :=
  all [blanks, "(", blanks, digits, blanks, optional (all [",", blanks, digits, blanks]), ")"]

def real : Pattern :=
  either
    (all [boundary, anyOf ["DECIMAL", "NUMERIC", "FLOAT", double, "REAL"], precision])
    (all [boundary, double, boundary])

def timestamp : Pattern := all [boundary, "TIMESTAMP", boundary, optional width]

def binary : Pattern :=
  all [optional (capture "collate" (all [boundary, "COLLATE", gap])),
    anyOf [all [boundary, optional "VAR", "BINARY", width],
      all [boundary, optional (anyOf ["TINY", "MEDIUM", "LONG"]), "BLOB", boundary],
      all [boundary, "BINARY", boundary]]]

/-- A binary type is a BLOB. After COLLATE it is the name of a collation and stays. -/
def convertBinary (m : Match) : Text :=
  if (m.captured? "collate").isSome then m.text else "BLOB"

end LiteSql.ColumnType
