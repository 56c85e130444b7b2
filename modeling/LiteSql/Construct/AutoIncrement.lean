import LiteSql.Pattern.Match

/-! Columns that number their rows. The table option with the same name has an equals sign after
it and is no column attribute. -/

namespace LiteSql.AutoIncrement

open Pattern

def beforeKey : Pattern := all [boundary, "AUTO_INCREMENT", gap, "PRIMARY", gap, "KEY", boundary]

def afterKey : Pattern := all [boundary, "PRIMARY", gap, "KEY", gap, "AUTO_INCREMENT", boundary]

def alone : Pattern := all [boundary, "AUTO_INCREMENT", boundary, notAhead (all [blanks, "="])]

def keyAttribute : Text := "PRIMARY KEY AUTOINCREMENT"

end LiteSql.AutoIncrement
