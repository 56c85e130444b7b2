import LiteSql.Construct.AutoIncrement
import LiteSql.Construct.ColumnType
import LiteSql.Construct.DayInterval
import LiteSql.Construct.GroupConcat
import LiteSql.Construct.Join
import LiteSql.Construct.Rounding
import LiteSql.Construct.Substring
import LiteSql.Rule.Basic

/-! The table of rules, in groups. A rule sees what the rules before it have written: joins without
a kind come after outer joins, and types after the functions that write casts. -/

namespace LiteSql.Rule

open Template (arg)

def stringRules : List Rule :=
  [total "concat" "CONCAT" fun arguments =>
      if arguments.isEmpty then none else some (joinWith " || " arguments),
    total "substring" "SUBSTRING" Substring.convert,
    template "lcase" "LCASE" 1 ["LOWER(", arg 0, ")"],
    template "ucase" "UCASE" 1 ["UPPER(", arg 0, ")"],
    template "char_length" "CHAR_LENGTH" 1 ["LENGTH(", arg 0, ")"],
    template "locate" "LOCATE" 2 ["INSTR(", arg 1, ", ", arg 0, ")"],
    total "group_concat separator" GroupConcat.function GroupConcat.convert]

def dateField (name function letter : String) : Rule :=
  template name function 1
    [.text ("CAST(strftime('%" ++ letter.toList ++ "', "), arg 0, ") AS INTEGER)"]

def unixTimestamp : List Text → Option Text
  | [] => some "CAST(strftime('%s', 'now') AS INTEGER)"
  | [time] => some ("CAST(strftime('%s', " ++ time ++ ") AS INTEGER)")
  | _ => none

def dateRules : List Rule :=
  [call "date_add" "DATE_ADD" (DayInterval.move 1),
    call "date_sub" "DATE_SUB" (DayInterval.move (-1)),
    template "datediff" "DATEDIFF" 2
      ["CAST(JULIANDAY(DATE(", arg 0, ")) - JULIANDAY(DATE(", arg 1, ")) AS INTEGER)"],
    dateField "year" "YEAR" "Y",
    dateField "month" "MONTH" "m",
    dateField "day" "DAY" "d",
    dateField "dayofmonth" "DAYOFMONTH" "d",
    dateField "dayofyear" "DAYOFYEAR" "j",
    -- MySQL counts weekdays from one, SQLite from zero.
    template "dayofweek" "DAYOFWEEK" 1 ["(CAST(strftime('%w', ", arg 0, ") AS INTEGER) + 1)"],
    dateField "hour" "HOUR" "H",
    dateField "minute" "MINUTE" "M",
    dateField "second" "SECOND" "S",
    template "now" "NOW" 0 ["DATETIME('now')"],
    template "curdate" "CURDATE" 0 ["DATE('now')"],
    template "curtime" "CURTIME" 0 ["TIME('now')"],
    total "unix_timestamp" "UNIX_TIMESTAMP" unixTimestamp,
    template "from_unixtime" "FROM_UNIXTIME" 1 ["DATETIME(", arg 0, ", 'unixepoch')"]]

def numericRules : List Rule :=
  [total "ceil" "CEIL" (Rounding.convert .up),
    total "ceiling" "CEILING" (Rounding.convert .up),
    total "floor" "FLOOR" (Rounding.convert .down),
    template "mod" "MOD" 2 ["(", arg 0, " % ", arg 1, ")"],
    -- A draw with a seed has no equivalent.
    template "rand" "RAND" 0 ["(ABS(RANDOM()) % 1000000) / 1000000.0"]]

def conditionalRules : List Rule :=
  [template "ifnull" "IFNULL" 2 ["COALESCE(", arg 0, ", ", arg 1, ")"],
    template "if" "IF" 3 ["CASE WHEN ", arg 0, " THEN ", arg 1, " ELSE ", arg 2, " END"],
    template "nullif" "NULLIF" 2
      ["CASE WHEN ", arg 0, " = ", arg 1, " THEN NULL ELSE ", arg 0, " END"]]

def typeRules : List Rule :=
  [constant "signed cast" ColumnType.signedCast "AS INTEGER",
    constant "integer types" ColumnType.integer "INTEGER",
    constant "text types" ColumnType.characters "TEXT",
    total "enum" "ENUM" fun _ => some "TEXT",
    constant "real types" ColumnType.real "REAL",
    constant "timestamp" ColumnType.timestamp "DATETIME",
    pattern "blob types" ColumnType.binary ColumnType.convertBinary]

def joinRules : List Rule :=
  [constant "outer join" Join.outer "LEFT JOIN",
    pattern "inner join" Join.join Join.convert]

def keyRules : List Rule :=
  [constant "auto_increment primary key" AutoIncrement.beforeKey AutoIncrement.keyAttribute,
    constant "primary key auto_increment" AutoIncrement.afterKey AutoIncrement.keyAttribute,
    constant "auto_increment" AutoIncrement.alone AutoIncrement.keyAttribute]

/-- All rules, in the order in which they are applied. -/
def table : List Rule :=
  stringRules ++ dateRules ++ numericRules ++ conditionalRules ++ typeRules ++ joinRules ++ keyRules

end LiteSql.Rule
