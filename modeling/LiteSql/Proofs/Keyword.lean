import LiteSql.Proofs.Heading
import LiteSql.Statement.Conversion

/-! The words that rules, the cleanup and the marks are about. Every match of a pattern holds one of
them as a whole word, but for one option, which is also found at the start of a longer word. -/

namespace LiteSql

def typeNames : List String :=
  ["INT", "INTEGER", "TINYINT", "TINYINTEGER", "SMALLINT", "SMALLINTEGER", "MEDIUMINT",
    "MEDIUMINTEGER", "BIGINT", "BIGINTEGER", "CHAR", "NCHAR", "VARCHAR", "NVARCHAR", "TEXT",
    "TINYTEXT", "MEDIUMTEXT", "LONGTEXT", "BLOB", "TINYBLOB", "MEDIUMBLOB", "LONGBLOB", "BINARY",
    "VARBINARY", "DECIMAL", "NUMERIC", "FLOAT", "DOUBLE", "REAL", "TIMESTAMP"]

def clauseWords : List String :=
  ["AS", "COLLATE", "LEFT", "RIGHT", "FULL", "JOIN", "AUTO_INCREMENT", "PRIMARY", "ENGINE",
    "DEFAULT", "CHARSET", "CHARACTER", "ON", "WITH"]

def patternWords : List Text := (typeNames ++ clauseWords).map String.toList

/-- The words that a rule, the cleanup or a mark is about. -/
def keywords : List Text := Rule.table.filterMap Rule.function? ++ patternWords

/-- A statement without any keyword outside its literals. -/
def Unmapped (s : Text) : Prop := ∀ w ∈ codeWords s, ∀ k ∈ keywords, spelled k w = false

instance (s : Text) : Decidable (Unmapped s) :=
  inferInstanceAs (Decidable (∀ w ∈ codeWords s, ∀ k ∈ keywords, spelled k w = false))

def wholeHeads : List Head := patternWords.map .whole

section

open Pattern

theorem heads_width {inside : Bool} : Heads inside width [.whole []] :=
  .blanks (.seq (.sign (by decide)))

theorem heads_precision {inside : Bool} : Heads inside ColumnType.precision [.whole []] :=
  .blanks (.seq (.sign (by decide)))

theorem begins_signedCast : Begins ColumnType.signedCast wholeHeads :=
  .mono (.keyword (by decide) (.seq .gap)) (by decide)

theorem begins_integer : Begins ColumnType.integer wholeHeads := by
  have int (inside : Bool) (rest : Pattern) :
      Heads inside (.seq "INT" (.seq (Pattern.optional "EGER") (.seq boundary rest))) _ :=
    .keyword (by decide) (.optional (.keyword (by decide) (.seq .boundary)) (.seq .boundary))
  exact .mono (.boundary (fun inside => .optional
    (.anyOf ["TINY", "SMALL", "MEDIUM", "BIG"] (by decide) (int true _)) (int inside _))
      (by decide))
    (by decide)

theorem begins_characters : Begins ColumnType.characters wholeHeads := by
  have char (inside : Bool) : Heads inside (.seq "CHAR" width) _ := .keyword (by decide) heads_width
  have varying (inside : Bool) : Heads inside
      (.seq (Pattern.optional "VAR") (.seq "CHAR" width)) _ :=
    .optional (.keyword (by decide) (char true)) (char inside)
  have text (inside : Bool) (rest : Pattern) : Heads inside (.seq "TEXT" (.seq boundary rest)) _ :=
    .keyword (by decide) (.seq .boundary)
  exact .mono (.either
    (.boundary (fun inside => .optional (.keyword (by decide) (varying true)) (varying inside))
      (by decide))
    (.boundary (fun inside => .optional
      (.anyOf ["TINY", "MEDIUM", "LONG"] (by decide) (text true _)) (text inside _)) (by decide)))
    (by decide)

theorem begins_real : Begins ColumnType.real wholeHeads := by
  have double (inside : Bool) {rest : Pattern} (next : Heads true rest [.whole []]) :
      Heads inside (.seq ColumnType.double rest) _ :=
    .seq_seq (.keyword (by decide) (.optional (.seq (.seq .gap)) next))
  exact .mono (.either
    (.boundary (fun inside => .seq_either (.keyword (by decide) heads_precision)
      (.seq_either (.keyword (by decide) heads_precision)
        (.seq_either (.keyword (by decide) heads_precision)
          (.seq_either (double inside heads_precision) (.keyword (by decide) heads_precision)))))
      (by decide))
    (.boundary (fun inside => double inside .boundary) (by decide)))
    (by decide)

theorem begins_timestamp : Begins ColumnType.timestamp wholeHeads :=
  .mono (.keyword (by decide) (.seq .boundary)) (by decide)

theorem begins_binary : Begins ColumnType.binary wholeHeads := by
  have sized (inside : Bool) : Heads inside (.seq "BINARY" width) _ :=
    .keyword (by decide) heads_width
  have blob (inside : Bool) : Heads inside (.seq "BLOB" boundary) _ :=
    .keyword (by decide) .boundary
  exact .mono (.optional (.capture (.keyword (by decide) .gap)) (.either
    (.boundary (fun inside => .optional (.keyword (by decide) (sized true)) (sized inside))
      (by decide))
    (.either
      (.boundary (fun inside => .optional
        (.anyOf ["TINY", "MEDIUM", "LONG"] (by decide) (blob true)) (blob inside)) (by decide))
      (.keyword (by decide) .boundary))))
    (by decide)

theorem begins_outer : Begins Join.outer wholeHeads :=
  .mono (.boundary (fun _ => .anyOf ["LEFT", "RIGHT", "FULL"] (by decide) (.seq .gap)) (by decide))
    (by decide)

theorem announces_join : Announces Join.join wholeHeads :=
  .right (Begins.mono (.keyword (by decide) .boundary) (by decide)).announces

theorem begins_beforeKey : Begins AutoIncrement.beforeKey wholeHeads :=
  .mono (.keyword (by decide) (.seq .gap)) (by decide)

theorem begins_afterKey : Begins AutoIncrement.afterKey wholeHeads :=
  .mono (.keyword (by decide) (.seq .gap)) (by decide)

theorem begins_alone : Begins AutoIncrement.alone wholeHeads :=
  .mono (.keyword (by decide) (.seq .boundary)) (by decide)

theorem begins_rollupPattern : Begins Unsupported.rollupPattern wholeHeads :=
  .mono (.keyword (by decide) (.seq .gap)) (by decide)

/-- Only one option is also found where a word goes on behind its keyword. -/
theorem begins_option : Begins Cleanup.option (.start "CHARSET" :: wholeHeads) := by
  have equals {inside : Bool} (rest : Pattern) : Heads inside (.seq blanks (.seq "=" rest)) _ :=
    .blanks (.seq (.sign (by decide)))
  have set (inside : Bool) (rest : Pattern) :
      Heads inside (.seq (anyOf ["CHARSET", all ["CHARACTER", gap, "SET"]]) rest) _ :=
    .seq_either (.seq (.start (by decide))) (.seq_seq (.keyword (by decide) (.seq (.seq .gap))))
  exact .mono (.either (.keyword (by decide) (equals _))
    (.either (.boundary (fun inside => .optional (.seq_seq (.keyword (by decide) (.seq .gap)))
        (set inside _)) (by decide))
      (.either (.keyword (by decide) (equals _))
        (.either (.keyword (by decide) (.seq .gap))
          (.either (.keyword (by decide) (equals _)) (.keyword (by decide) (.seq .gap)))))))
    (by decide)

end

end LiteSql
