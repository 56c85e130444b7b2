import LiteSql.Rule.Table

/-! The templates of the table and the texts they are read from. A template that is read holds each
character of its text on its own, one of the table holds whole stretches, and both are filled alike.
-/

namespace LiteSql

namespace Template

def spread : Template → Template
  | [] => []
  | .text text :: rest => text.map (fun c => .text [c]) ++ spread rest
  | part :: rest => part :: spread rest

theorem fillAs_append_text (arguments : List Text) (numbering : Numbering) (text : Text)
    (rest : Template) :
    fillAs arguments numbering (text.map (fun c => .text [c]) ++ rest) =
      (text ++ ·) <$> fillAs arguments numbering rest := by
  induction text with
  | nil => cases found : fillAs arguments numbering rest <;> simp [found]
  | cons c text ih =>
      rw [List.map_cons, List.cons_append, fillAs, ih]
      cases fillAs arguments numbering rest <;> rfl

theorem fillAs_spread (arguments : List Text) (numbering : Numbering) (template : Template) :
    fillAs arguments numbering template.spread = fillAs arguments numbering template := by
  induction template generalizing numbering with
  | nil => rfl
  | cons part rest ih =>
      cases part with
      | text text =>
          rw [spread, fillAs_append_text, ih, fillAs]
          cases fillAs arguments numbering rest <;> rfl
      | argument index => cases numbering <;> simp only [spread, fillAs, ih]
      | next => cases numbering <;> simp only [spread, fillAs, ih]
      | named name => simp only [spread, fillAs]
      | broken fault => simp only [spread, fillAs]

theorem fillExactly_spread (template : Template) (arity : Int) (arguments : List Text) :
    template.spread.fillExactly arity arguments = template.fillExactly arity arguments := by
  rw [fillExactly, fillExactly, fill, fill, fillAs_spread]

end Template

namespace Rule

def templateSources : List (String × String) :=
  [("lcase", "LOWER(\x7b0\x7d)"),
    ("ucase", "UPPER(\x7b0\x7d)"),
    ("char_length", "LENGTH(\x7b0\x7d)"),
    ("locate", "INSTR(\x7b1\x7d, \x7b0\x7d)"),
    ("datediff", "CAST(JULIANDAY(DATE(\x7b0\x7d)) - JULIANDAY(DATE(\x7b1\x7d)) AS INTEGER)"),
    ("year", "CAST(strftime('%Y', \x7b0\x7d) AS INTEGER)"),
    ("month", "CAST(strftime('%m', \x7b0\x7d) AS INTEGER)"),
    ("day", "CAST(strftime('%d', \x7b0\x7d) AS INTEGER)"),
    ("dayofmonth", "CAST(strftime('%d', \x7b0\x7d) AS INTEGER)"),
    ("dayofyear", "CAST(strftime('%j', \x7b0\x7d) AS INTEGER)"),
    ("dayofweek", "(CAST(strftime('%w', \x7b0\x7d) AS INTEGER) + 1)"),
    ("hour", "CAST(strftime('%H', \x7b0\x7d) AS INTEGER)"),
    ("minute", "CAST(strftime('%M', \x7b0\x7d) AS INTEGER)"),
    ("second", "CAST(strftime('%S', \x7b0\x7d) AS INTEGER)"),
    ("now", "DATETIME('now')"),
    ("curdate", "DATE('now')"),
    ("curtime", "TIME('now')"),
    ("from_unixtime", "DATETIME(\x7b0\x7d, 'unixepoch')"),
    ("mod", "(\x7b0\x7d % \x7b1\x7d)"),
    ("rand", "(ABS(RANDOM()) % 1000000) / 1000000.0"),
    ("ifnull", "COALESCE(\x7b0\x7d, \x7b1\x7d)"),
    ("if", "CASE WHEN \x7b0\x7d THEN \x7b1\x7d ELSE \x7b2\x7d END"),
    ("nullif", "CASE WHEN \x7b0\x7d = \x7b1\x7d THEN NULL ELSE \x7b0\x7d END")]

def spread? : Rule → Option (Text × Template)
  | template name _ _ parts => some (name, parts.spread)
  | _ => none

theorem filterMap_spread?_table :
    table.filterMap spread? = templateSources.map fun (name, source) =>
      (name.toList, Template.ofText source.toList) := by
  decide +kernel

/-- Every template of the table is filled as the text that it is read from. -/
theorem exists_source_of_template {name function : Text} {arity : Int} {parts : Template}
    (member : template name function arity parts ∈ table) :
    ∃ source ∈ templateSources, name = source.1.toList ∧ ∀ arguments,
      parts.fillExactly arity arguments = (Template.ofText source.2.toList).fillExactly arity
        arguments := by
  have listed : (name, parts.spread) ∈ table.filterMap spread? :=
    List.mem_filterMap.mpr ⟨_, member, rfl⟩
  rw [filterMap_spread?_table, List.mem_map] at listed
  obtain ⟨source, among, same⟩ := listed
  obtain ⟨named, read⟩ := Prod.mk.inj same
  refine ⟨source, among, named.symm, fun arguments => ?_⟩
  rw [read, Template.fillExactly_spread]

end Rule

end LiteSql
