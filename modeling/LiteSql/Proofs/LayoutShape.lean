import LiteSql.Proofs.CleanDefinition

/-! The layout of a statement has the shape that the statement was laid out by. The one exception is
a statement on one line that opens like a table definition, but with other blanks than a space
between the two words. -/

namespace LiteSql

/-! ### Texts whose blanks are collapsed -/

inductive Collapsed : Text → Text → Prop
  | nil : Collapsed [] []
  | keep (c : Char) {x y : Text} (later : Collapsed x y) : Collapsed (c :: x) (c :: y)
  | space {b x y : Text} (present : b ≠ []) (blank : ∀ c ∈ b, isBlank c = true)
      (later : Collapsed x y) :
      Collapsed (b ++ x) (' ' :: y)

namespace Collapsed

theorem append (t : Text) {x y : Text} (later : Collapsed x y) : Collapsed (t ++ x) (t ++ y) := by
  induction t with
  | nil => exact later
  | cons c t ih => exact .keep c ih

theorem exists_space {x y : Text} (collapsed : Collapsed x (' ' :: y)) :
    ∃ b z, x = b ++ z ∧ b ≠ [] ∧ (∀ c ∈ b, isBlank c = true) ∧ Collapsed z y := by
  cases collapsed with
  | @keep _ x _ later => exact ⟨[' '], x, rfl, by simp, by decide, later⟩
  | space present blank later => exact ⟨_, _, rfl, present, blank, later⟩

theorem exists_append_of_solid {w x y : Text} (solid : ∀ c ∈ w, isBlank c = false)
    (collapsed : Collapsed x (w ++ y)) :
    ∃ z, x = w ++ z ∧ Collapsed z y := by
  induction w generalizing x with
  | nil => exact ⟨x, rfl, collapsed⟩
  | cons c w ih =>
      obtain ⟨first, others⟩ := List.forall_mem_cons.mp solid
      cases collapsed with
      | keep _ later =>
          obtain ⟨z, rfl, last⟩ := ih others later
          exact ⟨z, rfl, last⟩
      | space _ _ _ => cases first

theorem isInfix_of_solid {w x y : Text} (solid : ∀ c ∈ w, isBlank c = false)
    (collapsed : Collapsed x y)
    (part : w <:+: y) : w <:+: x := by
  have starts {x y : Text} (collapsed : Collapsed x y) (start : w <+: y) : w <:+: x := by
    obtain ⟨rest, rfl⟩ := start
    obtain ⟨z, rfl, -⟩ := collapsed.exists_append_of_solid solid
    exact (List.prefix_append w z).isInfix
  induction collapsed with
  | nil => exact part
  | keep c later ih =>
      rcases List.infix_cons_iff.mp part with start | inner
      · exact starts (.keep c later) start
      · exact List.infix_cons (ih inner)
  | @space b x y present blank later ih =>
      rcases List.infix_cons_iff.mp part with start | inner
      · exact starts (.space present blank later) start
      · exact (ih inner).trans (List.suffix_append b x).isInfix

end Collapsed

theorem collapsed_squeeze (ls : List Lexeme) :
    Collapsed (ls.flatMap Lexeme.text) ((squeeze ls).flatMap Lexeme.text) := by
  induction ls with
  | nil => exact .nil
  | cons l ls ih =>
      rw [squeeze]
      split
      · next blank =>
          obtain ⟨c, rfl, space⟩ : ∃ c, l = .code c ∧ isBlank c = true := by
            cases l with
            | code c => exact ⟨c, rfl, blank⟩
            | literal kind text => cases blank
          split
          · next more =>
              obtain ⟨rest, cut⟩ : ∃ rest, squeeze ls = .code ' ' :: rest := by
                have head := head?_squeeze ls
                cases ls with
                | nil => cases more
                | cons m ls =>
                    have next : m.isBlank = true := more
                    rw [List.head?_cons, Option.map_some, if_pos next] at head
                    exact ⟨_, (List.cons_head?_tail head).symm⟩
              rw [cut] at ih ⊢
              obtain ⟨b, z, whole, -, others, later⟩ := ih.exists_space
              have grown : (Lexeme.code c :: ls).flatMap Lexeme.text = c :: b ++ z := by
                rw [List.flatMap_cons, whole]; rfl
              rw [grown]
              exact .space (List.cons_ne_nil c b) (List.forall_mem_cons.mpr ⟨space, others⟩) later
          · have single : ∀ d ∈ [c], isBlank d = true := by simpa using space
            exact .space (List.cons_ne_nil c []) single ih
      · rw [List.flatMap_cons, List.flatMap_cons]
        exact .append l.text ih

/-- Collapsing the blanks of a text on one line that is trimmed gives it a space for each run of
blanks in code. -/
theorem collapsed_collapseBlanks {s : Text} (flat : '\n' ∉ s) (trimmed : trim s = s) :
    Collapsed s (collapseBlanks s) := by
  have whole := flatMap_text_lexemes s
  have read : lexemes ((squeeze (lexemes s)).flatMap Lexeme.text) = squeeze (lexemes s) :=
    Layout.lexemes_squeeze_of_flat (by rw [whole]) (by rwa [whole])
  have same : squeeze (lexemes ((squeeze (lexemes s)).flatMap Lexeme.text)) =
      squeeze (lexemes s) := by
    rw [read, squeeze_eq_self (squeezed_squeeze _)]
  rw [collapseBlanks, replaceCode_gap, trim_eq_of_squeeze same trimmed]
  have collapsed := collapsed_squeeze (lexemes s)
  rwa [whole] at collapsed

theorem Collapsed.lowerAscii {x y : Text} (collapsed : Collapsed x y) :
    Collapsed (lowerAscii x) (lowerAscii y) := by
  induction collapsed with
  | nil => exact .nil
  | keep c _ ih => exact .keep c.toLower ih
  | @space b x y present blank _ ih =>
      rw [lowerAscii_blanks_append blank]
      exact .space present blank ih

/-! ### Shapes -/

namespace Shape

/-- Whether a text on one line opens with the words of a table definition, whatever blanks stand
between them. -/
def OpensDefinition (s : Text) : Prop :=
  '\n' ∉ s ∧ ∃ gap rest : Text, gap ≠ [] ∧ (∀ c ∈ gap, isBlank c = true) ∧
    lowerAscii s = "create".toList ++ (gap ++ ("table".toList ++ rest))

theorem detect_eq_definition_iff {s : Text} : detect s = definition ↔
    "create table".toList <+: lowerAscii s := by
  rw [← List.isPrefixOf_iff_prefix, detect]
  split
  · next starts => exact ⟨fun _ => starts, fun _ => rfl⟩
  · next other =>
      refine ⟨fun same => ?_, fun starts => absurd starts other⟩
      split at same <;> cases same

theorem detect_eq_aggregateQuery_iff {s : Text} (other : detect s ≠ definition) :
    detect s = aggregateQuery ↔ "group_concat".toList <:+: lowerAscii s := by
  rw [Ne, detect_eq_definition_iff, ← List.isPrefixOf_iff_prefix] at other
  rw [← includes_iff, detect]
  rw [if_neg other]
  split
  · next among => exact ⟨fun _ => among, fun _ => rfl⟩
  · next apart =>
      refine ⟨fun same => ?_, fun among => absurd among apart⟩
      cases same

end Shape

namespace LaidOut

variable {front ls ms : List Lexeme}

theorem isPrefix_text {w : Text} (laidOut : LaidOut front ls ms) (other : 'G' ∉ w)
    (start : w <+: ms.flatMap Lexeme.text) :
    w <+: ls.flatMap Lexeme.text := by
  induction laidOut generalizing w with
  | done => exact start
  | @keep front l ls ms _ _ ih =>
      obtain ⟨rest, cut⟩ := start
      rw [List.flatMap_cons] at cut ⊢
      rcases List.append_eq_append_iff.mp cut with ⟨more, inside, -⟩ | ⟨more, rfl, later⟩
      · rw [inside, List.append_assoc]
        exact List.prefix_append w _
      · have behind := ih (fun member => other (List.mem_append_right _ member)) ⟨rest, later.symm⟩
        exact (List.prefix_append_right_inj l.text).mpr behind
  | call _ _ _ _ _ =>
      cases w with
      | nil => exact List.nil_prefix
      | cons c w =>
          have first : c = 'G' := (List.cons_prefix_cons.mp start).1
          exact absurd List.mem_cons_self (first ▸ other)

theorem eq_or_isInfix (laidOut : LaidOut front ls ms) :
    ms = ls ∨ GroupConcat.function.map .code <:+: ms := by
  induction laidOut with
  | done => exact .inl rfl
  | keep _ _ ih =>
      rcases ih with rfl | inside
      · exact .inl rfl
      · exact .inr (List.infix_cons inside)
  | @call front inner others arguments ls ms written _ _ _ _ _ _ ih =>
      refine .inr (List.IsPrefix.isInfix ?_)
      rw [callLexemes, List.append_assoc]
      exact List.prefix_append _ _

end LaidOut

namespace Layout

theorem detect_definition {s : Text} (shape : Shape.detect s = .definition) :
    Shape.detect (definition s) = .definition := by
  cases read : Definition.read? s with
  | none =>
      have same : definition s = s := by rw [definition, read]; rfl
      rw [same, shape]
  | some d =>
      have same : definition s = d.write := by rw [definition, read]; rfl
      rw [same, detect_write]

theorem detect_aggregateQuery {s : Text} (shape : Shape.detect s = .aggregateQuery) :
    Shape.detect (aggregateQuery s) = .aggregateQuery := by
  have laidOut := laidOut_aggregateQuery s
  have whole := flatMap_text_lexemes s
  have result := flatMap_text_lexemes (aggregateQuery s)
  have source : Shape.detect s ≠ .definition := by rw [shape]; decide
  have other : Shape.detect (aggregateQuery s) ≠ .definition := by
    intro defines
    apply source
    rw [Shape.detect_eq_definition_iff] at defines ⊢
    obtain ⟨w, start, lower⟩ := List.prefix_map_iff.mp defines
    have apart : 'G' ∉ w := by
      intro member
      have inside : 'g' ∈ w.map Char.toLower := List.mem_map.mpr ⟨'G', member, by decide⟩
      rw [← lower] at inside
      exact absurd inside (by decide)
    rw [← result] at start
    have kept := laidOut.isPrefix_text apart start
    rw [whole] at kept
    exact List.prefix_map_iff.mpr ⟨w, kept, lower⟩
  rw [Shape.detect_eq_aggregateQuery_iff other]
  rcases laidOut.eq_or_isInfix with same | ⟨front, behind, cut⟩
  · rw [same, whole] at result
    rwa [← result, ← Shape.detect_eq_aggregateQuery_iff source]
  · have named : "group_concat".toList = lowerAscii GroupConcat.function := by decide
    rw [named]
    refine List.IsInfix.map Char.toLower ⟨front.flatMap Lexeme.text, behind.flatMap Lexeme.text, ?_⟩
    rw [← flatMap_text_map_code GroupConcat.function, ← List.flatMap_append, ← List.flatMap_append,
      cut, result]

/-- A plain query on one line may come out like a table definition only if it opened like one. -/
theorem detect_plainQuery {s : Text} (trimmed : trim s = s) (other : ¬ Shape.OpensDefinition s)
    (shape : Shape.detect s = .plainQuery) : Shape.detect (plainQuery s) = .plainQuery := by
  cases simple : isSimple s with
  | false =>
      have relaid := relaid_plainQuery simple
      rw [trimmed] at relaid
      rw [← relaid.detect_eq, shape]
  | true =>
      have flat := not_mem_of_isSimple simple
      rw [plainQuery, if_pos simple]
      have lower := (collapsed_collapseBlanks flat trimmed).lowerAscii
      have undefined : Shape.detect (collapseBlanks s) ≠ .definition := by
        intro defines
        obtain ⟨rest, cut⟩ := Shape.detect_eq_definition_iff.mp defines
        have cut : "create".toList ++ ' ' :: ("table".toList ++ rest) =
            lowerAscii (collapseBlanks s) := cut
        rw [← cut] at lower
        obtain ⟨x, whole, behind⟩ := lower.exists_append_of_solid (by decide)
        obtain ⟨gap, y, rfl, present, blank, later⟩ := behind.exists_space
        obtain ⟨z, rfl, -⟩ := later.exists_append_of_solid (by decide)
        exact other ⟨flat, gap, z, present, blank, whole⟩
      cases result : Shape.detect (collapseBlanks s) with
      | definition => exact absurd result undefined
      | plainQuery => rfl
      | aggregateQuery =>
          rw [Shape.detect_eq_aggregateQuery_iff undefined] at result
          have inside := lower.isInfix_of_solid (by decide) result
          have source : Shape.detect s ≠ .definition := by rw [shape]; decide
          rw [← Shape.detect_eq_aggregateQuery_iff source, shape] at inside
          cases inside

end Layout

theorem Shape.detect_layout {s : Text} (trimmed : trim s = s)
    (other : detect s = .plainQuery → ¬ OpensDefinition s) :
    detect ((detect s).layout s) = detect s := by
  cases shape : detect s with
  | definition => exact Layout.detect_definition shape
  | aggregateQuery => exact Layout.detect_aggregateQuery shape
  | plainQuery => exact Layout.detect_plainQuery trimmed (other shape) shape

end LiteSql
