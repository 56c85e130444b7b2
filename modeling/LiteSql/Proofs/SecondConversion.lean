import LiteSql.Proofs.Answers
import LiteSql.Proofs.LayoutShape
import LiteSql.Proofs.Unmapped

/-! A second conversion. Cleanup and layout find the result of the first one again, so it stays
exactly if no rule changes it and nothing in it is unsupported. -/

namespace LiteSql

/-! ### Runs without a step -/

theorem Rule.run_eq_ok_nil {rules : List Rule} {s t : Text} (still : run rules s = .ok ([], t)) :
    t = s ∧ ∀ rule ∈ rules, rule.apply s = .ok s := by
  induction rules generalizing s with
  | nil =>
      cases still
      exact ⟨rfl, by simp⟩
  | cons rule rules ih =>
      rw [run, bind_eq_ok_iff] at still
      obtain ⟨changed, applied, rest⟩ := still
      rw [bind_eq_ok_iff] at rest
      obtain ⟨⟨steps, last⟩, later, ends⟩ := rest
      obtain ⟨none, rfl⟩ := Prod.mk.inj (Except.ok.inj ends)
      split at none
      · next same =>
          subst same none
          obtain ⟨rfl, others⟩ := ih later
          exact ⟨rfl, List.forall_mem_cons.mpr ⟨applied, others⟩⟩
      · cases none

theorem adapt_eq_clean {rules : List Rule} {s : Text} (stays : ∀ rule ∈ rules, rule.apply s = .ok s)
    (silent : (markUnsupported (Cleanup.clean s)).2 = []) :
      adapt rules s = .ok ⟨Cleanup.clean s, [], []⟩ := by
  rw [adapt, Rule.run_eq_self stays]
  simp only [bind, Except.bind, pure, Except.pure, Conversion.mark,
    markUnsupported_eq_self silent, silent, List.map_nil, List.append_nil]

theorem still_of_adapt {rules : List Rule} {s : Text} {adapted : Conversion}
    (ran : adapt rules s = .ok adapted)
    (none : adapted.events = []) :
    (∀ rule ∈ rules, rule.apply s = .ok s) ∧ (markUnsupported (Cleanup.clean s)).2 = [] := by
  rw [adapt, bind_eq_ok_iff] at ran
  obtain ⟨⟨steps, last⟩, ran, ends⟩ := ran
  cases ends
  obtain ⟨unchanged, silent⟩ := List.append_eq_nil_iff.mp none
  obtain rfl := List.map_eq_nil_iff.mp unchanged
  obtain ⟨rfl, stays⟩ := Rule.run_eq_ok_nil ran
  exact ⟨stays, List.map_eq_nil_iff.mp silent⟩

theorem exists_clean_of_adapt {rules : List Rule} {s : Text} {adapted : Conversion}
    (ran : adapt rules s = .ok adapted)
    (silent : adapted.unsupported = []) : ∃ converted, adapted.text = Cleanup.clean converted := by
  rw [adapt, bind_eq_ok_iff] at ran
  obtain ⟨⟨steps, converted⟩, -, ends⟩ := ran
  cases ends
  exact ⟨converted, markUnsupported_eq_self silent⟩

theorem Unmapped.still {s : Text} (unmapped : Unmapped s) (none : Cleanup.option.codeHits s = []) :
    (∀ rule ∈ Rule.table, rule.apply s = .ok s) ∧ (markUnsupported (Cleanup.clean s)).2 = [] := by
  have same := (Cleanup.sameContent_clean_iff s).mpr none
  refine ⟨unmapped.apply_table, ?_⟩
  rw [unmapped.markUnsupported_eq same.words]

/-! ### Layouts that are found again -/

/-- Whether the text of an adapted statement is ready for its layout. Where marks were set it is
still as tidy as cleanup left it. A plain query does not open like a table definition. In a table
definition no literal reaches out of the name of the table, and what follows the columns does not
end with a semicolon. -/
structure Steady (adapted : Conversion) : Prop where
  tidy : adapted.unsupported ≠ [] → (∀ x ∈ codeSegments adapted.text, Cleanup.Tidy x) ∧
    trim adapted.text = adapted.text
  undefined : Shape.detect adapted.text = .plainQuery → ¬ Shape.OpensDefinition adapted.text
  closed : ∀ d, Layout.Definition.read? adapted.text = some d → Sealed (lexemes d.table)
  ended : ∀ d, Layout.Definition.read? adapted.text = some d → d.tail.getLast? ≠ some ';'

namespace Steady

variable {rules : List Rule} {s t : Text} {adapted : Conversion} (steady : Steady adapted)
  (ran : adapt rules s = .ok adapted) (laid : (Shape.detect adapted.text).layout adapted.text = t)

include steady ran

theorem tidied : (∀ x ∈ codeSegments adapted.text, Cleanup.Tidy x) ∧
    trim adapted.text = adapted.text := by
  by_cases silent : adapted.unsupported = []
  · obtain ⟨converted, same⟩ := exists_clean_of_adapt ran silent
    rw [same]
    exact ⟨Cleanup.tidy_codeSegments_clean converted, trim_trim _⟩
  · exact steady.tidy silent

include laid

theorem detect_eq : Shape.detect t = Shape.detect adapted.text := by
  rw [← laid]
  exact Shape.detect_layout (steady.tidied ran).2 steady.undefined

/-- The layout is found again behind a cleanup, with the same shape. -/
theorem layout_clean (none : Cleanup.option.codeHits t = []) :
    (Shape.detect adapted.text).layout (Cleanup.clean t) = t ∧
      Shape.detect (Cleanup.clean t) = Shape.detect adapted.text := by
  have shape := steady.detect_eq ran laid
  obtain ⟨tidy, trimmed⟩ := steady.tidied ran
  generalize Shape.detect adapted.text = kind at laid shape ⊢
  subst laid
  cases kind with
  | definition =>
      obtain ⟨same, detected⟩ := Layout.definition_clean tidy trimmed none steady.closed
        steady.ended
      exact ⟨same, detected.trans shape⟩
  | aggregateQuery =>
      have kept := Layout.clean_aggregateQuery tidy trimmed none
      simp only [Shape.layout] at shape ⊢
      rw [kept]
      exact ⟨aggregateQuery_aggregateQuery adapted.text, shape⟩
  | plainQuery =>
      obtain ⟨same, detected⟩ := Layout.plainQuery_clean tidy trimmed none
      exact ⟨same, detected.trans shape⟩

/-- A second conversion has nothing to do exactly if no rule changes the result and nothing in it is
unsupported. -/
theorem convert_iff (none : Cleanup.option.codeHits t = []) :
    convert rules t = .ok ⟨t, [], [.laidOut (Shape.detect t)]⟩ ↔
      (∀ rule ∈ rules, rule.apply t = .ok t) ∧ (markUnsupported (Cleanup.clean t)).2 = [] := by
  obtain ⟨again, detected⟩ := steady.layout_clean ran laid none
  constructor
  · intro second
    rw [convert, bind_eq_ok_iff] at second
    obtain ⟨marked, ran, laid⟩ := second
    have events := (Conversion.mk.inj (Except.ok.inj laid)).2.2
    have still : marked.events = [] := List.length_eq_zero_iff.mp
      (by simpa using congrArg List.length events)
    exact still_of_adapt ran still
  · rintro ⟨stays, silent⟩
    rw [convert, adapt_eq_clean stays silent, steady.detect_eq ran laid]
    simp only [bind, Except.bind, pure, Except.pure, detected, again, List.nil_append]

/-- A second conversion keeps the text exactly if what it adapts is laid out as the cleaned text is.
-/
theorem text_convert_iff (none : Cleanup.option.codeHits t = []) {again second : Conversion}
    (readapted : adapt rules t = .ok again) (reconverted : convert rules t = .ok second) :
    second.text = t ↔ (Shape.detect again.text).layout again.text =
      (Shape.detect (Cleanup.clean t)).layout (Cleanup.clean t) := by
  obtain ⟨same, detected⟩ := steady.layout_clean ran laid none
  rw [convert, readapted] at reconverted
  cases reconverted
  rw [detected, same]

end Steady

/-! ### The second conversion -/

/-- A second conversion of a result without options leaves it as it is and reports nothing exactly
if no rule changes it and nothing in it is unsupported. It keeps the text exactly if its rules and
marks change only what the layout undoes. Both are so wherever no keyword is left outside literals.
-/
theorem convert_convert_iff {s : Text} {adapted result : Conversion}
    (ran : adapt Rule.table s = .ok adapted)
    (converted : convert Rule.table s = .ok result) (steady : Steady adapted)
    (none : Cleanup.option.codeHits result.text = []) :
    (convert Rule.table result.text = .ok ⟨result.text, [], [.laidOut (Shape.detect result.text)]⟩ ↔
      (∀ rule ∈ Rule.table, rule.apply result.text = .ok result.text) ∧
        (markUnsupported (Cleanup.clean result.text)).2 = []) ∧
      (∀ again second, adapt Rule.table result.text = .ok again →
        convert Rule.table result.text = .ok second →
        (second.text = result.text ↔ (Shape.detect again.text).layout again.text =
          (Shape.detect (Cleanup.clean result.text)).layout (Cleanup.clean result.text))) ∧
      (Unmapped result.text →
        ∃ second, convert Rule.table result.text = .ok second ∧ second.text = result.text) := by
  have laid : (Shape.detect adapted.text).layout adapted.text = result.text := by
    rw [convert, ran] at converted
    cases converted
    rfl
  have exactly := steady.convert_iff ran laid none
  exact ⟨exactly, fun _ _ => steady.text_convert_iff ran laid none,
    fun unmapped => ⟨_, exactly.mpr (unmapped.still none), rfl⟩⟩

theorem convert_convert_iff_definition :
    let result : Text := "CREATE TABLE t (\n    a,\n    LOWER(b)\n) x;"
    convert Rule.table "CREATE TABLE t (a,LCASE(b))x" =
        .ok ⟨result, [], [.changed "lcase", .laidOut .definition]⟩ ∧
      ∃ second, convert Rule.table result = .ok second ∧ second.text = result := by
  intro result
  have ran : adapt Rule.table "CREATE TABLE t (a,LCASE(b))x" =
      .ok ⟨"CREATE TABLE t (a,LOWER(b))x", [], [.changed "lcase"]⟩ := by decide +kernel
  have converted : convert Rule.table "CREATE TABLE t (a,LCASE(b))x" =
      .ok ⟨result, [], [.changed "lcase", .laidOut .definition]⟩ := by
    rw [convert, ran]
    decide +kernel
  have read : Layout.Definition.read? "CREATE TABLE t (a,LOWER(b))x" =
      some ⟨false, "t", ["a", "LOWER(b)"], "x"⟩ := by decide +kernel
  have steady : Steady ⟨"CREATE TABLE t (a,LOWER(b))x", [], [.changed "lcase"]⟩ := by
    refine ⟨fun marked => absurd rfl marked, fun shape => absurd shape (by decide +kernel),
      fun d parts => ?_, fun d parts => ?_⟩
    · cases read.symm.trans parts
      have neutral : ∀ c ∈ "t".toList, ScanState.isNeutral c = true := by decide
      have table : lexemes "t" = "t".toList.map .code ++ [] := by decide
      exact table ▸ Sealed.nil.code_append neutral
    · cases read.symm.trans parts
      decide
  exact ⟨converted, (convert_convert_iff ran converted steady (by decide +kernel)).2.2
    (by decide +kernel)⟩

/-- The rules take the two words behind a column type away only one at a time if they stand in this
order. -/
theorem not_forall_convert_convert :
    ¬ ∀ s result, convert Rule.table s = .ok result →
      ∃ second, convert Rule.table result.text = .ok second ∧ second.text = result.text := by
  intro all
  have first : (convert Rule.table "CREATE TABLE t (a INT ZEROFILL UNSIGNED)").toOption.map
      Conversion.text =
      some "CREATE TABLE t (\n    a INTEGER UNSIGNED\n);".toList := by decide +kernel
  have again : (convert Rule.table "CREATE TABLE t (\n    a INTEGER UNSIGNED\n);").toOption.map
      Conversion.text =
      some "CREATE TABLE t (\n    a INTEGER\n);".toList := by decide +kernel
  cases converted : convert Rule.table "CREATE TABLE t (a INT ZEROFILL UNSIGNED)" with
  | error fault =>
      rw [converted] at first
      cases first
  | ok result =>
      rw [converted] at first
      obtain ⟨second, reconverted, same⟩ := all _ _ converted
      rw [Option.some.inj first] at reconverted same
      rw [reconverted] at again
      exact absurd (same.symm.trans (Option.some.inj again)) (by decide +kernel)

end LiteSql
