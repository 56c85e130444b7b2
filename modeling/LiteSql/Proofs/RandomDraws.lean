import LiteSql.Proofs.DrawnCalls
import LiteSql.Proofs.DrawnTemplates

/-! Random draws under the rules. No rule of the table evaluates a draw more often than the text
does, except that the template for NULLIF writes its first argument twice. -/

namespace LiteSql

open Trail

/-- A call that can be replaced without adding a draw. It does not stand directly behind the bare
name of a draw, which parentheses in its place would complete. Values that are joined without
parentheses leave no such name open and take in no word behind them. A value that is written twice
draws nothing. -/
structure Replaceable (function s : Text) (pos close : Nat) : Prop where
  apart : endsInDraw (s.take pos) = false
  ended : function = "CONCAT" → endsInDraw (s.take close) = false ∧
    (s.drop (close + 1)).head?.any isWordChar = false
  single : function = "NULLIF" → (argumentsAt function s (pos, close)).length = 2 →
    ∀ first ∈ (argumentsAt function s (pos, close)).head?, draws first = 0

instance (function s : Text) (pos close : Nat) : Decidable (Replaceable function s pos close) :=
  decidable_of_iff
    (endsInDraw (s.take pos) = false ∧
      (function = "CONCAT" →
        endsInDraw (s.take close) = false ∧ (s.drop (close + 1)).head?.any isWordChar = false) ∧
      (function = "NULLIF" → (argumentsAt function s (pos, close)).length = 2 →
        ∀ first ∈ (argumentsAt function s (pos, close)).head?, draws first = 0))
    ⟨fun ⟨apart, ended, single⟩ => ⟨apart, ended, single⟩,
      fun fitting => ⟨fitting.apart, fitting.ended, fitting.single⟩⟩

/-- A text in which all calls of a function can be replaced without adding a draw. There are no line
comments, whose end an argument would lose, and values that are joined have their signs applied. -/
structure Measured (function s : Text) : Prop where
  plain : ∀ l ∈ lexemes s, l.isLineComment = false
  applied : function = "CONCAT" → SignsApplied function s
  calls : ∀ pos close, IsCall function s pos close → Replaceable function s pos close

instance (function s : Text) : Decidable (Measured function s) :=
  decidable_of_iff
    ((∀ l ∈ lexemes s, l.isLineComment = false) ∧ (function = "CONCAT" → SignsApplied function s) ∧
      ∀ pos < s.length, startsIgnoringCase function (s.drop pos) = true → ∀ close < s.length,
        IsCall function s pos close → Replaceable function s pos close)
    ⟨fun ⟨plain, applied, calls⟩ => ⟨plain, applied, fun pos close call => by
        have inner := call.lt_close
        have outer := call.close_lt
        exact calls pos (by omega) call.named close outer call⟩,
      fun measured => ⟨measured.plain, measured.applied, fun pos _ _ close _ =>
        measured.calls pos close⟩⟩

/-! ### Calls answered by actions -/

namespace Rule

def Answering (rule : Rule) : Prop :=
  ∀ name function action, rule = call name function action →
    Modest (decide (function = ("CONCAT" : Text))) action

theorem answering_call {name function : Text} {action : List Text → Except Fault (Option Text)}
    (other : function ≠ "CONCAT") (modest : Modest false action) :
    (call name function action).Answering := by
  intro _ _ _ same
  cases same
  rwa [decide_eq_false other]

theorem answering_template (name function : Text) (arity : Int) (parts : Template) :
    (template name function arity parts).Answering := by
  intro _ _ _ same
  cases same

theorem answering_pattern (name : Text) (wanted : Pattern) (replacement : Match → Text) :
    (pattern name wanted replacement).Answering := by
  intro _ _ _ same
  cases same

theorem answering_stringRules : ∀ rule ∈ stringRules, rule.Answering := by
  simp only [stringRules, List.forall_mem_cons, List.not_mem_nil, false_imp_iff, implies_true,
    and_true]
  refine ⟨?_, answering_call (by decide) modest_substring, ?_, ?_, ?_, ?_,
    answering_call (by decide) modest_groupConcat⟩
  · intro _ _ _ same
    cases same
    exact modest_concat
  all_goals exact answering_template _ _ _ _

theorem answering_dateRules : ∀ rule ∈ dateRules, rule.Answering := by
  simp only [dateRules, List.forall_mem_cons, List.not_mem_nil, false_imp_iff, implies_true,
    and_true]
  refine ⟨answering_call (by decide) (modest_move 1), answering_call (by decide) (modest_move (-1)),
    ?_, ?_, ?_, ?_, ?_, ?_, ?_, ?_, ?_, ?_, ?_, ?_, ?_,
    answering_call (by decide) modest_unixTimestamp, ?_⟩
  all_goals exact answering_template _ _ _ _

theorem answering_numericRules : ∀ rule ∈ numericRules, rule.Answering := by
  simp only [numericRules, List.forall_mem_cons, List.not_mem_nil, false_imp_iff, implies_true,
    and_true]
  refine ⟨answering_call (by decide) (modest_rounding .up),
    answering_call (by decide) (modest_rounding .up),
    answering_call (by decide) (modest_rounding .down), ?_, ?_⟩
  all_goals exact answering_template _ _ _ _

theorem answering_typeRules : ∀ rule ∈ typeRules, rule.Answering := by
  simp only [typeRules, List.forall_mem_cons, List.not_mem_nil, false_imp_iff, implies_true,
    and_true]
  refine ⟨?_, ?_, ?_, answering_call (by decide) modest_enum, ?_, ?_, ?_⟩
  all_goals exact answering_pattern _ _ _

theorem answering_table : ∀ rule ∈ table, rule.Answering := by
  have others : ∀ rule ∈ conditionalRules ++ joinRules ++ keyRules, rule.Answering := by
    simp only [conditionalRules, joinRules, keyRules, List.forall_mem_append, List.forall_mem_cons,
      List.not_mem_nil, false_imp_iff, implies_true, and_true]
    refine ⟨⟨⟨?_, ?_, ?_⟩, ?_, ?_⟩, ?_, ?_, ?_⟩
    all_goals first | exact answering_template _ _ _ _ | exact answering_pattern _ _ _
  intro rule member
  simp only [table, List.append_assoc, List.mem_append] at member
  simp only [List.mem_append] at others
  rcases member with member | member | member | member | member | member | member
  · exact answering_stringRules rule member
  · exact answering_dateRules rule member
  · exact answering_numericRules rule member
  · exact others rule (.inl (.inl member))
  · exact answering_typeRules rule member
  · exact others rule (.inl (.inr member))
  · exact others rule (.inr member)

theorem draws_call_le {name function : Text} {action : List Text → Except Fault (Option Text)}
    (member : call name function action ∈ table) {s t : Text}
    (applied : (call name function action).apply s = .ok t)
    (measured : Measured function s) : draws t ≤ draws s := by
  have settles := settling_table _ member function action rfl
  have modest := answering_table _ member _ _ _ rfl
  have ascii : IsAsciiWord function := isAsciiWord_function? member rfl
  generalize which : decide (function = ("CONCAT" : Text)) = strict at settles modest
  have joins (signs : strict = true) : function = "CONCAT" := of_decide_eq_true (which.trans signs)
  obtain ⟨last, reads, calm⟩ :=
    Mode.exists_calm (fun c among => (ascii.2 c among).2) measured.plain fun signs =>
      measured.applied (joins signs)
  have composed : Composed strict function s :=
    ⟨fun pos close call => (measured.calls pos close call).apart,
      fun signs pos close call => (measured.calls pos close call).ended (joins signs)⟩
  have replaced : (callsFrom function s 0).replaceM action = .ok t :=
    (callsFrom_zero function s).symm ▸ applied
  rw [draws_eq_count, draws_eq_count]
  exact (drawsAtMost_replaceM ascii settles modest 0 reads calm composed rfl rfl
    (.inl (.refl ready))
    replaced).count_le

/-! ### Calls written by templates -/

def ownDraw (function : Text) : Nat := if function = "RAND" then 1 else 0

theorem ownDraw_le {function written : Text} (named : spelled function written = true) :
    ownDraw function ≤ tally ready (written.map .code ++ [.code '(']) := by
  rw [ownDraw]
  split
  · next draw =>
      rw [draw] at named
      have letters := (isWordChar_of_spelled (k := "RAND") (by decide) named).2
      have neutral : ∀ c ∈ written ++ ['('], ScanState.isNeutral c = true := by
        intro c member
        rcases List.mem_append.mp member with letter | paren
        · exact ScanState.isNeutral_of_class (by decide) (letters c letter)
        · rw [List.mem_singleton.mp paren]
          decide
      have fits : Fits .code ready none := rfl
      have none : ∀ c ∈ ([] : Text), isBlank c = true := List.forall_mem_nil _
      have counted := (read_draw fits rfl (.inl named) none).1
      have whole := (tally_code ready neutral).1
      rw [List.map_append] at whole
      rw [List.nil_append, ← whole] at counted
      exact counted.ge
  · exact Nat.zero_le _

/-- Whether a template adds no draw to calls of its function, if its first argument draws nothing
where it is written twice. -/
def isThrifty : Rule → Bool
  | template _ function arity parts =>
    parts.isSound arity && parts.isModest (ownDraw function) [ready, spent] &&
      (parts.repeats.isEmpty || parts.isSolid) &&
      parts.repeats.all fun i => decide (function = "NULLIF" ∧ arity = 2 ∧ i = 0)
  | _ => true

theorem isThrifty_table : ∀ rule ∈ table, rule.isThrifty = true := by
  decide +kernel

theorem sober_lexemes {function : Text} (ascii : IsAsciiWord function) {arity : Int}
    {parts : Template}
    (repeated : ∀ i ∈ parts.repeats, function = "NULLIF" ∧ arity = 2 ∧ i = 0) {s : Text}
    (measured : Measured function s) : Sober function arity parts ready [] (lexemes s) := by
  intro a written inner b read cut
  rw [List.nil_append] at cut
  have call := cut.isCall read
  obtain ⟨filled, letters⟩ := isWordChar_of_spelled ascii cut.named
  have text : s = a.flatMap Lexeme.text ++ (written ++
      '(' :: (inner.flatMap Lexeme.text ++ ')' :: b.flatMap Lexeme.text)) := by
    rw [(lexemes_of_append read).1, List.flatMap_append, flatMap_text_callLexemes]
    simp
  have before : s.take (a.flatMap Lexeme.text).length = a.flatMap Lexeme.text := by
    rw [text, List.take_left]
  constructor
  · obtain ⟨c, w, rfl⟩ := List.exists_cons_of_ne_nil filled
    have opened : (scan (a.flatMap Lexeme.text)).isOpen = true := by
      refine isOpen_scan_of_lexemes read ?_
      rintro rfl
      exact absurd (letters '\n' List.mem_cons_self) (by decide)
    have fresh := call.after_take (by rwa [before]) (measured.calls _ _ call).apart
    have lexed : lexemes s = [] ++ (a ++ (callLexemes (c :: w) inner ++ b)) := read
    have trail := (read_lexemes lexed).2
    rw [before] at fresh
    exact trail.symm.trans fresh
  · have quiet : ∀ l ∈ inner, l.isLineComment = false := fun l member => measured.plain l (by
      rw [read, callLexemes]
      simp [member])
    obtain ⟨cores, argued⟩ := exists_argued (sealed_inner read quiet) cut.balanced
    refine ⟨cores, argued, fun count i among => ?_⟩
    obtain ⟨named, two, rfl⟩ := repeated i among
    obtain ⟨first, second, rfl⟩ := List.length_eq_two.mp
      (by rw [two] at count; exact_mod_cast count)
    have list := slice_arguments read
    rw [((spelled_iff _ _).mp cut.named).2] at list
    have arguments : argumentsAt function s ((a.flatMap Lexeme.text).length,
        (a.flatMap Lexeme.text).length + function.length + 1 + (inner.flatMap Lexeme.text).length) =
          [first.flatMap Lexeme.text, second.flatMap Lexeme.text] := by
      rw [argumentsAt, list]
      exact argued.splitArguments_eq
    have single := (measured.calls _ _ call).single named (by rw [arguments]; rfl) _
      (by rw [arguments]; rfl)
    rwa [draws_eq_tally, (argued.sealed first List.mem_cons_self).lexemes_text] at single

theorem draws_template_le {name function : Text} {arity : Int} {parts : Template}
    (member : template name function arity parts ∈ table) {s t : Text}
    (applied : (template name function arity parts).apply s = .ok t)
    (measured : Measured function s) :
    draws t ≤ draws s := by
  have ascii : IsAsciiWord function := isAsciiWord_function? member rfl
  have thrifty := isThrifty_table _ member
  simp only [isThrifty, Bool.and_eq_true, Bool.or_eq_true, List.isEmpty_iff, List.all_eq_true,
    decide_eq_true_eq] at thrifty
  obtain ⟨⟨⟨sound, modest⟩, solid⟩, repeated⟩ := thrifty
  obtain ⟨u, applied', recast⟩ : ∃ u, (template name function arity parts).apply s = .ok u ∧ _ :=
    exists_apply_template ascii sound measured.plain
  obtain rfl : t = u := Except.ok.inj (applied.symm.trans applied')
  have firm : parts.repeats = [] ∨ Firm function (Turned arity parts) :=
    solid.imp_right (firm_turned ascii sound)
  rw [draws_eq_tally, draws_eq_tally]
  exact (recast.tally_le ascii sound modest (fun _ => ownDraw_le) firm
    (sober_lexemes ascii repeated measured)
    (.refl ready)).1

/-! ### The table -/

theorem draws_apply_le {rule : Rule} (member : rule ∈ table) {s t : Text}
    (applied : rule.apply s = .ok t)
    (measured : ∀ function ∈ rule.function?, Measured function s) : draws t ≤ draws s := by
  cases rule with
  | undefined name => cases applied
  | template name function arity parts =>
      exact draws_template_le member applied (measured function rfl)
  | call name function action => exact draws_call_le member applied (measured function rfl)
  | pattern name wanted replacement =>
      cases applied
      exact draws_replaceCode_le member s

/-- Every rule finds calls that it can replace without adding a draw, in the text that the rules
before it left. -/
def MeasuredRun : List Rule → Text → Prop
  | [], _ => True
  | rule :: rules, s => (∀ function ∈ rule.function?, Measured function s) ∧
    match rule.apply s with
    | .ok t => MeasuredRun rules t
    | .error _ => True

instance decidableMeasuredRun : (rules : List Rule) → (s : Text) → Decidable (MeasuredRun rules s)
  | [], _ => .isTrue trivial
  | rule :: rules, s =>
    have _ : Decidable (match rule.apply s with
        | .ok t => MeasuredRun rules t
        | .error _ => True) :=
      match rule.apply s with
      | .ok t => decidableMeasuredRun rules t
      | .error _ => .isTrue trivial
    inferInstanceAs (Decidable (_ ∧ _))

theorem draws_run_le {rules : List Rule} (members : ∀ rule ∈ rules, rule ∈ table) {s t : Text}
    {steps : List Step}
    (ran : run rules s = .ok (steps, t)) (measured : MeasuredRun rules s) : draws t ≤ draws s := by
  induction rules generalizing s t steps with
  | nil =>
      cases ran
      exact le_rfl
  | cons rule rules ih =>
      obtain ⟨first, others⟩ := List.forall_mem_cons.mp members
      rw [run, bind_eq_ok_iff] at ran
      obtain ⟨changed, applied, ran⟩ := ran
      rw [bind_eq_ok_iff] at ran
      obtain ⟨⟨later, last⟩, rest, same⟩ := ran
      cases same
      obtain ⟨here, behind⟩ := measured
      rw [applied] at behind
      exact (ih others rest behind).trans (draws_apply_le first applied here)

theorem exists_steps {result : Except Fault (List Step × Text)} {t : Text}
    (last : result.map Prod.snd = .ok t) :
    ∃ steps, result = .ok (steps, t) := by
  cases result with
  | error fault => cases last
  | ok result => exact ⟨result.1, congrArg Except.ok (Prod.ext rfl (Except.ok.inj last))⟩

/-- The template for NULLIF writes a draw twice. -/
theorem not_forall_draws_le : ¬ ∀ rule ∈ table, ∀ s t, rule.apply s = .ok t →
    draws t ≤ draws s := by
  intro all
  have twice : (template "nullif" "NULLIF" 2
      ["CASE WHEN ", .argument 0, " = ", .argument 1, " THEN NULL ELSE ", .argument 0,
        " END"]).apply "NULLIF(RAND(), 1)" =
        .ok "CASE WHEN RAND() = 1 THEN NULL ELSE RAND() END" := by decide +kernel
  have bound := all _ (List.mem_of_getElem? (i := 31) rfl) _ _ twice
  exact absurd bound (by decide +kernel)

/-- No rule of the table evaluates a draw more often than its text does, and no run of such rules,
as long as the calls that they replace are measured. -/
theorem draws_le_of_measured (s : Text) :
    (∀ rule ∈ table, ∀ t, rule.apply s = .ok t →
      (∀ function ∈ rule.function?, Measured function s) →
      draws t ≤ draws s) ∧
    ∀ rules : List Rule, (∀ rule ∈ rules, rule ∈ table) → ∀ steps t, run rules s = .ok (steps, t) →
      MeasuredRun rules s → draws t ≤ draws s :=
  ⟨fun _ member _ applied measured => draws_apply_le member applied measured,
    fun _ members _ _ ran measured => draws_run_le members ran measured⟩

/-- Draws in a call in a call, and in a literal. -/
theorem draws_le_of_measured_nested :
    let rules := [template "rand" "RAND" 0 ["(ABS(RANDOM()) % 1000000) / 1000000.0"],
      template "nullif" "NULLIF" 2
        ["CASE WHEN ", .argument 0, " = ", .argument 1, " THEN NULL ELSE ", .argument 0, " END"]]
    let s : Text := "NULLIF(a, NULLIF('RAND()', rand( )))"
    let t : Text :=
      "CASE WHEN a = CASE WHEN 'RAND()' = (ABS(RANDOM()) % 1000000) / 1000000.0 THEN NULL ELSE 'RAND()' END THEN NULL ELSE a END"
    (run rules s).map Prod.snd = .ok t ∧ MeasuredRun rules s ∧ draws s = 1 ∧ draws t ≤ draws s := by
  intro rules s t
  have members : ∀ rule ∈ rules, rule ∈ table := List.forall_mem_cons.mpr
    ⟨List.mem_of_getElem? (i := 28) rfl, List.forall_mem_singleton.mpr
      (List.mem_of_getElem? (i := 31) rfl)⟩
  have measured : MeasuredRun rules s := by decide +kernel
  have last : (run rules s).map Prod.snd = .ok t := by decide +kernel
  obtain ⟨steps, ran⟩ := exists_steps last
  exact ⟨last,
    measured, by decide +kernel, (draws_le_of_measured s).2 rules members steps t ran measured⟩

end Rule

end LiteSql
