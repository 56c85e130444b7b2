import LiteSql.Proofs.DigitBudget
import LiteSql.Proofs.RuleSeam
import LiteSql.Proofs.Unmapped

/-! Templates against the table. A call of a function with a template becomes the filled template,
and no other rule of the table changes the call before that or the filled template after it. -/

namespace LiteSql

open Template

/-! ### What a rule leaves of a filled template -/

namespace Template

/-- Whether every text of a template is left as it is, on its own and between the arguments around
it. -/
def weaves (whole lead follow : Text → Bool) : Template → Bool
  | [.text t] => whole t
  | [.argument _] => true
  | .text t :: .argument index :: rest =>
      lead t && weaves whole lead follow (.argument index :: rest)
  | .argument _ :: .text t :: rest => follow t && weaves whole lead follow (.text t :: rest)
  | _ => false

theorem eq_nil_of_fillAs_nil {arguments : List Text} {numbering : Numbering} {s : Text}
    (filled : fillAs arguments numbering [] = .ok s) : s = [] := by
  cases numbering <;> cases filled <;> rfl

end Template

def Template.isLaced : Template → Bool :=
  weaves (fun _ => true) (fun t => decide (IsLead t)) fun t => decide (IsFollow t)

def Rule.keepsFilled (rule : Rule) : Template → Bool :=
  weaves rule.keeps rule.keepsBefore rule.keepsBehind

theorem Rule.Handles.apply_fillAs {rule : Rule} (handles : rule.Handles) {arguments : List Text}
    (each : ∀ a ∈ arguments, IsArgument a ∧ rule.apply a = .ok a) {parts : Template}
    (laced : parts.isLaced = true) (woven : rule.keepsFilled parts = true) {numbering : Numbering}
    {s : Text} (filled : fillAs arguments numbering parts = .ok s) : rule.apply s = .ok s := by
  rw [keepsFilled] at woven
  fun_induction weaves rule.keeps rule.keepsBefore rule.keepsBehind parts
    generalizing numbering s with
  | case1 t =>
      obtain ⟨last, none, rfl⟩ := fillAs_text filled
      rw [eq_nil_of_fillAs_nil none, List.append_nil]
      exact handles.alone t woven
  | case2 index =>
      obtain ⟨a, member, last, none, rfl⟩ := fillAs_argument filled
      rw [eq_nil_of_fillAs_nil none, List.append_nil]
      exact (each a member).2
  | case3 t index rest ih =>
      rw [isLaced, weaves, Bool.and_eq_true, decide_eq_true_iff] at laced
      rw [Bool.and_eq_true] at woven
      obtain ⟨last, others, rfl⟩ := fillAs_text filled
      obtain ⟨a, member, more, -, rfl⟩ := fillAs_argument others
      exact handles.before t _ laced.1 woven.1 ((each a member).1.head?_ne_blank more)
        (ih laced.2 woven.2 others)
  | case4 index t rest ih =>
      rw [isLaced, weaves, Bool.and_eq_true, decide_eq_true_iff] at laced
      rw [Bool.and_eq_true] at woven
      obtain ⟨a, member, last, others, rfl⟩ := fillAs_argument filled
      obtain ⟨more, -, rfl⟩ := fillAs_text others
      exact handles.behind a t more (each a member).1 laced.1 woven.1 (each a member).2
        (ih laced.2 woven.2 others)
  | case5 => cases woven

/-! ### Calls as templates -/

def callText (function : Text) (arguments : List Text) : Text :=
  function ++ '(' :: (joinArguments arguments ++ [')'])

namespace Template

/-- The arguments from an index on, one after another, with `last` behind them. -/
def listed (last : Template) (index : Nat) : (more : Nat) → Template
  | 0 => .argument index :: last
  | more + 1 => .argument index :: .text ", " :: listed last (index + 1) more

theorem weaves_listed {whole lead follow : Text → Bool} (first : follow ", " = true)
    (second : lead ", " = true)
    (index more : Nat) : weaves whole lead follow (listed [] index more) = true := by
  induction more generalizing index with
  | zero => rfl
  | succ more ih =>
      have rest := ih (index + 1)
      cases more with
      | zero => rw [listed, listed, weaves, first, weaves, second]; rfl
      | succ more =>
          rw [listed] at rest
          rw [listed, listed, weaves, first, weaves, second, rest]
          rfl

def called (function : Text) : (arity : Nat) → Template
  | 0 => [.text (function ++ "()")]
  | more + 1 => .text (function ++ "(") :: listed [.text ")"] 0 more

theorem fillAs_argument_cons {arguments : List Text} {numbering : Numbering}
    (manual : ∀ next, numbering ≠ .automatic next) {index : Nat} {a : Text}
    (found : arguments[index]? = some a)
    {rest : Template} {s : Text} (others : fillAs arguments .manual rest = .ok s) :
    fillAs arguments numbering (.argument index :: rest) = .ok (a ++ s) := by
  have here : argumentAt arguments index = .ok a := by rw [argumentAt, found]
  cases numbering with
  | automatic next => exact absurd rfl (manual next)
  | undecided | manual => simp only [fillAs, here, others]; rfl

theorem fillAs_listed {arguments : List Text} {last : Template} {s : Text}
    (ending : fillAs arguments .manual last = .ok s) (index more : Nat)
    (count : arguments.length = index + more + 1) (numbering : Numbering)
    (manual : ∀ next, numbering ≠ .automatic next) :
    fillAs arguments numbering (listed last index more) = .ok
      (joinArguments (arguments.drop index) ++ s) := by
  induction more generalizing index numbering with
  | zero =>
      have present : index < arguments.length := by omega
      rw [listed, fillAs_argument_cons manual (List.getElem?_eq_getElem present) ending,
        List.drop_eq_getElem_cons present, List.drop_of_length_le (by omega)]
      rfl
  | succ more ih =>
      have present : index < arguments.length := by omega
      have others := ih (index + 1) (by omega) .manual (by simp)
      have text : fillAs arguments .manual (.text ", " :: listed last (index + 1) more) =
          .ok (", " ++ (joinArguments (arguments.drop (index + 1)) ++ s)) := by
        rw [fillAs, others]
        rfl
      rw [listed, fillAs_argument_cons manual (List.getElem?_eq_getElem present) text,
        List.drop_eq_getElem_cons present, joinArguments, joinArguments, joinWith_cons]
      · simp
      · rw [Ne, List.drop_eq_nil_iff]
        omega

theorem fill_called (function : Text) (arguments : List Text) :
    (called function arguments.length).fill arguments = .ok (callText function arguments) := by
  cases arguments with
  | nil => exact congrArg Except.ok (List.append_nil _)
  | cons a rest =>
      have ending : fillAs (a :: rest) .manual [.text ")"] = .ok ")" := rfl
      have inner := fillAs_listed ending 0 rest.length (by simp) .undecided (by simp)
      rw [fill, List.length_cons, called, fillAs, inner]
      exact congrArg Except.ok (List.append_assoc ..)

end Template

/-! ### The arguments of a call are read again -/

theorem Listed.cons_blank {cores : List (List Lexeme)} {whole : List Lexeme}
    (listed : Listed cores whole)
    {l : Lexeme} (blank : l.isBlank = true) : Listed cores (l :: whole) := by
  have wider {core x : List Lexeme} (padding : Padding core x) : Padding core (l :: x) := by
    obtain ⟨before, after, rfl, leading, trailing⟩ := padding
    exact ⟨l :: before, after, rfl, List.forall_mem_cons.mpr ⟨blank, leading⟩, trailing⟩
  cases listed with
  | last padding => exact .last (wider padding)
  | comma padding others => exact .comma (wider padding) others

section

variable {arguments : List Text} (each : ∀ a ∈ arguments, IsArgument a)

include each

theorem exists_listed (present : arguments ≠ []) : ∃ whole, Listed (arguments.map lexemes) whole ∧
    Sealed whole ∧
    whole.flatMap Lexeme.text = joinArguments arguments := by
  induction arguments with
  | nil => exact absurd rfl present
  | cons a rest ih =>
      have argument := each a List.mem_cons_self
      by_cases more : rest = []
      · subst more
        exact ⟨lexemes a, .last (padding_self _), argument.sealed, flatMap_text_lexemes a⟩
      · obtain ⟨whole, listed, closed, text⟩ :=
          ih (fun b member => each b (List.mem_cons_of_mem a member)) more
        refine ⟨lexemes a ++ .code ',' :: .code ' ' :: whole,
          .comma (padding_self _) (listed.cons_blank rfl), argument.sealed.append (by decide)
            (.code_append (x := [' ']) (by decide) closed), ?_⟩
        rw [joinArguments, joinWith_cons more, ← joinArguments, ← text]
        simp [flatMap_text_lexemes, Lexeme.text]

theorem lexemes_joinArguments : Sealed (lexemes (joinArguments arguments)) ∧
    Balanced (lexemes (joinArguments arguments)) ∧ splitArguments (joinArguments arguments) =
      arguments := by
  by_cases present : arguments = []
  · subst present
    exact ⟨.nil, rfl, rfl⟩
  · obtain ⟨whole, listed, closed, text⟩ := exists_listed each present
    have items : ∀ core ∈ arguments.map lexemes, Item core := by
      simpa using fun a member => (each a member).item
    have trimmed : (arguments.map lexemes).map (fun core => trim (core.flatMap Lexeme.text)) =
        arguments := by
      rw [List.map_map]
      refine (List.map_congr_left fun a member => ?_).trans (List.map_id arguments)
      exact (congrArg trim (flatMap_text_lexemes a)).trans (each a member).trimmed
    refine ⟨?_, ?_, ?_⟩
    · rwa [← text, closed.lexemes_text]
    · rw [← text, closed.lexemes_text]
      exact listed.balanced items
    · rw [← text, listed.splitArguments_eq items closed, trimmed]
      obtain ⟨a, member⟩ := List.exists_mem_of_ne_nil _ present
      refine ⟨lexemes a, List.mem_map_of_mem member, ?_⟩
      rw [flatMap_text_lexemes, (each a member).trimmed]
      exact (each a member).filled

theorem replaceCallsM_callText {function : Text} (word : ∀ c ∈ function, isWordChar c = true)
    {action : List Text → Except Fault (Option Text)} {answer : Text}
    (inner : replaceCallsM function action (joinArguments arguments) =
      .ok (joinArguments arguments))
    (answered : action arguments = .ok (some answer)) :
    replaceCallsM function action (callText function arguments) = .ok answer := by
  obtain ⟨closed, balanced, split⟩ := lexemes_joinArguments each
  rw [callText, replaceCallsM_enclosed word action closed balanced inner, split, answered]
  rfl

end

/-! ### The table -/

def startsApart : Text → Text → Bool
  | c :: x, d :: y => c != d || startsApart x y
  | _, _ => false

theorem append_ne_append {x y : Text} (apart : startsApart x y = true) (a b : Text) :
    x ++ a ≠ y ++ b := by
  intro same
  induction x generalizing y with
  | nil => cases apart
  | cons c x ih =>
      cases y with
      | nil => cases apart
      | cons d y =>
          obtain ⟨rfl, rest⟩ := List.cons.inj same
          rw [startsApart, bne_self_eq_false, Bool.false_or] at apart
          exact ih apart rest

namespace Rule

/-- Whether the template of a rule takes its arguments, can be told from them, and does not begin
like a call of the function. -/
def isWellMade : Rule → Bool
  | template _ function arity parts =>
    parts.fits arity && parts.isLaced && (called function arity.toNat).isLaced &&
      parts.head?.any fun
        | .text t => startsApart (function ++ "(") t
        | _ => false
  | _ => true

/-- Whether a rule is seen to leave what another rule writes by its template as it is, and the calls
that it writes so, if they are not its own. -/
def spares (rule : Rule) : Rule → Bool
  | template _ function arity parts =>
    rule.keepsFilled parts && (rule.function? == some function || rule.keepsFilled
      (called function arity.toNat))
  | _ => true

theorem isWellMade_table : ∀ rule ∈ table, rule.isWellMade = true := by
  decide +kernel

theorem spares_table : ∀ rule ∈ table, ∀ other ∈ table, rule.spares other = true := by
  decide +kernel

theorem run_eq_step {before after : List Rule} {rule : Rule} {s t : Text}
    (first : ∀ other ∈ before, other.apply s = .ok s) (changed : rule.apply s = .ok t)
    (differs : t ≠ s)
    (last : ∀ other ∈ after, other.apply t = .ok t) :
    run (before ++ rule :: after) s = .ok ([⟨rule.name, t⟩], t) := by
  induction before with
  | nil =>
      rw [List.nil_append, run, changed]
      simp only [bind, Except.bind, run_eq_self last, if_neg differs]
      rfl
  | cons other before ih =>
      have later := ih fun next member => first next (List.mem_cons_of_mem other member)
      rw [List.cons_append, run, first other List.mem_cons_self]
      simp only [bind, Except.bind, later, if_true]
      rfl

section

variable {name function : Text} {arity : Int} {parts : Template}
  (member : template name function arity parts ∈ table) {arguments : List Text}
  (each : ∀ a ∈ arguments, IsArgument a ∧ ∀ rule ∈ table, rule.apply a = .ok a)

include member each

theorem apply_filled {filled : Text} (written : parts.fill arguments = .ok filled) {rule : Rule}
    (listed : rule ∈ table) : rule.apply filled = .ok filled := by
  have made := isWellMade_table _ member
  have spared := spares_table rule listed _ member
  simp only [isWellMade, Bool.and_eq_true] at made
  rw [spares, Bool.and_eq_true] at spared
  refine (handles_table rule listed).apply_fillAs ?_ made.1.1.2 spared.1 written
  exact fun a inside => ⟨(each a inside).1, (each a inside).2 rule listed⟩

variable (count : (arguments.length : Int) = arity)

include count

theorem apply_callText {rule : Rule} (listed : rule ∈ table)
    (other : rule.function? ≠ some function) :
    rule.apply (callText function arguments) = .ok (callText function arguments) := by
  have made := isWellMade_table _ member
  have spared := spares_table rule listed _ member
  have size : arity.toNat = arguments.length := by omega
  simp only [isWellMade, Bool.and_eq_true, size] at made
  rw [spares, Bool.and_eq_true, beq_eq_false_iff_ne.mpr other, Bool.false_or, size] at spared
  refine (handles_table rule listed).apply_fillAs ?_ made.1.2 spared.2
    (fill_called function arguments)
  exact fun a inside => ⟨(each a inside).1, (each a inside).2 rule listed⟩

omit count in
theorem apply_joinArguments : (template name function arity parts).apply (joinArguments arguments) =
    .ok (joinArguments arguments) := by
  cases arguments with
  | nil =>
      refine (handles_table _ member).alone [] ?_
      rfl
  | cons a rest =>
      have ending : fillAs (a :: rest) .manual [] = .ok [] := rfl
      have written := fillAs_listed ending 0 rest.length (by simp) .undecided (by simp)
      rw [List.append_nil, List.drop_zero] at written
      refine (handles_table _ member).apply_fillAs ?_ (weaves_listed (by decide) (by decide) _ _)
        (weaves_listed rfl ?_ _ _) written
      · exact fun a inside => ⟨(each a inside).1, (each a inside).2 _ member⟩
      · have none : words ", " = [] := by decide
        rw [keepsBefore, none]
        rfl

end

/-- For all arguments that no rule of the table changes, a call of a function with a template
becomes the filled template, and this is the only step of the run. -/
theorem run_table_callText {name function : Text} {arity : Int} {parts : Template}
    (member : template name function arity parts ∈ table) {arguments : List Text}
    (count : (arguments.length : Int) = arity)
    (each : ∀ a ∈ arguments, IsArgument a ∧ ∀ rule ∈ table, rule.apply a = .ok a) :
    ∃ filled, parts.fill arguments = .ok filled ∧
      run table (callText function arguments) = .ok ([⟨name, filled⟩], filled) := by
  have made := isWellMade_table _ member
  simp only [isWellMade, Bool.and_eq_true] at made
  obtain ⟨⟨⟨fitting, -⟩, -⟩, begins⟩ := made
  rw [← count] at fitting
  obtain ⟨filled, written⟩ := exists_fillAs fitting .undecided (by simp)
  refine ⟨filled, written, ?_⟩
  have answered : parts.fillExactly arity arguments = .ok (some filled) := by
    rw [fillExactly, if_pos count, fill, written]
    rfl
  have word := isWordChar_function? member rfl
  have own : (template name function arity parts).apply
      (callText function arguments) = .ok filled :=
    replaceCallsM_callText (fun a inside => (each a inside).1) word
      (apply_joinArguments member each) answered
  have differs : filled ≠ callText function arguments := by
    obtain ⟨part, rest, rfl⟩ : ∃ part rest, parts = part :: rest := by
      cases parts with
      | nil => cases begins
      | cons part rest => exact ⟨part, rest, rfl⟩
    cases part with
    | text t =>
        obtain ⟨last, -, rfl⟩ := fillAs_text written
        have apart := append_ne_append begins (joinArguments arguments ++ [')']) last
        rw [List.append_assoc] at apart
        exact Ne.symm apart
    | argument | next | named | broken => cases begins
  have distinct : (table.filterMap function?).Nodup := by decide +kernel
  obtain ⟨before, after, cut⟩ := List.append_of_mem member
  rw [cut]
  refine run_eq_step (fun other early => ?_) own differs fun other late => ?_
  · have listed : other ∈ table := cut ▸ List.mem_append_left _ early
    refine apply_callText member each count listed fun same => ?_
    rw [cut, List.filterMap_append, List.filterMap_cons] at distinct
    have once := (List.nodup_append.mp distinct).2.2
    exact once function (List.mem_filterMap.mpr ⟨other, early, same⟩) function
      List.mem_cons_self rfl
  · exact apply_filled member each written (cut ▸ List.mem_append_right _
      (List.mem_cons_of_mem _ late))

theorem run_table_callText_nullif :
    run table "NULLIF(JULIANDAY(d), 'IF(a, b)')" =
      .ok ([⟨"nullif", "CASE WHEN JULIANDAY(d) = 'IF(a, b)' THEN NULL ELSE JULIANDAY(d) END"⟩],
        "CASE WHEN JULIANDAY(d) = 'IF(a, b)' THEN NULL ELSE JULIANDAY(d) END") := by
  have plain : ∀ a ∈ [("JULIANDAY(d)" : Text), "'IF(a, b)'"], IsArgument a ∧ Unmapped a := by
    decide +kernel
  have listed : table[31]? = some (template "nullif" "NULLIF" 2
      ["CASE WHEN ", arg 0, " = ", arg 1, " THEN NULL ELSE ", arg 0, " END"]) := rfl
  obtain ⟨filled, written, ran⟩ := run_table_callText (List.mem_of_getElem? listed) rfl
    fun a inside => ⟨(plain a inside).1, (plain a inside).2.apply_table⟩
  cases written
  exact ran

end Rule

end LiteSql
