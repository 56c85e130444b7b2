import LiteSql.Proofs.Folding
import LiteSql.Proofs.Marking
import LiteSql.Proofs.Settling

/-! Dates moved by something else than days. Every call is reported once, and none is left. -/

namespace LiteSql

namespace Calls

def visits (answer : List Text → Option Text) : Calls → List (List Text)
  | done => []
  | char _ rest => rest.visits answer
  | call _ inner rest =>
    inner.visits answer ++ splitArguments (inner.replace answer) :: rest.visits answer

theorem length_visits (answer other : List Text → Option Text) (calls : Calls) :
    (calls.visits answer).length = (calls.visits other).length := by
  induction calls with
  | done => rfl
  | char c rest ih => exact ih
  | call name inner rest ihInner ihRest =>
      rw [visits, visits, List.length_append, List.length_append, List.length_cons,
        List.length_cons, ihInner, ihRest]

/-- Replacing calls while a state changes with every call, whatever the state is. -/
theorem run_replaceM {σ : Type} {action : List Text → StateM σ (Option Text)}
    {answer : List Text → Option Text} {change : σ → List Text → σ}
    (acts : ∀ arguments state, (action arguments).run state =
      (answer arguments, change state arguments))
    (calls : Calls) (state : σ) :
    (calls.replaceM action).run state =
      (calls.replace answer, (calls.visits answer).foldl change state) := by
  induction calls generalizing state with
  | done => rfl
  | char c rest ih =>
      rw [replaceM, StateT.run_bind, ih]
      rfl
  | call name inner rest ihInner ihRest =>
      rw [replaceM, StateT.run_bind, ihInner, visits, List.foldl_append, List.foldl_cons,
        replace_call]
      change (action (splitArguments (inner.replace answer)) >>= _).run _ = _
      rw [StateT.run_bind, acts]
      change (rest.replaceM action >>= _).run _ = _
      rw [StateT.run_bind, ihRest]
      rfl

end Calls

theorem foldl_succ {α : Type} (l : List α) (n : Nat) :
    l.foldl (fun n _ => n + 1) n = n + l.length := by
  induction l generalizing n with
  | nil => rfl
  | cons x l ih =>
      rw [List.foldl_cons, ih, List.length_cons]
      omega

theorem run_forM_succ {α : Type} (l : List α) (n : Nat) :
    (forM l fun _ => modify (· + 1) : StateM Nat PUnit).run n = (⟨⟩, n + l.length) := by
  induction l generalizing n with
  | nil => rfl
  | cons x l ih =>
      rw [List.forM_cons, StateT.run_bind]
      change (forM l fun _ => modify (· + 1) : StateM Nat PUnit).run (n + 1) = _
      rw [ih, List.length_cons]
      exact congrArg (PUnit.unit, ·) (by omega)

theorem length_visits_ofText {name : Text} (word : ∀ c ∈ name, isWordChar c = true) (s : Text)
    (answer : List Text → Option Text) :
    ((Calls.ofText name s).visits answer).length = (callsOf name s).length := by
  have between : Between name s 0 := fun i k _ less => absurd less (Nat.not_lt_zero i)
  -- a counter that answers nothing counts both
  have run := replaceM_callsFrom_visit (m := StateM Nat) word (fun _ => modify (· + 1)) 0 between
  rw [callsFrom_zero, Nat.sub_zero, ← List.range_eq_range'] at run
  have counts : ∀ (arguments : List Text) (n : Nat),
      (do modify (· + 1); return none : StateM Nat (Option Text)).run n = (none, n + 1) :=
    fun _ _ => rfl
  have tree := Calls.run_replaceM counts (Calls.ofText name s) 0
  rw [run, foldl_succ, Nat.zero_add] at tree
  have listed : ((do
      forM ((callsOf name s).map (argumentsAt name s)) fun _ => modify (· + 1)
      return s.drop 0 : StateM Nat Text).run 0).2 = (callsOf name s).length := by
    rw [StateT.run_bind, run_forM_succ, List.length_map, Nat.zero_add]
    rfl
  rw [Calls.length_visits answer fun _ => none, ← listed]
  exact (congrArg Prod.snd tree).symm

namespace Unsupported

/-- An action that answers and reports the same, whatever has been reported before. -/
def Reports (action : List Text → Recording (Option Text)) (answer : List Text → Option Text)
    (found : List Text → List Unsupported) : Prop :=
  ∀ arguments before, (action arguments).run before = (answer arguments, before ++ found arguments)

theorem Reports.run_replaceCallsM {action : List Text → Recording (Option Text)}
    {answer : List Text → Option Text} {found : List Text → List Unsupported}
    (reports : Reports action answer found) (name s : Text) (before : List Unsupported) :
    (replaceCallsM name action s).run before =
      (replaceCalls name answer s, before ++ ((Calls.ofText name s).visits answer).flatMap
        found) := by
  have run := Calls.run_replaceM reports (Calls.ofText name s) before
  rwa [List.foldl_append_eq_append, ← List.flatMap_def] at run

theorem reports_markSeparator : Reports markSeparator withoutSeparator fun arguments =>
    ((GroupConcat.splitSeparator? arguments).map fun clause => separator clause.2).toList := by
  intro arguments before
  dsimp only
  rw [markSeparator, withoutSeparator]
  cases GroupConcat.splitSeparator? arguments with
  | none => exact congrArg (none, ·) (List.append_nil before).symm
  | some clause => rfl

theorem reports_markInterval (function : Text) : Reports (markInterval function)
    (fun arguments => some (comment (interval function arguments)))
    (fun arguments => [interval function arguments]) :=
  fun _ _ => rfl

def beforeAdd (s : Text) : Text :=
  ((do replaceCallsM GroupConcat.function markSeparator (← markRollups s) :
    Recording Text).run []).1

def beforeSub (s : Text) : Text :=
  ((replaceCallsM "DATE_ADD" (markInterval "DATE_ADD") (beforeAdd s)).run []).1

theorem beforeAdd_eq (s : Text) :
    beforeAdd s = replaceCalls GroupConcat.function withoutSeparator (rollupsMarked s) := by
  rw [beforeAdd, StateT.run_bind]
  change ((replaceCallsM GroupConcat.function markSeparator (rollupsMarked s)).run _).1 = _
  rw [reports_markSeparator.run_replaceCallsM]

theorem beforeSub_eq (s : Text) :
    beforeSub s = replaceCalls "DATE_ADD"
      (fun arguments => some (comment (interval "DATE_ADD" arguments))) (beforeAdd s) := by
  rw [beforeSub, (reports_markInterval "DATE_ADD").run_replaceCallsM]

def intervals (function s : Text) : List Unsupported :=
  ((Calls.ofText function s).visits fun arguments =>
    some (comment (interval function arguments))).map
    (interval function)

theorem exists_markUnsupported (s : Text) : ∃ groups : List Unsupported,
    (∀ construct ∈ groups, ∀ function arguments, construct ≠ interval function arguments) ∧
    markUnsupported s = (replaceCalls "DATE_SUB"
        (fun arguments => some (comment (interval "DATE_SUB" arguments))) (beforeSub s),
      groups ++ intervals "DATE_ADD" (beforeAdd s) ++ intervals "DATE_SUB" (beforeSub s)) := by
  refine ⟨(rollupPattern.codeHits s).map (fun m => rollup m.text) ++
    ((Calls.ofText GroupConcat.function (rollupsMarked s)).visits withoutSeparator).flatMap
      fun arguments => ((GroupConcat.splitSeparator? arguments).map fun clause =>
        separator clause.2).toList,
    ?_, ?_⟩
  · intro construct member function arguments same
    subst same
    rcases List.mem_append.mp member with grouped | separated
    · obtain ⟨m, -, wrong⟩ := List.mem_map.mp grouped
      cases wrong
    · obtain ⟨asked, -, found⟩ := List.mem_flatMap.mp separated
      obtain ⟨clause, -, wrong⟩ := Option.map_eq_some_iff.mp (Option.mem_toList.mp found)
      cases wrong
  · rw [markUnsupported, markAll, StateT.run_bind]
    change (StateT.run (replaceCallsM GroupConcat.function markSeparator
      (rollupsMarked s) >>= _) _) = _
    rw [StateT.run_bind, reports_markSeparator.run_replaceCallsM, ← beforeAdd_eq]
    change (StateT.run (replaceCallsM "DATE_ADD" (markInterval "DATE_ADD")
      (beforeAdd s) >>= _) _) = _
    rw [StateT.run_bind, (reports_markInterval "DATE_ADD").run_replaceCallsM, ← beforeSub_eq]
    change StateT.run (replaceCallsM "DATE_SUB" (markInterval "DATE_SUB") (beforeSub s)) _ = _
    rw [(reports_markInterval "DATE_SUB").run_replaceCallsM]
    rw [intervals, intervals, List.map_eq_flatMap (f := interval _),
      List.map_eq_flatMap (f := interval _)]
    rfl

theorem message_interval (function : Text) (arguments : List Text) :
    (interval function arguments).message = function ++
      " is only translated for DAY intervals".toList := rfl

theorem countP_message_intervals (function other s : Text) :
    (intervals other s).countP (·.message == (interval function []).message) =
      if other = function then ((Calls.ofText other s).visits
        fun arguments => some (comment (interval other arguments))).length else 0 := by
  rw [intervals, List.countP_map]
  split
  · next same =>
      subst same
      rw [List.countP_eq_length]
      intro arguments _
      exact beq_self_eq_true (interval other []).message
  · next different =>
      rw [List.countP_eq_zero]
      intro arguments _ same
      have messages : (interval other arguments).message = (interval function []).message :=
        eq_of_beq same
      rw [message_interval, message_interval] at messages
      exact different (List.append_cancel_right messages)

end Unsupported

def intervalFunctions : List Text := ["DATE_ADD", "DATE_SUB"]

theorem isAsciiWord_intervalFunctions : ∀ function ∈ intervalFunctions, IsAsciiWord function := by
  decide

theorem not_isCall_markUnsupported (s : Text) : ∀ function ∈ intervalFunctions, ∀ pos close,
    ¬ IsCall function (markUnsupported s).1 pos close := by
  obtain ⟨groups, -, marked⟩ := Unsupported.exists_markUnsupported s
  have add : IsAsciiWord "DATE_ADD" := isAsciiWord_intervalFunctions _ (by simp [intervalFunctions])
  have sub : IsAsciiWord "DATE_SUB" := isAsciiWord_intervalFunctions _ (by simp [intervalFunctions])
  have first := folded_replaceCalls add (fun arguments =>
    (Unsupported.interval "DATE_ADD" arguments).fragment)
    (Unsupported.beforeAdd s)
  have second := folded_replaceCalls sub (fun arguments =>
    (Unsupported.interval "DATE_SUB" arguments).fragment)
    (Unsupported.beforeSub s)
  rw [marked]
  simp only [intervalFunctions, List.forall_mem_cons, List.not_mem_nil, false_imp_iff, implies_true,
    and_true]
  constructor
  · -- the second pass brings back no call that the first one has taken away
    apply not_isCall_of_folding sub add second
    rw [Unsupported.beforeSub_eq]
    exact not_isCall_of_folded add first
  · exact not_isCall_of_folded sub second

theorem countP_message_groups {groups : List Unsupported} {function : Text}
    (member : function ∈ intervalFunctions)
    (others : ∀ construct ∈ groups, ∀ function arguments,
      construct ≠ Unsupported.interval function arguments) :
    groups.countP (·.message == (Unsupported.interval function []).message) = 0 := by
  have initial : ∀ function ∈ intervalFunctions,
      (Unsupported.interval function []).message.head? = some 'D' := by decide
  rw [List.countP_eq_zero]
  intro construct inside same
  have head := congrArg List.head? (eq_of_beq same)
  rw [initial function member] at head
  cases construct with
  | rollup written => cases head
  | separator delimiter => cases head
  | interval function arguments => exact others _ inside function arguments rfl

/-- Adapting a statement by any rules leaves no call of a function that moves a date by an interval,
and reports each call that stands where the pass for its function starts. -/
theorem adapt_intervals {rules : List Rule} {s : Text} {adapted : Conversion}
    (done : adapt rules s = .ok adapted) :
    ∃ steps converted, Rule.run rules s = .ok (steps, converted) ∧
      (∀ function ∈ intervalFunctions, ∀ pos close, ¬ IsCall function adapted.text pos close) ∧
      adapted.unsupported.countP (·.message == (Unsupported.interval "DATE_ADD" []).message) =
        (callsOf "DATE_ADD" (Unsupported.beforeAdd (Cleanup.clean converted))).length ∧
      adapted.unsupported.countP (·.message == (Unsupported.interval "DATE_SUB" []).message) =
        (callsOf "DATE_SUB" (Unsupported.beforeSub (Cleanup.clean converted))).length := by
  obtain ⟨⟨steps, converted⟩, ran, marked⟩ := (bind_eq_ok_iff _ _ _).mp done
  cases marked
  refine ⟨steps, converted, ran, not_isCall_markUnsupported _, ?_⟩
  have word : ∀ function ∈ intervalFunctions, ∀ c ∈ function, isWordChar c = true := by decide
  have add : "DATE_ADD".toList ∈ intervalFunctions := by simp [intervalFunctions]
  have sub : "DATE_SUB".toList ∈ intervalFunctions := by simp [intervalFunctions]
  obtain ⟨groups, others, marks⟩ := Unsupported.exists_markUnsupported (Cleanup.clean converted)
  dsimp only
  rw [Conversion.unsupported_mark, marks]
  simp only [List.countP_append, countP_message_groups add others, countP_message_groups sub others,
    Unsupported.countP_message_intervals]
  constructor
  · rw [if_pos trivial, if_neg (by decide), length_visits_ofText (word _ add), Nat.zero_add,
      Nat.add_zero]
  · rw [if_neg (by decide), if_pos trivial, length_visits_ofText (word _ sub), Nat.zero_add]

/-- A nested call, one after it, and one that is never closed. -/
theorem adapt_intervals_nested :
    let s : Text := "date_add(DATE_ADD(d), i) DATE_SUB(e) DATE_SUB("
    ∃ adapted, adapt [] s = .ok adapted ∧
      (∀ function ∈ intervalFunctions, ∀ pos close, ¬ IsCall function adapted.text pos close) ∧
      adapted.unsupported.countP (·.message == (Unsupported.interval "DATE_ADD" []).message) = 2 ∧
      adapted.unsupported.countP (·.message == (Unsupported.interval "DATE_SUB"
        []).message) = 1 := by
  intro s
  have done : adapt [] s = .ok (Conversion.mark (Cleanup.clean s)) := rfl
  refine ⟨_, done, ?_⟩
  obtain ⟨steps, converted, ran, left, first, second⟩ := adapt_intervals done
  cases ran
  have starts : (callsOf "DATE_ADD" (Unsupported.beforeAdd (Cleanup.clean s))).length = 2 ∧
      (callsOf "DATE_SUB" (Unsupported.beforeSub (Cleanup.clean s))).length = 1 := by decide +kernel
  exact ⟨left, first.trans starts.1, second.trans starts.2⟩

end LiteSql
