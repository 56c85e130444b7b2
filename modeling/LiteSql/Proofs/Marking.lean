import LiteSql.Proofs.PatternSpan
import LiteSql.Proofs.Replacement
import LiteSql.Statement.Conversion

/-! Marks of what is unsupported. The record of it only grows, and a statement of which nothing is
recorded stays as it is. -/

namespace LiteSql

namespace Unsupported

/-- Whether an action only adds to the record, and its result is right if it adds nothing. -/
def Records {α : Type} (action : Recording α) (right : α → Prop) : Prop :=
  ∀ found, ∃ added, (action.run found).2 = found ++ added ∧
    (added = [] → right (action.run found).1)

namespace Records

variable {α β : Type}

theorem pure {right : α → Prop} {a : α} (holds : right a) : Records (Pure.pure a) right := by
  intro found
  exact ⟨[], (List.append_nil found).symm, fun _ => holds⟩

theorem bind {action : Recording α} {next : α → Recording β} {right : α → Prop} {last : β → Prop}
    (first : Records action right) (second : ∀ a, Records (next a) fun b => right a → last b) :
    Records (action >>= next) last := by
  intro found
  obtain ⟨early, grown, holds⟩ := first found
  obtain ⟨late, more, concludes⟩ := second (action.run found).1 (action.run found).2
  refine ⟨early ++ late, ?_, fun none => ?_⟩
  · rw [← List.append_assoc, ← grown]
    exact more
  · obtain ⟨rfl, rfl⟩ := List.append_eq_nil_iff.mp none
    exact concludes rfl (holds rfl)

theorem record {right : α → Prop} (construct : Unsupported) (next : Recording α)
    (later : Records next fun _ => True) : Records (Unsupported.record construct >>= fun _ => next)
      right := by
  intro found
  obtain ⟨added, grown, -⟩ := later (found ++ [construct])
  refine ⟨construct :: added, ?_, nofun⟩
  rw [← List.singleton_append, ← List.append_assoc]
  exact grown

end Records

theorem records_replaceM {action : List Text → Recording (Option Text)}
    (answers : ∀ arguments, Records (action arguments) (· = none)) (calls : Calls) :
    Records (calls.replaceM action) (· = calls.render) := by
  induction calls with
  | done => exact .pure rfl
  | char c rest ih =>
      refine ih.bind fun after => .pure ?_
      intro same
      rw [Calls.render, same]
  | call name inner rest ihInner ihRest =>
      refine ihInner.bind fun inside => (answers _).bind fun answer =>
        ihRest.bind fun after => .pure ?_
      intro last unanswered first
      rw [Calls.render, last, unanswered, first]
      simp

theorem records_replaceCallsM (name : Text) {action : List Text → Recording (Option Text)}
    (answers : ∀ arguments, Records (action arguments) (· = none)) (s : Text) :
    Records (replaceCallsM name action s) (· = s) := by
  have whole := records_replaceM answers (Calls.ofText name s)
  rwa [Calls.render_ofText] at whole

def rollupsMarked (s : Text) : Text := rollupPattern.replaceCode
    (fun m => comment (rollup m.text)) s

def withoutSeparator (arguments : List Text) : Option Text :=
  (GroupConcat.splitSeparator? arguments).map fun (values, delimiter) =>
    "GROUP_CONCAT(" ++ values ++ ") " ++ comment (separator delimiter)

theorem markRollups_of_codeHits {s : Text} (grouped : rollupPattern.codeHits s = []) :
    markRollups s = pure s := by
  funext found
  change (_, found ++ _) = (s, found)
  rw [grouped, Pattern.replaceCode_of_codeHits_eq_nil grouped, List.map_nil, List.append_nil]

theorem records_markRollups (s : Text) : Records (markRollups s) (· = s) := by
  intro found
  refine ⟨(rollupPattern.codeHits s).map fun m => rollup m.text, rfl, fun none => ?_⟩
  exact Pattern.replaceCode_of_codeHits_eq_nil (List.map_eq_nil_iff.mp none) _

theorem records_markSeparator (arguments : List Text) :
    Records (markSeparator arguments) (· = none) := by
  rw [markSeparator]
  split
  · exact .pure rfl
  · exact .record _ _ (.pure trivial)

theorem records_markInterval (function : Text) (arguments : List Text) :
    Records (markInterval function arguments) (· = none) :=
  .record _ _ (.pure trivial)

theorem records_markAll (s : Text) : Records (markAll s) (· = s) := by
  refine (records_markRollups s).bind fun t =>
    (records_replaceCallsM _ records_markSeparator t).bind fun u =>
      (records_replaceCallsM _ (records_markInterval _) u).bind fun v => ?_
  intro found
  obtain ⟨added, grown, same⟩ := records_replaceCallsM _ (records_markInterval _) v found
  exact ⟨added, grown, fun none third second first => by rw [same none, third, second, first]⟩

end Unsupported

@[simp] theorem Conversion.text_mark (s : Text) :
    (Conversion.mark s).text = (markUnsupported s).1 := rfl

@[simp] theorem Conversion.unsupported_mark (s : Text) :
    (Conversion.mark s).unsupported = (markUnsupported s).2 := rfl

theorem markUnsupported_eq_self {s : Text} (silent : (markUnsupported s).2 = []) :
    (markUnsupported s).1 = s := by
  obtain ⟨added, grown, same⟩ := Unsupported.records_markAll s []
  rw [markUnsupported] at silent
  rw [silent] at grown
  exact same (List.append_eq_nil_iff.mp grown.symm).2

def markedFunctions : List Text := [GroupConcat.function, "DATE_ADD", "DATE_SUB"]

theorem markUnsupported_of_unmarked {s : Text} (grouped : Unsupported.rollupPattern.codeHits s = [])
    (uncalled : ∀ name ∈ markedFunctions, ∀ pos close, ¬ IsCall name s pos close) :
    markUnsupported s = (s, []) := by
  have word : ∀ name ∈ markedFunctions, ∀ c ∈ name, isWordChar c = true := by decide
  have stays (name : Text) (member : name ∈ markedFunctions)
      (action : List Text → Unsupported.Recording (Option Text)) :
      replaceCallsM name action s = pure s :=
    replaceCallsM_uncalled (word name member) action (uncalled name member)
  rw [markUnsupported, Unsupported.markAll, Unsupported.markRollups_of_codeHits grouped, pure_bind,
    stays _ (by simp [markedFunctions]), pure_bind, stays _ (by simp [markedFunctions]), pure_bind,
    stays _ (by simp [markedFunctions])]
  rfl

end LiteSql
