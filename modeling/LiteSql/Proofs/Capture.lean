import LiteSql.Proofs.Answers

/-! A rewritten call and the text behind it. The text is copied as it is; it is also read as it was
exactly if the rewritten call ends in code, which only a line comment in the call can prevent. -/

namespace LiteSql

def Uncalled (name s : Text) : Prop :=
  ∀ i, ¬ (startsIgnoringCase name (s.drop i) = true ∧ s[i + name.length]? = some '(')

theorem uncalled_of_not_mem (name : Text) {s : Text} (none : '(' ∉ s) : Uncalled name s :=
  fun _ opened => none (List.mem_of_getElem? opened.2)

theorem closing?_of_append {s t : Text} {n : Nat} (whole : s.length = n + 1)
    (found : closing? (s ++ t) = some n) : closing? s = some n := by
  obtain ⟨first, second, cut, length⟩ := exists_cut_of_closingIn found
  have text : (first ++ [Lexeme.code ')']).flatMap Lexeme.text = s := by
    have split := flatMap_text_lexemes (s ++ t)
    rw [cut, ← List.singleton_append, ← List.append_assoc, List.flatMap_append] at split
    refine (List.append_inj split ?_).1
    rw [List.flatMap_append, List.length_append, length, whole]
    rfl
  have read : lexemes (s ++ t) = (first ++ [Lexeme.code ')']) ++ second := by
    rw [cut, List.append_assoc]
    rfl
  have own := lexemes_front read
  rw [text] at own
  rw [closing?, read, ← own] at found
  exact closingIn_of_lt found (by rw [flatMap_text_lexemes]; omega)

theorem IsCall.of_append {name s t : Text} (call : IsCall name (s ++ t) 0 (s.length - 1)) :
    IsCall name s 0 (s.length - 1) := by
  have inner := call.lt_close
  obtain ⟨n, found, place⟩ := call.closing?
  have bound : name.length < s.length := by omega
  refine (isCall_iff_closing? name s 0 _).mpr ⟨?_, ?_, ?_, rfl, n, ?_, place⟩
  · have named := call.named
    rw [List.drop_zero, ← startsIgnoringCase_take name (s ++ t) s.length (by omega),
      List.take_left] at named
    exact named
  · have opened := call.opened
    rwa [List.getElem?_append_left (by omega)] at opened
  · have outside := call.outside
    rw [inLiteral_iff_marks, List.getElem?_append_left (by omega),
      List.getElem?_append_left (by omega)] at outside
    rw [inLiteral_iff_marks]
    exact outside
  · rw [List.drop_append_of_le_length (by omega)] at found
    exact closing?_of_append (by rw [List.length_drop]; omega) found

theorem replaceCallsM_append {name call behind : Text} (word : ∀ c ∈ name, isWordChar c = true)
    {m : Type → Type} [Monad m] [LawfulMonad m] (action : List Text → m (Option Text))
    (whole : IsCall name (call ++ behind) 0 (call.length - 1)) (free : Uncalled name behind) :
    replaceCallsM name action (call ++ behind) = (· ++ behind) <$> replaceCallsM name action
      call := by
  have own := whole.of_append
  have inner := own.lt_close
  have length : call.length - 1 + 1 = call.length := by omega
  have rest : (callsFrom name (call ++ behind) call.length).replaceM action = pure behind := by
    rw [replaceM_callsFrom_uncalled word action, List.drop_left]
    intro i after close other
    obtain ⟨d, rfl⟩ := Nat.exists_eq_add_of_le after
    have named := other.named
    have opened := other.opened
    rw [List.drop_length_add_append] at named
    rw [Nat.add_assoc, List.getElem?_append_right (by omega), Nat.add_sub_cancel_left] at opened
    exact free d ⟨named, opened⟩
  have nothing : (callsFrom name call call.length).replaceM action = pure [] := by
    rw [callsFrom_of_length_le _ (Nat.le_refl _)]
    rfl
  rw [replaceCallsM, replaceCallsM, ← callsFrom_zero, ← callsFrom_zero, callsFrom_of_isCall whole,
    callsFrom_of_isCall own, length, Calls.replaceM, Calls.replaceM, rest, nothing,
    slice_append (by omega), slice_append (by omega)]
  simp

theorem forall_inLiteral_append_iff (name u : Text) :
    (∀ t, Uncalled name t → ∀ i < t.length, InLiteral (u ++ t) (u.length + i) ↔ InLiteral t i) ↔
      scan u = .code := by
  constructor
  · intro same
    have probe (c : Char) (other : c ≠ '(') (plain : ¬ InLiteral [c] 0) :
        (scan u).marks c none = false := by
      have free : Uncalled name [c] := uncalled_of_not_mem name (by simpa using Ne.symm other)
      have outside : ¬ InLiteral (u ++ [c]) u.length := (same [c] free 0 (by simp)).not.mpr plain
      rw [inLiteral_iff_marks, List.take_left] at outside
      simpa using outside
    have letter := probe 'x' (by decide) (by decide)
    have minus := probe '-' (by decide) (by decide)
    have times := probe '*' (by decide) (by decide)
    cases state : scan u <;> simp_all [ScanState.marks]
  · intro settled t _ i _
    exact inLiteral_append_of_scan settled t i

theorem scan_apply {rule : Rule} (member : rule ∈ Rule.table) {function : Text}
    (named : rule.function? = some function) {call u : Text}
    (whole : IsCall function call 0 (call.length - 1)) (written : rule.apply call = .ok u)
    (quiet : ∀ l ∈ lexemes call, l.isLineComment = false)
    (applied : function = "CONCAT" → SignsApplied function call) : scan u = .code := by
  obtain ⟨action, found, apply⟩ := Rule.exists_action? named
  have word := Rule.isWordChar_function? member named
  have settles := Rule.settling_table rule member function action found
  generalize which : decide (function = ("CONCAT" : Text)) = strict at settles
  obtain ⟨last, reads, calm⟩ := Mode.exists_calm word quiet fun signs =>
    applied (of_decide_eq_true (which.trans signs))
  have ended : last = Mode.start := by
    obtain ⟨m, middle, passes⟩ := Mode.exists_passes word whole reads
    have past := passes.past whole
    have inner := whole.lt_close
    rw [List.take_of_length_le (by omega), reads] at past
    exact Option.some.inj past
  rw [apply, replaceCallsM, ← callsFrom_zero] at written
  have result := Mode.read_replaceM word settles 0 reads calm (Mode.read_nil _) written
  rw [← Mode.scan_of_read result, ended]
  rfl

/-- A rule rewrites a call and copies the text behind it. Every text behind the rewritten call is
read as on its own exactly if the rewritten call ends in code. It does so unless a line comment
stands in the call, or, for joined values, a sign without an operand. -/
theorem apply_append_exact {rule : Rule} (member : rule ∈ Rule.table) {function : Text}
    (named : rule.function? = some function) {call behind : Text}
    (whole : IsCall function (call ++ behind) 0 (call.length - 1))
    (free : Uncalled function behind) :
    rule.apply (call ++ behind) = (· ++ behind) <$> rule.apply call ∧
    ∀ u, rule.apply call = .ok u →
      ((∀ t, Uncalled function t →
          ∀ i < t.length, InLiteral (u ++ t) (u.length + i) ↔ InLiteral t i) ↔ scan u = .code) ∧
      ((∀ l ∈ lexemes call, l.isLineComment = false) →
        (function = "CONCAT" → SignsApplied function call) → scan u = .code) := by
  refine ⟨?_, fun u written => ⟨forall_inLiteral_append_iff function u, fun quiet applied => ?_⟩⟩
  · obtain ⟨action, -, apply⟩ := Rule.exists_action? named
    rw [apply]
    exact replaceCallsM_append (Rule.isWordChar_function? member named) action whole free
  · exact scan_apply member named whole.of_append written quiet applied

theorem apply_append_exact_nested : ∃ rule ∈ Rule.table, rule.function? = some ("CONCAT" : Text) ∧
    let call : Text := "CONCAT(a - b, concat('x', c))"
    let behind : Text := " - 'y'"
    let u : Text := "a - b || 'x' || c"
    IsCall "CONCAT" (call ++ behind) 0 (call.length - 1) ∧ Uncalled "CONCAT" behind ∧
      (rule.apply (call ++ behind)).toOption = some (u ++ behind) ∧
      ∀ t, Uncalled "CONCAT" t → ∀ i < t.length,
        InLiteral (u ++ t) (u.length + i) ↔ InLiteral t i := by
  let rule := Rule.total "concat" "CONCAT" fun arguments =>
    if arguments.isEmpty then none else some (joinWith " || " arguments)
  have member : rule ∈ Rule.table := List.mem_of_getElem? (i := 0) rfl
  refine ⟨rule, member, rfl, ?_⟩
  intro call behind u
  have whole : IsCall "CONCAT" (call ++ behind) 0 (call.length - 1) := by decide
  have free : Uncalled "CONCAT" behind := uncalled_of_not_mem _ (by decide)
  have written : rule.apply call = .ok u := eq_ok_of_toOption (by decide +kernel)
  obtain ⟨copied, condition⟩ := apply_append_exact member rfl whole free
  have quiet : ∀ l ∈ lexemes call, l.isLineComment = false := by decide
  have applied : SignsApplied "CONCAT" call := by decide
  obtain ⟨frame, settled⟩ := condition u written
  refine ⟨whole, free, ?_, frame.mpr (settled quiet fun _ => applied)⟩
  rw [copied, written]
  rfl

/-- A line comment at the end of an argument loses its line feed and takes in what follows. -/
theorem not_forall_inLiteral_append :
    ¬ ∀ rule ∈ Rule.table, ∀ function call t u, rule.function? = some function →
      IsCall function (call ++ t) 0 (call.length - 1) → Uncalled function t →
      (rule.apply (call ++ t)).toOption = some (u ++ t) →
      ∀ i < t.length, InLiteral (u ++ t) (u.length + i) ↔ InLiteral t i := by
  intro frame
  have captured := frame (.template "lcase" "LCASE" 1 ["LOWER(", Template.arg 0, ")"])
    (List.mem_of_getElem? (i := 2) rfl)
    "LCASE" "LCASE(a -- x\n)" " + b" "LOWER(a -- x)"
    rfl (by decide) (uncalled_of_not_mem _ (by decide)) (by decide +kernel) 0 (by decide)
  revert captured
  decide

end LiteSql
