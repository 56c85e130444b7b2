import Mathlib.Data.Nat.Digits.Defs
import LiteSql.Proofs.Answers
import LiteSql.Statement.Conversion

/-! Digits as a budget. The rules up to the day intervals write no more digits than they read, so a
number that is too long to be read was paid for by the statement; no other rule can fail. -/

namespace LiteSql

def digitCount (s : Text) : Nat := s.countP isDigit

@[simp] theorem digitCount_nil : digitCount [] = 0 := rfl

@[simp] theorem digitCount_append (s t : Text) :
    digitCount (s ++ t) = digitCount s + digitCount t :=
  List.countP_append

theorem digitCount_cons (c : Char) (s : Text) :
    digitCount (c :: s) = digitCount [c] + digitCount s :=
  digitCount_append [c] s

theorem digitCount_le_of_sublist {s t : Text} (sub : s.Sublist t) : digitCount s ≤ digitCount t :=
  sub.countP_le

theorem digitCount_eq_length {s : Text} (digits : ∀ c ∈ s, isDigit c = true) :
    digitCount s = s.length :=
  List.countP_eq_length.mpr digits

/-! ### Arguments hold no digits of their own -/

theorem dropEndWhile_sublist (p : Char → Bool) (s : Text) : (dropEndWhile p s).Sublist s := by
  obtain ⟨tail, cut, -⟩ := exists_dropEndWhile p s
  calc (dropEndWhile p s).Sublist (dropEndWhile p s ++ tail) := List.sublist_append_left _ _
    _ = s := cut.symm

theorem trim_sublist (s : Text) : (trim s).Sublist s :=
  (dropEndWhile_sublist isBlank _).trans (List.dropWhile_sublist isBlank)

theorem flatten_map_trim_sublist (pieces : List Text) :
    (pieces.map trim).flatten.Sublist pieces.flatten := by
  induction pieces with
  | nil => exact List.Sublist.refl []
  | cons piece pieces ih => exact (trim_sublist piece).append ih

theorem flatten_extendFirst (head : Text) (pieces : List Text) :
    (extendFirst head pieces).flatten = head ++ pieces.flatten := by
  cases pieces <;> simp [extendFirst]

theorem flatten_piecesAt_sublist (depth : Int) (ls : List Lexeme) :
    (piecesAt depth ls).flatten.Sublist (ls.flatMap Lexeme.text) := by
  fun_induction piecesAt depth ls with
  | case1 => exact List.Sublist.refl []
  | case2 depth l rest comma ih => exact ih.trans (List.sublist_append_right l.text _)
  | case3 depth l rest inside ih =>
      rw [flatten_extendFirst]
      exact (List.Sublist.refl l.text).append ih

theorem digitCount_splitArguments (s : Text) :
    digitCount (splitArguments s).flatten ≤ digitCount s := by
  apply digitCount_le_of_sublist
  rw [splitArguments]
  split
  · exact List.nil_sublist s
  · have pieces := flatten_piecesAt_sublist 0 (lexemes s)
    rw [flatMap_text_lexemes] at pieces
    exact (flatten_map_trim_sublist _).trans pieces

theorem digitCount_joinWith {separator : Text} (none : digitCount separator = 0)
    (arguments : List Text) : digitCount (joinWith separator arguments) =
      digitCount arguments.flatten := by
  fun_induction joinWith separator arguments with
  | case1 => rfl
  | case2 s => simp
  | case3 first second rest ih => simp [none, ih]

/-! ### Outcomes within a budget -/

/-- An outcome that spends at most `budget` digits: a text holds no more of them, and a failure is
about a number with no more of them, but too many to be read. -/
def Within (budget : Nat) : Except Fault Text → Prop
  | .ok s => digitCount s ≤ budget
  | .error fault =>
    ∃ count, fault = .tooManyDigits count ∧ digitLimit < count ∧ count ≤ budget

theorem Within.mono {small large : Nat} {outcome : Except Fault Text}
    (within : Within small outcome)
    (le : small ≤ large) : Within large outcome := by
  cases outcome with
  | ok s => exact within.trans le
  | error fault =>
      obtain ⟨count, rfl, excess, under⟩ := within
      exact ⟨count, rfl, excess, under.trans le⟩

theorem Within.bind {small large : Nat} {first : Except Fault Text}
    {next : Text → Except Fault Text}
    (within : Within small first) (le : small ≤ large)
    (step : ∀ s, digitCount s ≤ small → Within large (next s)) : Within large (first >>= next) := by
  cases first with
  | ok s => exact step s within
  | error fault => exact within.mono le

def Frugal (action : List Text → Except Fault (Option Text)) : Prop :=
  ∀ arguments, Within (digitCount arguments.flatten) ((·.getD []) <$> action arguments)

theorem frugal_of_total {action : List Text → Option Text}
    (frugal : ∀ arguments answer, action arguments = some answer →
      digitCount answer ≤ digitCount arguments.flatten) :
    Frugal fun arguments => .ok (action arguments) := by
  intro arguments
  change digitCount ((action arguments).getD []) ≤ _
  cases answered : action arguments with
  | none => exact Nat.zero_le _
  | some answer => exact frugal arguments answer answered

/-- One visited call: the answer, or the call as it stands, within what its inside holds. -/
theorem Frugal.within_replacement {action : List Text → Except Fault (Option Text)}
    (frugal : Frugal action)
    (name inside : Text) :
    Within (digitCount name + digitCount inside)
      ((·.getD (name ++ '(' :: (inside ++ [')']))) <$> action (splitArguments inside)) := by
  have spent := frugal (splitArguments inside)
  have held := digitCount_splitArguments inside
  have signs : digitCount ['('] = 0 ∧ digitCount [')'] = 0 := by decide
  cases outcome : action (splitArguments inside) with
  | error fault =>
      rw [outcome] at spent
      exact Within.mono spent (by omega)
  | ok replacement =>
      rw [outcome] at spent
      cases replacement with
      | none =>
          change digitCount (name ++ '(' :: (inside ++ [')'])) ≤ _
          rw [digitCount_append, digitCount_cons, digitCount_append]
          omega
      | some answer =>
          have written : digitCount answer ≤ digitCount (splitArguments inside).flatten := spent
          exact written.trans (by omega)

theorem Frugal.within_replaceM {action : List Text → Except Fault (Option Text)}
    (frugal : Frugal action)
    (calls : Calls) : Within (digitCount calls.render) (calls.replaceM action) := by
  induction calls with
  | done => exact Nat.zero_le _
  | char c rest ih =>
      rw [Calls.render, Calls.replaceM]
      refine ih.bind (by rw [digitCount_cons]; omega) fun after spent => ?_
      change digitCount (c :: after) ≤ _
      rw [digitCount_cons c after, digitCount_cons c rest.render]
      omega
  | call name inner rest ihInner ihRest =>
      have whole : digitCount (Calls.call name inner rest).render =
          digitCount name + digitCount inner.render + digitCount rest.render := by
        have signs : digitCount ['('] = 0 ∧ digitCount [')'] = 0 := by decide
        rw [Calls.render, digitCount_append, digitCount_cons, digitCount_append,
          digitCount_cons ')']
        omega
      rw [Calls.replaceM, whole]
      refine ihInner.bind (by omega) fun inside spent => ?_
      have answer := frugal.within_replacement name inside
      cases outcome : action (splitArguments inside) with
      | error fault =>
          rw [outcome] at answer
          exact Within.mono answer (by omega)
      | ok replacement =>
          rw [outcome] at answer
          refine Within.bind ihRest (by omega) fun after left => ?_
          have written : digitCount (replacement.getD (name ++ '(' :: (inside ++ [')']))) ≤
              digitCount name + digitCount inside := answer
          change digitCount (_ ++ after) ≤ _
          rw [digitCount_append]
          omega

/-! ### The actions that spend what they read -/

theorem digitValue?_lt {c : Char} {value : Nat} (read : digitValue? c = some value) :
    value < 10 := by
  obtain ⟨range, -, rfl⟩ := Option.map_eq_some_iff.mp read
  exact Nat.mod_lt _ (by decide)

theorem numberValue_lt (digits : Text) : numberValue digits < 10 ^ digits.length := by
  -- each digit multiplies the bound on what was read before by ten
  suffices step : ∀ start bound, start < bound →
      digits.foldl (fun value c => value * 10 + (digitValue? c).getD 0) start <
        bound * 10 ^ digits.length by
    simpa [numberValue] using step 0 1 (by decide)
  induction digits with
  | nil => simp
  | cons c digits ih =>
      intro start bound less
      have digit : (digitValue? c).getD 0 < 10 := by
        cases read : digitValue? c with
        | none => decide
        | some value => exact digitValue?_lt read
      have next := ih (start * 10 + (digitValue? c).getD 0) (bound * 10) (by omega)
      calc _ < bound * 10 * 10 ^ digits.length := next
        _ = bound * 10 ^ (c :: digits).length := by rw [List.length_cons, Nat.pow_succ']; ring

/-- A number is written with no more digits than it was read from. -/
theorem digitCount_signedDecimal {digits : Text} (present : digits ≠ []) {n : Int}
    (value : n.natAbs = numberValue digits) : digitCount (signedDecimal n) ≤ digits.length := by
  have sign : digitCount [if n < 0 then '-' else '+'] = 0 := by split <;> decide
  have length : (decimal n.natAbs).length ≤ digits.length := by
    apply Nat.toDigits_length 10 _ _ (List.length_pos_of_ne_nil present)
    rw [value]
    exact numberValue_lt digits
  calc digitCount (signedDecimal n) = digitCount (decimal n.natAbs) := by
        rw [signedDecimal, digitCount_cons, sign, Nat.zero_add]
    _ ≤ (decimal n.natAbs).length := List.countP_le_length
    _ ≤ digits.length := length

open Pattern in
theorem spans_interval {x after : Text} {caps : List Capture}
    (taken : DayInterval.interval.Spans none 0 x after caps) :
    ∃ front digits rest more, x = front ++ (digits ++ rest) ∧ digits ≠ [] ∧
      (∀ c ∈ digits, isDigit c = true) ∧
      caps = ⟨"days", front.length, front.length + digits.length⟩ :: more := by
  obtain ⟨name, _, first, _, rfl, rfl, -, taken⟩ := taken
  obtain ⟨blank, _, second, _, rfl, rfl, -, taken⟩ := taken
  obtain ⟨sign, _, third, _, rfl, rfl, -, taken⟩ := taken
  obtain ⟨spaces, _, fourth, _, rfl, rfl, -, taken⟩ := taken
  obtain ⟨digits, _, _, _, rfl, rfl, ⟨_, rfl, read⟩, taken⟩ := taken
  obtain ⟨⟨present, counted⟩, rfl⟩ := (spans_someOf_iff _ _ _ _ _ _).mp read
  obtain ⟨gap, _, _, _, rfl, rfl, spaced, taken⟩ := taken
  obtain ⟨-, rfl⟩ := (spans_someOf_iff _ _ _ _ _ _).mp spaced
  obtain ⟨unit, last, _, _, rfl, rfl, named, -, rfl, -⟩ := taken
  obtain ⟨-, rfl⟩ := (spans_keyword_iff _ _ _ _ _ _).mp named
  refine ⟨name ++ (blank ++ (sign ++ spaces)), digits, gap ++ (unit ++ last),
    fourth ++ third ++ second ++ first, ?_, present, counted, ?_⟩
  · simp only [List.append_assoc]
  · simp [Nat.add_assoc]

open Pattern in
theorem captured?_interval {amount : Text} {m : Match}
    (found : DayInterval.interval.matchStart? amount = some m) :
    ∃ digits, m.captured? "days" = some digits ∧ digits ≠ [] ∧ (∀ c ∈ digits, isDigit c = true) ∧
      digits.Sublist amount := by
  obtain ⟨after, caps, whole, place, taken⟩ := takes_of_matchAt? found rfl
  have captures := taken.captures
  rw [← whole, place] at captures
  have start := taken.spans
  rw [place] at start
  obtain ⟨front, digits, rest, more, text, present, counted, rfl⟩ := spans_interval start
  have cut : amount = front ++ (digits ++ (rest ++ after)) := by
    rw [show amount = m.text ++ after from whole, text]
    simp only [List.append_assoc]
  have here := take_drop_middle front digits (rest ++ after) _ rfl
  rw [← cut] at here
  refine ⟨digits, ?_, present, counted, ?_⟩
  · simp [Match.captured?, captures, Reading.start, here]
  · rw [cut]
    exact (List.sublist_append_left digits _).trans (List.sublist_append_right _ _)

theorem days_cases {m : Match} {digits : Text} (captured : m.captured? "days" = some digits) :
    (digitLimit < digits.length ∧ DayInterval.days m = .error (.tooManyDigits digits.length)) ∨
      ∃ n, DayInterval.days m = .ok n ∧ n.natAbs = numberValue digits := by
  rw [DayInterval.days, captured, Option.getD_some]
  split
  · next excess => exact .inl ⟨excess, rfl⟩
  · refine .inr ⟨_, rfl, ?_⟩
    split <;> simp

theorem frugal_move {direction : Int} (unit : direction.natAbs = 1) :
    Frugal (DayInterval.move direction) := by
  intro arguments
  match arguments with
  | [date, amount] =>
      rw [DayInterval.move]
      split
      · exact Nat.zero_le _
      · next m found =>
          obtain ⟨digits, captured, present, counted, sub⟩ := captured?_interval found
          have length := digitCount_eq_length counted
          have held := digitCount_le_of_sublist sub
          have total : digitCount [date, amount].flatten = digitCount date + digitCount amount := by
            simp
          rw [total]
          rcases days_cases captured with ⟨excess, failed⟩ | ⟨n, read, value⟩
          · rw [failed]
            exact ⟨digits.length, rfl, excess, by omega⟩
          · rw [read]
            have written : digitCount (signedDecimal (direction * n)) ≤ digits.length :=
              digitCount_signedDecimal present (by rw [Int.natAbs_mul, unit, Nat.one_mul, value])
            have texts : digitCount "DATETIME(" = 0 ∧ digitCount ", '" = 0 ∧
                digitCount " days')" = 0 := by
              decide
            change digitCount ("DATETIME(" ++ date ++ ", '" ++ signedDecimal
              (direction * n) ++ " days')") ≤ _
            simp only [digitCount_append]
            omega
  | [] => exact Nat.zero_le _
  | [_] => exact Nat.zero_le _
  | _ :: _ :: _ :: _ => exact Nat.zero_le _

theorem frugal_concat : Frugal fun arguments =>
    .ok (if arguments.isEmpty then none else some (joinWith " || " arguments)) := by
  apply frugal_of_total
  intro arguments answer answered
  split at answered
  · cases answered
  · cases answered
    exact (digitCount_joinWith (by decide) arguments).le

theorem digitCount_arguments? {arguments listed : List Text}
    (read : Substring.arguments? arguments = some listed) :
    digitCount listed.flatten ≤ digitCount arguments.flatten := by
  match arguments, read with
  | [argument], read =>
      obtain ⟨m, found, -⟩ := Option.map_eq_some_iff.mp read
      obtain ⟨text, between, position, rest, rfl, -, parts⟩ := arguments?_fromFor found
      rcases parts with ⟨two, -⟩ | ⟨more, length, tail, rfl, -, -, three⟩
      · cases two.symm.trans read
        simp only [List.flatten_cons, List.flatten_nil, digitCount_append, digitCount_nil]
        omega
      · cases three.symm.trans read
        simp only [List.flatten_cons, List.flatten_nil, digitCount_append, digitCount_nil]
        omega
  | [], rfl => exact Nat.le_refl _
  | _ :: _ :: _, rfl => exact Nat.le_refl _

theorem frugal_substring : Frugal fun arguments => .ok (Substring.convert arguments) := by
  apply frugal_of_total
  intro arguments answer answered
  obtain ⟨listed, read, written⟩ := Option.bind_eq_some_iff.mp answered
  split at written
  · cases written
    have texts : digitCount "SUBSTR(" = 0 ∧ digitCount ")" = 0 := by decide
    have joined : digitCount (joinArguments listed) = digitCount listed.flatten :=
      digitCount_joinWith (by decide) listed
    have spent := digitCount_arguments? read
    rw [digitCount_append, digitCount_append]
    omega
  · cases written

theorem digitCount_splitSeparator? {arguments : List Text} {values delimiter : Text}
    (found : GroupConcat.splitSeparator? arguments = some (values, delimiter)) :
    digitCount values + digitCount delimiter ≤ digitCount arguments.flatten := by
  obtain ⟨clause, top, found⟩ := Option.bind_eq_some_iff.mp found
  obtain ⟨front, after, caps, cut, place, -⟩ := spans_of_topLevel? top
  have body : digitCount (joinArguments arguments) = digitCount arguments.flatten :=
    digitCount_joinWith (by decide) arguments
  simp only [Match.stop, place] at found
  rw [cut, List.take_left, ← List.append_assoc, ← List.length_append, List.drop_left] at found
  rw [cut, digitCount_append, digitCount_append] at body
  have first := digitCount_le_of_sublist (dropEndWhile_sublist isBlank front)
  have second := digitCount_le_of_sublist (trim_sublist after)
  split at found
  · cases found
  · cases found
    rw [trimEnd]
    omega

theorem frugal_groupConcat : Frugal fun arguments => .ok (GroupConcat.convert arguments) := by
  apply frugal_of_total
  intro arguments answer answered
  obtain ⟨⟨values, delimiter⟩, found, written⟩ := Option.bind_eq_some_iff.mp answered
  have spent := digitCount_splitSeparator? found
  have texts : digitCount "GROUP_CONCAT(" = 0 ∧ digitCount ", " = 0 ∧ digitCount " " = 0 ∧
      digitCount ")" = 0 := by decide
  dsimp only at written
  split at written
  · cases written
  · split at written
    · cases written
      simp only [digitCount_append]
      omega
    · next order top =>
        cases written
        have cut := congrArg digitCount (List.take_append_drop order.start values)
        have first := digitCount_le_of_sublist (dropEndWhile_sublist isBlank
          (values.take order.start))
        simp only [digitCount_append, trimEnd] at cut ⊢
        omega

namespace Template

/-- Whether a template only has places for the first `arity` arguments. -/
def fits (arity : Int) (parts : Template) : Bool :=
  parts.all fun
    | .text _ => true
    | .argument index => decide ((index : Int) < arity)
    | .next | .named _ | .broken _ => false

theorem exists_fillAs {parts : Template} {arguments : List Text}
    (fitting : parts.fits arguments.length = true) (numbering : Numbering)
    (manual : ∀ index, numbering ≠ .automatic index) :
    ∃ s, fillAs arguments numbering parts = .ok s := by
  induction parts generalizing numbering with
  | nil => cases numbering <;> exact ⟨[], rfl⟩
  | cons part rest ih =>
      rw [fits, List.all_cons, Bool.and_eq_true] at fitting
      cases part with
      | text t =>
          obtain ⟨s, filled⟩ := ih fitting.2 numbering manual
          refine ⟨t ++ s, ?_⟩
          cases numbering <;> simp only [fillAs, filled] <;> rfl
      | argument index =>
          have bound : index < arguments.length := by simpa using fitting.1
          have here : argumentAt arguments index = .ok arguments[index] := by
            rw [argumentAt, List.getElem?_eq_getElem bound]
          obtain ⟨s, filled⟩ := ih fitting.2 .manual (by simp)
          refine ⟨arguments[index] ++ s, ?_⟩
          cases numbering with
          | automatic next => exact absurd rfl (manual next)
          | undecided => simp only [fillAs, here, filled]; rfl
          | manual => simp only [fillAs, here, filled]; rfl
      | next => cases fitting.1
      | named name => cases fitting.1
      | broken fault => cases fitting.1

theorem exists_fillExactly {parts : Template} {arity : Int} (fitting : parts.fits arity = true)
    (arguments : List Text) : ∃ answer, parts.fillExactly arity arguments = .ok answer := by
  rw [fillExactly]
  split
  · next exact =>
      rw [← exact] at fitting
      obtain ⟨s, filled⟩ := exists_fillAs fitting .undecided (by simp)
      exact ⟨some s, by rw [fill, filled]; rfl⟩
  · exact ⟨none, rfl⟩

theorem frugal_fillExactly {parts : Template} {arity : Nat} (fitting : parts.fits arity = true)
    (linear : ∀ arguments s, arguments.length = arity → parts.fill arguments = .ok s →
      digitCount s ≤ digitCount arguments.flatten) : Frugal (parts.fillExactly arity) := by
  intro arguments
  rw [fillExactly]
  split
  · next exact =>
      rw [← exact] at fitting
      obtain ⟨s, filled⟩ := exists_fillAs fitting .undecided (by simp)
      have spent := linear arguments s (by exact_mod_cast exact) filled
      rw [fill, filled]
      exact spent
  · exact Nat.zero_le _

theorem frugal_wrapped {front back : Text} (none : digitCount front = 0 ∧ digitCount back = 0) :
    Frugal (fillExactly [.text front, .argument 0, .text back] (1 : Nat)) := by
  apply frugal_fillExactly (by rfl)
  intro arguments s length filled
  obtain ⟨argument, rfl⟩ := List.length_eq_one_iff.mp length
  cases filled
  simp [none]

theorem frugal_exchanged {front between back : Text}
    (none : digitCount front = 0 ∧ digitCount between = 0 ∧ digitCount back = 0) :
    Frugal (fillExactly [.text front, .argument 1, .text between, .argument 0, .text back]
      (2 : Nat)) := by
  apply frugal_fillExactly (by rfl)
  intro arguments s length filled
  obtain ⟨first, second, rfl⟩ := List.length_eq_two.mp length
  cases filled
  simp only [digitCount_append, List.flatten_cons, List.flatten_nil, digitCount_nil, none]
  omega

end Template

/-! ### The rules of the table -/

theorem exists_replaceM {action : List Text → Except Fault (Option Text)}
    (sure : ∀ arguments, ∃ answer, action arguments = .ok answer) (calls : Calls) :
    ∃ s, calls.replaceM action = .ok s := by
  induction calls with
  | done => exact ⟨[], rfl⟩
  | char c rest ih =>
      obtain ⟨after, replaced⟩ := ih
      exact ⟨c :: after, by rw [Calls.replaceM, replaced]; rfl⟩
  | call name inner rest ihInner ihRest =>
      obtain ⟨inside, replaced⟩ := ihInner
      obtain ⟨answer, answered⟩ := sure (splitArguments inside)
      obtain ⟨after, left⟩ := ihRest
      refine ⟨answer.getD (name ++ '(' :: (inside ++ [')'])) ++ after, ?_⟩
      rw [Calls.replaceM, replaced]
      change (action (splitArguments inside) >>= _) = _
      rw [answered]
      change (rest.replaceM action >>= _) = _
      rw [left]
      rfl

theorem bind_eq_error_iff {α β : Type} {next : α → Except Fault β}
    (sure : ∀ result, ∃ value, next result = .ok value) (outcome : Except Fault α) (fault : Fault) :
    (outcome >>= next) = .error fault ↔ outcome = .error fault := by
  cases outcome with
  | error cause =>
      constructor
      · intro same
        exact congrArg Except.error (Except.error.inj same)
      · intro same
        exact congrArg Except.error (Except.error.inj same)
  | ok result =>
      obtain ⟨value, done⟩ := sure result
      change next result = _ ↔ _
      rw [done]
      exact ⟨nofun, nofun⟩

namespace Rule

def Frugal (rule : Rule) : Prop := ∀ s, Within (digitCount s) (rule.apply s)

def Sure (rule : Rule) : Prop := ∀ s, ∃ t, rule.apply s = .ok t

theorem frugal_of_action {rule : Rule} {function : Text}
    {action : List Text → Except Fault (Option Text)}
    (applied : rule.apply = replaceCallsM function action)
    (frugal : LiteSql.Frugal action) : rule.Frugal := by
  intro s
  have within := frugal.within_replaceM (Calls.ofText function s)
  rw [Calls.render_ofText] at within
  rw [applied]
  exact within

theorem frugal_stringRules : ∀ rule ∈ stringRules, rule.Frugal := by
  simp only [stringRules, List.forall_mem_cons]
  refine ⟨frugal_of_action rfl frugal_concat, frugal_of_action rfl frugal_substring, ?_, ?_, ?_, ?_,
    frugal_of_action rfl frugal_groupConcat, List.forall_mem_nil _⟩
  · exact frugal_of_action rfl (Template.frugal_wrapped (by decide))
  · exact frugal_of_action rfl (Template.frugal_wrapped (by decide))
  · exact frugal_of_action rfl (Template.frugal_wrapped (by decide))
  · exact frugal_of_action rfl (Template.frugal_exchanged (by decide))

theorem sure_template {name function : Text} {arity : Int} {parts : Template}
    (fitting : parts.fits arity = true) : (template name function arity parts).Sure :=
  fun _ => exists_replaceM (Template.exists_fillExactly fitting) _

theorem sure_total (name function : Text) (action : List Text → Option Text) :
    (total name function action).Sure :=
  fun _ => exists_replaceM (fun arguments => ⟨action arguments, rfl⟩) _

theorem sure_pattern (name : Text) (wanted : Pattern) (replacement : Match → Text) :
    (pattern name wanted replacement).Sure :=
  fun _ => ⟨_, rfl⟩

def plainRules : List Rule :=
  dateRules.drop 2 ++ numericRules ++ conditionalRules ++ typeRules ++ joinRules ++ keyRules

theorem table_eq : table = (stringRules ++ dateRules.take 2) ++ plainRules := rfl

theorem sure_plainRules : ∀ rule ∈ plainRules, rule.Sure := by
  simp only [plainRules, List.forall_mem_append]
  refine ⟨⟨⟨⟨⟨?_, ?_⟩, ?_⟩, ?_⟩, ?_⟩, ?_⟩
  · simp only [dateRules, List.drop_succ_cons, List.drop_zero, List.forall_mem_cons]
    refine ⟨?_, ?_, ?_, ?_, ?_, ?_, ?_, ?_, ?_, ?_, ?_, ?_, ?_, sure_total _ _ _, ?_,
      List.forall_mem_nil _⟩
    all_goals exact sure_template rfl
  · simp only [numericRules, List.forall_mem_cons]
    exact ⟨sure_total _ _ _, sure_total _ _ _, sure_total _ _ _, sure_template rfl,
      sure_template rfl, List.forall_mem_nil _⟩
  · simp only [conditionalRules, List.forall_mem_cons]
    exact ⟨sure_template rfl, sure_template rfl, sure_template rfl, List.forall_mem_nil _⟩
  · simp only [typeRules, List.forall_mem_cons]
    exact ⟨sure_pattern _ _ _, sure_pattern _ _ _, sure_pattern _ _ _, sure_total _ _ _,
      sure_pattern _ _ _, sure_pattern _ _ _, sure_pattern _ _ _, List.forall_mem_nil _⟩
  · simp only [joinRules, List.forall_mem_cons]
    exact ⟨sure_pattern _ _ _, sure_pattern _ _ _, List.forall_mem_nil _⟩
  · simp only [keyRules, List.forall_mem_cons]
    exact ⟨sure_pattern _ _ _, sure_pattern _ _ _, sure_pattern _ _ _, List.forall_mem_nil _⟩

theorem frugal_front : ∀ rule ∈ stringRules ++ dateRules.take 2, rule.Frugal := by
  rw [List.forall_mem_append]
  refine ⟨frugal_stringRules, ?_⟩
  simp only [dateRules, List.take_succ_cons, List.take_zero, List.forall_mem_cons]
  exact ⟨frugal_of_action rfl (frugal_move rfl), frugal_of_action rfl (frugal_move rfl),
    List.forall_mem_nil _⟩

theorem exists_run {rules : List Rule} (sure : ∀ rule ∈ rules, rule.Sure) (s : Text) :
    ∃ outcome, run rules s = .ok outcome := by
  induction rules generalizing s with
  | nil => exact ⟨([], s), rfl⟩
  | cons rule rules ih =>
      obtain ⟨changed, applied⟩ := sure rule List.mem_cons_self s
      obtain ⟨outcome, ran⟩ := ih (fun other member => sure other
        (List.mem_cons_of_mem rule member)) changed
      exact ⟨_, by rw [run, applied]; simp only [bind, Except.bind, ran]; rfl⟩

theorem run_append_error {first second : List Rule} (frugal : ∀ rule ∈ first, rule.Frugal)
    (sure : ∀ rule ∈ second, rule.Sure) {s : Text} {fault : Fault}
    (failed : run (first ++ second) s = .error fault) :
    ∃ count, fault = .tooManyDigits count ∧ digitLimit < count ∧ count ≤ digitCount s := by
  induction first generalizing s with
  | nil =>
      obtain ⟨outcome, ran⟩ := exists_run sure s
      rw [List.nil_append, ran] at failed
      cases failed
  | cons rule rules ih =>
      have within := frugal rule List.mem_cons_self s
      rw [List.cons_append, run] at failed
      cases applied : rule.apply s with
      | error cause =>
          rw [applied] at failed within
          cases failed
          exact within
      | ok changed =>
          rw [applied] at failed within
          have later := (bind_eq_error_iff (fun _ => ⟨_, rfl⟩)
            (run (rules ++ second) changed) fault).mp failed
          obtain ⟨count, cause, excess, under⟩ :=
            ih (fun other member => frugal other (List.mem_cons_of_mem rule member)) later
          exact ⟨count, cause, excess, Nat.le_trans under within⟩

theorem run_table_error {s : Text} {fault : Fault} (failed : run table s = .error fault) :
    ∃ count, fault = .tooManyDigits count ∧ digitLimit < count ∧ count ≤ digitCount s := by
  rw [table_eq] at failed
  exact run_append_error frugal_front sure_plainRules failed

end Rule

/-! ### Conversions -/

theorem adapt_eq_error_iff (rules : List Rule) (s : Text) (fault : Fault) :
    adapt rules s = .error fault ↔ Rule.run rules s = .error fault :=
  bind_eq_error_iff (fun _ => ⟨_, rfl⟩) _ fault

theorem convert_eq_error_iff (rules : List Rule) (s : Text) (fault : Fault) :
    convert rules s = .error fault ↔ adapt rules s = .error fault :=
  bind_eq_error_iff (fun _ => ⟨_, rfl⟩) _ fault

theorem exists_ok_of_ne_error {α : Type} {outcome : Except Fault α}
    (unfailing : ∀ fault, outcome ≠ .error fault) : ∃ result, outcome = .ok result := by
  cases outcome with
  | error fault => exact absurd rfl (unfailing fault)
  | ok result => exact ⟨result, rfl⟩

/-- Adapting and converting a statement can only fail on a number with too many digits to be read,
all of them digits of the statement, and not at all if the statement has few. -/
theorem adapt_convert_fault (s : Text) :
    (∀ fault, adapt Rule.table s = .error fault ∨ convert Rule.table s = .error fault →
      ∃ count, fault = .tooManyDigits count ∧ digitLimit < count ∧ count ≤ s.countP isDigit) ∧
    (s.countP isDigit ≤ digitLimit →
      (∃ adapted, adapt Rule.table s = .ok adapted) ∧
        ∃ converted, convert Rule.table s = .ok converted) := by
  have faults (fault : Fault)
      (failed : adapt Rule.table s = .error fault ∨ convert Rule.table s = .error fault) :
      ∃ count, fault = .tooManyDigits count ∧ digitLimit < count ∧ count ≤ s.countP isDigit := by
    rw [convert_eq_error_iff, or_self, adapt_eq_error_iff] at failed
    exact Rule.run_table_error failed
  refine ⟨faults, fun few => ⟨exists_ok_of_ne_error ?_, exists_ok_of_ne_error ?_⟩⟩
  · intro fault failed
    obtain ⟨count, -, excess, under⟩ := faults fault (.inl failed)
    omega
  · intro fault failed
    obtain ⟨count, -, excess, under⟩ := faults fault (.inr failed)
    omega

/-- An interval whose number has as many digits as are read. -/
theorem adapt_convert_fault_longest :
    ∃ s : Text, s = "DATE_ADD(d, INTERVAL ".toList ++ List.replicate digitLimit '9' ++
      " DAY)".toList ∧
      s.countP isDigit = digitLimit ∧ (∃ adapted, adapt Rule.table s = .ok adapted) ∧
        ∃ converted, convert Rule.table s = .ok converted := by
  refine ⟨_, rfl, ?_⟩
  have count : ("DATE_ADD(d, INTERVAL ".toList ++ List.replicate digitLimit '9' ++
      " DAY)".toList).countP isDigit = digitLimit := by
    have texts : "DATE_ADD(d, INTERVAL ".toList.countP isDigit = 0 ∧
        " DAY)".toList.countP isDigit = 0 ∧ isDigit '9' = true := by decide
    rw [List.countP_append, List.countP_append, List.countP_replicate, if_pos texts.2.2, texts.1,
      texts.2.1, Nat.zero_add, Nat.add_zero]
  exact ⟨count, (adapt_convert_fault _).2 count.le⟩

end LiteSql
