import LiteSql.Proofs.CodeWord
import LiteSql.Proofs.PatternSpan
import LiteSql.Proofs.Settling
import LiteSql.Rule.Table

/-! What the rules write for a call is read like a finished piece of code, whatever the arguments
are, as long as those are read like arguments. -/

namespace LiteSql

open Mode

theorem forall_isOpen_iff (holds : Mode → Prop) :
    (∀ m : Mode, m.state.isOpen = true → holds m) ↔
      ∀ q ∈ [ScanState.code, .dash, .slash], ∀ pending, holds ⟨q, pending⟩ := by
  constructor
  · intro all q member pending
    have checked : ∀ q ∈ [ScanState.code, .dash, .slash], q.isOpen = true := by decide
    exact all ⟨q, pending⟩ (checked q member)
  · rintro checked ⟨q, pending⟩ isOpen
    refine checked q ?_ pending
    cases q <;> simp_all [ScanState.isOpen]

/-- A text that ends in code with no sign waiting, from wherever in code it is read. -/
def Fixed (s : Text) : Prop := ∀ m : Mode, m.state.isOpen = true → m.read false s = some start

instance (s : Text) : Decidable (Fixed s) :=
  decidable_of_iff' _ (forall_isOpen_iff fun m => m.read false s = some start)

theorem Fixed.append {s t : Text} (first : Fixed s) (second : Fixed t) : Fixed (s ++ t) := by
  intro m isOpen
  rw [read_append, first m isOpen, Option.bind_some, second start rfl]

theorem Fixed.around {s argument t : Text} (first : Fixed s) (closes : Closes false argument)
    (second : Fixed t) : Fixed (s ++ argument ++ t) := by
  intro m isOpen
  obtain ⟨last, reads, ends, -⟩ := closes
  rw [read_append, read_append, first m isOpen, Option.bind_some, reads, Option.bind_some,
    second last ends]

theorem closes_nil (strict : Bool) : Closes strict [] := ⟨start, rfl, rfl, fun _ => rfl⟩

theorem settles_of_fixed {action : List Text → Except Fault (Option Text)}
    (fixed : ∀ arguments answer, (∀ argument ∈ arguments, Closes false argument) →
      action arguments = .ok (some answer) → Fixed answer) : Settles false action :=
  fun arguments answer closes answered m _ isOpen _ =>
    fixed arguments answer closes answered m isOpen

namespace Template

/-- Whether the texts of a template hold its arguments apart; `held` tells whether a text has just
been written. -/
def holds : (held : Bool) → Template → Bool
  | held, [] => held
  | _, .text s :: rest => decide (Fixed s) && holds true rest
  | true, .argument _ :: rest => holds false rest
  | _, _ => false

theorem fillAs_text {arguments : List Text} {numbering : Numbering} {t s : Text} {rest : Template}
    (filled : fillAs arguments numbering (.text t :: rest) = .ok s) :
    ∃ last, fillAs arguments numbering rest = .ok last ∧ s = t ++ last := by
  have opened : (do return t ++ (← fillAs arguments numbering rest)) = Except.ok s := by
    cases numbering <;> exact filled
  obtain ⟨last, others, same⟩ := (bind_eq_ok_iff _ _ _).mp opened
  exact ⟨last, others, (Except.ok.inj same).symm⟩

theorem fillAs_argument {arguments : List Text} {numbering : Numbering} {index : Nat} {s : Text}
    {rest : Template} (filled : fillAs arguments numbering (.argument index :: rest) = .ok s) :
    ∃ argument ∈ arguments, ∃ last, fillAs arguments .manual rest = .ok last ∧
      s = argument ++ last := by
  have opened : (do return (← argumentAt arguments index) ++ (← fillAs arguments .manual rest)) =
      Except.ok s := by
    cases numbering with
    | automatic next => cases filled
    | undecided => exact filled
    | manual => exact filled
  obtain ⟨argument, found, opened⟩ := (bind_eq_ok_iff _ _ _).mp opened
  obtain ⟨last, others, same⟩ := (bind_eq_ok_iff _ _ _).mp opened
  refine ⟨argument, ?_, last, others, (Except.ok.inj same).symm⟩
  rw [argumentAt] at found
  split at found
  · next here =>
      cases found
      exact List.mem_of_getElem? here
  · cases found

theorem read_fillAs {arguments : List Text} (closes : ∀ argument ∈ arguments, Closes false argument)
    {numbering : Numbering} {parts : Template} {held : Bool} (kept : holds held parts = true)
    {s : Text} (filled : fillAs arguments numbering parts = .ok s) {m : Mode}
    (isOpen : m.state.isOpen = true) (first : held = true → m = start) :
    m.read false s = some start := by
  induction parts generalizing numbering held s m with
  | nil =>
      cases held with
      | false => cases kept
      | true =>
          cases numbering <;> cases filled <;> exact congrArg some (first rfl)
  | cons part rest ih =>
      cases part with
      | text t =>
          rw [holds, Bool.and_eq_true, decide_eq_true_iff] at kept
          obtain ⟨last, others, rfl⟩ := fillAs_text filled
          rw [read_append, kept.1 m isOpen, Option.bind_some]
          exact ih kept.2 others rfl fun _ => rfl
      | argument index =>
          cases held with
          | false => cases kept
          | true =>
              obtain ⟨argument, member, last, others, rfl⟩ := fillAs_argument filled
              obtain ⟨middle, reads, ends, -⟩ := closes argument member
              rw [first rfl, read_append, reads, Option.bind_some]
              exact ih kept others ends (by simp)
      | next => cases held <;> cases kept
      | named name => cases held <;> cases kept
      | broken fault => cases held <;> cases kept

theorem settles_fillExactly {parts : Template} (kept : parts.holds false = true) (arity : Int) :
    Settles false (parts.fillExactly arity) := by
  refine settles_of_fixed fun arguments answer closes answered m isOpen => ?_
  rw [fillExactly] at answered
  split at answered
  · cases filled : parts.fill arguments with
    | error fault =>
        rw [filled] at answered
        cases answered
    | ok s =>
        rw [filled] at answered
        cases answered
        exact read_fillAs closes kept filled isOpen (by simp)
  · cases answered

end Template

theorem settles_unixTimestamp : Settles false fun arguments =>
    .ok (Rule.unixTimestamp arguments) := by
  refine settles_of_fixed fun arguments answer closes answered => ?_
  have written : Rule.unixTimestamp arguments = some answer := Except.ok.inj answered
  match arguments, written with
  | [], rfl => exact by decide +kernel
  | [time], rfl =>
    exact Fixed.around (by decide) (closes time List.mem_cons_self) (by decide)

theorem fixed_round (direction : Rounding.Direction) {value : Text} (closes : Closes false value) :
    Fixed (Rounding.round direction value) := by
  have truncated : Fixed ("CAST(" ++ value ++ " AS INTEGER)") :=
    Fixed.around (by decide) closes (by decide)
  have both (sign comparison : Text) (first : Fixed sign) (second : Fixed comparison) :
      Fixed ("(" ++ ("CAST(" ++ value ++ " AS INTEGER)") ++ sign ++ value ++ comparison ++
        ("CAST(" ++ value ++ " AS INTEGER)") ++ "))") := by
    have front := (Fixed.append (s := "(") (by decide) truncated).append first
    exact ((front.around closes second).append truncated).append (by decide)
  cases direction with
  | up => exact both " + (" " > " (by decide) (by decide)
  | down => exact both " - (" " < " (by decide) (by decide)

theorem settles_rounding (direction : Rounding.Direction) :
    Settles false fun arguments => .ok (Rounding.convert direction arguments) := by
  refine settles_of_fixed fun arguments answer closes answered => ?_
  have written : Rounding.convert direction arguments = some answer := Except.ok.inj answered
  match arguments, written with
  | [value], written =>
    have argument := closes value List.mem_cons_self
    rw [Rounding.convert] at written
    split at written
    · cases written
      have draw : Fixed (Rounding.round direction "v") :=
        fixed_round direction ⟨start, rfl, rfl, fun _ => rfl⟩
      have front := (Fixed.append (s := "(SELECT ") (by decide) draw).append
        (t := " FROM (SELECT ") (by decide)
      exact front.around argument (by decide)
    · cases written
      exact fixed_round direction argument

theorem read_string {s : Text} (plain : ∀ c ∈ s, c ≠ '\x27' ∧ c ≠ '\x5c') :
    (Mode.mk .string false).read false s = some ⟨.string, false⟩ := by
  induction s with
  | nil => rfl
  | cons c s ih =>
      have stays : (Mode.mk .string false).advance false c = some ⟨.string, false⟩ := by
        have here := plain c List.mem_cons_self
        simp [advance, ScanState.step, here]
      rw [read_cons, stays, Option.bind_some]
      exact ih fun d member => plain d (List.mem_cons_of_mem c member)

theorem plain_signedDecimal (n : Int) : ∀ c ∈ signedDecimal n, c ≠ '\x27' ∧ c ≠ '\x5c' := by
  intro c member
  rcases List.mem_cons.mp member with rfl | digit
  · split <;> decide
  · have isDigit := Nat.isDigit_of_mem_toDigits (by decide) (by decide) digit
    constructor <;> rintro rfl <;> simp at isDigit

theorem settles_move (direction : Int) : Settles false (DayInterval.move direction) := by
  refine settles_of_fixed fun arguments answer closes answered => ?_
  match arguments, answered with
  | [date, amount], answered =>
    rw [DayInterval.move] at answered
    split at answered
    · cases answered
    · next found =>
        obtain ⟨offset, -, same⟩ := (bind_eq_ok_iff _ _ _).mp answered
        cases same
        have interval : Fixed (", '" ++ signedDecimal (direction * offset) ++ " days')") := by
          intro m isOpen
          have opened : m.read false ", '" = some ⟨.string, false⟩ :=
            (forall_isOpen_iff fun m => m.read false ", '" = some ⟨.string, false⟩).mpr
              (by decide) m isOpen
          rw [read_append, read_append, opened, Option.bind_some,
            read_string (plain_signedDecimal _), Option.bind_some]
          decide
        have whole := Fixed.around (s := "DATETIME(") (by decide)
          (closes date List.mem_cons_self) interval
        simpa only [List.append_assoc] using whole

theorem settles_enum : Settles false fun _ => .ok (some "TEXT") := by
  refine settles_of_fixed fun arguments answer _ answered => ?_
  cases answered
  decide

theorem read_joinWith {arguments : List Text}
    (closes : ∀ argument ∈ arguments, Closes true argument) :
    start.read true (joinWith " || " arguments) = some start := by
  have whole (argument : Text) (closed : Closes true argument) :
      start.read true argument = some start := by
    obtain ⟨last, reads, -, ends⟩ := closed
    rw [reads, ends rfl]
  fun_induction joinWith " || " arguments with
  | case1 => rfl
  | case2 argument => exact whole argument (closes argument List.mem_cons_self)
  | case3 first second rest ih =>
      have separator : start.read true " || " = some start := by decide
      have others := ih fun argument member => closes argument (List.mem_cons_of_mem first member)
      rw [read_append, read_append, whole first (closes first List.mem_cons_self), Option.bind_some,
        separator, Option.bind_some, others]

/-- Joined values start and end with an argument, so their signs have to be applied. -/
theorem settles_concat : Settles true fun arguments =>
    .ok (if arguments.isEmpty then none else some (joinWith " || " arguments)) := by
  intro arguments answer closes answered m _ _ ready
  rw [ready rfl]
  have written : (if arguments.isEmpty then none
      else some (joinWith " || " arguments)) = some answer :=
    Except.ok.inj answered
  split at written
  · cases written
  · cases written
    exact read_joinWith closes

theorem closes_false_iff (s : Text) :
    Closes false s ↔ ScanState.code.Quiet s ∧ (scan s).isOpen = true := by
  constructor
  · rintro ⟨last, reads, isOpen, -⟩
    exact ⟨quiet_of_read reads sound_start.outside, by rwa [← scan_of_read reads]⟩
  · rintro ⟨quiet, isOpen⟩
    obtain ⟨last, reads⟩ := exists_read_of_quiet (m := start) quiet
    exact ⟨last, reads, by rwa [scan_of_read reads], by simp⟩

theorem isOpen_of_settle {q : ScanState} (isOpen : q.settle.isOpen = true) : q.isOpen = true := by
  cases q <;> simp_all [ScanState.settle, ScanState.isOpen]

theorem Mode.Closes.exchange {front x y back : Text} (closes : Closes false (front ++ (x ++ back)))
    (first : Neutral x) (second : Neutral y) : Closes false (front ++ (y ++ back)) := by
  rw [closes_false_iff, quiet_scan_append, ScanState.quiet_append, scan_append,
    ScanState.after_append] at closes ⊢
  obtain ⟨⟨quiet, here, later⟩, isOpen⟩ := closes
  obtain ⟨-, old⟩ := ScanState.after_of_isNeutral here.ne_line first.1 first.2
  obtain ⟨there, new⟩ := ScanState.after_of_isNeutral here.ne_line second.1 second.2
  rw [old] at later isOpen
  rw [new]
  exact ⟨⟨quiet, there, later⟩, isOpen⟩

theorem Mode.Closes.joined {first second separator : Text} (one : Closes false first)
    (neutral : Neutral separator) (other : Closes false second) :
    Closes false (first ++ separator ++ second) := by
  rw [closes_false_iff] at one other
  have outside : scan first ≠ .line := by
    intro comment
    rw [comment] at one
    cases one.2
  obtain ⟨quiet, settled⟩ := ScanState.after_of_isNeutral outside neutral.1 neutral.2
  have code : (scan first).settle = .code := by
    cases state : scan first <;> simp_all [ScanState.isOpen, ScanState.settle]
  have joined : scan (first ++ separator) = .code := by rw [scan_append, settled, code]
  rw [closes_false_iff, quiet_scan_append, joined, quiet_scan_append, scan_append (_ ++ _), joined]
  exact ⟨⟨⟨one.1, quiet⟩, other.1⟩, other.2⟩

theorem closes_joinArguments {arguments : List Text}
    (closes : ∀ argument ∈ arguments, Closes false argument) :
    Closes false (joinArguments arguments) := by
  rw [joinArguments]
  fun_induction joinWith ", " arguments with
  | case1 => exact closes_nil false
  | case2 argument => exact closes argument List.mem_cons_self
  | case3 first second rest ih =>
      have others := ih fun argument member => closes argument (List.mem_cons_of_mem first member)
      exact (closes first List.mem_cons_self).joined ⟨by decide, by decide⟩ others

theorem Mode.Closes.of_append {s x : Text} (closes : Closes false (s ++ x)) (neutral : Neutral x) :
    Closes false s := by
  rw [closes_false_iff, quiet_scan_append, scan_append] at closes
  obtain ⟨⟨quiet, rest⟩, isOpen⟩ := closes
  rw [(ScanState.after_of_isNeutral rest.ne_line neutral.1 neutral.2).2] at isOpen
  exact (closes_false_iff s).mpr ⟨quiet, isOpen_of_settle isOpen⟩

theorem Mode.Closes.without {s tail : Text} (closes : Closes false (s ++ tail))
    (neutral : tail = [] ∨ Neutral tail) : Closes false s := by
  rcases neutral with rfl | neutral
  · rwa [List.append_nil] at closes
  · exact closes.of_append neutral

theorem Mode.Closes.trimEnd {s : Text} (closes : Closes false s) : Closes false (trimEnd s) := by
  obtain ⟨tail, cut, blank⟩ := exists_dropEndWhile isBlank s
  rw [cut] at closes
  refine closes.without ?_
  by_cases none : tail = []
  · exact .inl none
  · exact .inr (neutral_of_isBlank none blank)

theorem isNeutral_of_sameIgnoringCase {c d : Char} (word : isWordChar c = true)
    (same : sameIgnoringCase c d = true) : ScanState.isNeutral d = true := by
  have refused : d ∉ ScanState.signs := not_mem_of_sameIgnoringCase word same (by decide)
  simpa [ScanState.isNeutral] using refused

theorem neutral_keyword {k x : Text} (word : ∀ c ∈ k, isWordChar c = true) (present : k ≠ [])
    (read : startsIgnoringCase k x = true ∧ x.length = k.length) : Neutral x := by
  obtain ⟨starts, length⟩ := read
  refine ⟨fun none => present (List.eq_nil_of_length_eq_zero (by simp [← length, none])), ?_⟩
  intro c member
  obtain ⟨i, bound, rfl⟩ := List.getElem_of_mem member
  have inside : i < k.length := by omega
  obtain ⟨d, here, same⟩ := getElem?_of_startsIgnoringCase starts (List.getElem?_eq_getElem inside)
  obtain rfl : d = x[i] := by
    rw [List.getElem?_eq_getElem bound] at here
    exact (Option.some.inj here).symm
  exact isNeutral_of_sameIgnoringCase (word _ (List.getElem_mem inside)) same

structure Spacing (s : Text) : Prop where
  neutral : Neutral s
  ends : ∃ front c, s = front ++ [c] ∧ isBlank c = true

theorem spacing_append_blanks {s blanks : Text} (neutral : Neutral s) (filled : blanks ≠ [])
    (blank : ∀ c ∈ blanks, isBlank c = true) : Spacing (s ++ blanks) := by
  obtain ⟨early, c, rfl⟩ := List.eq_nil_or_concat blanks |>.resolve_left filled
  refine ⟨neutral.append (neutral_of_isBlank filled blank), s ++ early,
    c, by rw [List.concat_eq_append, List.append_assoc], ?_⟩
  exact blank c (by simp)

open Pattern in
theorem spans_spaced {k : Text} (word : ∀ c ∈ k, isWordChar c = true) (present : k ≠ [])
    {p : Pattern} {before : Option Char} {pos : Nat} {x after : Text} {caps : List Capture}
    (taken : (all [gap, keyword k, gap, p]).Spans before pos x after caps) :
    ∃ between y last, x = between ++ y ∧ Spacing between ∧
      p.Spans last (pos + between.length) y after caps := by
  simp only [all, gap, Spans, spans_someOf_iff, spans_keyword_iff] at taken
  obtain ⟨first, _, _, _, rfl, rfl, ⟨blank, rfl⟩, name, _, _, _, rfl, rfl, ⟨read, rfl⟩,
    second, y, _, _, rfl, rfl, ⟨wide, rfl⟩, rest⟩ := taken
  have spacing := spacing_append_blanks
    ((neutral_of_isBlank blank.1 blank.2).append (neutral_keyword word present read)) wide.1 wide.2
  rw [List.append_assoc] at spacing
  have length : pos + first.length + name.length + second.length =
      pos + (first ++ (name ++ second)).length := by
    simp [Nat.add_assoc]
  rw [length] at rest
  simp only [List.append_nil]
  exact ⟨first ++ (name ++ second), y, _, by simp only [List.append_assoc], spacing, rest⟩

theorem take_drop_middle (front x back : Text) (n : Nat) (length : front.length = n) :
    ((front ++ (x ++ back)).drop n).take x.length = x := by
  rw [List.drop_left' length, List.take_left]

open Pattern in
/-- The parts of a substring's argument and where they are captured, with neutral texts between and
perhaps behind them. -/
theorem spans_fromFor {x after : Text} {caps : List Capture}
    (taken : Substring.fromFor.Spans none 0 x after caps) :
    ∃ text between position rest, x = text ++ (between ++ (position ++ rest)) ∧ Spacing between ∧
      (after = [] ∨ Neutral after) ∧
      ((rest = [] ∧
        caps = [⟨"position", text.length + between.length,
          text.length + between.length + position.length⟩, ⟨"text", 0, text.length⟩]) ∨
        ∃ more length, rest = more ++ length ∧ Spacing more ∧
        caps = [⟨"length", text.length + between.length + position.length + more.length,
            text.length + between.length + position.length + more.length + length.length⟩,
          ⟨"position", text.length + between.length,
            text.length + between.length + position.length⟩,
          ⟨"text", 0, text.length⟩]) := by
  obtain ⟨text, _, _, _, rfl, rfl, ⟨_, rfl, -, rfl⟩, afterText⟩ := taken
  obtain ⟨between, _, _, rfl, spacing, afterFrom⟩ := spans_spaced (by decide) (by decide) afterText
  obtain ⟨position, _, _, _, rfl, rfl, ⟨_, rfl, captured⟩, afterPosition⟩ := afterFrom
  obtain ⟨_, _, _, _, -, rfl, ⟨-, rfl⟩, -, rfl⟩ := captured
  obtain ⟨rest, _, _, _, rfl, rfl, more, rfl, rfl, ending⟩ := afterPosition
  have tail : after = [] ∨ Neutral after := by
    rcases ending with rfl | rfl
    · exact .inl rfl
    · exact .inr ⟨by simp, by decide⟩
  refine ⟨text, between, position, rest, by rw [List.append_nil], spacing, tail, ?_⟩
  rcases more with more | ⟨rfl, rfl⟩
  · obtain ⟨blanks, length, _, rfl, spaced, _, rfl, captured⟩ :=
      spans_spaced (by decide) (by decide) more
    obtain ⟨-, rfl⟩ := (spans_someOf_iff _ _ _ _ _ _).mp captured
    exact .inr ⟨blanks, length, rfl, spaced, by simp⟩
  · exact .inl ⟨rfl, by simp⟩

theorem arguments?_fromFor {argument : Text} {m : Match}
    (found : Substring.fromFor.matchStart? argument = some m) :
    ∃ text between position rest, argument = text ++ (between ++ (position ++ rest)) ∧
      Spacing between ∧
      ((Substring.arguments? [argument] = some [text, position] ∧ (rest = [] ∨ Neutral rest)) ∨
        ∃ more length tail, rest = more ++ (length ++ tail) ∧ Spacing more ∧
          (tail = [] ∨ Neutral tail) ∧
          Substring.arguments? [argument] = some [text, position, length]) := by
  obtain ⟨after, caps, whole, place, taken⟩ := Pattern.takes_of_matchAt? found rfl
  have captures := taken.captures
  rw [← whole, place] at captures
  have start := taken.spans
  rw [place] at start
  obtain ⟨text, between, position, rest, split, spaced, tail, parts⟩ := spans_fromFor start
  have cut : argument = text ++ (between ++ (position ++ (rest ++ after))) := by
    rw [show argument = m.text ++ after from whole, split]
    simp only [List.append_assoc]
  have first : argument.take text.length = text := by rw [cut, List.take_left]
  have second : (argument.drop (text.length + between.length)).take position.length = position := by
    rw [cut, ← List.append_assoc]
    exact take_drop_middle _ _ _ _ List.length_append
  refine ⟨text, between, position, rest ++ after, cut, spaced, ?_⟩
  rcases parts with ⟨rfl, rfl⟩ | ⟨more, length, rfl, spaced', rfl⟩
  · refine .inl ⟨?_, by simpa using tail⟩
    rw [Substring.arguments?, found]
    simp [Match.captured?, captures, Reading.start, List.lookup_cons, first, second]
  · have third : (argument.drop (text.length + between.length + position.length + more.length)).take
        length.length = length := by
      have regrouped : argument = (text ++ (between ++ (position ++ more))) ++
          (length ++ after) := by
        rw [cut]
        simp only [List.append_assoc]
      rw [regrouped]
      exact take_drop_middle _ _ _ _ (by simp [Nat.add_assoc])
    refine .inr ⟨more, length, after, by simp only [List.append_assoc], spaced', tail, ?_⟩
    rw [Substring.arguments?, found]
    simp [Match.captured?, captures, Reading.start, List.lookup_cons, first, second, third]

theorem closes_arguments? {arguments list : List Text}
    (closes : ∀ argument ∈ arguments, Closes false argument)
    (found : Substring.arguments? arguments = some list) :
    Closes false (joinArguments list) := by
  have comma : Neutral ", " := ⟨by decide, by decide⟩
  match arguments, found with
  | [argument], found =>
    have whole := closes argument List.mem_cons_self
    obtain ⟨m, start, -⟩ := Option.map_eq_some_iff.mp found
    obtain ⟨text, between, position, rest, rfl, spaced,
        ⟨pair, tail⟩ | ⟨more, length, tail, rfl, spaced', last, triple⟩⟩ :=
      arguments?_fromFor start
    · rw [pair] at found
      cases found
      have listed := whole.exchange spaced.neutral comma
      rw [← List.append_assoc, ← List.append_assoc] at listed
      simpa [joinArguments, joinWith] using listed.without tail
    · rw [triple] at found
      cases found
      have listed := whole.exchange spaced.neutral comma
      rw [← List.append_assoc, ← List.append_assoc] at listed
      have listed := listed.exchange spaced'.neutral comma
      rw [← List.append_assoc, ← List.append_assoc] at listed
      simpa [joinArguments, joinWith] using listed.without last
  | [], found => 
      cases found
      exact closes_joinArguments closes
  | first :: second :: rest, found =>
      cases found
      exact closes_joinArguments closes

theorem settles_substring : Settles false fun arguments => .ok (Substring.convert arguments) := by
  refine settles_of_fixed fun arguments answer closes answered => ?_
  have written : Substring.convert arguments = some answer := Except.ok.inj answered
  obtain ⟨list, found, written⟩ := Option.bind_eq_some_iff.mp written
  split at written
  · cases written
    exact Fixed.around (by decide) (closes_arguments? closes found) (by decide)
  · cases written

theorem spans_of_topLevel? {p : Pattern} {s : Text} {m : Match} (found : p.topLevel? s = some m) :
    ∃ front after caps, s = front ++ (m.text ++ after) ∧ m.start = front.length ∧
      p.Spans front.getLast? m.start m.text after caps ∧ ¬ InLiteral s front.length := by
  obtain ⟨front, after, caps, cut, place, -, taken⟩ :=
    Pattern.takes_of_mem_hits (List.mem_of_find?_eq_some found)
  refine ⟨front, after, caps, cut, place, taken.spans, ?_⟩
  have outside := List.find?_some found
  rw [Bool.and_eq_true, Bool.not_eq_true', place] at outside
  rw [← inSpans_literalSpans_iff, outside.1]
  simp

theorem Mode.Closes.cut {front x back : Text} (closes : Closes false (front ++ (x ++ back)))
    (neutral : Neutral x) (outside : ¬ InLiteral (front ++ (x ++ back)) front.length) :
    Closes false front ∧ Closes false (x ++ back) := by
  obtain ⟨c, rest, rfl⟩ := List.exists_cons_of_ne_nil neutral.1
  have first := neutral.2 c List.mem_cons_self
  rw [List.cons_append] at closes outside ⊢
  rw [closes_false_iff, quiet_scan_append, scan_append] at closes
  obtain ⟨⟨quiet, later⟩, isOpen⟩ := closes
  have opened : (scan front).isOpen = true := by
    have reached := isOpen_scan_take _ _ c (by simp) outside
    rw [List.take_left] at reached
    exact reached fun comment => absurd comment later.ne_line
  have same : (scan front).step c = ScanState.code.step c := by
    rw [ScanState.step_of_isNeutral later.ne_line first,
      ScanState.step_of_isNeutral (by simp) first]
    cases state : scan front <;> simp_all [ScanState.isOpen, ScanState.settle]
  have last : scan (c :: (rest ++ back)) = (scan front).after (c :: (rest ++ back)) := by
    rw [scan, ScanState.after, ScanState.after, List.foldl_cons, List.foldl_cons, same]
  refine ⟨(closes_false_iff front).mpr ⟨quiet, opened⟩,
    (closes_false_iff _).mpr ⟨⟨by simp, ?_⟩, ?_⟩⟩
  · rw [← same]
    exact later.2
  · rwa [last]

theorem Mode.Closes.behind {x s : Text} (closes : Closes false (x ++ s)) (neutral : Neutral x) :
    Closes false s := by
  have settled : scan x = .code := (ScanState.after_of_isNeutral (by simp) neutral.1 neutral.2).2
  rw [closes_false_iff, quiet_scan_append, scan_append, settled] at closes
  exact (closes_false_iff s).mpr ⟨closes.1.2, closes.2⟩

theorem Mode.Closes.trim {s : Text} (closes : Closes false s) : Closes false (trim s) := by
  obtain ⟨last, reads, isOpen, -⟩ := closes
  exact closes_trim reads ⟨isOpen, by simp⟩

open Pattern in
theorem neutral_separator {before : Option Char} {pos : Nat} {x after : Text} {caps : List Capture}
    (taken : GroupConcat.separator.Spans before pos x after caps) : Neutral x := by
  simp only [GroupConcat.separator, all, Spans, spans_keyword_iff] at taken
  obtain ⟨_, _, _, _, rfl, -, ⟨rfl, -, -⟩, word, _, _, _, rfl, -, ⟨read, -⟩, rfl, -⟩ := taken
  rw [List.nil_append, List.append_nil]
  exact neutral_keyword (by decide) (by decide) read

open Pattern in
theorem neutral_orderBy {before : Option Char} {pos : Nat} {x after : Text} {caps : List Capture}
    (taken : GroupConcat.orderBy.Spans before pos x after caps) : Neutral x := by
  simp only [GroupConcat.orderBy, all, gap, Spans, spans_someOf_iff, spans_keyword_iff] at taken
  obtain ⟨_, _, _, _, rfl, -, ⟨rfl, -, -⟩, order, _, _, _, rfl, -, ⟨read, -⟩, blanks, _, _,
      _, rfl, -, ⟨blank, -⟩, by_, _, _, _, rfl, -, ⟨read', -⟩, rfl, -⟩ := taken
  rw [List.nil_append, List.append_nil]
  exact (neutral_keyword (by decide) (by decide) read).append
    ((neutral_of_isBlank blank.1 blank.2).append (neutral_keyword (by decide) (by decide) read'))

theorem closes_splitSeparator? {arguments : List Text} {values delimiter : Text}
    (closes : ∀ argument ∈ arguments, Closes false argument)
    (found : GroupConcat.splitSeparator? arguments = some (values, delimiter)) :
    Closes false values ∧ Closes false delimiter := by
  obtain ⟨clause, top, found⟩ := Option.bind_eq_some_iff.mp found
  obtain ⟨front, after, caps, cut, place, taken, outside⟩ := spans_of_topLevel? top
  have neutral := neutral_separator taken
  simp only [Match.stop, place] at found
  have body := closes_joinArguments closes
  rw [cut] at body outside found
  obtain ⟨first, second⟩ := body.cut neutral outside
  rw [List.take_left, ← List.append_assoc, ← List.length_append, List.drop_left] at found
  split at found
  · cases found
  · cases found
    exact ⟨first.trimEnd, (second.behind neutral).trim⟩

theorem settles_groupConcat : Settles false fun arguments =>
    .ok (GroupConcat.convert arguments) := by
  refine settles_of_fixed fun arguments answer closes answered => ?_
  have written : GroupConcat.convert arguments = some answer := Except.ok.inj answered
  obtain ⟨⟨values, delimiter⟩, found, written⟩ := Option.bind_eq_some_iff.mp written
  obtain ⟨first, second⟩ := closes_splitSeparator? closes found
  have comma : Fixed ", " := by decide
  dsimp only at written
  split at written
  · cases written
  · split at written
    · cases written
      have front := Fixed.around (s := "GROUP_CONCAT(") (by decide) first comma
      exact front.around second (by decide)
    · next order top =>
        cases written
        obtain ⟨before, after, caps, cut, place, taken, outside⟩ := spans_of_topLevel? top
        rw [cut] at first outside
        obtain ⟨unordered, ordering⟩ := first.cut (neutral_orderBy taken) outside
        rw [cut, place, List.take_left, List.drop_left]
        have front := Fixed.around (s := "GROUP_CONCAT(") (by decide) unordered.trimEnd comma
        have blank : Neutral " " := ⟨by decide, by decide⟩
        have clauses := second.joined blank ordering
        simpa only [List.append_assoc] using front.around clauses (t := ")") (by decide)

namespace Rule

def action? : Rule → Option (Text × (List Text → Except Fault (Option Text)))
  | template _ function arity parts => some (function, parts.fillExactly arity)
  | call _ function action => some (function, action)
  | undefined _ | pattern _ _ _ => none

theorem exists_action? {rule : Rule} {function : Text} (named : rule.function? = some function) :
    ∃ action, rule.action? = some (function, action) ∧
      rule.apply = replaceCallsM function action := by
  cases rule with
  | undefined name => cases named
  | template name function arity parts =>
      cases named
      exact ⟨_, rfl, rfl⟩
  | call name function action =>
      cases named
      exact ⟨_, rfl, rfl⟩
  | pattern name wanted replacement => cases named

/-- A rule whose answers can stand where calls stood. Only joined values need their signs applied.
-/
def Settling (rule : Rule) : Prop :=
  ∀ function action, rule.action? = some (function, action) →
    Settles (decide (function = ("CONCAT" : Text))) action

theorem settling_template {name function : Text} {arity : Int} {parts : Template}
    (other : function ≠ "CONCAT") (kept : parts.holds false = true) :
    (template name function arity parts).Settling := by
  intro _ _ found
  cases found
  rw [decide_eq_false other]
  exact Template.settles_fillExactly kept arity

theorem settling_call {name function : Text} {action : List Text → Except Fault (Option Text)}
    (other : function ≠ "CONCAT") (settles : Settles false action) :
    (call name function action).Settling := by
  intro _ _ found
  cases found
  rwa [decide_eq_false other]

theorem settling_pattern (name : Text) (wanted : Pattern) (replacement : Match → Text) :
    (pattern name wanted replacement).Settling := by
  intro _ _ found
  cases found

theorem settling_stringRules : ∀ rule ∈ stringRules, rule.Settling := by
  simp only [stringRules, List.forall_mem_cons, List.not_mem_nil, false_imp_iff, implies_true,
    and_true]
  refine ⟨?_, settling_call (by decide) settles_substring, ?_, ?_, ?_, ?_,
    settling_call (by decide) settles_groupConcat⟩
  · intro _ _ found
    cases found
    exact settles_concat
  all_goals exact settling_template (by decide) (by decide)

theorem settling_dateRules : ∀ rule ∈ dateRules, rule.Settling := by
  simp only [dateRules, List.forall_mem_cons, List.not_mem_nil, false_imp_iff, implies_true,
    and_true]
  refine ⟨settling_call (by decide) (settles_move 1), settling_call (by decide) (settles_move (-1)),
    ?_, ?_, ?_, ?_, ?_, ?_, ?_, ?_, ?_, ?_, ?_, ?_, ?_,
    settling_call (by decide) settles_unixTimestamp, ?_⟩
  all_goals exact settling_template (by decide) (by decide)

theorem settling_numericRules : ∀ rule ∈ numericRules, rule.Settling := by
  simp only [numericRules, List.forall_mem_cons, List.not_mem_nil, false_imp_iff, implies_true,
    and_true]
  refine ⟨settling_call (by decide) (settles_rounding .up),
    settling_call (by decide) (settles_rounding .up),
    settling_call (by decide) (settles_rounding .down), ?_, ?_⟩
  all_goals exact settling_template (by decide) (by decide)

theorem settling_conditionalRules : ∀ rule ∈ conditionalRules, rule.Settling := by
  simp only [conditionalRules, List.forall_mem_cons, List.not_mem_nil, false_imp_iff, implies_true,
    and_true]
  refine ⟨?_, ?_, ?_⟩
  all_goals exact settling_template (by decide) (by decide)

theorem settling_typeRules : ∀ rule ∈ typeRules, rule.Settling := by
  simp only [typeRules, List.forall_mem_cons, List.not_mem_nil, false_imp_iff, implies_true,
    and_true]
  refine ⟨?_, ?_, ?_, settling_call (by decide) settles_enum, ?_, ?_, ?_⟩
  all_goals exact settling_pattern _ _ _

theorem settling_joinRules_keyRules : ∀ rule ∈ joinRules ++ keyRules, rule.Settling := by
  simp only [joinRules, keyRules, List.forall_mem_append, List.forall_mem_cons, List.not_mem_nil,
    false_imp_iff, implies_true, and_true]
  refine ⟨⟨?_, ?_⟩, ?_, ?_, ?_⟩
  all_goals exact settling_pattern _ _ _

/-- The answers of every rule of the table can stand where calls stood. -/
theorem settling_table : ∀ rule ∈ table, rule.Settling := by
  intro rule member
  simp only [table, List.append_assoc, List.mem_append] at member
  rcases member with member | member | member | member | member | member
  · exact settling_stringRules rule member
  · exact settling_dateRules rule member
  · exact settling_numericRules rule member
  · exact settling_conditionalRules rule member
  · exact settling_typeRules rule member
  · exact settling_joinRules_keyRules rule (List.mem_append.mpr member)

theorem isWordChar_function? {rule : Rule} {function : Text} (member : rule ∈ table)
    (named : rule.function? = some function) : ∀ c ∈ function, isWordChar c = true :=
  fun c inside => ((isAsciiWord_function? member named).2 c inside).2

theorem run_eq_self {rules : List Rule} {s : Text} (stays : ∀ rule ∈ rules, rule.apply s = .ok s) :
    run rules s = .ok ([], s) := by
  induction rules with
  | nil => rfl
  | cons rule rules ih =>
      have later := ih fun other member => stays other (List.mem_cons_of_mem rule member)
      rw [run, stays rule List.mem_cons_self]
      simp [bind, Except.bind, later]
      rfl

end Rule

end LiteSql
