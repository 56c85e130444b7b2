import Mathlib.Data.Nat.Digits.Defs
import LiteSql.Proofs.Answers
import LiteSql.Proofs.Balance
import LiteSql.Proofs.Preference

/-! Dates moved by days. The days of an interval are read from digits of any script and written in
ASCII with a sign, so that what one function adds the other takes away. What is no interval of days
has no answer. -/

namespace LiteSql

/-! ### Numbers -/

theorem numberValue_eq_ofDigits (digits : Text) :
    numberValue digits = Nat.ofDigits 10 (digits.reverse.map fun c => (digitValue? c).getD 0) := by
  rw [Nat.ofDigits_eq_foldr, List.foldr_map, List.foldr_reverse, numberValue]
  congr 1
  funext value c
  rw [Nat.mul_comm, Nat.add_comm]
  rfl

theorem decimal_eq_of_head? {n : Nat} (zero : (decimal n).head? = some '0') :
    decimal n = ['0'] := by
  induction n using Nat.strongRecOn with
  | ind n ih =>
      rw [decimal, Nat.toDigits_eq_if (by decide)] at zero ⊢
      split at zero
      · next small =>
          rw [if_pos small]
          exact congrArg ([·]) (Option.some.inj zero)
      · next large =>
          have positive : 0 < n / 10 := Nat.div_pos (Nat.le_of_not_lt large) (by decide)
          rw [List.head?_append_of_ne_nil _ Nat.toDigits_ne_nil] at zero
          have front : Nat.toDigits 10 (n / 10) = ['0'] := ih (n / 10) (by omega) zero
          have read := Nat.ofDigitChars_toDigits (b := 10) (n := n / 10) (by decide) (by decide)
          rw [front] at read
          exact absurd read (Nat.ne_of_lt positive)

def IsSigned (written : Text) (value : Int) : Prop :=
  ∃ sign digits, written = sign :: digits ∧ (sign = '+' ∨ sign = '-') ∧ digits ≠ [] ∧
    (∀ c ∈ digits, c.isDigit = true) ∧ (digits.head? = some '0' → digits = ['0']) ∧
    value = if sign = '-' then -(Nat.ofDigitChars 10 digits 0 : Int)
      else Nat.ofDigitChars 10 digits 0

theorem isSigned_signedDecimal (n : Int) : IsSigned (signedDecimal n) n := by
  refine ⟨_, _, rfl, by split <;> simp, Nat.toDigits_ne_nil,
    fun c member => Nat.isDigit_of_mem_toDigits (by decide) (by decide) member,
    decimal_eq_of_head?, ?_⟩
  rw [decimal, Nat.ofDigitChars_toDigits (by decide) (by decide)]
  by_cases negative : n < 0
  · rw [if_pos negative, if_pos rfl]
    omega
  · rw [if_neg negative, if_neg (by decide)]
    omega

theorem isDigit_of_isBlank {c : Char} (blank : isBlank c = true) : isDigit c = false := by
  have other := forall_inRanges (fun c => !isDigit c) (by decide +kernel) blank
  rwa [Bool.not_eq_true'] at other

theorem Pattern.Prefers.atEnd {before : Option Char} {pos : Nat} {after : Text}
    (last : after = [] ∨ after = ['\n']) : Pattern.atEnd.Prefers before pos [] after [] := by
  intro r next stop _ _ rest found
  have ended : r.atEnd = true := by
    rw [Reading.atEnd, rest]
    rcases last with rfl | rfl <;> rfl
  rw [List.nil_append] at rest
  rw [first?, if_pos ended, ← found, ← rest, Reading.past_nil]

namespace DayInterval

inductive Sign
  | none
  | plus
  | minus
  deriving DecidableEq, Repr

namespace Sign

def text : Sign → Text
  | none => []
  | plus => ['+']
  | minus => ['-']

def unit : Sign → Int
  | none | plus => 1
  | minus => -1

end Sign

/-- An interval of days in one of the ways to write it: words in any case, digits of any script, and
blanks wherever they may stand. -/
structure Writing where
  word : Text
  gap : Text
  sign : Sign
  spaces : Text
  digits : Text
  space : Text
  day : Text
  last : Text
  word_spelled : spelled "INTERVAL" word = true
  gap_blank : gap ≠ [] ∧ ∀ c ∈ gap, isBlank c = true
  spaces_blank : ∀ c ∈ spaces, isBlank c = true
  digits_read : digits ≠ [] ∧ ∀ c ∈ digits, isDigit c = true
  space_blank : space ≠ [] ∧ ∀ c ∈ space, isBlank c = true
  day_spelled : spelled "DAY" day = true
  last_feed : last = [] ∨ last = ['\n']

namespace Writing

def body (w : Writing) : Text :=
  w.word ++ (w.gap ++ (w.sign.text ++ (w.spaces ++ (w.digits ++ (w.space ++ w.day)))))

def text (w : Writing) : Text := w.body ++ w.last

def value (w : Writing) : Int :=
  w.sign.unit * (Nat.ofDigits 10 (w.digits.reverse.map fun c => (digitValue? c).getD 0) : Nat)

end Writing

open Pattern in
theorem exists_writing_of_spans {x after : Text} {caps : List Capture}
    (taken : interval.Spans .none 0 x after caps) : ∃ w : Writing, x ++ after = w.text := by
  obtain ⟨word, _, _, _, rfl, -, named, taken⟩ := taken
  obtain ⟨gap, _, _, _, rfl, -, wide, taken⟩ := taken
  obtain ⟨sign, _, _, _, rfl, -, ⟨_, -, signed⟩, taken⟩ := taken
  obtain ⟨spaces, _, _, _, rfl, -, ⟨blank, -⟩, taken⟩ := taken
  obtain ⟨digits, _, _, _, rfl, -, ⟨_, -, read⟩, taken⟩ := taken
  obtain ⟨space, _, _, _, rfl, -, apart, taken⟩ := taken
  obtain ⟨day, _, _, _, rfl, -, unit, rfl, -, ended⟩ := taken
  obtain ⟨mark, rfl⟩ : ∃ mark : Sign, sign = mark.text := by
    rcases signed with ⟨⟨c, either, rfl⟩, -⟩ | ⟨rfl, -⟩
    · rw [Bool.or_eq_true, beq_iff_eq, beq_iff_eq] at either
      rcases either with rfl | rfl
      · exact ⟨.plus, rfl⟩
      · exact ⟨.minus, rfl⟩
    · exact ⟨.none, rfl⟩
  refine ⟨⟨word, gap, mark, spaces, digits, space, day, after,
    (spelled_iff _ _).mpr ((spans_keyword_iff _ _ _ _ _ _).mp named).1,
    ((spans_someOf_iff _ _ _ _ _ _).mp wide).1, blank, ((spans_someOf_iff _ _ _ _ _ _).mp read).1,
    ((spans_someOf_iff _ _ _ _ _ _).mp apart).1, (spelled_iff _ _).mpr
    ((spans_keyword_iff _ _ _ _ _ _).mp unit).1,
    ended⟩, ?_⟩
  simp [Writing.text, Writing.body]

namespace Writing

variable (w : Writing)

theorem exists_tight : ∃ v : Writing, v.text = w.text ∧ v.sign = w.sign ∧ v.digits = w.digits ∧
    (v.sign = .none → v.spaces = []) := by
  cases signed : w.sign with
  | none =>
      refine ⟨
        { w with gap := w.gap ++ w.spaces, spaces := [], gap_blank := ?_, spaces_blank := by simp },
        by simp [text, body, signed, Sign.text], signed, rfl, fun _ => rfl⟩
      refine ⟨fun none => w.gap_blank.1 (List.append_eq_nil_iff.mp none).1, fun c member => ?_⟩
      exact (List.mem_append.mp member).elim (w.gap_blank.2 c) (w.spaces_blank c)
  | plus => exact ⟨w, rfl, signed, rfl, fun none => by rw [signed] at none; cases none⟩
  | minus => exact ⟨w, rfl, signed, rfl, fun none => by rw [signed] at none; cases none⟩

theorem head?_digits (after : Text) : (w.digits ++ after).head?.any isBlank = false ∧
    ∀ c ∈ (w.digits ++ after).head?, c ≠ '+' ∧ c ≠ '-' := by
  obtain ⟨present, read⟩ := w.digits_read
  obtain ⟨c, digits, cut⟩ := List.exists_cons_of_ne_nil present
  have digit : isDigit c = true := read c (by simp [cut])
  have signs : ∀ d ∈ ['+', '-'], isDigit d = false := by decide
  rw [cut, List.cons_append, List.head?_cons]
  refine ⟨?_, fun d same => ?_⟩
  · rw [Option.any_some, ← Bool.not_eq_true]
    intro blank
    rw [isDigit_of_isBlank blank] at digit
    cases digit
  · cases same
    constructor
    · rintro rfl
      cases (signs '+' (by simp)).symm.trans digit
    · rintro rfl
      cases (signs '-' (by simp)).symm.trans digit

theorem head?_space (after : Text) : (w.space ++ after).head?.any isDigit = false := by
  obtain ⟨present, blank⟩ := w.space_blank
  obtain ⟨c, space, cut⟩ := List.exists_cons_of_ne_nil present
  rw [cut, List.cons_append, List.head?_cons, Option.any_some]
  exact isDigit_of_isBlank (blank c (by simp [cut]))

theorem head?_day (after : Text) : (w.day ++ after).head?.any isBlank = false := by
  obtain ⟨present, letters⟩ := isWordChar_of_spelled (by decide) w.day_spelled
  obtain ⟨c, day, cut⟩ := List.exists_cons_of_ne_nil present
  rw [cut, List.cons_append, List.head?_cons, Option.any_some]
  exact isBlank_of_isWordChar (letters c (by simp [cut]))

open Pattern in
theorem prefers_sign (before : Option Char) (pos : Nat) (after : Text)
    (digits : ∀ c ∈ after.head?, w.sign = .none → c ≠ '+' ∧ c ≠ '-') :
    (optional (.one fun c => c == '+' || c == '-')).Prefers before pos w.sign.text after [] := by
  cases signed : w.sign with
  | plus => exact .left (.one rfl)
  | minus => exact .left (.one rfl)
  | none =>
      refine .right .empty ?_
      rintro ⟨_, rest, _, cut, ⟨c, mark, rfl⟩, -⟩
      have head : after = c :: rest := cut
      obtain ⟨notPlus, notMinus⟩ := digits c (by rw [head]; rfl) signed
      simp [notPlus, notMinus] at mark

open Pattern in
theorem prefers_interval (tight : w.sign = .none → w.spaces = []) :
    interval.Prefers .none 0 w.body w.last
    [⟨"days", (w.word ++ (w.gap ++ (w.sign.text ++ w.spaces))).length,
        (w.word ++ (w.gap ++ (w.sign.text ++ w.spaces))).length + w.digits.length⟩,
      ⟨"sign", (w.word ++ w.gap).length, (w.word ++ w.gap).length + w.sign.text.length⟩] := by
  have interval := (spelled_iff _ _).mp w.word_spelled
  have day := (spelled_iff _ _).mp w.day_spelled
  have solid : (w.sign.text ++ (w.spaces ++ (w.digits ++ (w.space ++ w.day))) ++ w.last).head?.any
      isBlank = false := by
    cases signed : w.sign with
    | none =>
        rw [tight signed, Sign.text, List.nil_append, List.nil_append, List.append_assoc]
        exact (w.head?_digits _).1
    | plus => rfl
    | minus => rfl
  have apart : (w.digits ++ (w.space ++ w.day) ++ w.last).head?.any isBlank = false := by
    rw [List.append_assoc]
    exact (w.head?_digits _).1
  have unsigned : ∀ c ∈ (w.spaces ++ (w.digits ++ (w.space ++ w.day)) ++ w.last).head?,
      w.sign = .none → c ≠ '+' ∧ c ≠ '-' := by
    intro c head signed
    rw [tight signed, List.nil_append, List.append_assoc] at head
    exact (w.head?_digits _).2 c head
  have ended : (w.space ++ w.day ++ w.last).head?.any isDigit = false := by
    rw [List.append_assoc]
    exact w.head?_space _
  have unit (before : Option Char) (pos : Nat) :
      (seq (.keyword "DAY") .atEnd).Prefers before pos (w.day ++ []) w.last [] :=
    .seq (.keyword day.1 day.2) (.atEnd w.last_feed)
  rw [List.append_nil] at unit
  have marked (before : Option Char) (pos : Nat) :
      (capture "sign" (optional (.one fun c => c == '+' || c == '-'))).Prefers before pos
        w.sign.text
        (w.spaces ++ (w.digits ++ (w.space ++ w.day)) ++ w.last)
        [⟨"sign", pos, pos + w.sign.text.length⟩] :=
    .capture (w.prefers_sign _ _ _ unsigned)
  have counted (before : Option Char) (pos : Nat) :
      (capture "days" Pattern.digits).Prefers before pos w.digits
      (w.space ++ w.day ++ w.last) [⟨"days", pos, pos + w.digits.length⟩] :=
    .capture (.someOf w.digits_read.1 w.digits_read.2 ended)
  have name : (keyword "INTERVAL").Prefers .none 0 w.word
      (w.gap ++ (w.sign.text ++ (w.spaces ++ (w.digits ++ (w.space ++ w.day)))) ++ w.last) [] :=
    .keyword interval.1 interval.2
  have whole := name.seq (.seq (.someOf w.gap_blank.1 w.gap_blank.2 solid) (.seq (marked _ _)
    (.seq (.many w.spaces_blank apart) (.seq (counted _ _)
      (.seq (.someOf w.space_blank.1 w.space_blank.2 (w.head?_day _)) (unit _ _))))))
  simp only [List.length_append, ← Nat.add_assoc, Nat.zero_add] at whole ⊢
  exact whole

theorem exists_matchStart? : ∃ m, interval.matchStart? w.text = some m ∧
    m.captured? "sign" = some w.sign.text ∧
    m.captured? "days" = some w.digits := by
  obtain ⟨v, text, sign, digits, tight⟩ := w.exists_tight
  rw [← text, ← sign, ← digits]
  have first : v.body ++ v.last = (v.word ++ v.gap) ++ (v.sign.text ++
      (v.spaces ++ (v.digits ++ (v.space ++ (v.day ++ v.last))))) := by simp [body]
  have second : v.body ++ v.last = (v.word ++ (v.gap ++ (v.sign.text ++ v.spaces))) ++
      (v.digits ++ (v.space ++ (v.day ++ v.last))) := by simp [body]
  refine ⟨_, (v.prefers_interval tight).matchAt?, ?_, ?_⟩
  · have slice := take_drop_middle (v.word ++ v.gap) v.sign.text
      (v.spaces ++ (v.digits ++ (v.space ++ (v.day ++ v.last)))) _ rfl
    rw [← first] at slice
    simpa [Match.captured?, List.lookup_cons] using slice
  · have slice := take_drop_middle (v.word ++ (v.gap ++ (v.sign.text ++ v.spaces))) v.digits
      (v.space ++ (v.day ++ v.last)) _ rfl
    rw [← second] at slice
    simpa [Match.captured?] using slice

theorem move_text (direction : Int) (date : Text) : move direction [date, w.text] =
    if digitLimit < w.digits.length then .error (.tooManyDigits w.digits.length)
    else .ok (some ("DATETIME(" ++ date ++ ", '" ++ signedDecimal
      (direction * w.value) ++ " days')")) := by
  obtain ⟨m, found, sign, digits⟩ := w.exists_matchStart?
  have offset : (if m.captured? "sign" = some ['-'] then -(numberValue w.digits : Int)
      else numberValue w.digits) =
      w.value := by
    rw [sign, numberValue_eq_ofDigits, value]
    cases w.sign <;> simp [Sign.text, Sign.unit]
  rw [move, found]
  simp only [days, digits, Option.getD_some, offset]
  split
  · rfl
  · rfl

end Writing

theorem move_of_not_writing (direction : Int) {arguments : List Text}
    (other : ¬ ∃ (date : Text) (w : Writing), arguments = [date, w.text]) :
      move direction arguments = .ok none := by
  match arguments with
  | [date, amount] =>
      cases found : interval.matchStart? amount with
      | none => rw [move, found]
      | some m =>
          obtain ⟨after, caps, whole, start, taken⟩ := Pattern.takes_of_matchAt? found rfl
          have spans := taken.spans
          rw [start] at spans
          obtain ⟨w, text⟩ := exists_writing_of_spans spans
          rw [← whole] at text
          exact absurd ⟨date, w, congrArg (fun amount => [date, amount]) text⟩ other
  | [] => rfl
  | [_] => rfl
  | _ :: _ :: _ :: _ => rfl

/-- Days are added and taken away exactly. The offset that is written reads as the days of the
interval, or as their negation, whatever script and sign they are written in; opposite intervals
undo each other's function; zero has the same offset everywhere; and only a date with an interval of
days has an answer. -/
theorem move_days :
    (Rule.call "date_add" "DATE_ADD" (move 1) ∈ Rule.table ∧
      Rule.call "date_sub" "DATE_SUB" (move (-1)) ∈ Rule.table) ∧
    (∀ (w : Writing) (date : Text), w.digits.length ≤ digitLimit → ∃ added removed : Text,
      move 1 [date, w.text] = .ok (some ("DATETIME(" ++ date ++ ", '" ++ added ++ " days')")) ∧
      move (-1) [date, w.text] = .ok (some ("DATETIME(" ++ date ++ ", '" ++ removed ++ " days')")) ∧
      IsSigned added w.value ∧ IsSigned removed (-w.value) ∧
      (w.value = 0 → added = "+0" ∧ removed = "+0") ∧
      ∀ v : Writing, v.digits = w.digits → v.sign.unit = -w.sign.unit →
        move (-1) [date, v.text] = move 1 [date, w.text] ∧ move 1 [date, v.text] =
          move (-1) [date, w.text]) ∧
    ∀ arguments : List Text, (¬ ∃ (date : Text) (w : Writing), arguments = [date, w.text]) →
      move 1 arguments = .ok none ∧ move (-1) arguments = .ok none := by
  refine ⟨⟨List.mem_of_getElem? (i := 7) rfl, List.mem_of_getElem? (i := 8) rfl⟩,
    fun w date few => ?_, fun arguments other =>
      ⟨move_of_not_writing 1 other, move_of_not_writing (-1) other⟩⟩
  have within : ¬ digitLimit < w.digits.length := Nat.not_lt.mpr few
  refine ⟨signedDecimal w.value, signedDecimal (-w.value), ?_, ?_, isSigned_signedDecimal _,
    isSigned_signedDecimal _, ?_, fun v same opposite => ?_⟩
  · rw [w.move_text, if_neg within, Int.one_mul]
  · rw [w.move_text, if_neg within, Int.neg_one_mul]
  · intro zero
    rw [zero]
    exact ⟨rfl, rfl⟩
  · have value : v.value = -w.value := by
      rw [Writing.value, Writing.value, same, opposite, Int.neg_mul]
    rw [v.move_text, v.move_text, w.move_text, w.move_text, same, value, Int.one_mul, Int.one_mul,
      Int.neg_one_mul, Int.neg_one_mul, Int.neg_neg]
    exact ⟨rfl, rfl⟩

def Writing.sevenBack : Writing where
  word := "Interval"
  gap := " \t"
  sign := .minus
  spaces := "\n"
  digits := "٠٠٧"
  space := "  "
  day := "daY"
  last := "\n"
  word_spelled := by decide
  gap_blank := by decide
  spaces_blank := by decide
  digits_read := by decide
  space_blank := by decide
  day_spelled := by decide
  last_feed := .inr rfl

/-- Minus seven days taken away from a date are seven days added; a date alone has no answer. -/
theorem move_days_sevenBack :
    (Writing.sevenBack.text = "Interval \t-\n٠٠٧  daY\n".toList ∧ Writing.sevenBack.value = -7 ∧
      Writing.sevenBack.digits.length ≤ digitLimit) ∧
    (∃ added removed : Text,
      move 1 ["d", Writing.sevenBack.text] = .ok
        (some ("DATETIME(" ++ "d".toList ++ ", '" ++ added ++ " days')")) ∧
      move (-1) ["d", Writing.sevenBack.text] =
        .ok (some ("DATETIME(" ++ "d".toList ++ ", '" ++ removed ++ " days')")) ∧
      IsSigned added (-7) ∧ IsSigned removed 7) ∧
    (¬ ∃ (date : Text) (w : Writing), (["d"] : List Text) = [date, w.text]) ∧
      move 1 ["d"] = .ok none := by
  have few : Writing.sevenBack.digits.length ≤ digitLimit := by decide
  have value : Writing.sevenBack.value = -7 := by decide
  have alone : ¬ ∃ (date : Text) (w : Writing), (["d"] : List Text) = [date, w.text] := by
    rintro ⟨date, w, same⟩
    cases same
  obtain ⟨added, removed, plus, minus, up, down, -⟩ := move_days.2.1 Writing.sevenBack "d" few
  rw [value] at up down
  exact ⟨⟨by decide, value, few⟩, ⟨added, removed, plus, minus, up, down⟩, alone,
    (move_days.2.2 ["d"] alone).1⟩

end DayInterval

end LiteSql
