import LiteSql.Proofs.Token
import LiteSql.Proofs.SeparatorClause

/-! Draws of random numbers in a text. They are counted in one pass: a trail remembers how much of
the name of a draw has been read in code, and a parenthesis behind the whole name completes a draw.
-/

namespace LiteSql

/-- How many random numbers a text draws. -/
def draws (s : Text) : Nat :=
  ((Rounding.randomCall.hits s).filter fun m => !inSpans (literalSpans s) m.start).length

/-- What has been read of the name of a draw. -/
inductive Trail
  /-- Nothing that a draw goes on from. -/
  | ready
  /-- A word that so far is the first letters of the longer name. -/
  | within (n : Nat)
  /-- Another word. -/
  | spent
  /-- A whole name, and blanks behind it. -/
  | named
  deriving DecidableEq, Repr

namespace Trail

/-- The longer name of a draw; its first four letters are the other one. -/
def letters : Text := "RANDOM"

def isDraw : Trail → Bool
  | within n => n == 4 || n == 6
  | named => true
  | ready | spent => false

def inWord : Trail → Bool
  | within _ | spent => true
  | ready | named => false

def extend (n : Nat) (c : Char) : Trail :=
  if letters[n]?.any (sameIgnoringCase · c) then within (n + 1) else spent

def next (t : Trail) (c : Char) : Trail :=
  if isWordChar c then
    match t with
    | ready | named => extend 0 c
    | within n => extend n c
    | spent => spent
  else if isBlank c && t.isDraw then named
  else ready

def step (q : ScanState) (t : Trail) (c : Char) : Trail := if q.isOpen then t.next c else ready

def completes (q : ScanState) (t : Trail) (c : Char) : Bool := q.isOpen && c == '(' && t.isDraw

def after : ScanState → Trail → Text → Trail
  | _, t, [] => t
  | q, t, c :: s => after (q.step c) (t.step q c) s

def count : ScanState → Trail → Text → Nat
  | _, _, [] => 0
  | q, t, c :: s => (t.completes q c).toNat + count (q.step c) (t.step q c) s

theorem after_append (q : ScanState) (t : Trail) (x y : Text) :
    after q t (x ++ y) = after (q.after x) (after q t x) y := by
  induction x generalizing q t with
  | nil => rfl
  | cons c x ih => exact ih _ _

theorem count_append (q : ScanState) (t : Trail) (x y : Text) :
    count q t (x ++ y) = count q t x + count (q.after x) (after q t x) y := by
  induction x generalizing q t with
  | nil => exact (Nat.zero_add _).symm
  | cons c x ih =>
      rw [List.cons_append, count, ih, ← Nat.add_assoc]
      rfl

/-! ### Trails that complete less -/

/-- A trail from which no more draws are completed than from another. -/
def Below (t u : Trail) : Prop := t = u ∨ t = spent ∨ (t = ready ∧ u = named)

instance (t u : Trail) : Decidable (Below t u) :=
  inferInstanceAs (Decidable (t = u ∨ t = spent ∨ (t = ready ∧ u = named)))

theorem Below.refl (t : Trail) : Below t t := .inl rfl

theorem Below.isDraw_le {t u : Trail} (below : Below t u) (draw : t.isDraw = true) :
    u.isDraw = true := by
  rcases below with rfl | rfl | ⟨rfl, rfl⟩
  · exact draw
  · cases draw
  · rfl

theorem next_letter (t : Trail) {c : Char} (letter : isWordChar c = true) :
    (t.next c).inWord = true := by
  have extended (n : Nat) : (extend n c).inWord = true := by
    rw [extend]
    split <;> rfl
  rw [next.eq_def, if_pos letter]
  cases t with
  | spent => rfl
  | _ => exact extended _

theorem next_other (t : Trail) {c : Char} (other : isWordChar c = false) :
    t.next c = if isBlank c && t.isDraw then named else ready := by
  rw [next.eq_def, other]
  rfl

theorem Below.next {t u : Trail} (below : Below t u) (c : Char) : Below (t.next c) (u.next c) := by
  cases letter : isWordChar c with
  | true =>
      rcases below with rfl | rfl | ⟨rfl, rfl⟩
      · exact .refl _
      · exact .inr (.inl (if_pos letter))
      · exact .inl ((if_pos letter).trans (if_pos letter).symm)
  | false =>
      rw [next_other t letter, next_other u letter]
      cases isBlank c with
      | false => exact .refl _
      | true =>
          rcases below with rfl | rfl | ⟨rfl, rfl⟩
          · exact .refl _
          · cases u.isDraw
            · exact .refl _
            · exact .inr (.inr ⟨rfl, rfl⟩)
          · exact .inr (.inr ⟨rfl, rfl⟩)

theorem Below.step {t u : Trail} (below : Below t u) (q : ScanState) (c : Char) :
    Below (t.step q c) (u.step q c) := by
  rw [Trail.step, Trail.step]
  split
  · exact below.next c
  · exact .refl _

theorem Below.completes {t u : Trail} (below : Below t u) (q : ScanState) (c : Char) :
    (t.completes q c).toNat ≤ (u.completes q c).toNat := by
  rw [Trail.completes, Trail.completes]
  cases q.isOpen && c == '(' with
  | false => exact Nat.le_refl _
  | true =>
      cases draw : t.isDraw with
      | false => exact Nat.zero_le _
      | true => exact Nat.le_of_eq (by rw [below.isDraw_le draw])

theorem Below.after {t u : Trail} (below : Below t u) (q : ScanState) (s : Text) :
    Below (after q t s) (after q u s) := by
  induction s generalizing q t u with
  | nil => exact below
  | cons c s ih => exact ih (below.step q c) _

theorem Below.count_le {t u : Trail} (below : Below t u) (q : ScanState) (s : Text) :
    count q t s ≤ count q u s := by
  induction s generalizing q t u with
  | nil => exact Nat.le_refl _
  | cons c s ih => exact Nat.add_le_add (below.completes q c) (ih (below.step q c) _)

/-! ### Reading words and blanks -/

theorem step_of_isOpen {q : ScanState} (opened : q.isOpen = true) (t : Trail) (c : Char) :
    t.step q c = t.next c := if_pos opened

theorem step_of_closed {q : ScanState} (closed : q.isOpen = false) (t : Trail) (c : Char) :
    t.step q c = ready := by
  rw [step, closed]
  rfl

theorem completes_eq_false {c : Char} (other : c ≠ '(') (q : ScanState) (t : Trail) :
    t.completes q c = false := by
  rw [completes, beq_eq_false_iff_ne.mpr other, Bool.and_false, Bool.false_and]

theorem count_eq_zero {s : Text} (none : ∀ c ∈ s, c ≠ '(') (q : ScanState) (t : Trail) :
    count q t s = 0 := by
  induction s generalizing q t with
  | nil => rfl
  | cons c s ih =>
      obtain ⟨other, others⟩ := List.forall_mem_cons.mp none
      rw [count, completes_eq_false other, ih others]
      rfl

theorem ne_paren_of_isWordChar {c : Char} (letter : isWordChar c = true) : c ≠ '(' := by
  rintro rfl
  exact absurd letter (by decide)

theorem ne_paren_of_isBlank {c : Char} (blank : isBlank c = true) : c ≠ '(' := by
  rintro rfl
  exact absurd blank (by decide)

theorem next_of_not_inWord {t : Trail} (outside : t.inWord = false) {c : Char}
    (letter : isWordChar c = true) :
    t.next c = (within 0).next c := by
  rw [next.eq_def, next.eq_def, if_pos letter, if_pos letter]
  cases t with
  | ready => rfl
  | named => rfl
  | within n => cases outside
  | spent => cases outside

end Trail

namespace ScanState

theorem isOpen_step_letter (q : ScanState) {c : Char} (letter : isWordChar c = true) :
    (q.step c).isOpen = q.isOpen := by
  have neutral : isNeutral c = true := isNeutral_of_class (by decide) letter
  by_cases comment : q = line
  · subst comment
    have other : c ≠ '\n' := by
      rintro rfl
      exact absurd letter (by decide)
    rw [step, if_neg other]
  · rw [step_of_isNeutral comment neutral]
    cases q <;> rfl

theorem isOpen_after_letters (q : ScanState) {w : Text} (letters : ∀ c ∈ w, isWordChar c = true) :
    (q.after w).isOpen = q.isOpen := by
  induction w generalizing q with
  | nil => rfl
  | cons c w ih =>
      obtain ⟨letter, others⟩ := List.forall_mem_cons.mp letters
      exact (ih (q.step c) others).trans (isOpen_step_letter q letter)

theorem step_of_isOpen {q : ScanState} (opened : q.isOpen = true) {c : Char}
    (neutral : isNeutral c = true) :
    q.step c = code := by
  rw [step_of_isNeutral (by rintro rfl; cases opened) neutral]
  cases q <;> first | rfl | cases opened

theorem marks_of_isOpen {q : ScanState} (opened : q.isOpen = true) {c : Char}
    (neutral : isNeutral c = true)
    (next : Option Char) : q.marks c next = false := by
  simp only [isNeutral, signs, List.contains_cons, List.contains_nil, Bool.or_false, Bool.not_or,
    Bool.and_eq_true, Bool.not_eq_true', beq_eq_false_iff_ne] at neutral
  have plain : LiteralKind.opening? (c :: next.toList) = none := by
    rw [opening?_cons_eq_none]
    simp [neutral]
  cases q <;> simp_all [marks, isOpen]

theorem marks_of_letter (q : ScanState) {c : Char} (letter : isWordChar c = true)
    (next : Option Char) :
    q.marks c next = !q.isOpen := by
  cases opened : q.isOpen with
  | true => exact marks_of_isOpen opened (isNeutral_of_class (by decide) letter) next
  | false =>
      have other : c ≠ '\n' := by
        rintro rfl
        exact absurd letter (by decide)
      cases q <;> simp_all [marks, isOpen]

end ScanState

namespace Trail

theorem after_blanks {q : ScanState} {t : Trail} (opened : q.isOpen = true) (draw : t.isDraw = true)
    {blanks : Text}
    (blank : ∀ c ∈ blanks, isBlank c = true) :
    (q.after blanks).isOpen = true ∧ (after q t blanks).isDraw = true := by
  induction blanks generalizing q t with
  | nil => exact ⟨opened, draw⟩
  | cons c blanks ih =>
      obtain ⟨first, others⟩ := List.forall_mem_cons.mp blank
      have next : t.next c = named := by
        rw [next_other t (isWordChar_of_isBlank first), first, draw]; rfl
      have code := ScanState.step_of_isOpen opened (ScanState.isNeutral_of_class (by decide) first)
      rw [after, step_of_isOpen opened, next, show q.after (c :: blanks) = (q.step c).after blanks
        from rfl, code]
      exact ih rfl rfl others

theorem after_letters {q : ScanState} (opened : q.isOpen = true) {k : Nat} {w v tail : Text}
    (part : letters.drop k = w ++ tail) (ascii : ∀ c ∈ v, isWordChar c = true)
    (same : spelled w v = true) :
    after q (within k) v = within (k + w.length) := by
  induction v generalizing q k w with
  | nil =>
      cases w with
      | nil => rfl
      | cons d w => simp [spelled, startsIgnoringCase] at same
  | cons c v ih =>
      obtain ⟨letter, others⟩ := List.forall_mem_cons.mp ascii
      cases w with
      | nil => simp [spelled, startsIgnoringCase] at same
      | cons d w =>
          obtain ⟨first, rest⟩ := (spelled_cons d c w v).mp same
          have here : letters[k]? = some d := by
            rw [← Nat.add_zero k, ← List.getElem?_drop, part]
            rfl
          have later : letters.drop (k + 1) = w ++ tail := by
            rw [← List.drop_drop, part]
            rfl
          have next : (within k).next c = within (k + 1) := by
            rw [Trail.next.eq_def, if_pos letter]
            exact if_pos (by rw [here]; exact first)
          rw [after, step_of_isOpen opened, next, ih ((q.isOpen_step_letter letter).trans opened)
            later others rest, List.length_cons, Nat.add_assoc, Nat.add_comm 1]

theorem after_letters_of_closed {q : ScanState} (closed : q.isOpen = false) {w : Text}
    (letters : ∀ c ∈ w, isWordChar c = true) : after q ready w = ready := by
  induction w generalizing q with
  | nil => rfl
  | cons c w ih =>
      obtain ⟨letter, others⟩ := List.forall_mem_cons.mp letters
      rw [after, step_of_closed closed, ih ((q.isOpen_step_letter letter).trans closed) others]

theorem step_ready {c : Char} (other : isWordChar c = false) (q : ScanState) :
    step q ready c = ready := by
  cases opened : q.isOpen with
  | false => exact step_of_closed opened ready c
  | true =>
      rw [step_of_isOpen opened, next_other ready other]
      cases isBlank c <;> rfl

theorem completes_of_not_isDraw {t : Trail} (none : t.isDraw = false) (q : ScanState) (c : Char) :
    t.completes q c = false := by
  rw [completes, none, Bool.and_false]

theorem ready_of_no_letters {s : Text} (none : ∀ c ∈ s, isWordChar c = false) (q : ScanState) :
    count q ready s = 0 ∧ after q ready s = ready := by
  induction s generalizing q with
  | nil => exact ⟨rfl, rfl⟩
  | cons c s ih =>
      obtain ⟨other, others⟩ := List.forall_mem_cons.mp none
      obtain ⟨zero, same⟩ := ih others (q.step c)
      rw [count, after, completes_of_not_isDraw rfl, step_ready other, zero, same]
      exact ⟨rfl, rfl⟩

/-! ### Draws are what is counted -/

def concludes : Trail → Text → Bool
  | _, [] => false
  | t, c :: s =>
    if c = '(' then t.isDraw
    else if (isWordChar c && t.inWord) || (isBlank c && t.isDraw) then concludes (t.next c) s
    else false

theorem concludes_ready (s : Text) : concludes ready s = false := by
  cases s with
  | nil => rfl
  | cons c s =>
      rw [concludes]
      simp [isDraw, inWord]

theorem concludes_spent (s : Text) : concludes spent s = false := by
  induction s with
  | nil => rfl
  | cons c s ih =>
      rw [concludes]
      split
      · rfl
      · split
        · next goes =>
            have letter : isWordChar c = true := by simpa [isDraw, inWord] using goes
            rw [show spent.next c = spent from if_pos letter, ih]
        · rfl

theorem exists_of_concludes_named {s : Text} (goes : concludes named s = true) :
    ∃ blanks rest, s = blanks ++ '(' :: rest ∧ ∀ c ∈ blanks, isBlank c = true := by
  induction s with
  | nil => cases goes
  | cons c s ih =>
      rw [concludes] at goes
      split at goes
      · next paren => exact ⟨[], s, by rw [paren]; rfl, by simp⟩
      · split at goes
        · next more =>
            have blank : isBlank c = true := by simpa [isDraw, inWord] using more
            rw [next_other named (isWordChar_of_isBlank blank), blank] at goes
            obtain ⟨blanks, rest, rfl, members⟩ := ih goes
            exact ⟨c :: blanks, rest, rfl, List.forall_mem_cons.mpr ⟨blank, members⟩⟩
        · cases goes

theorem exists_of_concludes {s : Text} {k : Nat} (goes : concludes (within k) s = true) :
    ∃ w v tail blanks rest, s = v ++ (blanks ++ '(' :: rest) ∧ (∀ c ∈ blanks, isBlank c = true) ∧
      letters.drop k = w ++ tail ∧ spelled w v = true ∧ (k + w.length = 4 ∨ k + w.length = 6) := by
  have whole {k : Nat} (draw : (within k).isDraw = true) : k + ([] : Text).length = 4 ∨
      k + ([] : Text).length = 6 := by
    simpa [isDraw] using draw
  induction s generalizing k with
  | nil => cases goes
  | cons c s ih =>
      rw [concludes] at goes
      split at goes
      · next paren =>
          exact ⟨[], [], _, [], s, by rw [paren]; rfl, by simp, rfl, rfl, whole goes⟩
      · split at goes
        · next more =>
            cases letter : isWordChar c with
            | true =>
                rw [show (within k).next c = extend k c from if_pos letter, extend] at goes
                split at goes
                · next same =>
                    obtain ⟨w, v, tail, blanks, rest, rfl, blank, part, named, sum⟩ := ih goes
                    obtain ⟨d, here, same⟩ := (Option.any_eq_true _ _).mp same
                    refine ⟨d :: w, c :: v, tail, blanks, rest, rfl, blank, ?_, ?_, ?_⟩
                    · obtain ⟨bound, rfl⟩ := List.getElem?_eq_some_iff.mp here
                      rw [List.drop_eq_getElem_cons bound, part]
                      rfl
                    · exact (spelled_cons d c w v).mpr ⟨same, named⟩
                    · rw [List.length_cons]
                      omega
                · rw [concludes_spent] at goes
                  cases goes
            | false =>
                obtain ⟨blank, draw⟩ : isBlank c = true ∧ (within k).isDraw = true := by
                  simpa [letter] using more
                rw [next_other _ letter, blank, draw] at goes
                obtain ⟨blanks, rest, rfl, members⟩ := exists_of_concludes_named goes
                exact ⟨[], [], _, c :: blanks, rest, rfl, List.forall_mem_cons.mpr ⟨blank, members⟩,
                  rfl, rfl, whole draw⟩
        · cases goes

end Trail

theorem spelled_paren {p : Text} (same : spelled "(" p = true) : p = ['('] := by
  match p, same with
  | [c], same =>
      have here := ((spelled_cons '(' c [] []).mp same).1
      have paren := forall_sameIgnoringCase (· == '(') (by decide) (by decide +kernel)
        (by decide +kernel) here
      rw [eq_of_beq paren]
  | c :: d :: p, same => cases ((spelled_cons '(' c [] (d :: p)).mp same).2

theorem spelled_letters_iff (v : Text) :
    spelled Trail.letters v = true ↔ ∃ w y, v = w ++ y ∧ spelled "RAND" w = true ∧
      spelled "OM" y = true := by
  constructor
  · intro named
    rw [spelled_iff_foldCase] at named
    refine ⟨v.take 4, v.drop 4, (List.take_append_drop 4 v).symm, ?_, ?_⟩
    · rw [spelled_iff_foldCase, List.map_take, ← named]
      rfl
    · rw [spelled_iff_foldCase, List.map_drop, ← named]
      rfl
  · rintro ⟨w, y, rfl, named, more⟩
    rw [spelled_iff_foldCase] at named more ⊢
    rw [List.map_append, ← named, ← more]
    rfl

theorem spans_randomCall_iff (before : Option Char) (pos : Nat) (x after : Text)
    (caps : List Capture) :
    Rounding.randomCall.Spans before pos x after caps ↔
      (∃ v blanks, x = v ++ (blanks ++ ['(']) ∧ (spelled "RAND" v = true ∨
        spelled Trail.letters v = true) ∧
        ∀ c ∈ blanks, isBlank c = true) ∧ before.any isWordChar = false ∧ caps = [] := by
  have starts {w x : Text} (named : spelled "RAND" w = true) :
      (w ++ x).head?.any isWordChar = true := by
    obtain ⟨present, letters⟩ := isWordChar_of_spelled (by decide) named
    obtain ⟨c, w, rfl⟩ := List.exists_cons_of_ne_nil present
    exact letters c List.mem_cons_self
  simp only [Rounding.randomCall, Pattern.all, Pattern.optional, Pattern.blanks, Pattern.Spans,
    Pattern.spans_keyword_iff, ← spelled_iff]
  constructor
  · rintro ⟨_, _, _, _, rfl, rfl, ⟨rfl, rfl, start⟩, w, _, _, _, rfl, rfl, ⟨named, rfl⟩, y, _, _, _,
      rfl, rfl, ending, blanks, p, _, _, rfl, rfl, ⟨blank, rfl⟩, paren, rfl⟩
    rw [List.append_assoc, starts named] at start
    have free : before.any isWordChar = false := by simpa using start
    obtain rfl := spelled_paren paren
    rcases ending with ⟨more, rfl⟩ | ⟨rfl, rfl⟩
    · exact ⟨⟨w ++ y,
        blanks, by simp, .inr ((spelled_letters_iff _).mpr ⟨w, y, rfl, named, more⟩), blank⟩,
          free, rfl⟩
    · exact ⟨⟨w, blanks, by simp, .inl named, blank⟩, free, rfl⟩
  · rintro ⟨⟨v, blanks, rfl, named, blank⟩, start, rfl⟩
    obtain ⟨w, y, rfl, short, ending⟩ : ∃ w y, v = w ++ y ∧ spelled "RAND" w = true ∧
        (spelled "OM" y = true ∨ y = []) := by
      rcases named with short | long
      · exact ⟨v, [], (List.append_nil v).symm, short, .inr rfl⟩
      · obtain ⟨w, y, cut, named, more⟩ := (spelled_letters_iff v).mp long
        exact ⟨w, y, cut, named, .inl more⟩
    refine ⟨[], w ++ (y ++ (blanks ++ ['('])), [],
      [], by simp, rfl, ⟨rfl, rfl, ?_⟩, w, y ++ (blanks ++ ['(']), [], [], rfl, rfl, ⟨short, rfl⟩,
      y, blanks ++ ['('], [], [], rfl, rfl, ?_, blanks, ['('], [], [], rfl, rfl,
      ⟨blank, rfl⟩, by decide, rfl⟩
    · rw [start, List.append_assoc, starts short]
      exact Bool.false_ne_true
    · rcases ending with more | rfl
      · exact .inl ⟨more, rfl⟩
      · exact .inr ⟨rfl, rfl⟩

namespace Trail

def Fits (q : ScanState) (t : Trail) (before : Option Char) : Prop :=
  if q.isOpen then t.inWord = before.any isWordChar else t = ready

theorem fits_step (q : ScanState) (t : Trail) (c : Char) :
    Fits (q.step c) (t.step q c) (some c) := by
  rw [Fits]
  cases opened : q.isOpen with
  | false =>
      rw [step_of_closed opened]
      split
      · next reopened =>
          cases letter : isWordChar c with
          | false => exact letter.symm
          | true =>
              rw [q.isOpen_step_letter letter, opened] at reopened
              cases reopened
      · rfl
  | true =>
      rw [step_of_isOpen opened]
      cases letter : isWordChar c with
      | true =>
          rw [q.isOpen_step_letter letter, opened, if_pos rfl, next_letter t letter]
          exact letter.symm
      | false =>
          rw [next_other t letter, Option.any_some, letter]
          cases blank : isBlank c with
          | false =>
              rw [Bool.false_and, if_neg Bool.false_ne_true]
              split <;> rfl
          | true =>
              rw [ScanState.step_of_isOpen opened (ScanState.isNeutral_of_class (by decide) blank)]
              cases t.isDraw <;> rfl

theorem isWordChar_of_name {v : Text} (named : spelled "RAND" v = true ∨ spelled letters v = true) :
    v ≠ [] ∧ ∀ c ∈ v, isWordChar c = true := by
  rcases named with short | long
  · exact isWordChar_of_spelled (by decide) short
  · exact isWordChar_of_spelled (by decide) long

theorem read_draw {q : ScanState} {t : Trail} {before : Option Char} (fits : Fits q t before)
    (outside : before.any isWordChar = false) {v blanks : Text}
    (named : spelled "RAND" v = true ∨ spelled letters v = true)
    (blank : ∀ c ∈ blanks, isBlank c = true) :
    count q t (v ++ (blanks ++ ['('])) = q.isOpen.toNat ∧
      after q t (v ++ (blanks ++ ['('])) = ready := by
  have ascii := isWordChar_of_name named
  have word := count_eq_zero (fun c member => ne_paren_of_isWordChar (ascii.2 c member)) q t
  rw [Fits] at fits
  rw [count_append, after_append, word, Nat.zero_add]
  cases opened : q.isOpen with
  | false =>
      rw [opened, if_neg Bool.false_ne_true] at fits
      rw [fits, after_letters_of_closed opened ascii.2]
      refine ready_of_no_letters (fun c member => ?_) _
      rcases List.mem_append.mp member with early | last
      · exact isWordChar_of_isBlank (blank c early)
      · rw [List.mem_singleton.mp last]
        decide
  | true =>
      rw [opened, if_pos rfl, outside] at fits
      obtain ⟨c, v, rfl⟩ := List.exists_cons_of_ne_nil ascii.1
      have afresh : after q t (c :: v) = after q (within 0) (c :: v) := by
        rw [after, after, step_of_isOpen opened, step_of_isOpen opened,
          next_of_not_inWord fits (ascii.2 c List.mem_cons_self)]
      have draw : (after q t (c :: v)).isDraw = true := by
        rw [afresh]
        rcases named with short | long
        · have part : letters.drop 0 = ("RAND" : Text) ++ ("OM" : Text) := rfl
          rw [after_letters opened part ascii.2 short]
          rfl
        · have part : letters.drop 0 = letters ++ [] := rfl
          rw [after_letters opened part ascii.2 long]
          rfl
      have inside := (q.isOpen_after_letters ascii.2).trans opened
      obtain ⟨inside, draw⟩ := after_blanks inside draw blank
      rw [count_append, after_append, count_eq_zero (fun c member =>
        ne_paren_of_isBlank (blank c member))]
      generalize after (q.after (c :: v)) (after q t (c :: v)) blanks = last at draw ⊢
      constructor
      · rw [count, completes, inside, draw]
        rfl
      · rw [after, step_of_isOpen inside, next_other last (by decide)]
        rfl

theorem concludes_eq_false {t : Trail} {c : Char} {s : Text} (letter : isWordChar c = true)
    (outside : t.inWord = false)
    {pos : Nat} {before : Option Char} (free : before.any isWordChar = false)
    (missed : Rounding.randomCall.matchAt? ⟨pos, before, c :: s, []⟩ = none) :
      concludes (t.next c) s = false := by
  rw [next_of_not_inWord outside letter, ← Bool.not_eq_true]
  intro goes
  have whole : concludes (within 0) (c :: s) = true := by
    rw [concludes, if_neg (ne_paren_of_isWordChar letter), if_pos (by rw [letter]; rfl), goes]
  obtain ⟨w, v, tail, blanks, rest, cut, blank, part, named, size⟩ := exists_of_concludes whole
  have name : letters.take w.length = w := by
    rw [show letters = w ++ tail from part, List.take_left]
  refine (Pattern.matchAt?_eq_none_iff _ _).mp missed ⟨v ++ (blanks ++ ['(']), rest,
    [], by simp [cut], ?_⟩
  refine (spans_randomCall_iff _ _ _ _ _).mpr ⟨⟨v, blanks, rfl, ?_, blank⟩, free, rfl⟩
  rw [Nat.zero_add] at size
  rcases size with short | long
  · rw [← name, short] at named
    exact .inl named
  · rw [← name, long] at named
    exact .inr named

theorem concludes_step {q : ScanState} {t : Trail} {c : Char} {s : Text}
    (fresh : q.isOpen = true → t.inWord = false → isWordChar c = true →
      concludes (t.next c) s = false) :
    (t.completes q c).toNat + ((q.step c).isOpen && (t.step q c).concludes s).toNat =
      (q.isOpen && t.concludes (c :: s)).toNat := by
  cases opened : q.isOpen with
  | false =>
      rw [completes, opened, step_of_closed opened, concludes_ready, Bool.and_false]
      rfl
  | true =>
      rw [completes, opened, step_of_isOpen opened, concludes]
      by_cases paren : c = '('
      · subst paren
        rw [next_other t (by decide), show isBlank '(' = false by decide]
        simp [concludes_ready]
      · rw [beq_eq_false_iff_ne.mpr paren, if_neg paren]
        cases letter : isWordChar c with
        | true =>
            have reopened := (q.isOpen_step_letter letter).trans opened
            have other := isBlank_of_isWordChar letter
            cases inside : t.inWord with
            | true => simp [reopened]
            | false => simp [fresh opened inside letter, other]
        | false =>
            cases blank : isBlank c with
            | false => simp [next_other t letter, blank, concludes_ready]
            | true =>
                have code := ScanState.step_of_isOpen opened
                  (ScanState.isNeutral_of_class (by decide) blank)
                cases draw : t.isDraw with
                | true => simp [code, ScanState.isOpen]
                | false => simp [next_other t letter, blank, draw, concludes_ready]

end Trail

theorem Pattern.hitsAfter_of_matchAt? {p : Pattern} {pos : Nat} {before : Option Char}
    {x after : Text} {m : Match}
    (found : p.matchAt? ⟨pos, before, x, []⟩ = some m) (cut : x = m.text ++ after)
    (filled : m.text ≠ []) :
    (p.piecesAfter 0 pos before x).filterMap Piece.hit? =
      m :: (p.piecesAfter 0 (pos + m.text.length) (m.text.getLast?.or before) after).filterMap
        Piece.hit? := by
  obtain ⟨c, y, head⟩ := List.exists_cons_of_ne_nil filled
  obtain rfl : x = c :: (y ++ after) := by rw [cut, head, List.cons_append]
  rw [piecesAfter, found, Option.filter_some_pos (by rw [head]; rfl)]
  change m :: List.filterMap _ (p.piecesAfter (m.text.length - 1) (pos + 1) (some c)
    (y ++ after)) = _
  rw [head, List.length_cons, Nat.add_sub_cancel, piecesAfter_length, getLast?_cons_or,
    Nat.add_assoc, Nat.add_comm 1]

namespace Trail

theorem concludes_of_not_inWord {t : Trail} (outside : t.inWord = false) {c : Char}
    (letter : isWordChar c = true)
    (s : Text) : concludes t (c :: s) = false := by
  rw [concludes, if_neg (ne_paren_of_isWordChar letter), outside, isBlank_of_isWordChar letter,
    Bool.and_false]
  rfl

/-- What is counted from a place on: the draw that has been read in part, and those that start
later. -/
theorem count_eq_hits (whole : Text) {pre x : Text} (cut : whole = pre ++ x) {t : Trail}
    (fits : Fits (scan pre) t pre.getLast?) :
    count (scan pre) t x = ((scan pre).isOpen && t.concludes x).toNat +
      (((Rounding.randomCall.piecesAfter 0 pre.length pre.getLast? x).filterMap Piece.hit?).filter
        fun m => !inSpans (literalSpans whole) m.start).length := by
  induction size : x.length using Nat.strongRecOn generalizing pre x t with
  | ind n ih =>
      subst size
      cases x with
      | nil =>
          rw [show t.concludes [] = false from rfl, Bool.and_false]
          rfl
      | cons c s =>
          cases found : Rounding.randomCall.matchAt? ⟨pre.length, pre.getLast?, c :: s, []⟩ with
          | some m =>
              obtain ⟨after, caps, text, place, taken⟩ := Pattern.takes_of_matchAt? found rfl
              obtain ⟨⟨v, blanks, shape, named, blank⟩, free, -⟩ :=
                (spans_randomCall_iff _ _ _ _ _).mp taken.spans
              have text : c :: s = m.text ++ after := text
              have letter : isWordChar c = true := by
                obtain ⟨present, letters⟩ := isWordChar_of_name named
                obtain ⟨d, v, rfl⟩ := List.exists_cons_of_ne_nil present
                rw [shape] at text
                rw [(List.cons.inj text).1]
                exact letters d List.mem_cons_self
              have last : m.text.getLast? = some '(' := by simp [shape]
              have filled : m.text ≠ [] := by simp [shape]
              obtain ⟨one, ready⟩ := read_draw fits free named blank
              rw [← shape] at one ready
              have cut' : whole = pre ++ m.text ++ after := by rw [cut, text, List.append_assoc]
              have shorter : after.length < (c :: s).length := by
                rw [text, List.length_append]
                exact Nat.lt_add_of_pos_left (List.length_pos_iff.mpr filled)
              have later := ih after.length shorter cut'
                (show Fits _ .ready _ by rw [List.getLast?_append, last, Fits]; split <;> rfl) rfl
              have outside : (!inSpans (literalSpans whole) m.start) = (scan pre).isOpen := by
                rw [Bool.not_eq_eq_eq_not, Bool.eq_iff_iff, place]
                refine (inSpans_literalSpans_iff _ _).trans ((inLiteral_iff_marks _ _).trans ?_)
                rw [cut, List.getElem?_append_right (Nat.le_refl _), Nat.sub_self, List.take_left]
                simp [ScanState.marks_of_letter _ letter]
              have silent : ((scan pre).isOpen && t.concludes (c :: s)) = false := by
                cases opened : (scan pre).isOpen with
                | false => rfl
                | true =>
                    rw [Fits, opened, if_pos rfl, free] at fits
                    exact concludes_of_not_inWord fits letter s
              rw [Pattern.hitsAfter_of_matchAt? found text filled, silent, List.filter_cons,
                outside, text, count_append, one, ready, ← scan_append, later, concludes_ready,
                Bool.and_false, List.getLast?_append, List.length_append]
              cases (scan pre).isOpen with
              | false =>
                  rw [if_neg Bool.false_ne_true]
                  exact Nat.zero_add _
              | true =>
                  rw [if_pos rfl, List.length_cons, Bool.toNat_true, Bool.toNat_false]
                  omega
          | none =>
              have last : (pre ++ [c]).getLast? = some c := by simp
              have state : scan (pre ++ [c]) = (scan pre).step c := scan_append pre [c]
              have cut' : whole = pre ++ [c] ++ s := by simpa using cut
              have later := ih s.length (by simp) cut'
                (by rw [state, last]; exact fits_step (scan pre) t c) rfl
              rw [state, last, List.length_append, List.length_singleton] at later
              have step : _ = ((scan pre).isOpen && t.concludes (c :: s)).toNat :=
                concludes_step fun opened outside letter => by
                  rw [Fits, opened, if_pos rfl, outside] at fits
                  exact concludes_eq_false letter outside fits.symm found
              rw [Pattern.piecesAfter, found, Option.filter_none, count, later,
                ← Nat.add_assoc, step]
              rfl

end Trail

theorem draws_eq_count (s : Text) : draws s = Trail.count .code .ready s := by
  have fits : Trail.Fits (scan []) .ready ([] : Text).getLast? := rfl
  have whole := Trail.count_eq_hits s rfl fits
  rw [Trail.concludes_ready, Bool.and_false] at whole
  exact (whole.trans (Nat.zero_add _)).symm

namespace Trail

theorem fits_after (s : Text) : Fits (scan s) (after .code ready s) s.getLast? := by
  rcases List.eq_nil_or_concat s with rfl | ⟨front, c, rfl⟩
  · exact rfl
  · rw [List.concat_eq_append, scan_append, after_append, List.getLast?_append]
    exact fits_step _ _ c

/-! ### The few trails that matter -/

def trails : List Trail := [ready, spent, named] ++ (List.range 7).map within

structure Like (t u : Trail) : Prop where
  isDraw : t.isDraw = u.isDraw
  next : ∀ c, t.next c = u.next c

theorem exists_like (t : Trail) : ∃ u ∈ trails, t.Like u := by
  have itself (u : Trail) : u.Like u := ⟨rfl, fun _ => rfl⟩
  cases t with
  | ready => exact ⟨ready, by decide, itself _⟩
  | spent => exact ⟨spent, by decide, itself _⟩
  | named => exact ⟨named, by decide, itself _⟩
  | within n =>
      rcases Nat.lt_or_ge n 7 with low | high
      · exact ⟨within n, List.mem_append_right _ (List.mem_map_of_mem (List.mem_range.mpr low)),
          itself _⟩
      · -- beyond the longer name a word is like any other
        have beyond : letters[n]? = none := List.getElem?_eq_none (Nat.le_trans (by decide) high)
        have draw : (within n).isDraw = false := by
          rw [isDraw]
          simp only [Bool.or_eq_false_iff, beq_eq_false_iff_ne]
          omega
        refine ⟨spent, by decide, draw, fun c => ?_⟩
        cases letter : isWordChar c with
        | true =>
            have extended : (within n).next c = extend n c := if_pos letter
            have same : spent.next c = spent := if_pos letter
            rw [extended, same, extend, beyond]
            rfl
        | false => rw [next_other _ letter, next_other _ letter, draw]; rfl

theorem Like.read {t u : Trail} (like : t.Like u) {s : Text} (filled : s ≠ []) (q : ScanState) :
    count q t s = count q u s ∧ after q t s = after q u s := by
  obtain ⟨c, s, rfl⟩ := List.exists_cons_of_ne_nil filled
  have step : t.step q c = u.step q c := by rw [Trail.step, Trail.step, like.next]
  rw [count, count, after, after, step, completes, completes, like.isDraw]
  exact ⟨rfl, rfl⟩

end Trail

end LiteSql
