import LiteSql.Proofs.Locality
import LiteSql.Text.Word

/-! Reading a text character by character. A scanner with a few states knows which characters
stand in literals; it only looks one character ahead. -/

namespace LiteSql

inductive ScanState
  | code
  /-- Code, with a minus sign just read. -/
  | dash
  /-- Code, with a slash just read. -/
  | slash
  | string
  /-- In a string, with a backslash just read. -/
  | escape
  /-- In a quoted name, between double or back quotes. -/
  | quoted (back : Bool)
  | line
  | block
  /-- In a block comment, with an asterisk just read. -/
  | star
  deriving DecidableEq, Repr

namespace ScanState

def quoteMark (back : Bool) : Char := if back then '\x60' else '\x22'

def ofCode (c : Char) : ScanState :=
  if c = '\x27' then string
  else if c = '\x22' then quoted false
  else if c = '\x60' then quoted true
  else if c = '-' then dash
  else if c = '/' then slash
  else code

def step : ScanState → Char → ScanState
  | code, c => ofCode c
  | dash, c => if c = '-' then line else ofCode c
  | slash, c => if c = '*' then block else ofCode c
  | string, c => if c = '\x5c' then escape else if c = '\x27' then code else string
  | escape, _ => string
  | quoted back, c => if c = quoteMark back then code else quoted back
  | line, c => if c = '\n' then code else line
  | block, c => if c = '*' then star else block
  | star, c => if c = '/' then code else if c = '*' then star else block

def after (q : ScanState) (s : Text) : ScanState := s.foldl step q

def isOpen : ScanState → Bool
  | code | dash | slash => true
  | _ => false

def signs : List Char := ['\x27', '\x22', '\x60', '-', '/', '*', '\x5c']

def isNeutral (c : Char) : Bool := !signs.contains c

theorem isNeutral_of_class {p : Char → Bool} (refused : ∀ sign ∈ signs, p sign = false) {c : Char}
    (inside : p c = true) : isNeutral c = true := by
  rw [isNeutral, Bool.not_eq_true', List.contains_eq_mem, decide_eq_false_iff_not]
  intro sign
  rw [refused c sign] at inside
  cases inside

def settle : ScanState → ScanState
  | code | dash | slash => code
  | string | escape => string
  | quoted back => quoted back
  | line => line
  | block | star => block

/-- Whether a character stands in a literal, where `next` is the character behind it. -/
def marks : ScanState → Char → (next : Option Char) → Bool
  | code, c, next => (LiteralKind.opening? (c :: next.toList)).isSome
  | dash, c, next => c == '-' || (LiteralKind.opening? (c :: next.toList)).isSome
  | slash, c, next => c == '*' || (LiteralKind.opening? (c :: next.toList)).isSome
  | line, c, _ => c != '\n'
  | string, _, _ | escape, _, _ | quoted _, _, _ | block, _, _ | star, _, _ => true

def marksFrom : ScanState → Text → List Bool
  | _, [] => []
  | q, c :: s => q.marks c s.head? :: marksFrom (q.step c) s

def Quiet : ScanState → Text → Prop
  | q, [] => q ≠ line
  | q, c :: s => q ≠ line ∧ Quiet (q.step c) s

theorem step_of_isNeutral {q : ScanState} {c : Char} (outside : q ≠ line)
    (neutral : isNeutral c = true) : q.step c = q.settle := by
  simp only [isNeutral, signs, List.contains_cons, List.contains_nil, Bool.or_false, Bool.not_or,
    Bool.and_eq_true, Bool.not_eq_true', beq_eq_false_iff_ne] at neutral
  cases q with
  | quoted back => cases back <;> simp [step, quoteMark, settle, neutral]
  | line => exact absurd rfl outside
  | _ => simp [step, ofCode, settle, neutral]

/-- A sign is read in code, and is code itself unless the next character completes it. -/
theorem sign_of_step {q : ScanState} {c d : Char} (sign : q.step c ∈ [dash, slash])
    (other : d ≠ '-' ∧ d ≠ '*') : (c = '-' ∨ c = '/') ∧ q.marks c (some d) = false := by
  cases q with
  | code => grind [step, ofCode, marks, LiteralKind.opening?]
  | dash => grind [step, ofCode, marks, LiteralKind.opening?]
  | slash => grind [step, ofCode, marks, LiteralKind.opening?]
  | _ => grind [step]

theorem after_append (q : ScanState) (s t : Text) : q.after (s ++ t) = (q.after s).after t :=
  List.foldl_append

theorem getElem?_marksFrom (q : ScanState) (s : Text) (i : Nat) :
    (q.marksFrom s)[i]? = s[i]?.map fun c => (q.after (s.take i)).marks c s[i + 1]? := by
  induction s generalizing q i with
  | nil => simp [marksFrom]
  | cons c s ih =>
      cases i with
      | zero => simp [marksFrom, after, List.head?_eq_getElem?]
      | succ i =>
          rw [marksFrom, List.getElem?_cons_succ, ih (q.step c) i]
          rfl

theorem Quiet.ne_line {q : ScanState} {s : Text} (quiet : q.Quiet s) : q ≠ line := by
  cases s with
  | nil => exact quiet
  | cons c s => exact quiet.1

theorem quiet_append (q : ScanState) (s t : Text) :
    q.Quiet (s ++ t) ↔ q.Quiet s ∧ (q.after s).Quiet t := by
  induction s generalizing q with
  | nil => exact ⟨fun quiet => ⟨quiet.ne_line, quiet⟩, fun both => both.2⟩
  | cons c s ih =>
      rw [List.cons_append, Quiet, Quiet, ih, and_assoc]
      rfl

theorem settle_settle (q : ScanState) : q.settle.settle = q.settle := by
  cases q <;> rfl

theorem after_of_isNeutral {q : ScanState} {s : Text} (outside : q ≠ line) (present : s ≠ [])
    (neutral : ∀ c ∈ s, isNeutral c = true) : q.Quiet s ∧ q.after s = q.settle := by
  have other : q.settle ≠ line := by
    cases q <;> simp_all [settle]
  induction s generalizing q with
  | nil => exact absurd rfl present
  | cons c s ih =>
      have step := step_of_isNeutral outside (neutral c List.mem_cons_self)
      rw [Quiet, step, show q.after (c :: s) = (q.step c).after s from rfl, step]
      cases s with
      | nil => exact ⟨⟨outside, other⟩, rfl⟩
      | cons d s =>
          have later := ih other (by simp) (fun e member => neutral e
            (List.mem_cons_of_mem c member))
            (by rwa [settle_settle])
          rw [settle_settle] at later
          exact ⟨⟨outside, later.1⟩, later.2⟩

theorem after_take_ne_line {q : ScanState} {s : Text} (quiet : q.Quiet s) (i : Nat) :
    q.after (s.take i) ≠ line := by
  induction s generalizing q i with
  | nil =>
      rw [List.take_nil]
      exact quiet
  | cons c s ih =>
      cases i with
      | zero => exact quiet.1
      | succ i => exact ih quiet.2 i

/-- The first `n` characters of a text stand in a literal, and code comes after them. -/
structure Covers (q : ScanState) (s : Text) (n : Nat) : Prop where
  marks : q.marksFrom s = List.replicate n true ++ code.marksFrom (s.drop n)
  quiet : q ≠ line → code.Quiet (s.drop n) → q.Quiet s

theorem Covers.zero (s : Text) : Covers code s 0 := ⟨rfl, fun _ quiet => quiet⟩

theorem Covers.nil (q : ScanState) : Covers q [] 0 := ⟨rfl, fun other _ => other⟩

theorem Covers.cons {q p : ScanState} {c : Char} {s : Text} {n : Nat} (covers : Covers p s n)
    (next : q.step c = p) (marked : q.marks c s.head? = true) (other : q ≠ line → p ≠ line) :
    Covers q (c :: s) (n + 1) where
  marks := by rw [marksFrom, marked, next, covers.marks]; rfl
  quiet := fun outside quiet => ⟨outside, next ▸ covers.quiet (other outside) quiet⟩

theorem covers_string (s : Text) : Covers string s (stringLength s) := by
  fun_induction stringLength s with
  | case1 => exact .nil _
  | case2 c =>
      refine Covers.cons (.nil _) rfl rfl fun _ => ?_
      grind [step]
  | case3 d s ih =>
      have second : Covers escape (d :: s) (stringLength s + 1) := ih.cons rfl rfl (by simp)
      exact second.cons (by simp [step]) rfl (by simp)
  | case4 s _ ih =>
      have second : Covers code ('\x27' :: s) (stringLength s + 1) :=
        ih.cons (by simp [step, ofCode]) (by simp [marks, LiteralKind.opening?]) (by simp)
      exact second.cons (by simp [step]) rfl (by simp)
  | case5 d s _ single => exact (Covers.zero (d :: s)).cons (by simp [step]) rfl (by simp)
  | case6 c d s backslash quote ih => exact ih.cons (by simp [step, backslash, quote]) rfl (by simp)

theorem covers_quoted (back : Bool) (s : Text) :
    Covers (quoted back) s (quotedLength (quoteMark back) s) := by
  induction s with
  | nil => exact .nil _
  | cons c s ih =>
      rw [quotedLength]
      split
      · next closes => exact (Covers.zero s).cons (by simp [step, closes]) rfl (by simp)
      · next inside => exact ih.cons (by simp [step, inside]) rfl (by simp)

theorem covers_line (s : Text) : Covers line s (lineLength s) := by
  induction s with
  | nil => exact .nil _
  | cons c s ih =>
      rw [lineLength]
      split
      · next ends =>
          subst ends
          exact ⟨rfl, fun outside => absurd rfl outside⟩
      · next inside => exact ih.cons (by simp [step, inside]) (by simp [marks, inside]) (by simp)

theorem covers_block_and_star (s : Text) :
    Covers block s (blockLength s) ∧
      Covers star s (if s.head? = some '/' then 1 else blockLength s) := by
  fun_induction blockLength s with
  | case1 => exact ⟨.nil _, .nil _⟩
  | case2 c =>
      refine ⟨Covers.cons (.nil _) rfl rfl fun _ => ?_, ?_⟩
      · grind [step]
      · rw [ite_self]
        exact Covers.cons (.nil _) rfl rfl fun _ => by grind [step]
  | case3 c d s closes =>
      obtain ⟨rfl, rfl⟩ := closes
      have second : Covers star ('/' :: s) 1 := (Covers.zero s).cons rfl rfl (by simp)
      exact ⟨second.cons rfl rfl (by simp), second.cons rfl rfl (by simp)⟩
  | case4 c d s unclosed ih =>
      obtain ⟨inside, starred⟩ := ih
      by_cases asterisk : c = '*'
      · subst asterisk
        have other : d ≠ '/' := fun slash => unclosed ⟨rfl, slash⟩
        rw [if_neg (by simpa using other)] at starred
        exact ⟨starred.cons rfl rfl (by simp), starred.cons rfl rfl (by simp)⟩
      · refine ⟨inside.cons (by simp [step, asterisk]) rfl (by simp), ?_⟩
        by_cases slash : c = '/'
        · subst slash
          exact (Covers.zero (d :: s)).cons rfl rfl (by simp)
        · rw [if_neg (by simpa using slash)]
          exact inside.cons (by simp [step, asterisk, slash]) rfl (by simp)

theorem covers_of_opening? (s : Text) (kind : LiteralKind)
    (opens : LiteralKind.opening? s = some kind) (other : kind ≠ .lineComment) :
    Covers code s (kind.length s) := by
  obtain ⟨rest, rfl⟩ := (LiteralKind.opening?_eq_some_iff s kind).mp opens
  cases kind with
  | string => exact (covers_string rest).cons rfl rfl (by simp)
  | doubleQuoted => exact (covers_quoted false rest).cons rfl rfl (by simp)
  | backQuoted => exact (covers_quoted true rest).cons rfl rfl (by simp)
  | lineComment => exact absurd rfl other
  | blockComment =>
      have second : Covers slash ('*' :: rest) (blockLength rest + 1) :=
        (covers_block_and_star rest).1.cons rfl rfl (by simp)
      exact second.cons rfl rfl (by simp)

theorem marksFrom_of_opening? (s : Text) (kind : LiteralKind)
    (opens : LiteralKind.opening? s = some kind) :
    code.marksFrom s =
      List.replicate (kind.length s) true ++ code.marksFrom (s.drop (kind.length s)) := by
  by_cases comment : kind = .lineComment
  · subst comment
    obtain ⟨rest, rfl⟩ := (LiteralKind.opening?_eq_some_iff s _).mp opens
    exact congrArg (true :: true :: ·) (covers_line rest).marks
  · exact (covers_of_opening? s kind opens comment).marks

theorem step_eq_ofCode {q : ScanState} {c : Char} (outside : q.isOpen = true)
    (minus : ¬ (q = dash ∧ c = '-')) (slashed : ¬ (q = slash ∧ c = '*')) :
    q.step c = code.step c ∧ ∀ next, q.marks c next = code.marks c next := by
  cases q <;> simp_all [isOpen, step, marks]

theorem forget_ofCode (c : Char) (s : Text) (plain : LiteralKind.opening? (c :: s) = none) :
    (ofCode c).marksFrom s = code.marksFrom s ∧ (code.Quiet s → (ofCode c).Quiet s) := by
  rw [opening?_cons_eq_none] at plain
  have outside : (ofCode c).isOpen = true := by
    grind [ofCode, isOpen]
  have other : ofCode c ≠ line := by
    intro comment
    rw [comment] at outside
    cases outside
  cases s with
  | nil => exact ⟨rfl, fun _ => other⟩
  | cons d s =>
      obtain ⟨next, marked⟩ := step_eq_ofCode (c := d) outside (by grind [ofCode])
        (by grind [ofCode])
      rw [marksFrom, marksFrom, next, marked, Quiet, Quiet, next]
      exact ⟨rfl, fun quiet => ⟨other, quiet.2⟩⟩

end ScanState

def Neutral (s : Text) : Prop := s ≠ [] ∧ ∀ c ∈ s, ScanState.isNeutral c = true

instance (s : Text) : Decidable (Neutral s) :=
  inferInstanceAs (Decidable (s ≠ [] ∧ ∀ c ∈ s, ScanState.isNeutral c = true))

theorem neutral_of_isBlank {s : Text} (present : s ≠ []) (blank : ∀ c ∈ s, isBlank c = true) :
    Neutral s :=
  ⟨present, fun c member => ScanState.isNeutral_of_class (by decide) (blank c member)⟩

theorem neutral_of_isWordChar {s : Text} (present : s ≠ []) (word : ∀ c ∈ s, isWordChar c = true) :
    Neutral s :=
  ⟨present, fun c member => ScanState.isNeutral_of_class (by decide) (word c member)⟩

theorem Neutral.append {s t : Text} (first : Neutral s) (second : Neutral t) :
    Neutral (s ++ t) := by
  refine ⟨by simp [first.1], fun c member => ?_⟩
  rcases List.mem_append.mp member with early | late
  · exact first.2 c early
  · exact second.2 c late

def Lexeme.isLineComment : Lexeme → Bool
  | .literal .lineComment _ => true
  | _ => false

open ScanState in
/-- The scanner marks what stands in literals, and without line comments it stays quiet. -/
theorem scan_lexemes (s : Text) :
    (marked s).map Prod.snd = code.marksFrom s ∧
      ((∀ l ∈ lexemes s, l.isLineComment = false) → code.Quiet s) := by
  induction size : s.length using Nat.strongRecOn generalizing s with
  | ind n ih =>
      subst size
      cases opens : LiteralKind.opening? s with
      | none =>
          cases s with
          | nil => exact ⟨rfl, fun _ => by simp [Quiet]⟩
          | cons c s =>
              obtain ⟨marks, quiet⟩ := ih s.length (by simp) s rfl
              obtain ⟨sameMarks, sameQuiet⟩ := forget_ofCode c s opens
              have unmarked : code.marks c s.head? = false := by
                have ahead : s.head?.toList.head? = s.head? := by cases s <;> rfl
                rw [opening?_cons_eq_none, ← ahead, ← opening?_cons_eq_none] at opens
                rw [ScanState.marks, opens]
                rfl
              rw [marked, lexemes_code c s opens]
              refine ⟨?_, fun none => ⟨by simp, sameQuiet (quiet fun l member => ?_)⟩⟩
              · rw [marksFrom, unmarked, step, sameMarks, ← marks]
                rfl
              · exact none l (List.mem_cons_of_mem _ member)
      | some kind =>
          have bound := kind.length_le s opens
          have shorter : (s.drop (kind.length s)).length < s.length := by
            have positive := kind.length_pos s
            rw [List.length_drop]
            omega
          obtain ⟨marks, quiet⟩ := ih _ shorter _ rfl
          rw [marked, lexemes_literal s kind opens]
          refine ⟨?_, fun none => ?_⟩
          · rw [marksFrom_of_opening? s kind opens, ← marks, List.flatMap_cons, List.map_append,
              ← marked]
            simp [Lexeme.marked, Function.comp_def, List.map_const', bound]
          · have other : kind ≠ .lineComment := by
              rintro rfl
              cases none _ List.mem_cons_self
            refine (covers_of_opening? s kind opens other).quiet (by simp)
              (quiet fun l member => ?_)
            exact none l (List.mem_cons_of_mem _ member)

def scan (s : Text) : ScanState := ScanState.code.after s

theorem scan_append (s t : Text) : scan (s ++ t) = (scan s).after t := ScanState.after_append _ s t

theorem quiet_scan_append (s t : Text) :
    ScanState.code.Quiet (s ++ t) ↔ ScanState.code.Quiet s ∧ (scan s).Quiet t :=
  ScanState.quiet_append _ s t

theorem inLiteral_iff_marks (s : Text) (i : Nat) :
    InLiteral s i ↔ ∃ c, s[i]? = some c ∧ (scan (s.take i)).marks c s[i + 1]? = true := by
  rw [inLiteral_iff_marked, ← List.getElem?_map, (scan_lexemes s).1, ScanState.getElem?_marksFrom,
    Option.map_eq_some_iff]
  rfl

/-- The scanner is in code before a character outside literals, unless it ends a line comment. -/
theorem isOpen_scan_take (s : Text) (i : Nat) (c : Char) (here : s[i]? = some c)
    (outside : ¬ InLiteral s i) (other : scan (s.take i) = .line → c ≠ '\n') :
    (scan (s.take i)).isOpen = true := by
  have unmarked : (scan (s.take i)).marks c s[i + 1]? = false := by
    rw [inLiteral_iff_marks] at outside
    simpa [here] using outside
  cases state : scan (s.take i) <;> simp_all [ScanState.marks, ScanState.isOpen]

theorem isOpen_scan_of_lexemes {s : Text} {front rest : List Lexeme} {c : Char}
    (read : lexemes s = front ++ .code c :: rest) (other : c ≠ '\n') :
    (scan (front.flatMap Lexeme.text)).isOpen = true := by
  have whole := (lexemes_of_append read).1
  have here : s[(front.flatMap Lexeme.text).length]? = some c := by
    rw [whole, List.getElem?_append_right (Nat.le_refl _)]
    simp [Lexeme.text]
  have outside : ¬ InLiteral s (front.flatMap Lexeme.text).length := by
    rw [inLiteral_iff_marked, marked, read, List.flatMap_append, ← length_flatMap_marked,
      List.getElem?_append_right (Nat.le_refl _)]
    simp [Lexeme.marked]
  have isOpen := isOpen_scan_take s _ c here outside fun _ => other
  rwa [whole, List.take_left] at isOpen

theorem inLiteral_append_of_scan {u : Text} (settled : scan u = .code) (t : Text) (i : Nat) :
    InLiteral (u ++ t) (u.length + i) ↔ InLiteral t i := by
  have start : scan ((u ++ t).take (u.length + i)) = scan (t.take i) := by
    rw [List.take_length_add_append, scan_append, settled, scan]
  rw [inLiteral_iff_marks, inLiteral_iff_marks, start, Nat.add_assoc,
    List.getElem?_append_right (Nat.le_add_right _ _), Nat.add_sub_cancel_left,
    List.getElem?_append_right (Nat.le_add_right _ _), Nat.add_sub_cancel_left]

end LiteSql
