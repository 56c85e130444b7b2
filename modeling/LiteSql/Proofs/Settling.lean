import LiteSql.Proofs.Replacement
import LiteSql.Proofs.Scan

/-! Replacing calls leaves the scanner where it was. A replacement that is read like a finished
piece of code can take the place of a call, and what stands behind the call is read as before. -/

namespace LiteSql

theorem bind_eq_ok_iff {α β : Type} (x : Except Fault α) (next : α → Except Fault β) (b : β) :
    x >>= next = .ok b ↔ ∃ a, x = .ok a ∧ next a = .ok b := by
  cases x with
  | error fault => simp [bind, Except.bind]
  | ok a => simp [bind, Except.bind]

theorem Calls.exists_of_replaceM_char {action : List Text → Except Fault (Option Text)} {c : Char}
    {rest : Calls}
    {r : Text} (replaced : (Calls.char c rest).replaceM action = .ok r) :
    ∃ after, rest.replaceM action = .ok after ∧ r = c :: after := by
  obtain ⟨after, third, same⟩ := (bind_eq_ok_iff _ _ _).mp replaced
  exact ⟨after, third, (Except.ok.inj same).symm⟩

theorem Calls.exists_of_replaceM_call {action : List Text → Except Fault (Option Text)}
    {found : Text}
    {inner rest : Calls} {r : Text}
    (replaced : (Calls.call found inner rest).replaceM action = .ok r) :
    ∃ inside answer after, inner.replaceM action = .ok inside ∧
      action (splitArguments inside) = .ok answer ∧
      rest.replaceM action = .ok after ∧ r = answer.getD (found ++ '(' :: (inside ++ [')'])) ++
        after := by
  obtain ⟨inside, first, replaced⟩ := (bind_eq_ok_iff _ _ _).mp replaced
  obtain ⟨answer, second, replaced⟩ := (bind_eq_ok_iff _ _ _).mp replaced
  obtain ⟨after, third, same⟩ := (bind_eq_ok_iff _ _ _).mp replaced
  exact ⟨inside, answer, after, first, second, third, (Except.ok.inj same).symm⟩

theorem eq_ok_of_toOption {α : Type} {x : Except Fault α} {a : α} (found : x.toOption = some a) :
    x = .ok a := by
  cases x with
  | error fault => cases found
  | ok b => rw [Option.some.inj found]

theorem exists_dropEndWhile (p : Char → Bool) (s : Text) :
    ∃ tail, s = dropEndWhile p s ++ tail ∧ ∀ c ∈ tail, p c = true := by
  induction s with
  | nil => exact ⟨[], rfl, by simp⟩
  | cons c s ih =>
      obtain ⟨tail, cut, members⟩ := ih
      rw [dropEndWhile]
      split
      · next dropped =>
          rw [Bool.and_eq_true, List.isEmpty_iff] at dropped
          rw [dropped.1, List.nil_append] at cut
          refine ⟨c :: tail, by rw [cut]; rfl, fun d member => ?_⟩
          rcases List.mem_cons.mp member with rfl | later
          · exact dropped.2
          · exact members d later
      · exact ⟨tail, congrArg (c :: ·) cut, members⟩

/-- A position comes after a minus sign or slash in code, with only blanks between them. -/
structure FollowsSign (s : Text) (i j : Nat) : Prop where
  sign : s[i]? = some '-' ∨ s[i]? = some '/'
  outside : ¬ InLiteral s i
  after : i < j
  blank : ∀ k < j, i < k → s[k]?.any isBlank = true

instance (s : Text) (i j : Nat) : Decidable (FollowsSign s i j) :=
  decidable_of_iff
    ((s[i]? = some '-' ∨ s[i]? = some '/') ∧ ¬ InLiteral s i ∧ i < j ∧
      ∀ k < j, i < k → s[k]?.any isBlank = true)
    ⟨fun ⟨sign, outside, after, blank⟩ => ⟨sign, outside, after, blank⟩,
      fun follows => ⟨follows.sign, follows.outside, follows.after, follows.blank⟩⟩

/-- Every minus sign and slash in code has an operand: what follows it is neither the end of an
argument nor a call of the function. -/
def SignsApplied (name s : Text) : Prop :=
  ∀ i < s.length, ∀ j < s.length, FollowsSign s i j →
    s[j]? ≠ some ',' ∧ s[j]? ≠ some ')' ∧ ∀ close < s.length, ¬ IsCall name s j close

/-- A state of the scanner, with whether a sign is waiting for its operand. -/
structure Mode where
  state : ScanState
  pending : Bool
  deriving DecidableEq, Repr

namespace Mode

def start : Mode := ⟨.code, false⟩

/-- One character. Line comments are refused; where signs must be applied, so is the end of an
argument while a sign is waiting. -/
def advance (strict : Bool) (m : Mode) (c : Char) : Option Mode :=
  if m.state.step c = .line ∨ (strict = true ∧ m.pending = true ∧ c ∈ [',', ')']) then none
  else some ⟨m.state.step c, m.state.step c ∈ [ScanState.dash, .slash] ∨
    (m.pending = true ∧ isBlank c = true)⟩

def read (strict : Bool) (m : Mode) (s : Text) : Option Mode := s.foldlM (advance strict) m

def Ends (strict : Bool) (m : Mode) : Prop :=
  m.state.isOpen = true ∧ (strict = true → m.pending = false)

/-- What every mode has that is reached: signs just read are waiting, and no line comment has
begun. -/
structure Sound (m : Mode) : Prop where
  waiting : m.state ∈ [ScanState.dash, .slash] → m.pending = true
  outside : m.state ≠ .line

/-- A text that is read like a whole argument. -/
def Closes (strict : Bool) (s : Text) : Prop :=
  ∃ last, start.read strict s = some last ∧ last.state.isOpen = true ∧
    (strict = true → last = start)

variable {strict : Bool}

theorem read_nil (m : Mode) : m.read strict [] = some m := rfl

theorem read_cons (m : Mode) (c : Char) (s : Text) :
    m.read strict (c :: s) = (m.advance strict c).bind fun next => next.read strict s :=
  List.foldlM_cons

theorem read_singleton (m : Mode) (c : Char) : m.read strict [c] = m.advance strict c := by
  rw [read_cons]
  exact Option.bind_fun_some _

theorem read_append (m : Mode) (s t : Text) :
    m.read strict (s ++ t) = (m.read strict s).bind fun next => next.read strict t :=
  List.foldlM_append

theorem exists_read_of_append {m last : Mode} {s t : Text}
    (reads : m.read strict (s ++ t) = some last) :
    ∃ middle, m.read strict s = some middle ∧ middle.read strict t = some last := by
  rwa [read_append, Option.bind_eq_some_iff] at reads

theorem state_of_advance {m next : Mode} {c : Char} (reads : m.advance strict c = some next) :
    next.state = m.state.step c ∧ next.Sound := by
  simp only [advance] at reads
  split at reads
  · cases reads
  · next allowed =>
      cases reads
      exact ⟨rfl, fun sign => by simp [sign], fun comment => allowed (.inl comment)⟩

theorem pending_of_advance {m next : Mode} {c : Char} (reads : m.advance strict c = some next)
    (pending : next.pending = true) :
    next.state ∈ [ScanState.dash, .slash] ∨ (m.pending = true ∧ isBlank c = true) := by
  simp only [advance] at reads
  split at reads
  · cases reads
  · cases reads
    simpa using pending

theorem state_of_read {m last : Mode} {s : Text} (reads : m.read strict s = some last) :
    last.state = m.state.after s := by
  induction s generalizing m with
  | nil => cases reads; rfl
  | cons c s ih =>
      rw [read_cons, Option.bind_eq_some_iff] at reads
      obtain ⟨next, step, rest⟩ := reads
      rw [ih rest, (state_of_advance step).1]
      rfl

theorem scan_of_read {last : Mode} {s : Text} (reads : start.read strict s = some last) :
    last.state = scan s := state_of_read reads

theorem sound_of_read {m last : Mode} {s : Text} (reads : m.read strict s = some last)
    (sound : m.Sound) : last.Sound := by
  induction s generalizing m with
  | nil => cases reads; exact sound
  | cons c s ih =>
      rw [read_cons, Option.bind_eq_some_iff] at reads
      obtain ⟨next, step, rest⟩ := reads
      exact ih rest (state_of_advance step).2

theorem sound_start : start.Sound := ⟨by decide, by decide⟩

theorem advance_of_isNeutral {m : Mode} {c : Char} (sound : m.Sound)
    (neutral : ScanState.isNeutral c = true) (allowed : strict = true → m.pending = true →
      c ∉ [',', ')']) :
    m.advance strict c = some ⟨m.state.settle, m.pending && isBlank c⟩ := by
  have step := ScanState.step_of_isNeutral sound.outside neutral
  have other : m.state.settle ≠ .line := by
    have outside := sound.outside
    cases state : m.state <;> simp_all [ScanState.settle]
  have quiet : m.state.settle ∉ [ScanState.dash, .slash] := by
    cases m.state <;> simp [ScanState.settle]
  rw [advance, step, if_neg (by grind)]
  simp [quiet]

theorem advance_of_isBlank {m : Mode} {c : Char} (sound : m.Sound) (blank : isBlank c = true) :
    m.advance strict c = some ⟨m.state.settle, m.pending⟩ := by
  have neutral : ScanState.isNeutral c = true :=
    ScanState.isNeutral_of_class (by decide) blank
  have other : c ∉ [',', ')'] := by
    intro member
    have refused : ∀ d ∈ [',', ')'], isBlank d = false := by decide
    rw [refused c member] at blank
    cases blank
  rw [advance_of_isNeutral sound neutral fun _ _ => other, blank, Bool.and_true]

theorem read_dropWhile (s : Text) :
    start.read strict (s.dropWhile isBlank) = start.read strict s := by
  induction s with
  | nil => rfl
  | cons c s ih =>
      cases blank : isBlank c with
      | false => rw [List.dropWhile_cons_of_neg (by simp [blank])]
      | true =>
          rw [List.dropWhile_cons_of_pos blank, ih, read_cons, advance_of_isBlank sound_start blank]
          rfl

theorem ends_of_read_blanks {m last : Mode} {s : Text} (reads : m.read strict s = some last)
    (blank : ∀ c ∈ s, isBlank c = true) (sound : m.Sound) (ends : last.Ends strict) :
    m.Ends strict := by
  induction s generalizing m with
  | nil => cases reads; exact ends
  | cons c s ih =>
      rw [read_cons, advance_of_isBlank sound (blank c List.mem_cons_self)] at reads
      have step : m.advance strict c = _ := advance_of_isBlank sound (blank c List.mem_cons_self)
      obtain ⟨isOpen, applied⟩ := ih reads (fun d member => blank d (List.mem_cons_of_mem c member))
        (state_of_advance step).2
      refine ⟨?_, applied⟩
      cases state : m.state <;> simp_all [ScanState.settle, ScanState.isOpen]

theorem eq_start {m : Mode} (sound : m.Sound) (isOpen : m.state.isOpen = true)
    (applied : m.pending = false) : m = start := by
  have other : m.state ∉ [ScanState.dash, .slash] := fun sign => by
    rw [sound.waiting sign] at applied
    cases applied
  obtain ⟨state, pending⟩ := m
  cases applied
  cases state <;> simp_all [start, ScanState.isOpen]

theorem closes_trim {s : Text} {last : Mode} (reads : start.read strict s = some last)
    (ends : last.Ends strict) : Closes strict (trim s) := by
  obtain ⟨tail, cut, blank⟩ := exists_dropEndWhile isBlank (s.dropWhile isBlank)
  rw [← read_dropWhile, cut] at reads
  obtain ⟨middle, front, back⟩ := exists_read_of_append reads
  have sound := sound_of_read front sound_start
  obtain ⟨isOpen, applied⟩ := ends_of_read_blanks back blank sound ends
  exact ⟨middle, front, isOpen, fun signs => eq_start sound isOpen (applied signs)⟩

theorem ends_of_advance {m next : Mode} {c : Char} (sound : m.Sound)
    (isOpen : m.state.isOpen = true) (stop : c ∈ [',', ')'])
    (reads : m.advance strict c = some next) :
    m.Ends strict ∧ next = start := by
  have applied : strict = true → m.pending = false := by
    intro signs
    cases pending : m.pending with
    | false => rfl
    | true => simp [advance, signs, pending, stop] at reads
  have facts : ∀ d ∈ [',', ')'], ScanState.isNeutral d = true ∧ isBlank d = false := by decide
  have step : m.advance strict c = _ := advance_of_isNeutral sound (facts c stop).1
    fun signs pending => by simp [applied signs] at pending
  refine ⟨⟨isOpen, applied⟩, ?_⟩
  rw [reads, (facts c stop).2, Bool.and_false] at step
  cases state : m.state <;> simp_all [start, ScanState.isOpen, ScanState.settle]

theorem advance_paren {m : Mode} (sound : m.Sound) (isOpen : m.state.isOpen = true) :
    m.advance strict '(' = some start := by
  have facts : isBlank '(' = false := by decide
  rw [advance_of_isNeutral sound (by decide) fun _ _ => by decide, facts, Bool.and_false]
  cases state : m.state <;> simp_all [start, ScanState.isOpen, ScanState.settle]

theorem read_piecesAt {x : Text} {done ls : List Lexeme} (lexed : lexemes x = done ++ ls)
    (depth : Int)
    {m last : Mode} (front : start.read strict (done.flatMap Lexeme.text) = some m)
    (back : m.read strict (ls.flatMap Lexeme.text) = some last) (ends : last.Ends strict) :
    ∃ piece rest, piecesAt depth ls = piece :: rest ∧
      (∃ middle, m.read strict piece = some middle ∧ middle.Ends strict) ∧
      ∀ other ∈ rest, ∃ middle, start.read strict other = some middle ∧ middle.Ends strict := by
  induction ls generalizing done depth m with
  | nil => exact ⟨[], [], rfl, ⟨last, back, ends⟩, by simp⟩
  | cons l ls ih =>
      rw [List.flatMap_cons] at back
      obtain ⟨next, step, back⟩ := exists_read_of_append back
      have lexed' : lexemes x = (done ++ [l]) ++ ls := by rw [lexed, List.append_assoc]; rfl
      have front' : start.read strict ((done ++ [l]).flatMap Lexeme.text) = some next := by
        rw [List.flatMap_append, List.flatMap_singleton, read_append, front, Option.bind_some, step]
      rw [piecesAt]
      split
      · next comma =>
          obtain ⟨rfl, -⟩ := comma
          have isOpen : m.state.isOpen = true := by
            rw [scan_of_read front]
            exact isOpen_scan_of_lexemes lexed (by decide)
          rw [Lexeme.text, read_singleton] at step
          obtain ⟨here, rfl⟩ :=
            ends_of_advance (sound_of_read front sound_start) isOpen (by simp) step
          obtain ⟨piece, rest, pieces, first, others⟩ := ih lexed' depth front' back
          exact ⟨[], _, rfl, ⟨m, rfl, here⟩, by simpa [pieces] using ⟨first, others⟩⟩
      · obtain ⟨piece, rest, pieces, ⟨middle, first, here⟩, others⟩ :=
          ih lexed' (depth + l.turn) front' back
        refine ⟨l.text ++ piece, rest, by rw [pieces]; rfl, ⟨middle, ?_, here⟩, others⟩
        rw [read_append, step, Option.bind_some, first]

theorem closes_of_mem_splitArguments {s argument : Text} {last : Mode}
    (reads : start.read strict s = some last) (ends : last.Ends strict)
    (member : argument ∈ splitArguments s) : Closes strict argument := by
  rw [splitArguments] at member
  split at member
  · cases member
  · obtain ⟨piece, present, rfl⟩ := List.mem_map.mp member
    have back : start.read strict ((lexemes s).flatMap Lexeme.text) = some last := by
      rwa [flatMap_text_lexemes]
    obtain ⟨first, rest, pieces, here, others⟩ :=
      read_piecesAt (List.nil_append _).symm 0 (read_nil start) back ends
    rw [pieces] at present
    rcases List.mem_cons.mp present with rfl | later
    · obtain ⟨middle, read, ended⟩ := here
      exact closes_trim read ended
    · obtain ⟨middle, read, ended⟩ := others piece later
      exact closes_trim read ended

/-- How a call is read: up to its parenthesis, its argument list, and past its end. -/
structure Passes (strict : Bool) (name s : Text) (pos close : Nat) (m middle : Mode) : Prop where
  before : start.read strict (s.take pos) = some m
  isOpen : m.state.isOpen = true
  opened : m.read strict (slice s pos (pos + name.length) ++ ['(']) = some start
  inside : start.read strict (slice s (pos + name.length + 1) close) = some middle
  ends : middle.Ends strict
  closed : middle.advance strict ')' = some start

theorem Passes.past {name s : Text} {pos close : Nat} {m middle : Mode}
    (passes : Passes strict name s pos close m middle) (call : IsCall name s pos close) :
    start.read strict (s.take (close + 1)) = some start := by
  have inner := call.lt_close
  rw [← take_append_slice s (pos + name.length + 1) (close + 1) (by omega),
    slice_succ s (pos + name.length + 1) close _ inner call.paren,
    ← take_append_slice s pos (pos + name.length + 1) (by omega),
    slice_succ s pos _ _ (Nat.le_add_right _ _) call.opened, read_append, read_append,
    passes.before, Option.bind_some, passes.opened, Option.bind_some, read_append,
    passes.inside, Option.bind_some, read_singleton, passes.closed]

theorem exists_passes {name s : Text} (word : ∀ c ∈ name, isWordChar c = true) {pos close : Nat}
    (call : IsCall name s pos close) {last : Mode} (reads : start.read strict s = some last) :
    ∃ m middle, Passes strict name s pos close m middle := by
  obtain ⟨front, rest, list, length⟩ := call.exists_encloses word
  have cut : s.take pos ++ (slice s pos (pos + name.length) ++
      '(' :: (slice s (pos + name.length + 1) close ++ ')' :: s.drop (close + 1))) = s := by
    rw [← call.drop_eq, List.take_append_drop]
  have upToName : front.flatMap Lexeme.text = s.take pos ++ slice s pos (pos + name.length) := by
    rw [take_append_slice _ _ _ (Nat.le_add_right _ _), ← length]
    exact (List.take_left' rfl).symm.trans (congrArg (List.take _) list.text.symm)
  rw [← cut] at reads
  obtain ⟨m, before, reads⟩ := exists_read_of_append reads
  obtain ⟨atName, named, reads⟩ := exists_read_of_append reads
  rw [read_cons, Option.bind_eq_some_iff] at reads
  obtain ⟨atList, opened, reads⟩ := reads
  obtain ⟨middle, inside, reads⟩ := exists_read_of_append reads
  rw [read_cons, Option.bind_eq_some_iff] at reads
  obtain ⟨behind, closed, -⟩ := reads
  have first := sound_of_read before sound_start
  have second := sound_of_read named first
  have third := (state_of_advance opened).2
  have fourth := sound_of_read inside third
  have isOpen : m.state.isOpen = true := by
    have bound := call.close_lt
    have inner := call.lt_close
    have outside := first.outside
    rw [scan_of_read before] at outside ⊢
    exact isOpen_scan_take s pos _ (List.getElem?_eq_getElem (by omega)) call.outside
      fun comment => absurd comment outside
  have nameOpen : atName.state.isOpen = true := by
    have named : start.read strict (s.take pos ++ slice s pos (pos + name.length)) =
        some atName := by
      rw [read_append, before, Option.bind_some, named]
    rw [scan_of_read named, ← upToName]
    exact isOpen_scan_of_lexemes list.read (by decide)
  obtain rfl : atList = start := by
    rw [advance_paren second nameOpen] at opened
    exact (Option.some.inj opened).symm
  have listOpen : middle.state.isOpen = true := by
    have lexed : lexemes s = (front ++ [Lexeme.code '(']) ++
        (lexemes (slice s (pos + name.length + 1) close) ++ .code ')' :: rest) := by
      rw [list.read, List.append_assoc]
      rfl
    have reached := isOpen_scan_of_lexemes (lexemes_of_append lexed).2 (by decide)
    rwa [flatMap_text_lexemes, ← scan_of_read inside] at reached
  obtain ⟨ends, rfl⟩ := ends_of_advance fourth listOpen (by simp) closed
  refine ⟨m, middle, before, isOpen, ?_, inside, ends, closed⟩
  rw [read_append, named, Option.bind_some, read_singleton, opened]

theorem exists_passes_of_read {name s : Text} (word : ∀ c ∈ name, isWordChar c = true)
    {pos close : Nat}
    (call : IsCall name s pos close) {m last : Mode} (reads : start.read strict s = some last)
    (before : start.read strict (s.take pos) = some m) : ∃ middle,
    Passes strict name s pos close m middle := by
  obtain ⟨m', middle, passes⟩ := exists_passes word call reads
  obtain rfl : m' = m := Option.some.inj (passes.before.symm.trans before)
  exact ⟨middle, passes⟩

theorem exists_advance {s : Text} {pos : Nat} (bound : pos < s.length) {m last : Mode}
    (reads : start.read strict s = some last) (before : start.read strict (s.take pos) = some m) :
    ∃ next, m.advance strict s[pos] = some next ∧ start.read strict (s.take (pos + 1)) =
      some next := by
  rw [← List.take_append_drop pos s, read_append, before, Option.bind_some,
    List.drop_eq_getElem_cons bound, read_cons, Option.bind_eq_some_iff] at reads
  obtain ⟨next, step, -⟩ := reads
  refine ⟨next, step, ?_⟩
  rw [← List.take_append_getElem bound, read_append, before, Option.bind_some, read_singleton, step]

/-- An action whose answers can stand where a call stood. -/
def Settles (strict : Bool) (action : List Text → Except Fault (Option Text)) : Prop :=
  ∀ arguments answer, (∀ argument ∈ arguments, Closes strict argument) →
    action arguments = .ok (some answer) →
    ∀ m : Mode, m.Sound → m.state.isOpen = true → (strict = true → m = start) →
      m.read strict answer = some start

def Calm (strict : Bool) (name s : Text) : Prop :=
  strict = true → ∀ pos close, IsCall name s pos close → start.read strict (s.take pos) = some start

theorem Calm.eq_start {name s : Text} {pos close : Nat} {m middle : Mode}
    (calm : Calm strict name s)
    (call : IsCall name s pos close) (passes : Passes strict name s pos close m middle)
    (signs : strict = true) :
    m = start :=
  Option.some.inj (passes.before.symm.trans (calm signs pos close call))

section

variable {name : Text} (word : ∀ c ∈ name, isWordChar c = true)
  {action : List Text → Except Fault (Option Text)}

theorem Settles.read_answer (settles : Settles strict action) {s : Text} {pos close : Nat}
    {m middle : Mode}
    (calm : Calm strict name s) (call : IsCall name s pos close)
    (passes : Passes strict name s pos close m middle)
    {inside answer : Text} (insideRead : start.read strict inside = some middle)
    (answered : action (splitArguments inside) = .ok (some answer)) :
      m.read strict answer = some start :=
  settles _ answer (fun _ member => closes_of_mem_splitArguments insideRead passes.ends member)
    answered m
    (sound_of_read passes.before sound_start) passes.isOpen (calm.eq_start call passes)

include word

theorem Calm.slice {s : Text} {pos close : Nat} {m middle : Mode} (calm : Calm strict name s)
    (call : IsCall name s pos close) (passes : Passes strict name s pos close m middle) :
    Calm strict name (slice s (pos + name.length + 1) close) := by
  intro signs i k inner
  have outer := ((call.isCall_slice_iff word i k).mp inner)
  have reads := calm signs _ _ outer.2
  have cut : s.take (pos + name.length + 1 + i) =
      s.take pos ++ ((LiteSql.slice s pos (pos + name.length) ++ ['(']) ++
        (LiteSql.slice s (pos + name.length + 1) close).take i) := by
    rw [← slice_succ s pos _ _ (Nat.le_add_right _ _) call.opened, ← List.append_assoc,
      take_append_slice _ _ _ (by omega), List.take_add, LiteSql.slice, List.take_take,
      Nat.min_eq_left (by omega)]
  rw [cut, read_append, passes.before, Option.bind_some, read_append, passes.opened,
    Option.bind_some] at reads
  exact reads

/-- Replacing the rest of a text leaves the scanner in the mode that the rest leaves it in. -/
theorem read_replaceM (settles : Settles strict action) {s r : Text} (pos : Nat) {m last : Mode}
    (reads : start.read strict s = some last) (calm : Calm strict name s)
    (before : start.read strict (s.take pos) = some m)
    (replaced : (callsFrom name s pos).replaceM action = .ok r) : m.read strict r = some last := by
  induction s, pos using callsFrom_induction name generalizing m last r with
  | done s pos ended =>
      rw [callsFrom_of_length_le pos ended] at replaced
      cases replaced
      rw [List.take_of_length_le ended, reads] at before
      rw [read_nil, before]
  | char s pos bound outside ih =>
      rw [callsFrom_of_not_isCall word pos bound outside] at replaced
      obtain ⟨rest, later, rfl⟩ := Calls.exists_of_replaceM_char replaced
      obtain ⟨next, step, past⟩ := exists_advance bound reads before
      rw [read_cons, step, Option.bind_some]
      exact ih reads calm past later
  | call s pos close call inner ih =>
      obtain ⟨middle, passes⟩ := exists_passes_of_read word call reads before
      rw [callsFrom_of_isCall call] at replaced
      obtain ⟨inside, answer, rest, first, second, third, rfl⟩ :=
        Calls.exists_of_replaceM_call replaced
      have insideRead : start.read strict inside = some middle :=
        inner passes.inside (calm.slice word call passes) rfl ((callsFrom_zero name _).symm ▸ first)
      have restRead := ih reads calm (passes.past call) third
      cases answer with
      | some answer =>
          rw [Option.getD_some, read_append, settles.read_answer calm call passes insideRead second,
            Option.bind_some, restRead]
      | none =>
          have kept : slice s pos (pos + name.length) ++ '(' :: (inside ++ [')']) =
              (slice s pos (pos + name.length) ++ ['(']) ++ (inside ++ [')']) := by simp
          rw [Option.getD_none, kept, read_append, read_append, passes.opened, Option.bind_some,
            read_append, insideRead, Option.bind_some, read_singleton, passes.closed,
            Option.bind_some, restRead]

end

theorem exists_read_of_quiet {m : Mode} {s : Text} (quiet : m.state.Quiet s) :
    ∃ last, m.read false s = some last := by
  induction s generalizing m with
  | nil => exact ⟨m, rfl⟩
  | cons c s ih =>
      have outside : m.state.step c ≠ .line := by
        obtain ⟨-, rest⟩ := quiet
        cases s with
        | nil => exact rest
        | cons d s => exact rest.1
      rw [read_cons, advance, if_neg (by simp [outside]), Option.bind_some]
      exact ih quiet.2

theorem quiet_of_read {m last : Mode} {s : Text} (reads : m.read strict s = some last)
    (outside : m.state ≠ .line) : m.state.Quiet s := by
  induction s generalizing m with
  | nil => exact outside
  | cons c s ih =>
      rw [read_cons, Option.bind_eq_some_iff] at reads
      obtain ⟨next, step, rest⟩ := reads
      obtain ⟨same, sound⟩ := state_of_advance step
      exact ⟨outside, same ▸ ih rest sound.outside⟩

theorem exists_sign_of_pending {s : Text} {j : Nat} {m : Mode} {c : Char}
    (reads : start.read strict (s.take j) = some m) (pending : m.pending = true)
    (here : s[j]? = some c) (other : c ≠ '-' ∧ c ≠ '*') :
    ∃ i, FollowsSign s i j := by
  induction j generalizing m c with
  | zero => cases reads; cases pending
  | succ j ih =>
      have bound : j < s.length := by
        have inside := (List.getElem?_eq_some_iff.mp here).1
        omega
      rw [← List.take_append_getElem bound] at reads
      obtain ⟨previous, before, step⟩ := exists_read_of_append reads
      rw [read_singleton] at step
      have start : s[j]? = some s[j] := List.getElem?_eq_getElem bound
      rcases pending_of_advance step pending with sign | ⟨waiting, blank⟩
      · rw [(state_of_advance step).1] at sign
        obtain ⟨which, unmarked⟩ := ScanState.sign_of_step sign other
        refine ⟨j, by rw [start]; simpa using which, ?_, Nat.lt_succ_self j,
          fun k low high => by omega⟩
        rw [inLiteral_iff_marks, start, here, ← scan_of_read before]
        simp [unmarked]
      · have next : s[j] ≠ '-' ∧ s[j] ≠ '*' := by
          have special : ∀ d ∈ ['-', '*'], isBlank d = false := by decide
          grind
        obtain ⟨i, follows⟩ := ih before waiting start next
        refine ⟨i, follows.sign, follows.outside, Nat.lt_succ_of_lt follows.after,
          fun k low high => ?_⟩
        rcases Nat.lt_succ_iff_lt_or_eq.mp low with early | rfl
        · exact follows.blank k early high
        · rw [start]
          exact blank

end Mode

instance (name s : Text) : Decidable (SignsApplied name s) :=
  inferInstanceAs (Decidable (∀ i < s.length, ∀ j < s.length, FollowsSign s i j →
    s[j]? ≠ some ',' ∧ s[j]? ≠ some ')' ∧ ∀ close < s.length, ¬ IsCall name s j close))

namespace SignsApplied

open Mode

variable {name s : Text} (applied : SignsApplied name s)

include applied

theorem ne_stop {j : Nat} {m : Mode} {c : Char} (reads : start.read true (s.take j) = some m)
    (pending : m.pending = true) (here : s[j]? = some c) (other : c ≠ '-' ∧ c ≠ '*') :
    c ∉ [',', ')'] ∧ ∀ close, ¬ IsCall name s j close := by
  obtain ⟨i, follows⟩ := exists_sign_of_pending reads pending here other
  have bound := (List.getElem?_eq_some_iff.mp here).1
  obtain ⟨comma, paren, calls⟩ := applied i (Nat.lt_trans follows.after bound) j bound follows
  rw [here] at comma paren
  exact ⟨by grind, fun close call => calls close call.close_lt call⟩

theorem exists_read (quiet : ScanState.code.Quiet s) : ∃ last, start.read true s = some last := by
  suffices upTo : ∀ j ≤ s.length, ∃ m, start.read true (s.take j) = some m by
    simpa using upTo s.length (Nat.le_refl _)
  intro j bound
  induction j with
  | zero => exact ⟨start, rfl⟩
  | succ j ih =>
      obtain ⟨m, reads⟩ := ih (by omega)
      have outside : m.state.step s[j] ≠ .line := by
        have quiet := ScanState.after_take_ne_line quiet (j + 1)
        rw [← List.take_append_getElem bound, ScanState.after_append] at quiet
        rwa [scan_of_read reads]
      have allowed : ¬ (m.pending = true ∧ s[j] ∈ [',', ')']) := by
        rintro ⟨pending, stop⟩
        exact (applied.ne_stop reads pending (List.getElem?_eq_getElem bound) (by grind)).1 stop
      rw [← List.take_append_getElem bound, read_append, reads, Option.bind_some, read_singleton,
        advance, if_neg (by simpa [outside] using allowed)]
      exact ⟨_, rfl⟩

theorem calm (word : ∀ c ∈ name, isWordChar c = true) {last : Mode}
    (reads : start.read true s = some last) : Calm true name s := by
  intro _ pos close call
  obtain ⟨m, middle, passes⟩ := exists_passes word call reads
  have idle : m.pending = false := by
    cases pending : m.pending with
    | false => rfl
    | true =>
        have bound := call.close_lt
        have inner := call.lt_close
        have here : s[pos]? = some s[pos] := List.getElem?_eq_getElem (by omega)
        have minus := call.getElem?_ne word '-' (by decide) (by decide) (by decide)
        have times := call.getElem?_ne word '*' (by decide) (by decide) (by decide)
        rw [here] at minus times
        have refused := (applied.ne_stop passes.before pending here (by grind)).2
        exact absurd call (refused close)
  rw [passes.before, eq_start (sound_of_read passes.before sound_start) passes.isOpen idle]

end SignsApplied

/-- A text without line comments is read to its end, and where signs must be applied none is waiting
at a call. -/
theorem Mode.exists_calm {strict : Bool} {name s : Text} (word : ∀ c ∈ name, isWordChar c = true)
    (plain : ∀ l ∈ lexemes s, l.isLineComment = false)
    (applied : strict = true → SignsApplied name s) :
    ∃ last, start.read strict s = some last ∧ Calm strict name s := by
  have quiet := (scan_lexemes s).2 plain
  cases strict with
  | false =>
      obtain ⟨last, reads⟩ := exists_read_of_quiet (m := start) quiet
      exact ⟨last, reads, by simp [Calm]⟩
  | true =>
      obtain ⟨last, reads⟩ := (applied rfl).exists_read quiet
      exact ⟨last, reads, (applied rfl).calm word reads⟩

end LiteSql
