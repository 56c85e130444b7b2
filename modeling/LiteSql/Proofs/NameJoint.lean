import LiteSql.Proofs.AggregateLayout

/-! Dots between the parts of names. Reading from the left, a dot is joined to both of its
neighbours, and the character behind it is then taken: a dot that follows it at once keeps its
blanks. -/

namespace LiteSql

/-! ### Reading dotted names -/

inductive NamePart
  | word
  | blank
  | dot
  | other
  deriving DecidableEq

def Lexeme.namePart (l : Lexeme) : NamePart :=
  if l.isWord then .word else if l.isBlank then .blank else if l = .code '.' then .dot else .other

/-- Where a reader of dotted names stands: outside names, behind a character of a word, behind
blanks after it, or behind a dot. The character is taken if it has been joined to a dot before it,
and the dot is loose if blanks stand around it. -/
inductive NameState
  | outside
  | word (taken : Bool)
  | gap (taken : Bool)
  | dot (taken loose : Bool)
  deriving DecidableEq

structure Joint where
  loose : Bool
  taken : Bool
  deriving DecidableEq

namespace NameState

def step : NameState → NamePart → NameState
  | .dot taken _, .word => .word !taken
  | _, .word => .word false
  | .word taken, .blank => .gap taken
  | .gap taken, .blank => .gap taken
  | .dot taken _, .blank => .dot taken true
  | .word taken, .dot => .dot taken false
  | .gap taken, .dot => .dot taken true
  | _, _ => .outside

def joint? : NameState → NamePart → Option Joint
  | .dot taken loose, .word => some ⟨loose, taken⟩
  | _, _ => none

def run (state : NameState) (ls : List Lexeme) : NameState :=
  ls.foldl (fun state l => state.step l.namePart) state

def joints : NameState → List Lexeme → List Joint
  | _, [] => []
  | state, l :: ls => (state.joint? l.namePart).toList ++ joints (state.step l.namePart) ls

theorem joints_append (state : NameState) (first second : List Lexeme) :
    state.joints (first ++ second) = state.joints first ++ (state.run first).joints second := by
  induction first generalizing state with
  | nil => rfl
  | cons l first ih =>
      rw [List.cons_append, joints, ih, joints, List.append_assoc, run, run, List.foldl_cons]

theorem joints_congr {ls ms : List Lexeme} (same : ls.map Lexeme.namePart = ms.map Lexeme.namePart)
    (state : NameState) :
    state.joints ls = state.joints ms := by
  induction ls generalizing ms state with
  | nil =>
      obtain rfl := List.map_eq_nil_iff.mp same.symm
      rfl
  | cons l ls ih =>
      obtain ⟨m, ms, rfl, here, later⟩ := List.map_eq_cons_iff.mp same.symm
      rw [joints, joints, here, ih later.symm]

end NameState

theorem namePart_of_isWord {l : Lexeme} (word : l.isWord = true) : l.namePart = .word := if_pos word

theorem namePart_of_isBlank {l : Lexeme} (blank : l.isBlank = true) : l.namePart = .blank := by
  rw [Lexeme.namePart, if_neg (by rw [Lexeme.isWord_of_isBlank blank]; exact Bool.false_ne_true),
    if_pos blank]

theorem namePart_cases (l : Lexeme) : (l.isWord = true ∧ l.namePart = .word) ∨
    (l.isBlank = true ∧ l.namePart = .blank) ∨
    (l = .code '.' ∧ l.namePart = .dot) ∨ (l.isBreak = true ∧ l.namePart = .other) := by
  rw [Lexeme.namePart]
  split
  · next word => exact .inl ⟨word, rfl⟩
  · next unworded =>
      split
      · next blank => exact .inr (.inl ⟨blank, rfl⟩)
      · next solid =>
          split
          · next dot => exact .inr (.inr (.inl ⟨dot, rfl⟩))
          · next other =>
              exact .inr (.inr (.inr ⟨by simp [Lexeme.isBreak, unworded, solid, other], rfl⟩))

theorem namePart_of_isBreak {l : Lexeme} (broken : l.isBreak = true) : l.namePart = .other := by
  rw [Lexeme.isBreak, Bool.and_eq_true, Bool.and_eq_true, Bool.not_eq_true', Bool.not_eq_true',
    bne_iff_ne] at broken
  obtain ⟨⟨word, blank⟩, dot⟩ := broken
  rw [Lexeme.namePart, word, blank, if_neg Bool.false_ne_true, if_neg Bool.false_ne_true,
    if_neg dot]

theorem namePart_closed (l : Lexeme) : l.closed.namePart = l.namePart := by
  cases l with
  | code c => rfl
  | literal kind text => cases kind <;> rfl

namespace NameState

/-! ### Changes that keep the joints -/

theorem step_blank_blank (state : NameState) : (state.step .blank).step .blank =
    state.step .blank := by
  cases state <;> rfl

theorem joint?_blank (state : NameState) : state.joint? .blank = none := by
  cases state <;> rfl

theorem joint?_other (state : NameState) : state.joint? .other = none := by
  cases state <;> rfl

theorem step_other (state : NameState) : state.step .other = .outside := by
  cases state <;> rfl

theorem joints_squeeze (state : NameState) (ls : List Lexeme) :
    state.joints (squeeze ls) = state.joints ls := by
  induction ls generalizing state with
  | nil => rfl
  | cons l ls ih =>
      rw [squeeze]
      split
      · next blank =>
          rw [joints, namePart_of_isBlank blank, joint?_blank, Option.toList_none, List.nil_append]
          split
          · next more =>
              cases ls with
              | nil => cases more
              | cons m ls =>
                  have next : m.namePart = .blank := namePart_of_isBlank more
                  rw [ih, joints, joints, next, joint?_blank, joint?_blank, step_blank_blank]
          · rw [joints, namePart_of_isBlank (by decide), joint?_blank, ih, Option.toList_none,
              List.nil_append]
      · rw [joints, joints, ih]

theorem joints_closed (state : NameState) (ls : List Lexeme) :
    state.joints (ls.map Lexeme.closed) = state.joints ls := by
  refine joints_congr ?_ state
  rw [List.map_map]
  exact List.map_congr_left fun l _ => namePart_closed l

theorem joints_break (state : NameState) (x : List Lexeme) {l : Lexeme} (broken : l.isBreak = true)
    (rest : List Lexeme) :
    state.joints (x ++ l :: rest) = state.joints x ++ outside.joints rest := by
  rw [joints_append, joints, namePart_of_isBreak broken, joint?_other, step_other]
  rfl

theorem joints_blanks (state : NameState) {b : List Lexeme} (blank : ∀ l ∈ b, l.isBlank = true)
    (rest : List Lexeme) :
    state.joints (b ++ rest) = (state.run b).joints rest := by
  induction b generalizing state with
  | nil => rfl
  | cons l b ih =>
      obtain ⟨here, later⟩ := List.forall_mem_cons.mp blank
      rw [List.cons_append, joints, namePart_of_isBlank here, joint?_blank, ih _ later, run, run,
        List.foldl_cons, namePart_of_isBlank here]
      rfl

theorem run_blanks (state : NameState) {b : List Lexeme} (blank : ∀ l ∈ b, l.isBlank = true) :
    state.run b = if b = [] then state else state.step .blank := by
  induction b generalizing state with
  | nil => rfl
  | cons l b ih =>
      obtain ⟨here, later⟩ := List.forall_mem_cons.mp blank
      rw [if_neg (List.cons_ne_nil l b), run, List.foldl_cons, ← run, namePart_of_isBlank here,
        ih _ later, step_blank_blank, ite_self]

theorem run_outside {b : List Lexeme} (blank : ∀ l ∈ b, l.isBlank = true) :
    outside.run b = outside := by
  rw [run_blanks _ blank]
  split <;> rfl

theorem joints_padding {core padded : List Lexeme} (padding : Padding core padded) :
    outside.joints padded = outside.joints core := by
  obtain ⟨before, after, rfl, leading, trailing⟩ := padding
  rw [joints_blanks _ leading, run_outside leading, joints_append]
  have none := joints_blanks (outside.run core) trailing []
  rw [List.append_nil] at none
  rw [none]
  exact List.append_nil _

theorem joints_rejoined {xs ys : List Lexeme} (rejoined : Rejoined xs ys) :
    outside.joints ys = outside.joints xs := by
  induction rejoined with
  | last _ padding _ => exact (joints_padding padding).symm
  | @comma core x xs ys _ padding _ _ ih =>
      rw [joints_break _ _ (by decide), joints_break _ _ (by decide), joints_padding padding, ← ih]
      rfl

/-! ### Dots that are joined -/

theorem joints_of_not_isWord (state : NameState) {ls : List Lexeme}
    (none : ∀ l ∈ ls, l.isWord = false) :
    state.joints ls = [] := by
  induction ls generalizing state with
  | nil => rfl
  | cons l ls ih =>
      obtain ⟨here, later⟩ := List.forall_mem_cons.mp none
      rw [joints, ih _ later, List.append_nil]
      rcases namePart_cases l with ⟨word, -⟩ | ⟨-, part⟩ | ⟨-, part⟩ | ⟨-, part⟩
      · rw [here] at word
        cases word
      all_goals
        rw [part]
        cases state <;> rfl

theorem run_append (state : NameState) (first second : List Lexeme) :
    state.run (first ++ second) = (state.run first).run second := List.foldl_append

theorem run_dot (taken : Bool) {b : List Lexeme} (dotted : Padding [.code '.'] b) :
    (word taken).run b = dot taken (decide (b ≠ [.code '.'])) := by
  obtain ⟨before, after, rfl, leading, trailing⟩ := dotted
  rw [run_append, run_append, run_blanks _ leading, run_blanks _ trailing]
  have here (state : NameState) : state.run [.code '.'] = state.step .dot := rfl
  rw [here]
  by_cases early : before = []
  · by_cases late : after = []
    · simp [early, late, step]
    · simp [early, late, step]
  · rw [if_neg early]
    have loose : before ++ ([.code '.'] ++ after) ≠ [.code '.'] := by
      intro same
      have length := congrArg List.length same
      have some := List.length_pos_of_ne_nil early
      simp only [List.length_append, List.length_cons, List.length_nil] at length
      omega
    rw [decide_eq_true loose]
    split <;> rfl

theorem joints_dot (taken : Bool) {b : List Lexeme} (dotted : Padding [.code '.'] b) {m : Lexeme}
    (member : m.isWord = true)
    (rest : List Lexeme) : (word taken).joints (b ++ m :: rest) =
      ⟨decide (b ≠ [.code '.']), taken⟩ :: (word !taken).joints rest := by
  rw [joints_append, joints_of_not_isWord _ (isWord_of_mem_dot dotted),
    run_dot taken dotted, joints, namePart_of_isWord member]
  rfl

/-- Where no dot joins the next character, the character before does not matter. -/
theorem joints_word_of_none {ls : List Lexeme} (apart : member? ls = none) (taken : Bool) :
    (word taken).joints ls = outside.joints ls := by
  obtain ⟨b, rest, rfl, blank, solid⟩ := exists_longest_blanks ls
  obtain ⟨state, behind, early⟩ : ∃ state, (word taken).run b = state ∧
      (state = word taken ∨ state = gap taken) := by
    refine ⟨_, run_blanks _ blank, ?_⟩
    split
    · exact .inl rfl
    · exact .inr rfl
  rw [joints_blanks _ blank, joints_blanks _ blank, run_outside blank, behind]
  cases rest with
  | nil => rfl
  | cons l rest =>
      rw [joints, joints]
      rcases namePart_cases l with ⟨-, part⟩ | ⟨space, -⟩ | ⟨rfl, part⟩ | ⟨-, part⟩
      · rw [part]
        rcases early with rfl | rfl <;> rfl
      · rw [List.head?_cons, Option.any_some, space] at solid
        cases solid
      · -- a dot, and blanks behind it
        obtain ⟨b', rest, rfl, blank', solid'⟩ := exists_longest_blanks rest
        obtain ⟨loose, late⟩ : ∃ loose, (state.step .dot).run b' = dot taken loose := by
          rw [run_blanks _ blank']
          rcases early with rfl | rfl
          · split
            · exact ⟨false, rfl⟩
            · exact ⟨true, rfl⟩
          · split
            · exact ⟨true, rfl⟩
            · exact ⟨true, rfl⟩
        have none : (state.joint? .dot).toList = [] := by rcases early with rfl | rfl <;> rfl
        rw [part, none, joints_blanks _ blank', late, joints_blanks _ blank',
          show outside.step .dot = outside from rfl, run_outside blank']
        cases rest with
        | nil => rfl
        | cons m rest =>
            rw [joints, joints]
            rcases namePart_cases m with ⟨word, -⟩ | ⟨space, -⟩ | ⟨-, part⟩ | ⟨-, part⟩
            · have found : member? (b ++ .code '.' :: (b' ++ m :: rest)) = some (m, rest) :=
                member?_eq_some_iff.mpr ⟨word, b ++ ([.code '.'] ++ b'),
                  ⟨b, b', rfl, blank, blank'⟩, by simp⟩
              rw [apart] at found
              cases found
            · rw [List.head?_cons, Option.any_some, space] at solid'
              cases solid'
            · rw [part]
              rfl
            · rw [part]
              rfl
      · rw [part]
        rcases early with rfl | rfl <;> rfl

end NameState

/-- What becomes of a dot: its blanks are taken away, unless the character before it is taken. -/
def Joint.tightened (j : Joint) : Joint := ⟨j.loose && j.taken, j.taken⟩

namespace NameState

def settled : NameState → Bool
  | outside => true
  | word taken => taken
  | gap taken => taken
  | dot taken _ => taken

theorem settled_step {state : NameState} (settled : state.settled = true) {part : NamePart}
    (other : part ≠ .word) :
    (state.step part).settled = true := by
  cases part with
  | word => exact absurd rfl other
  | blank => cases state <;> exact settled
  | dot => cases state <;> first | rfl | exact settled
  | other => cases state <;> rfl

theorem step_word {state : NameState} (settled : state.settled = true) :
    state.step .word = word false := by
  cases state with
  | dot taken loose =>
      obtain rfl : taken = true := settled
      rfl
  | outside => rfl
  | word taken => rfl
  | gap taken => rfl

theorem tightened_joint? {state : NameState} (settled : state.settled = true) (part : NamePart) :
    (state.joint? part).toList.map Joint.tightened = (state.joint? part).toList := by
  cases state with
  | dot taken loose =>
      obtain rfl : taken = true := settled
      cases part <;> simp [joint?, Joint.tightened]
  | outside => rfl
  | word taken => rfl
  | gap taken => rfl

theorem joints_tighten {state : NameState} (settled : state.settled = true) (ls : List Lexeme) :
    state.joints (tighten ls) = (state.joints ls).map Joint.tightened := by
  have cons (state : NameState) (l : Lexeme) (ls : List Lexeme) :
      state.joints (l :: ls) = (state.joint? l.namePart).toList ++
        (state.step l.namePart).joints ls := rfl
  induction ls using tighten_induction generalizing state with
  | nil => rw [tighten]; rfl
  | pass l ls apart ih =>
      rw [tighten_pass apart, cons, cons, List.map_append, tightened_joint? settled]
      refine congrArg ((state.joint? l.namePart).toList ++ ·) ?_
      by_cases word : l.isWord = true
      · have none := apart word
        rw [namePart_of_isWord word, step_word settled, joints_word_of_none none,
          joints_word_of_none (member?_tighten none), ih rfl]
      · refine ih (settled_step settled fun part => word ?_)
        rcases namePart_cases l with ⟨word, -⟩ | ⟨-, other⟩ | ⟨-, other⟩ | ⟨-, other⟩
        · exact word
        all_goals
          rw [part] at other
          cases other
  | join l m b behind owner member dotted ih =>
      have tight := joints_dot false (padding_self [.code '.']) member (tighten behind)
      rw [List.singleton_append] at tight
      rw [tighten_join owner member dotted, cons, cons state l, List.map_append,
        tightened_joint? settled, namePart_of_isWord owner, step_word settled, tight,
        joints_dot false dotted member, List.map_cons,
        ih (show (word !false).settled = true from rfl)]
      simp [Joint.tightened]

theorem Joint.tightened_tightened (j : Joint) : j.tightened.tightened = j.tightened := by
  simp [Joint.tightened]

theorem joints_of_rejoined {others arguments : List Lexeme}
    (rejoined : Rejoined (neaten others) arguments) :
    outside.joints arguments = (outside.joints others).map Joint.tightened := by
  rw [joints_rejoined rejoined, neaten, joints_tighten rfl, joints_squeeze, joints_closed]

theorem joints_callLexemes (state : NameState) (written : Text) (inner rest : List Lexeme) :
    state.joints (callLexemes written inner ++ rest) =
      state.joints (written.map .code) ++ (outside.joints inner ++ outside.joints rest) := by
  have whole : callLexemes written inner ++ rest = written.map .code ++ .code '(' ::
      (inner ++ .code ')' :: rest) := by
    simp [callLexemes]
  rw [whole, joints_break _ _ (by decide), joints_break _ _ (by decide)]

theorem joints_spelled (state : NameState) {written : Text}
    (named : spelled GroupConcat.function written = true) :
    state.joints (written.map .code) = state.joints (GroupConcat.function.map .code) := by
  have part {w : Text} (letters : ∀ c ∈ w, isWordChar c = true) :
      (w.map Lexeme.code).map Lexeme.namePart = List.replicate w.length .word := by
    rw [List.map_map, List.eq_replicate_iff]
    refine ⟨List.length_map _, List.forall_mem_map.mpr fun c member => ?_⟩
    exact namePart_of_isWord (letters c member)
  refine joints_congr ?_ state
  rw [part (isWordChar_of_spelled isAsciiWord_groupConcat named).2,
    part (isWordChar_of_spelled isAsciiWord_groupConcat spelled_groupConcat).2,
    ((spelled_iff _ _).mp named).2]

/-- Apart from dots that are joined, the joints of the result are those of the source. -/
theorem joints_laidOut {front ls ms : List Lexeme} (laidOut : LaidOut front ls ms)
    (state : NameState) :
    (state.joints ms).map Joint.tightened = (state.joints ls).map Joint.tightened := by
  induction laidOut generalizing state with
  | done => rfl
  | keep _ _ ih => rw [joints, joints, List.map_append, List.map_append, ih]
  | call cut _ rejoined _ _ ihInner ih =>
      rw [joints_callLexemes, joints_callLexemes, joints_spelled state cut.named,
        joints_of_rejoined rejoined, ihInner, List.map_append, List.map_append, List.map_append,
        List.map_append, ih, List.map_map]
      simp only [Function.comp_def, Joint.tightened_tightened]

theorem joints_renewed {inner arguments : List Lexeme} (renewed : Renewed inner arguments) :
    outside.joints arguments = (outside.joints inner).map Joint.tightened := by
  obtain ⟨-, others, laidOut, rejoined⟩ := renewed
  rw [joints_of_rejoined rejoined, joints_laidOut laidOut]

end NameState

/-! ### Dots between characters -/

/-- The number of dots that are read backwards, each directly behind a part of one character. -/
def dotsBefore (ls : List Lexeme) : Nat :=
  match _ : member? ls with
  | none => 0
  | some (_, behind) => dotsBefore behind + 1
termination_by ls.length
decreasing_by
  next found =>
    obtain ⟨-, b, -, rfl⟩ := member?_eq_some_iff.mp found
    simp only [List.length_cons, List.length_append]
    omega

theorem dotsBefore_of_none {ls : List Lexeme} (apart : member? ls = none) : dotsBefore ls = 0 := by
  rw [dotsBefore]
  split
  · rfl
  · next found =>
      rw [apart] at found
      cases found

theorem dotsBefore_of_some {ls behind : List Lexeme} {m : Lexeme}
    (found : member? ls = some (m, behind)) :
    dotsBefore ls = dotsBefore behind + 1 := by
  rw [dotsBefore]
  split
  · next apart =>
      rw [apart] at found
      cases found
  · next other =>
      rw [found] at other
      cases other
      rfl

structure DotCut (ls front : List Lexeme) (owner : Lexeme) (b : List Lexeme) (member : Lexeme)
    (behind : List Lexeme) :
    Prop where
  whole : ls = front ++ owner :: (b ++ member :: behind)
  owned : owner.isWord = true
  joined : member.isWord = true
  dotted : Padding [.code '.'] b

theorem Padding.reverse {b : List Lexeme} (dotted : Padding [.code '.'] b) :
    Padding [.code '.'] b.reverse := by
  obtain ⟨before, after, rfl, leading, trailing⟩ := dotted
  refine ⟨after.reverse, before.reverse, by simp, ?_, ?_⟩
  · exact fun l member => trailing l (List.mem_reverse.mp member)
  · exact fun l member => leading l (List.mem_reverse.mp member)

namespace NameState

def Reads (ls : List Lexeme) : NameState → Prop
  | outside => True
  | word _ => ∃ front o, ls = front ++ [o] ∧ o.isWord = true
  | gap _ => ∃ front o b, ls = front ++ o :: b ∧ o.isWord = true ∧ ∀ l ∈ b, l.isBlank = true
  | dot _ _ => ∃ front o b, ls = front ++ o :: b ∧ o.isWord = true ∧ Padding [.code '.'] b

theorem Reads.step {ls : List Lexeme} {state : NameState} (reads : Reads ls state) (l : Lexeme) :
    Reads (ls ++ [l]) (state.step l.namePart) := by
  rcases namePart_cases l with ⟨word, part⟩ | ⟨blank, part⟩ | ⟨rfl, part⟩ | ⟨-, part⟩
  · rw [part]
    cases state <;> exact ⟨ls, l, rfl, word⟩
  · rw [part]
    cases state with
    | outside => exact trivial
    | word taken =>
        obtain ⟨front, o, rfl, letter⟩ := reads
        exact ⟨front, o, [l], by simp, letter, List.forall_mem_singleton.mpr blank⟩
    | gap taken =>
        obtain ⟨front, o, b, rfl, letter, blanks⟩ := reads
        exact ⟨front, o, b ++ [l], by simp, letter, List.forall_mem_append.mpr
          ⟨blanks, List.forall_mem_singleton.mpr blank⟩⟩
    | dot taken loose =>
        obtain ⟨front, o, b, rfl, letter, before, after, rfl, leading, trailing⟩ := reads
        exact ⟨front, o, before ++ ([.code '.'] ++
          (after ++ [l])), by simp, letter, before, after ++ [l], rfl, leading,
            List.forall_mem_append.mpr ⟨trailing, List.forall_mem_singleton.mpr blank⟩⟩
  · rw [part]
    cases state with
    | outside => exact trivial
    | word taken =>
        obtain ⟨front, o, rfl, letter⟩ := reads
        exact ⟨front, o, [.code '.'], by simp, letter, padding_self _⟩
    | gap taken =>
        obtain ⟨front, o, b, rfl, letter, blanks⟩ := reads
        exact ⟨front, o,
          b ++ [.code '.'], by simp, letter, b, [], by simp, blanks, List.forall_mem_nil _⟩
    | dot taken loose => exact trivial
  · rw [part, step_other]
    exact trivial

theorem reads_run (ls : List Lexeme) : Reads ls (outside.run ls) := by
  suffices more : ∀ front state, Reads front state → Reads (front ++ ls) (state.run ls)
      from more [] outside trivial
  induction ls with
  | nil =>
      intro front state reads
      rwa [List.append_nil]
  | cons l ls ih =>
      intro front state reads
      rw [List.append_cons]
      exact ih _ _ (reads.step l)

theorem run_word (front : List Lexeme) {o : Lexeme} (owned : o.isWord = true) :
    outside.run (front ++ [o]) = word (decide (dotsBefore front.reverse % 2 = 1)) := by
  induction size : front.length using Nat.strongRecOn generalizing front o with
  | ind n ih =>
      subst size
      have here (state : NameState) : state.run [o] = state.step .word := by
        rw [← namePart_of_isWord owned]; rfl
      rw [run_append, here]
      cases found : member? front.reverse with
      | none =>
          rw [dotsBefore_of_none found]
          have reads := reads_run front
          cases state : outside.run front with
          | dot taken loose =>
              rw [state] at reads
              obtain ⟨early, m, b, rfl, letter, dotted⟩ := reads
              have some : member? (early ++ m :: b).reverse = some (m, early.reverse) :=
                member?_eq_some_iff.mpr ⟨letter, b.reverse, dotted.reverse, by simp⟩
              rw [some] at found
              cases found
          | outside => rfl
          | word taken => rfl
          | gap taken => rfl
      | some next =>
          obtain ⟨m, behind⟩ := next
          rw [dotsBefore_of_some found]
          obtain ⟨letter, b, dotted, cut⟩ := member?_eq_some_iff.mp found
          have text : front = (behind.reverse ++ [m]) ++ b.reverse := by
            rw [← List.reverse_reverse front, cut]
            simp
          have early := ih behind.reverse.length (by rw [text]; simp) behind.reverse letter rfl
          rw [text, run_append, early, run_dot _ dotted.reverse, List.reverse_reverse]
          show word (!decide _) = _
          rw [← decide_not, NameState.word.injEq, decide_eq_decide]
          omega

theorem exists_of_mem_joints {state : NameState} {ls : List Lexeme} {j : Joint}
    (member : j ∈ state.joints ls) :
    ∃ x l y, ls = x ++ l :: y ∧ (state.run x).joint? l.namePart = some j := by
  induction ls generalizing state with
  | nil => cases member
  | cons l ls ih =>
      rw [joints, List.mem_append, Option.mem_toList] at member
      rcases member with here | later
      · exact ⟨[], l, ls, rfl, here⟩
      · obtain ⟨x, m, y, rfl, found⟩ := ih later
        exact ⟨l :: x, m, y, rfl, found⟩

theorem mem_joints_iff {ls : List Lexeme} {j : Joint} : j ∈ outside.joints ls ↔
    ∃ front owner b member behind, DotCut ls front owner b member behind ∧
      j = ⟨decide (b ≠ [.code '.']), decide (dotsBefore front.reverse % 2 = 1)⟩ := by
  constructor
  · intro found
    obtain ⟨x, l, y, rfl, here⟩ := exists_of_mem_joints found
    have reads := reads_run x
    cases state : outside.run x with
    | dot taken loose =>
        rw [state] at here reads
        obtain ⟨front, owner, b, rfl, owned, dotted⟩ := reads
        have joined : l.isWord = true ∧ j = ⟨loose, taken⟩ := by
          rcases namePart_cases l with ⟨word, part⟩ | ⟨-, part⟩ | ⟨-, part⟩ | ⟨-, part⟩
          · rw [part] at here
            exact ⟨word, (Option.some.inj here).symm⟩
          all_goals
            rw [part] at here
            cases here
        rw [List.append_cons, run_append, run_word front owned, run_dot _ dotted,
          NameState.dot.injEq] at state
        refine ⟨front, owner, b, l, y, ⟨by simp, owned, joined.1, dotted⟩, ?_⟩
        rw [joined.2, ← state.1, ← state.2]
    | outside =>
        rw [state] at here
        cases here
    | word taken =>
        rw [state] at here
        cases here
    | gap taken =>
        rw [state] at here
        cases here
  · rintro ⟨front, owner, b, member, behind, cut, rfl⟩
    rw [cut.whole, List.append_cons, joints_append, run_word front cut.owned,
      joints_dot _ cut.dotted cut.joined]
    exact List.mem_append_right _ List.mem_cons_self

end NameState

/-! ### Names in calls -/

def Tightened (ls : List Lexeme) : Prop :=
  ∀ front owner b member behind, DotCut ls front owner b member behind → b = [.code '.']

namespace NameState

theorem tightened_iff {ls : List Lexeme} : Tightened ls ↔ ∀ j ∈ outside.joints ls,
    j.loose = false := by
  constructor
  · intro tight j found
    obtain ⟨front, owner, b, member, behind, cut, rfl⟩ := mem_joints_iff.mp found
    exact decide_eq_false (not_not_intro (tight front owner b member behind cut))
  · intro none front owner b member behind cut
    exact not_not.mp (of_decide_eq_false
      (none _ (mem_joints_iff.mpr ⟨front, owner, b, member, behind, cut, rfl⟩)))

theorem joints_subset {first inner rest : List Lexeme} {written : Text} :
    outside.joints inner ⊆ outside.joints (first ++ (callLexemes written inner ++ rest)) := by
  intro j found
  rw [joints_append, joints_callLexemes]
  exact List.mem_append_right _ (List.mem_append_right _ (List.mem_append_left _ found))

end NameState

namespace GroupConcat

theorem exists_isCall {s : Text} {front inner behind : List Lexeme} {written : Text}
    (read : lexemes s = front ++ (callLexemes written inner ++ behind))
    (cut : CallCut function front written inner) :
    ∃ pos close, IsCall function s pos close ∧
      lexemes (slice s (pos + function.length + 1) close) = inner := by
  have arguments := slice_arguments read
  rw [((spelled_iff _ _).mp cut.named).2] at arguments
  exact ⟨_, _, cut.isCall read, by rw [arguments, lexemes_front (lexemes_arguments read)]⟩

open NameState in
/-- All names in the calls of the result are tightened exactly if in the calls of the source no dot
with blanks around it stands behind a part of one character that an odd number of dots leads to. -/
theorem names_tightened_iff (s : Text) :
    (∀ pos close, IsCall function (Layout.aggregateQuery s) pos close →
      Tightened (lexemes (slice (Layout.aggregateQuery s) (pos + function.length + 1) close))) ↔
    ∀ pos close, IsCall function s pos close → ∀ front owner b member behind,
      DotCut (lexemes (slice s (pos + function.length + 1) close)) front owner b member behind →
        b = [.code '.'] ∨ dotsBefore front.reverse % 2 = 0 := by
  have laidOut := laidOut_aggregateQuery s
  have present := text_ne_nil_of_mem_lexemes s
  have filled := text_ne_nil_of_mem_lexemes (Layout.aggregateQuery s)
  constructor
  · intro tight pos close call front owner b member behind found
    obtain ⟨early, cut, read⟩ := call.exists_cut isWordChar_function
    obtain ⟨x, arguments, y, old, result, new, renewed, place⟩ :=
      laidOut.exists_renewal (fun _ _ _ => rfl) read cut present filled
    obtain ⟨pos', close', call', same⟩ := exists_isCall result new
    have joint := mem_joints_iff.mpr ⟨front, owner, b, member, behind, found, rfl⟩
    have inside : outside.joints (lexemes (slice s (pos + function.length + 1) close)) ⊆
        outside.joints old := by
      rcases place with rfl | ⟨first, rest, rfl⟩
      · exact List.Subset.refl _
      · exact joints_subset
    have stays := tightened_iff.mp (tight pos' close' call') _ (by
      rw [same, joints_renewed renewed]
      exact List.mem_map_of_mem (inside joint))
    rw [Joint.tightened, Bool.and_eq_false_iff, decide_eq_false_iff_not, decide_eq_false_iff_not,
      not_not] at stays
    rcases stays with dot | other
    · exact .inl dot
    · exact .inr (Nat.mod_two_ne_one.mp other)
  · intro even pos close call
    obtain ⟨early, cut, read⟩ := call.exists_cut isWordChar_function
    obtain ⟨x, source, old, y, arguments, whole, known, renewed, place⟩ :=
      laidOut.stems (fun _ _ _ => rfl) read cut present filled
    obtain ⟨pos', close', call', same⟩ := exists_isCall whole known
    rw [tightened_iff]
    intro j found
    have inside : j ∈ outside.joints arguments := by
      rcases place with ⟨-, rfl⟩ | ⟨first, rest, rfl, -⟩
      · exact found
      · exact joints_subset found
    rw [joints_renewed renewed, List.mem_map] at inside
    obtain ⟨k, old, rfl⟩ := inside
    rw [← same] at old
    obtain ⟨front, owner, b, member, behind, dots, rfl⟩ := mem_joints_iff.mp old
    rw [Joint.tightened, Bool.and_eq_false_iff, decide_eq_false_iff_not,
      decide_eq_false_iff_not, not_not]
    rcases even pos' close' call' front owner b member behind dots with dot | even
    · exact .inl dot
    · exact .inr (by omega)

/-- A part of one character between two dots keeps the blanks around the second one. -/
theorem not_forall_names_tightened : ¬ ∀ s pos close,
    IsCall function (Layout.aggregateQuery s) pos close →
    Tightened (lexemes (slice (Layout.aggregateQuery s) (pos + function.length + 1) close)) := by
  intro all
  have result : Layout.aggregateQuery "GROUP_CONCAT(a . b . c)" = "GROUP_CONCAT(a.b . c)" := by
    decide +kernel
  have call : IsCall function "GROUP_CONCAT(a.b . c)" 0 20 := by decide +kernel
  have read : lexemes (slice "GROUP_CONCAT(a.b . c)" (0 + function.length + 1) 20) =
      [.code 'a', .code '.'] ++ .code 'b' :: ([.code ' ', .code '.', .code ' '] ++ .code 'c' ::
        []) := by decide +kernel
  have tight := all "GROUP_CONCAT(a . b . c)" 0 20
  rw [result] at tight
  have dot := tight call _ _ _ _ _
    ⟨read, by decide, by decide, [.code ' '], [.code ' '], rfl, by decide, by decide⟩
  exact absurd dot (by decide)

end GroupConcat

end LiteSql
