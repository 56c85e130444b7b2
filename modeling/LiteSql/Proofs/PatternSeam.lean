import LiteSql.Proofs.Substitution

/-! Patterns at a seam between two texts. Where a pattern cannot go on from the first text into the
second, it finds in both together what it finds in each. -/

namespace LiteSql

namespace Pattern

/-! ### What is left of a pattern -/

/-- What may be left of a pattern when a character has been taken. Places that are only looked at
count as found. -/
def step (c : Char) : Pattern → List Pattern
  | one p => if p c then [empty] else []
  | many p => if p c then [many p] else []
  | few p => if p c then [few p] else []
  | seq first second =>
    (first.step c).map (seq · second) ++ if first.mayBeEmpty then second.step c else []
  | either first second => first.step c ++ second.step c
  | capture _ inner => inner.step c
  | empty | boundary | atEnd | ahead _ | notAhead _ => []

theorem exists_step {p : Pattern} {before : Option Char} {pos : Nat} {c : Char} {x after : Text}
    {caps : List Capture} (taken : p.Spans before pos (c :: x) after caps) :
    ∃ q ∈ p.step c, ∃ late, q.Spans (some c) (pos + 1) x after late := by
  induction p generalizing before pos x after caps with
  | empty | boundary | atEnd | ahead | notAhead => cases taken.1
  | one p =>
      obtain ⟨⟨d, member, same⟩, -⟩ := taken
      obtain ⟨rfl, rfl⟩ := List.cons.inj same
      exact ⟨.empty, by simp [step, member], [], rfl, rfl⟩
  | many p =>
      obtain ⟨member, others⟩ := List.forall_mem_cons.mp taken.1
      exact ⟨.many p, by simp [step, member], [], others, rfl⟩
  | few p =>
      obtain ⟨member, others⟩ := List.forall_mem_cons.mp taken.1
      exact ⟨.few p, by simp [step, member], [], others, rfl⟩
  | seq first second ihFirst ihSecond =>
      obtain ⟨y, z, early, late, cut, -, front, back⟩ := taken
      cases y with
      | nil =>
          rw [List.nil_append] at cut
          subst cut
          obtain ⟨q, member, others, taken⟩ := ihSecond back
          refine ⟨q, ?_, others, taken⟩
          rw [step, mayBeEmpty_of_spans front]
          exact List.mem_append_right _ member
      | cons d y =>
          obtain ⟨rfl, rfl⟩ := List.cons.inj cut
          obtain ⟨q, member, others, taken⟩ := ihFirst front
          refine ⟨.seq q second, List.mem_append_left _ (List.mem_map_of_mem member),
            late ++ others, y, z, others, late, rfl, rfl, taken, ?_⟩
          rwa [getLast?_cons_or, List.length_cons, Nat.add_comm y.length, ← Nat.add_assoc] at back
  | either first second ihFirst ihSecond =>
      rcases taken with front | back
      · obtain ⟨q, member, found⟩ := ihFirst front
        exact ⟨q, List.mem_append_left _ member, found⟩
      · obtain ⟨q, member, found⟩ := ihSecond back
        exact ⟨q, List.mem_append_right _ member, found⟩
  | capture label inner ih =>
      obtain ⟨early, -, inside⟩ := taken
      exact ih inside

def blocked : List Pattern → Text → Bool
  | [], _ => true
  | _ :: _, [] => false
  | p :: ps, c :: x =>
    let next := (p :: ps).flatMap (step c)
    next.all (fun p => !p.mayBeEmpty) && blocked next x

theorem eq_nil_of_blocked {ps : List Pattern} {x : Text} (none : blocked ps x = true) {p : Pattern}
    (member : p ∈ ps) {y z rest after : Text} (cut : z ++ rest = x ++ y) {before : Option Char}
    {pos : Nat}
    {caps : List Capture} (taken : p.Spans before pos z after caps) : z = [] := by
  obtain ⟨first, more, rfl⟩ := List.exists_cons_of_ne_nil (List.ne_nil_of_mem member)
  induction x generalizing first more p z before pos caps with
  | nil => cases none
  | cons c x ih =>
      rw [blocked, Bool.and_eq_true] at none
      cases z with
      | nil => rfl
      | cons d z =>
          obtain ⟨rfl, others⟩ := List.cons.inj cut
          obtain ⟨q, left, late, later⟩ := exists_step taken
          have next : q ∈ (first :: more).flatMap (step d) := List.mem_flatMap.mpr ⟨p, member, left⟩
          obtain ⟨q₀, qs, cons⟩ := List.exists_cons_of_ne_nil (List.ne_nil_of_mem next)
          obtain rfl := ih others later q₀ qs (cons ▸ none.2) (cons ▸ next)
          have filled := List.all_eq_true.mp none.1 q next
          rw [mayBeEmpty_of_spans later] at filled
          cases filled

/-- What may be left of a pattern when something has been taken. -/
def rests : Pattern → List Pattern
  | one _ => [empty]
  | many p => [many p]
  | few p => [few p]
  | seq first second => first.rests.map (seq · second) ++ second.rests
  | either first second => first.rests ++ second.rests
  | capture _ inner => inner.rests
  | empty | boundary | atEnd | ahead _ | notAhead _ => []

theorem exists_rests {p : Pattern} {before : Option Char} {pos : Nat} {x y after : Text}
    {caps : List Capture}
    (taken : p.Spans before pos (x ++ y) after caps) (present : x ≠ []) :
    ∃ q ∈ p.rests, ∃ late, q.Spans (x.getLast?.or before) (pos + x.length) y after late := by
  induction p generalizing before pos x y after caps with
  | empty | boundary | atEnd | ahead | notAhead =>
      exact absurd (List.append_eq_nil_iff.mp taken.1).1 present
  | one p =>
      obtain ⟨⟨d, -, same⟩, -⟩ := taken
      obtain ⟨c, x, rfl⟩ := List.exists_cons_of_ne_nil present
      obtain ⟨rfl, rfl⟩ := List.append_eq_nil_iff.mp (List.cons.inj same).2
      exact ⟨.empty, List.mem_singleton_self _, [], rfl, rfl⟩
  | many p =>
      exact ⟨.many p, List.mem_singleton_self _, [], (List.forall_mem_append.mp taken.1).2, rfl⟩
  | few p =>
      exact ⟨.few p, List.mem_singleton_self _, [], (List.forall_mem_append.mp taken.1).2, rfl⟩
  | seq first second ihFirst ihSecond =>
      obtain ⟨u, v, early, late, cut, -, one, other⟩ := taken
      rcases List.append_eq_append_iff.mp cut with ⟨middle, rfl, rfl⟩ | ⟨middle, rfl, rfl⟩
      · -- the first pattern has only taken a part of its text, or all of it
        obtain ⟨q, member, others, left⟩ := ihFirst one present
        refine ⟨.seq q second, List.mem_append_left _ (List.mem_map_of_mem member), late ++ others,
          middle, v, others, late, rfl, rfl, left, ?_⟩
        rwa [List.getLast?_append, Option.or_assoc, List.length_append, ← Nat.add_assoc] at other
      · by_cases begun : middle = []
        · subst begun
          rw [List.append_nil] at present ⊢
          rw [List.nil_append] at one other
          obtain ⟨q, member, others, left⟩ := ihFirst (x := u) (y := [])
            (by rwa [List.append_nil]) present
          exact ⟨.seq q second, List.mem_append_left _ (List.mem_map_of_mem member), late ++ others,
            [], y, others, late, rfl, rfl, left, other⟩
        · obtain ⟨q, member, others, left⟩ := ihSecond other begun
          refine ⟨q, List.mem_append_right _ member, others, ?_⟩
          rwa [List.getLast?_append, Option.or_assoc, List.length_append, ← Nat.add_assoc]
  | either first second ihFirst ihSecond =>
      rcases taken with front | back
      · obtain ⟨q, member, found⟩ := ihFirst front present
        exact ⟨q, List.mem_append_left _ member, found⟩
      · obtain ⟨q, member, found⟩ := ihSecond back present
        exact ⟨q, List.mem_append_right _ member, found⟩
  | capture label inner ih =>
      obtain ⟨early, -, inside⟩ := taken
      exact ih inside present

end Pattern

/-! ### The same place in a longer text -/

/-- The same place when a text gets `shift` more characters in front, the last of them `front`, and
`behind` at its end. -/
def Reading.moved (shift : Nat) (front : Option Char) (behind : Text) (r : Reading) : Reading :=
  ⟨r.pos + shift, r.before.or front, r.rest ++ behind,
    r.captures.map fun c => ⟨c.label, c.start + shift, c.stop + shift⟩⟩

def Reading.precedes (behind : Text) (r : Reading) : Bool := behind.length ≤ r.rest.length

theorem Reading.length_rest_of_mem_runs {p : Char → Bool} {captures : List Capture} {pos : Nat}
    {before : Option Char} {rest : Text} {last : Reading}
    (member : last ∈ runs p captures pos before rest) :
    last.rest.length ≤ rest.length := by
  obtain ⟨x, after, cut, -, rfl⟩ := (mem_runs_iff p ⟨pos, before, rest, captures⟩ last).mp member
  have whole := congrArg List.length cut
  rw [List.length_append] at whole
  exact Nat.le.intro ((Nat.add_comm _ _).trans whole.symm)

theorem Reading.runs_moved (p : Char → Bool) (r : Reading) (shift : Nat) (front : Option Char)
    (behind : Text) :
    (runs p (r.moved shift front behind).captures (r.moved shift front behind).pos
      (r.moved shift front behind).before (r.moved shift front behind).rest).filter
        (precedes behind) =
      (runs p r.captures r.pos r.before r.rest).map (moved shift front behind) := by
  obtain ⟨pos, before, rest, captures⟩ := r
  induction rest generalizing pos before with
  | nil =>
      cases behind with
      | nil => rfl
      | cons c behind =>
          simp only [moved, List.nil_append, runs, List.map_cons, List.map_nil]
          rw [List.filter_cons_of_pos (by simp [precedes]), List.filter_eq_nil_iff.mpr]
          intro last member
          split at member
          · have shorter := length_rest_of_mem_runs member
            simpa [precedes] using Nat.lt_succ_of_le shorter
          · cases member
  | cons c rest ih =>
      have next := ih (pos + 1) (some c)
      simp only [moved, List.cons_append, runs, List.map_cons] at next ⊢
      rw [List.filter_cons_of_pos (by simp [precedes]; omega)]
      split
      · rw [Nat.add_right_comm pos 1, Option.some_or] at next
        rw [next]
      · rfl

namespace Pattern

def looksAhead : Pattern → Bool
  | seq first second => first.looksAhead || second.looksAhead
  | either first second => first.looksAhead || second.looksAhead
  | capture _ inner => inner.looksAhead
  | atEnd | ahead _ | notAhead _ => true
  | empty | one _ | many _ | few _ | boundary => false

theorem filter_flatMap_of_filter {α : Type} {keeps : α → Bool} {next : α → List α} {l : List α}
    (lost : ∀ a ∈ l, keeps a = false → (next a).filter keeps = []) :
    (l.flatMap next).filter keeps = (l.filter keeps).flatMap fun a => (next a).filter keeps := by
  induction l with
  | nil => rfl
  | cons a l ih =>
      have later := ih fun b member => lost b (List.mem_cons_of_mem a member)
      rw [List.flatMap_cons, List.filter_append, later]
      cases kept : keeps a with
      | true => rw [List.filter_cons_of_pos kept, List.flatMap_cons]
      | false =>
          rw [List.filter_cons_of_neg (by simp [kept]), lost a List.mem_cons_self kept,
            List.nil_append]

theorem length_rest_of_mem_ends {p : Pattern} {r last : Reading} (member : last ∈ p.ends r) :
    last.rest.length ≤ r.rest.length := by
  obtain ⟨x, after, caps, cut, -, rfl⟩ := (mem_ends_iff p r last).mp member
  rw [cut, List.length_append]
  exact Nat.le_add_left _ _

section

variable {front : Option Char} {behind : Text} (apart : front.any isWordChar = false)

include apart in
theorem atBoundary_moved (r : Reading) (shift : Nat) (ended : behind.head?.any isWordChar = false) :
    (r.moved shift front behind).atBoundary = r.atBoundary := by
  obtain ⟨pos, before, rest, captures⟩ := r
  have left : (before.or front).any isWordChar = before.any isWordChar := by
    cases before with
    | none => exact apart
    | some c => rfl
  have right : (rest ++ behind).head?.any isWordChar = rest.head?.any isWordChar := by
    cases rest with
    | nil => exact ended
    | cons c rest => rfl
  simp only [Reading.moved, Reading.atBoundary, left, right]

include apart in
theorem filter_ends_moved (p : Pattern) (r : Reading) (shift : Nat)
    (seam : behind = [] ∨ p.looksAhead = false ∧ behind.head?.any isWordChar = false) :
    (p.ends (r.moved shift front behind)).filter (Reading.precedes behind) =
      (p.ends r).map (Reading.moved shift front behind) := by
  have here (r : Reading) : Reading.precedes behind (r.moved shift front behind) = true := by
    simp [Reading.precedes, Reading.moved]
  -- a pattern that looks ahead has nothing behind it
  have plain {p : Pattern} (looks : p.looksAhead = true)
      (seam : behind = [] ∨ p.looksAhead = false ∧ behind.head?.any isWordChar = false) :
        behind = [] := by
    rcases seam with none | ⟨other, -⟩
    · exact none
    · rw [looks] at other
      cases other
  have whole (none : behind = []) (l : List Reading) : l.filter (Reading.precedes behind) = l := by
    rw [none, List.filter_eq_self]
    simp [Reading.precedes]
  induction p generalizing r with
  | empty => rw [ends, ends, List.filter_cons_of_pos (here r)]; rfl
  | one p =>
      obtain ⟨pos, before, rest, captures⟩ := r
      cases rest with
      | nil =>
          cases behind with
          | nil => rfl
          | cons c behind =>
              simp only [ends, Reading.moved, List.nil_append, List.map_nil, List.filter_eq_nil_iff]
              intro last member
              split at member
              · rw [List.mem_singleton] at member
                simp [member, Reading.precedes]
              · cases member
      | cons c rest =>
          simp only [ends, Reading.moved, List.cons_append]
          split
          · rw [List.filter_cons_of_pos (by simp [Reading.precedes]), Nat.add_right_comm]
            rfl
          · rfl
  | many p => rw [ends, ends, List.filter_reverse, Reading.runs_moved, List.map_reverse]
  | few p => rw [ends, ends, Reading.runs_moved]
  | seq first second ihFirst ihSecond =>
      rw [looksAhead, Bool.or_eq_false_iff] at seam
      have lost : ∀ last ∈ first.ends (r.moved shift front behind),
          Reading.precedes behind last = false →
          (second.ends last).filter (Reading.precedes behind) = [] := by
        intro last _ past
        rw [List.filter_eq_nil_iff]
        intro later member
        have shorter := length_rest_of_mem_ends member
        simp only [Reading.precedes, decide_eq_false_iff_not, decide_eq_true_eq] at past ⊢
        omega
      rw [ends, ends, filter_flatMap_of_filter lost,
        ihFirst r (seam.imp_right fun both => ⟨both.1.1, both.2⟩), List.flatMap_map,
        List.map_flatMap]
      congr
      funext last
      exact ihSecond last (seam.imp_right fun both => ⟨both.1.2, both.2⟩)
  | either first second ihFirst ihSecond =>
      rw [looksAhead, Bool.or_eq_false_iff] at seam
      rw [ends, ends, List.filter_append, List.map_append,
        ihFirst r (seam.imp_right fun both => ⟨both.1.1, both.2⟩),
        ihSecond r (seam.imp_right fun both => ⟨both.1.2, both.2⟩)]
  | capture label inner ih =>
      have inside := ih r seam
      rw [ends, ends, List.filter_map, List.map_map]
      exact (congrArg (List.map _) inside).trans (List.map_map ..)
  | boundary =>
      have ended : behind.head?.any isWordChar = false :=
        seam.elim (fun none => none ▸ rfl) And.right
      rw [ends, ends, atBoundary_moved apart r shift ended]
      split
      · rw [List.filter_cons_of_pos (here r)]
        rfl
      · rfl
  | atEnd =>
      have none := plain rfl seam
      have same : (r.moved shift front behind).atEnd = r.atEnd := by
        simp only [Reading.moved, none, List.append_nil, Reading.atEnd]
      rw [ends, ends, same, whole none]
      split <;> rfl
  | ahead inner ih =>
      have none := plain rfl seam
      have inside := ih r (.inl none)
      rw [whole none] at inside
      rw [ends, ends, inside, List.isEmpty_map, whole none]
      split <;> rfl
  | notAhead inner ih =>
      have none := plain rfl seam
      have inside := ih r (.inl none)
      rw [whole none] at inside
      rw [ends, ends, inside, List.isEmpty_map, whole none]
      split <;> rfl

end

theorem bounds_of_spans {p : Pattern} {before : Option Char} {pos : Nat} {x after : Text}
    {caps : List Capture}
    (taken : p.Spans before pos x after caps) :
    ∀ c ∈ caps, pos ≤ c.start ∧ c.start ≤ c.stop ∧ c.stop ≤ pos + x.length := by
  induction p generalizing before pos x after caps with
  | empty | one | many | few =>
      rw [taken.2]
      exact List.forall_mem_nil _
  | boundary | atEnd | ahead | notAhead =>
      rw [taken.2.1]
      exact List.forall_mem_nil _
  | seq first second ihFirst ihSecond =>
      obtain ⟨y, z, early, late, rfl, rfl, front, back⟩ := taken
      intro c member
      rw [List.length_append]
      rcases List.mem_append.mp member with behind | before
      · have bounds := ihSecond back c behind
        omega
      · have bounds := ihFirst front c before
        omega
  | either first second ihFirst ihSecond => exact taken.elim ihFirst ihSecond
  | capture label inner ih =>
      obtain ⟨early, rfl, inside⟩ := taken
      refine List.forall_mem_cons.mpr ⟨⟨Nat.le_refl _, Nat.le_add_right _ _, Nat.le_refl _⟩,
        ih inside⟩

end Pattern

/-- The same match when the text gets `shift` more characters in front. -/
def Match.moved (shift : Nat) (m : Match) : Match := { m with start := m.start + shift }

def Piece.moved (shift : Nat) : Piece → Piece
  | plain c => .plain c
  | hit m => .hit (m.moved shift)

namespace Pattern

variable {p : Pattern} {front : Option Char} {behind : Text}

theorem between_moved {r last : Reading} (fresh : r.captures = []) (member : last ∈ p.ends r)
    (shift : Nat) :
    Match.between (r.moved shift front behind) (last.moved shift front behind) =
      (Match.between r last).moved shift := by
  obtain ⟨x, after, caps, cut, taken, rfl⟩ := (mem_ends_iff p r last).mp member
  have bounds := bounds_of_spans taken
  have text : (r.rest ++ behind).take (r.pos + x.length + shift - (r.pos + shift)) =
      r.rest.take (r.pos + x.length - r.pos) := by
    rw [Nat.add_sub_add_right, Nat.add_sub_cancel_left, List.take_append_of_le_length]
    rw [cut, List.length_append]
    exact Nat.le_add_right _ _
  have captured : ∀ c ∈ caps,
      ((r.rest ++ behind).drop (c.start + shift - (r.pos + shift))).take
      (c.stop + shift - (c.start + shift)) =
        (r.rest.drop (c.start - r.pos)).take (c.stop - c.start) := by
    intro c inside
    have bound := bounds c inside
    have length := congrArg List.length cut
    rw [List.length_append] at length
    rw [Nat.add_sub_add_right, Nat.add_sub_add_right, List.drop_append_of_le_length (by omega),
      List.take_append_of_le_length (by rw [List.length_drop]; omega)]
  simp only [Match.between, Match.moved, Reading.moved, Reading.past, fresh, List.append_nil, text,
    List.map_map]
  congr 1
  exact List.map_congr_left fun c inside => congrArg (c.label, ·) (captured c inside)

theorem matchAt?_moved (apart : front.any isWordChar = false) {r : Reading}
    (fresh : r.captures = [])
    (shift : Nat) (seam : behind = [] ∨ p.looksAhead = false ∧ behind.head?.any isWordChar = false)
    (stops : ∀ last ∈ p.ends (r.moved shift front behind), Reading.precedes behind last = true) :
    p.matchAt? (r.moved shift front behind) = (p.matchAt? r).map (Match.moved shift) := by
  have same := filter_ends_moved apart p r shift seam
  rw [List.filter_eq_self.mpr stops] at same
  rw [matchAt?, matchAt?, first?_some, first?_some, same, List.head?_map, Option.map_map,
    Option.map_map]
  cases found : (p.ends r).head? with
  | none => rfl
  | some last => exact congrArg some (between_moved fresh (List.mem_of_head? found) shift)

theorem piecesAfter_moved (apart : front.any isWordChar = false) (covered pos shift : Nat)
    (before : Option Char) (s : Text) :
    p.piecesAfter covered (pos + shift) (before.or front) s =
      (p.piecesAfter covered pos before s).map (Piece.moved shift) := by
  induction s generalizing covered pos before with
  | nil => cases covered <;> rfl
  | cons c s ih =>
      have next (covered : Nat) := ih covered (pos + 1) (some c)
      simp only [Nat.add_right_comm pos 1, Option.some_or] at next
      cases covered with
      | succ covered => rw [piecesAfter, piecesAfter, next]
      | zero =>
          have found := matchAt?_moved (p := p) apart (r := ⟨pos, before, c :: s, []⟩) rfl shift
            (.inl rfl)
            (by simp [Reading.precedes])
          simp only [Reading.moved, List.append_nil, List.map_nil] at found
          have kept : ((p.matchAt? ⟨pos, before, c :: s, []⟩).map (Match.moved shift)).filter
              (!·.text.isEmpty) =
              ((p.matchAt? ⟨pos, before, c :: s, []⟩).filter (!·.text.isEmpty)).map
              (Match.moved shift) :=
            Option.filter_map ..
          rw [piecesAfter, piecesAfter, found, kept]
          cases (p.matchAt? ⟨pos, before, c :: s, []⟩).filter (!·.text.isEmpty) with
          | none => exact congrArg (.plain c :: ·) (next 0)
          | some m => exact congrArg (.hit (m.moved shift) :: ·) (next (m.text.length - 1))

/-! ### Both sides of a seam -/

/-- Whether the matches that start in `x` are the same with `y` behind it. -/
def Local (p : Pattern) (before : Option Char) (pos : Nat) (x y : Text) : Prop :=
  ∀ w z, x = w ++ z → z ≠ [] →
    (p.matchAt? ⟨pos + w.length, w.getLast?.or before, z ++ y, []⟩).filter (!·.text.isEmpty) =
      (p.matchAt? ⟨pos + w.length, w.getLast?.or before, z, []⟩).filter (!·.text.isEmpty)

theorem Local.piecesAfter_append {before : Option Char} {pos covered : Nat} {x y : Text}
    (same : p.Local before pos x y) (bound : covered ≤ x.length) :
    p.piecesAfter covered pos before (x ++ y) = p.piecesAfter covered pos before x ++
      p.piecesAfter 0 (pos + x.length) (x.getLast?.or before) y := by
  induction x generalizing covered pos before with
  | nil =>
      obtain rfl : covered = 0 := Nat.le_zero.mp bound
      rfl
  | cons c x ih =>
      have later : p.Local (some c) (pos + 1) x y := by
        intro w z cut present
        have here := same (c :: w) z (by rw [cut, List.cons_append]) present
        rwa [getLast?_cons_or, List.length_cons, Nat.add_comm w.length, ← Nat.add_assoc] at here
      have next {covered : Nat} (bound : covered ≤ x.length) := ih later bound
      rw [Nat.add_assoc, Nat.add_comm 1, ← getLast?_cons_or c x before] at next
      cases covered with
      | succ covered =>
          rw [List.cons_append, piecesAfter, piecesAfter, next (Nat.le_of_succ_le_succ bound)]
          rfl
      | zero =>
          have here : (p.matchAt? ⟨pos, before, c :: (x ++ y), []⟩).filter (!·.text.isEmpty) =
              (p.matchAt? ⟨pos, before, c :: x, []⟩).filter (!·.text.isEmpty) :=
                same [] (c :: x) rfl (by simp)
          rw [List.cons_append, piecesAfter, piecesAfter, here]
          cases found : (p.matchAt? ⟨pos, before, c :: x, []⟩).filter (!·.text.isEmpty) with
          | none => exact congrArg (.plain c :: ·) (next (Nat.zero_le _))
          | some m =>
              obtain ⟨after, -, text, -, -⟩ := takes_of_matchAt?
                (Option.filter_eq_some_iff.mp found).1 rfl
              have length := congrArg List.length text
              rw [List.length_cons, List.length_append] at length
              have shorter : m.text.length - 1 ≤ x.length := by omega
              exact congrArg (.hit m :: ·) (next shorter)

/-- What a match is replaced by does not depend on where it stands. -/
def Placeless (replacement : Match → Text) : Prop :=
  ∀ m shift, replacement (m.moved shift) = replacement m

theorem flatMap_replaced_moved {replacement : Match → Text} (placeless : Placeless replacement)
    (shift : Nat)
    (pieces : List Piece) :
    (pieces.map (Piece.moved shift)).flatMap (replaced replacement) =
      pieces.flatMap (replaced replacement) := by
  rw [List.flatMap_map]
  congr
  funext piece
  cases piece with
  | plain c => rfl
  | hit m => exact placeless m shift

theorem piecesAfter_of_refuses {c : Char} (refused : p.refuses c = true) (pos : Nat)
    (before : Option Char)
    (s : Text) : p.piecesAfter 0 pos before (c :: s) = .plain c :: p.piecesAfter 0 (pos + 1)
    (some c) s := by
  rw [piecesAfter]
  cases found : (p.matchAt? ⟨pos, before, c :: s, []⟩).filter (!·.text.isEmpty) with
  | none => rfl
  | some m =>
      obtain ⟨found, filled⟩ := Option.filter_eq_some_iff.mp found
      obtain ⟨after, caps, text, -, taken⟩ := takes_of_matchAt? found rfl
      obtain ⟨d, x, content⟩ := List.exists_cons_of_ne_nil (show m.text ≠ [] by simpa using filled)
      have other := head?_ne_of_spans refused taken.spans
      rw [content] at text other
      rw [List.head?_cons, (List.cons.inj text).1] at other
      exact absurd rfl other

theorem pieces_append {x y : Text} (same : p.Local none 0 x y)
    (fresh : x.getLast?.any isWordChar = false ∨ y.head?.all (fun c => p.refuses c) = true) :
    p.pieces (x ++ y) = p.pieces x ++ (p.pieces y).map (Piece.moved x.length) := by
  rw [pieces, same.piecesAfter_append (Nat.zero_le _)]
  congr 1
  rcases fresh with apart | refused
  · rw [Option.or_none, ← Option.none_or (o := x.getLast?), piecesAfter_moved apart]
    rfl
  · cases y with
    | nil => rfl
    | cons c y =>
        have next : p.piecesAfter 0 (1 + x.length) (some c) y =
            (p.piecesAfter 0 1 (some c) y).map (Piece.moved x.length) :=
          piecesAfter_moved (show (none : Option Char).any isWordChar = false from rfl) 0 1 x.length
            (some c) y
        rw [pieces, piecesAfter_of_refuses refused, piecesAfter_of_refuses refused, List.map_cons,
          Nat.zero_add, Nat.add_comm x.length, next]
        rfl

theorem replace_append {replacement : Match → Text} (placeless : Placeless replacement) {x y : Text}
    (same : p.Local none 0 x y)
    (fresh : x.getLast?.any isWordChar = false ∨ y.head?.all (fun c => p.refuses c) = true) :
    p.replace replacement (x ++ y) = p.replace replacement x ++ p.replace replacement y := by
  rw [replace_eq, replace_eq, replace_eq, pieces_append same fresh, List.flatMap_append,
    flatMap_replaced_moved placeless]

theorem filter_matchAt?_eq_none {r : Reading} (fresh : r.captures = [])
    (empty : ∀ x after caps, r.rest = x ++ after → p.Spans r.before r.pos x after caps → x = []) :
    (p.matchAt? r).filter (!·.text.isEmpty) = none := by
  rw [Option.filter_eq_none_iff]
  intro m found
  obtain ⟨after, caps, text, place, taken⟩ := takes_of_matchAt? found fresh
  have nothing := empty m.text after caps text (place ▸ taken.spans)
  simp [nothing]

theorem local_of_spans_eq_nil {before : Option Char} {pos : Nat} {x y : Text}
    (empty : ∀ w z, x = w ++ z → z ≠ [] → ∀ u after caps, z ++ y = u ++ after ∨ z = u ++ after →
      p.Spans (w.getLast?.or before) (pos + w.length) u after caps → u = []) :
        p.Local before pos x y := by
  intro w z cut present
  rw [filter_matchAt?_eq_none rfl fun u after caps here =>
    empty w z cut present u after caps (.inl here),
    filter_matchAt?_eq_none rfl fun u after caps here =>
      empty w z cut present u after caps (.inr here)]

theorem local_of_spans_stop {before : Option Char} {pos : Nat} {x y : Text}
    (plain : p.looksAhead = false)
    (ended : y.head?.any isWordChar = false)
    (stops : ∀ w z, x = w ++ z → z ≠ [] → ∀ u after caps, y = u ++ after →
      p.Spans (w.getLast?.or before) (pos + w.length) (z ++ u) after caps → u = []) :
        p.Local before pos x y := by
  intro w z cut present
  let r : Reading := ⟨pos + w.length, w.getLast?.or before, z, []⟩
  have place : r.moved 0 none y = ⟨pos + w.length, w.getLast?.or before, z ++ y, []⟩ := by
    simp [Reading.moved, r]
  have here : ∀ last ∈ p.ends (r.moved 0 none y), Reading.precedes y last = true := by
    intro last member
    rw [place] at member
    obtain ⟨u, after, caps, whole, taken, rfl⟩ := (mem_ends_iff p _ last).mp member
    rw [Reading.precedes, decide_eq_true_eq]
    rcases List.append_eq_append_iff.mp whole with ⟨v, rfl, rfl⟩ | ⟨v, rfl, rfl⟩
    · obtain rfl := stops w z cut present v after caps rfl taken
      exact Nat.le_refl _
    · simp [Reading.past]
  have same := matchAt?_moved rfl rfl 0 (.inr ⟨plain, ended⟩) here
  have still : Match.moved 0 = id := rfl
  rw [place, still, Option.map_id] at same
  rw [same]
  rfl

end Pattern

/-! ### Code segments at a seam -/

namespace Segment

variable {change : Text → Text} (none : change [] = [])

include none

theorem flatMap_mapCode_apart (x : Text) {segs : List Segment}
    (apart : ∀ y rest, segs ≠ .code y :: rest) :
    ((x.map Lexeme.code).foldr cons segs).flatMap (mapCode change) =
      change x ++ segs.flatMap (mapCode change) := by
  by_cases present : x = []
  · rw [present, none]
    rfl
  · rw [foldr_cons_apart present apart]
    rfl

theorem Spell.flatMap_mapCode_append {segs more : List Segment} {ls ms : List Lexeme}
    (spell : Spell segs ls)
    (later : Spell more ms)
    (seam : ∀ front x y behind, ls = front ++ x.map .code → ms = y.map .code ++ behind →
      (∀ c rest, behind ≠ .code c :: rest) → .code x ∈ segs → .code y ∈ more →
      change (x ++ y) = change x ++ change y) :
    (ls.foldr Segment.cons more).flatMap (mapCode change) =
      segs.flatMap (mapCode change) ++ more.flatMap (mapCode change) := by
  induction spell with
  | nil => rfl
  | @literal kind text segs ls _ ih =>
      have behind := ih fun front x y behind cut others ended member =>
        seam (.literal kind text :: front) x y behind (congrArg _ cut) others ended
          (List.mem_cons_of_mem _ member)
      exact (congrArg (text ++ ·) behind).trans (List.append_assoc ..).symm
  | @code x segs ls apart rest ih =>
      have behind := ih fun front z y behind cut others ended member =>
        seam (x.map .code ++ front) z y behind (by rw [cut, List.append_assoc]) others ended
          (List.mem_cons_of_mem _ member)
      rw [List.foldr_append, List.flatMap_cons]
      cases rest with
      | literal kind text rest =>
          rw [List.append_assoc, ← behind]
          exact flatMap_mapCode_apart none x nofun
      | code y others rest => exact absurd rfl (apart y _)
      | nil =>
          -- the last run of code may go on behind the seam
          rw [List.foldr_nil, List.flatMap_nil, List.append_nil]
          cases later with
          | nil => exact flatMap_mapCode_apart none x nofun
          | literal kind text later => exact flatMap_mapCode_apart none x nofun
          | @code y more ms others later =>
              have ended : ∀ c rest, ms ≠ .code c :: rest := by
                cases later with
                | nil => exact nofun
                | literal kind text later => exact nofun
                | code z _ _ => exact absurd rfl (others z _)
              have joined := seam [] x y ms (List.append_nil _) rfl ended List.mem_cons_self
                List.mem_cons_self
              rw [foldr_cons_code, List.flatMap_cons, mapCode, joined, List.append_assoc]
              rfl

end Segment

/-- Changing the code of two texts is changing it in each of them, if that is so for the code that
meets at the seam. -/
theorem mapCode_append {change : Text → Text} (none : change [] = []) {u v : Text}
    (read : lexemes (u ++ v) = lexemes u ++ lexemes v)
    (seam : ∀ front x y behind, lexemes u = front ++ x.map .code →
      lexemes v = y.map .code ++ behind →
      (∀ c rest, behind ≠ .code c :: rest) → x ∈ codeSegments u → y ∈ codeSegments v →
      change (x ++ y) = change x ++ change y) :
    mapCode change (u ++ v) = mapCode change u ++ mapCode change v := by
  have listed {x s : Text} (member : Segment.code x ∈ segments s) : x ∈ codeSegments s :=
    List.mem_filterMap.mpr ⟨.code x, member, rfl⟩
  have whole : segments (u ++ v) = (lexemes u).foldr Segment.cons (segments v) := by
    rw [segments, read, List.foldr_append, segments]
  rw [mapCode, whole, mapCode, mapCode]
  exact (spell_segments u).flatMap_mapCode_append none (spell_segments v)
    fun front x y behind cut others ended here there =>
      seam front x y behind cut others ended (listed here) (listed there)

end LiteSql
