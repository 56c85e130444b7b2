import LiteSql.Proofs.PatternSpan

/-! The text that a pattern takes first. A search ends there if what follows in the search succeeds
there, so the preferred match of a pattern is put together from those of its parts. -/

namespace LiteSql

/-- A search for the longest run stops at a run with an answer behind it, if there is none behind a
longer one. -/
theorem Reading.firstOfMany_of_longest {q : Char → Bool} {captures : List Capture}
    {next : Reading → Option Reading}
    {x rest : Text} {pos : Nat} {before : Option Char} {stop : Reading}
    (members : ∀ c ∈ x, q c = true)
    (found : next ⟨pos + x.length, x.getLast?.or before, rest, captures⟩ = some stop)
    (longest : ∀ y more, y ≠ [] → (∀ c ∈ y, q c = true) → rest = y ++ more →
      next ⟨pos + (x ++ y).length, (x ++ y).getLast?.or before, more, captures⟩ = none) :
    firstOfMany q captures next pos before (x ++ rest) = some stop := by
  induction x generalizing pos before with
  | nil =>
      cases rest with
      | nil => exact found
      | cons d rest =>
          rw [List.nil_append, firstOfMany]
          split
          · next member =>
            have none : firstOfMany q captures next (pos + 1) (some d) rest = none := by
              rw [firstOfMany_eq, List.findSome?_eq_none_iff]
              intro last among
              obtain ⟨y, more, cut, others, rfl⟩ :=
                (mem_runs_iff q ⟨pos + 1, some d, rest, captures⟩ last).mp
                (List.mem_reverse.mp among)
              have missed := longest (d :: y) more (List.cons_ne_nil d y)
                (List.forall_mem_cons.mpr ⟨member, others⟩)
                (congrArg (d :: ·) cut)
              rw [List.nil_append, Pattern.getLast?_cons_or, List.length_cons,
                Nat.add_comm y.length, ← Nat.add_assoc]
                at missed
              exact missed
            rw [none]
            exact found
          · exact found
  | cons c x ih =>
      obtain ⟨member, others⟩ := List.forall_mem_cons.mp members
      have shift (y : Text) : pos + (c :: y).length = pos + 1 + y.length := by
        rw [List.length_cons, Nat.add_comm y.length, Nat.add_assoc]
      rw [Pattern.getLast?_cons_or, shift] at found
      simp only [List.cons_append, Pattern.getLast?_cons_or, shift] at longest
      rw [List.cons_append, firstOfMany, if_pos member, ih others found longest]
      rfl

namespace Pattern

/-- Reading a pattern, the place behind `x` is the first that is tried, with `caps` captured on the
way. -/
def Prefers (p : Pattern) (before : Option Char) (pos : Nat) (x after : Text)
    (caps : List Capture) : Prop :=
  ∀ (r : Reading) (next : Reading → Option Reading) (stop : Reading), r.before = before →
    r.pos = pos →
    r.rest = x ++ after → next (r.past x after caps) = some stop → p.first? next r = some stop

namespace Prefers

variable {p first second : Pattern} {before : Option Char} {pos : Nat} {x y after : Text}
  {caps early late : List Capture}

theorem matchAt? (prefers : p.Prefers before pos x after caps) :
    p.matchAt? ⟨pos, before, x ++ after, []⟩ = some {
      start := pos
      text := x
      captures := caps.map fun c =>
        (c.label, ((x ++ after).drop (c.start - pos)).take (c.stop - c.start)) } := by
  rw [Pattern.matchAt?, prefers ⟨pos, before, x ++ after, []⟩ some _ rfl rfl rfl rfl,
    Option.map_some]
  simp [Match.between, Reading.past]

theorem empty : Pattern.empty.Prefers before pos [] after [] := by
  intro r next stop _ _ rest found
  rw [List.nil_append] at rest
  rwa [← rest, Reading.past_nil] at found

theorem seq (one : first.Prefers before pos x (y ++ after) early)
    (other : second.Prefers (x.getLast?.or before) (pos + x.length) y after late) :
    (seq first second).Prefers before pos (x ++ y) after (late ++ early) := by
  intro r next stop same place rest found
  rw [first?]
  refine one r _ stop same place (by rw [rest, List.append_assoc]) ?_
  refine other _ next stop ?_ ?_ rfl ?_
  · rw [Reading.past, same]
  · rw [Reading.past, place]
  · rwa [Reading.past_past]

theorem one {q : Char → Bool} {c : Char} (member : q c = true) :
    (one q).Prefers before pos [c] after [] := by
  intro r next stop _ _ rest found
  rw [first?, rest]
  simpa [member, Reading.past] using found

theorem many_seq {q : Char → Bool} (members : ∀ c ∈ x, q c = true)
    (other : second.Prefers (x.getLast?.or before) (pos + x.length) y after late)
    (longest : ∀ z rest, z ≠ [] → (∀ c ∈ z, q c = true) → y ++ after = z ++ rest → ¬ ∃ u v caps,
      rest = u ++ v ∧
      second.Spans ((x ++ z).getLast?.or before) (pos + (x ++ z).length) u v caps) :
    (Pattern.seq (.many q) second).Prefers before pos (x ++ y) after late := by
  intro r next stop same place rest found
  obtain ⟨spot, last, text, captures⟩ := r
  subst same place rest
  rw [first?, first?, List.append_assoc]
  apply Reading.firstOfMany_of_longest members
  · refine other _ next stop rfl rfl rfl ?_
    rw [← found]
    simp [Reading.past, List.getLast?_append, Option.or_assoc, Nat.add_assoc]
  · intro z more present others cut
    have missed := longest z more present others cut
    rw [first?_eq_findSome?, List.findSome?_eq_none_iff]
    intro reached member
    obtain ⟨u, v, caps, whole, taken, -⟩ := (mem_ends_iff second _ _).mp member
    exact absurd ⟨u, v, caps, whole, taken⟩ missed

theorem many {q : Char → Bool} (members : ∀ c ∈ x, q c = true) (ended : after.head?.any q = false) :
    (many q).Prefers before pos x after [] := by
  intro r next stop same spot rest found
  obtain ⟨place, last, rest, captures⟩ := r
  subst rest
  rw [first?]
  apply Reading.firstOfMany_of_longest members found
  intro y more present others cut
  obtain ⟨c, y, rfl⟩ := List.exists_cons_of_ne_nil present
  rw [cut] at ended
  have member := others c List.mem_cons_self
  rw [List.cons_append, List.head?_cons, Option.any_some, member] at ended
  cases ended

theorem ahead {rest : Text} {more : List Capture} (seen : p.Spans before pos y rest more)
    (cut : after = y ++ rest) :
    (ahead p).Prefers before pos [] after [] := by
  intro r next stop same place whole found
  rw [List.nil_append] at whole
  have some : (p.first? some r).isSome = true := by
    rw [first?_some, List.isSome_head?]
    rw [← same, ← place] at seen
    exact (ends_ne_nil_iff p r (mem_ends_iff p r)).mpr ⟨y, rest, more, whole.trans cut, seen⟩
  rw [first?, if_pos some, ← found, ← whole, Reading.past_nil]

theorem someOf {q : Char → Bool} (present : x ≠ []) (members : ∀ c ∈ x, q c = true)
    (ended : after.head?.any q = false) : (someOf q).Prefers before pos x after [] := by
  obtain ⟨c, x, rfl⟩ := List.exists_cons_of_ne_nil present
  obtain ⟨member, others⟩ := List.forall_mem_cons.mp members
  exact (one member).seq (many others ended)

theorem keyword {k : Text} (starts : startsIgnoringCase k x = true) (length : x.length = k.length) :
    (keyword k).Prefers before pos x after [] := by
  fun_induction Pattern.keyword k generalizing before pos x with
  | case1 =>
      obtain rfl := List.length_eq_zero_iff.mp length
      exact empty
  | case2 c =>
      obtain ⟨d, rfl⟩ := List.length_eq_one_iff.mp length
      exact one (by simpa [startsIgnoringCase] using starts)
  | case3 c k _ ih =>
      cases x with
      | nil => simp at length
      | cons d x =>
          simp only [startsIgnoringCase, Bool.and_eq_true] at starts
          exact (one starts.1).seq (ih starts.2 (by simpa using length))

theorem capture {label : String} (inner : p.Prefers before pos x after caps) :
    (capture label p).Prefers before pos x after (⟨label, pos, pos + x.length⟩ :: caps) := by
  intro r next stop same place rest found
  rw [first?]
  refine inner r _ stop same place rest ?_
  rw [← found, ← place]
  rfl

theorem left (one : first.Prefers before pos x after caps) :
    (either first second).Prefers before pos x after caps := by
  intro r next stop same place rest found
  rw [first?, one r next stop same place rest found]
  rfl

theorem right (other : second.Prefers before pos x after caps)
    (none : ¬ ∃ y rest early, x ++ after = y ++ rest ∧ first.Spans before pos y rest early) :
    (either first second).Prefers before pos x after caps := by
  intro r next stop same place rest found
  have missed : first.first? next r = .none := by
    rw [← same, ← place, ← rest, ← ends_ne_nil_iff first r (mem_ends_iff first r)] at none
    rw [first?_eq_findSome?, Decidable.not_not.mp none]
    rfl
  rw [first?, missed, other r next stop same place rest found]
  rfl

end Prefers

end Pattern

end LiteSql
