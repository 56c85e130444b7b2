import Mathlib.Data.List.Basic
import LiteSql.Proofs.CallPosition

/-! Replacing calls goes through exactly the calls that stand in a text. -/

namespace LiteSql

def callClosedAt? (name s : Text) (close : Nat) : Option (Nat × Nat) :=
  ((List.range close).find? fun pos => IsCall name s pos close).map (·, close)

/-- The calls of a function in a text with their closing positions, in the order in which they are
closed. -/
def callsOf (name s : Text) : List (Nat × Nat) :=
  (List.range s.length).filterMap (callClosedAt? name s)

def argumentsAt (name s : Text) (call : Nat × Nat) : List Text :=
  splitArguments (slice s (call.1 + name.length + 1) call.2)

/-- What takes the place of the character at a position. The first character of an outermost call
gives way to the call's replacement, its other characters to nothing, and every character outside
calls stays. -/
def replacedAt {m : Type → Type} [Monad m] (name : Text) (action : List Text → m (Option Text))
    (s : Text) (pos : Nat) : m Text :=
  if ∃ call ∈ callsOf name s, call.1 < pos ∧ pos ≤ call.2 then pure []
  else match (callsOf name s).find? (·.1 == pos) with
    | none => pure s[pos]?.toList
    | some (_, close) => do
      let inside ← replaceCallsM name action (slice s (pos + name.length + 1) close)
      let replacement ← action (splitArguments inside)
      return replacement.getD (slice s pos (pos + name.length + 1) ++ inside ++ [')'])

theorem render_callsFrom (name s : Text) (pos : Nat) :
    (callsFrom name s pos).render = s.drop pos := by
  rw [callsFrom, Calls.render_ofMarked, map_fst_drop_marked]

theorem replaceM_callsFrom_uncalled {name s : Text} (word : ∀ c ∈ name, isWordChar c = true)
    {m : Type → Type} [Monad m] [LawfulMonad m] (action : List Text → m (Option Text)) (pos : Nat)
    (none : ∀ i, pos ≤ i → ∀ close, ¬ IsCall name s i close) :
    (callsFrom name s pos).replaceM action = pure (s.drop pos) := by
  induction size : s.length - pos generalizing pos with
  | zero =>
      have ended : s.length ≤ pos := Nat.le_of_sub_eq_zero size
      rw [callsFrom_of_length_le pos ended, List.drop_of_length_le ended]
      rfl
  | succ left ih =>
      have bound : pos < s.length := by omega
      rw [callsFrom_of_not_isCall word pos bound (none pos (Nat.le_refl pos)), Calls.replaceM,
        ih (pos + 1) (fun i after => none i (by omega)) (by omega), List.drop_eq_getElem_cons bound]
      simp

theorem replaceCallsM_uncalled {name s : Text} (word : ∀ c ∈ name, isWordChar c = true)
    {m : Type → Type} [Monad m] [LawfulMonad m] (action : List Text → m (Option Text))
    (none : ∀ pos close, ¬ IsCall name s pos close) : replaceCallsM name action s = pure s := by
  rw [replaceCallsM, ← callsFrom_zero, replaceM_callsFrom_uncalled word action 0 fun i _ => none i,
    List.drop_zero]

theorem IsCall.drop_eq {name s : Text} {pos close : Nat} (call : IsCall name s pos close) :
    s.drop pos = slice s pos (pos + name.length) ++
      '(' :: (slice s (pos + name.length + 1) close ++ ')' :: s.drop (close + 1)) := by
  rw [← render_callsFrom name s pos, callsFrom_of_isCall call, Calls.render, Calls.render_ofText,
    render_callsFrom]

theorem range'_cut (start middle stop : Nat) (low : start ≤ middle) (high : middle ≤ stop) :
    List.range' start (stop - start) =
      List.range' start (middle - start) ++ List.range' middle (stop - middle) := by
  have cut := @List.range'_append_1 start (middle - start) (stop - middle)
  rw [Nat.add_sub_cancel' low] at cut
  rw [cut]
  congr 1
  omega

theorem slice_slice (s : Text) (start stop i k : Nat) (inside : start + k ≤ stop) :
    slice (slice s start stop) i k = slice s (start + i) (start + k) := by
  rw [slice, slice, slice, List.drop_take, List.take_take, List.drop_drop]
  congr 1
  omega

theorem take_append_slice (s : Text) (start stop : Nat) (bound : start ≤ stop) :
    s.take start ++ slice s start stop = s.take stop := by
  rw [slice, ← List.take_add, Nat.add_sub_cancel' bound]

theorem slice_succ (s : Text) (start stop : Nat) (c : Char) (bound : start ≤ stop)
    (here : s[stop]? = some c) : slice s start (stop + 1) = slice s start stop ++ [c] := by
  have next : (s.drop start)[stop - start]? = some c := by
    rw [List.getElem?_drop, show start + (stop - start) = stop by omega, here]
  rw [slice, show stop + 1 - start = stop - start + 1 by omega, List.take_add_one, next, slice]
  rfl

section

variable {name s : Text} (word : ∀ c ∈ name, isWordChar c = true)

include word

theorem callClosedAt?_eq_some_iff (close : Nat) (call : Nat × Nat) :
    callClosedAt? name s close = some call ↔ call.2 = close ∧ IsCall name s call.1 close := by
  obtain ⟨pos, stop⟩ := call
  simp only [callClosedAt?, Option.map_eq_some_iff, Prod.mk.injEq]
  constructor
  · rintro ⟨i, found, rfl, rfl⟩
    exact ⟨rfl, by simpa using List.find?_some found⟩
  · rintro ⟨rfl, here⟩
    cases found : (List.range stop).find? fun i => IsCall name s i stop with
    | none =>
        have refused := List.find?_eq_none.mp found pos
          (List.mem_range.mpr (by have bound := here.lt_close; omega))
        exact absurd here (by simpa using refused)
    | some i =>
        have other : IsCall name s i stop := by simpa using List.find?_some found
        exact ⟨i, rfl, other.pos_unique word here, rfl⟩

theorem mem_callsOf_iff (pos close : Nat) : (pos, close) ∈ callsOf name s ↔
    IsCall name s pos close := by
  simp only [callsOf, List.mem_filterMap, List.mem_range, callClosedAt?_eq_some_iff word]
  constructor
  · rintro ⟨k, -, rfl, here⟩
    exact here
  · intro here
    exact ⟨close, here.close_lt, rfl, here⟩

theorem pairwise_callsOf : (callsOf name s).Pairwise fun first second => first.2 < second.2 := by
  rw [callsOf, List.pairwise_filterMap]
  refine List.pairwise_lt_range.imp fun {i j} less first here second there => ?_
  rw [callClosedAt?_eq_some_iff word] at here there
  omega

def Between (name s : Text) (pos : Nat) : Prop :=
  ∀ i k, IsCall name s i k → i < pos → k < pos

omit word in
theorem Between.succ {pos : Nat} (between : Between name s pos)
    (outside : ∀ close, ¬ IsCall name s pos close) : Between name s (pos + 1) := by
  intro i k call less
  rcases Nat.lt_succ_iff_lt_or_eq.mp less with before | rfl
  · exact Nat.lt_succ_of_lt (between i k call before)
  · exact absurd call (outside k)

theorem IsCall.between {pos close : Nat} (call : IsCall name s pos close)
    (between : Between name s pos) : Between name s (close + 1) := by
  intro i k other less
  rcases Nat.lt_trichotomy i pos with before | rfl | after
  · have ended := between i k other before
    have inner := call.lt_close
    omega
  · rw [call.close_unique other]
    exact Nat.lt_succ_self k
  · have nested := call.nested word other after (by omega)
    omega

theorem Between.not_exists_callsOf {pos : Nat} (between : Between name s pos) :
    ¬ ∃ call ∈ callsOf name s, call.1 < pos ∧ pos ≤ call.2 := by
  rintro ⟨⟨i, k⟩, member, after, before⟩
  have ended := between i k ((mem_callsOf_iff word i k).mp member) after
  exact absurd before (Nat.not_le.mpr ended)

theorem find?_callsOf_eq_none {pos : Nat} (outside : ∀ close, ¬ IsCall name s pos close) :
    (callsOf name s).find? (·.1 == pos) = none := by
  rw [List.find?_eq_none]
  rintro ⟨i, k⟩ member same
  obtain rfl : i = pos := by simpa using same
  exact outside k ((mem_callsOf_iff word i k).mp member)

theorem find?_callsOf_eq_some {pos close : Nat} (call : IsCall name s pos close) :
    (callsOf name s).find? (·.1 == pos) = some (pos, close) := by
  have member := (mem_callsOf_iff word pos close).mpr call
  cases found : (callsOf name s).find? (·.1 == pos) with
  | none => exact absurd (List.find?_eq_none.mp found _ member) (by simp)
  | some other =>
      obtain ⟨i, k⟩ := other
      obtain rfl : i = pos := by simpa using List.find?_some found
      have here := (mem_callsOf_iff word i k).mp (List.mem_of_find?_eq_some found)
      rw [here.close_unique call]

theorem callClosedAt?_eq_none {close : Nat} (outside : ∀ pos, ¬ IsCall name s pos close) :
    callClosedAt? name s close = none := by
  rw [Option.eq_none_iff_forall_ne_some]
  intro call found
  exact outside call.1 ((callClosedAt?_eq_some_iff word close call).mp found).2

theorem filterMap_callClosedAt?_name {pos close : Nat} (between : Between name s pos)
    (call : IsCall name s pos close) :
    (List.range' pos (name.length + 1)).filterMap (callClosedAt? name s) = [] := by
  refine List.filterMap_eq_nil_iff.mpr fun k member => callClosedAt?_eq_none word fun i other => ?_
  rw [List.mem_range'_1] at member
  have inner := call.lt_close
  have less := other.lt_close
  rcases Nat.lt_trichotomy i pos with before | rfl | after
  · have ended := between i k other before
    omega
  · have same := call.close_unique other
    omega
  · have nested := call.nested word other after (by omega)
    omega

theorem callClosedAt?_slice {pos close : Nat} (call : IsCall name s pos close) (k : Nat)
    (inside : pos + name.length + 1 + k < close) :
    callClosedAt? name s (pos + name.length + 1 + k) =
      (callClosedAt? name (slice s (pos + name.length + 1) close) k).map fun inner =>
        (pos + name.length + 1 + inner.1, pos + name.length + 1 + inner.2) := by
  apply Option.ext
  rintro ⟨i, stop⟩
  simp only [Option.map_eq_some_iff, callClosedAt?_eq_some_iff word, call.isCall_slice_iff word,
    Prod.mk.injEq]
  constructor
  · rintro ⟨rfl, other⟩
    have after : pos < i := by
      rcases Nat.lt_trichotomy i pos with before | rfl | after
      · have nested := other.nested word call before (by omega)
        omega
      · have same := call.close_unique other
        omega
      · exact after
    have nested := call.nested word other after (by have less := other.lt_close; omega)
    refine ⟨(i - (pos + name.length + 1), k), ⟨rfl, ?_, ?_⟩, ?_, rfl⟩
    · have less := other.lt_close
      omega
    · rwa [show pos + name.length + 1 + (i - (pos + name.length + 1)) = i by omega]
    · omega
  · rintro ⟨⟨j, k⟩, ⟨rfl, -, other⟩, rfl, rfl⟩
    exact ⟨rfl, other⟩

theorem filterMap_callClosedAt?_slice {pos close : Nat} (call : IsCall name s pos close) :
    (List.range' (pos + name.length + 1) (close - (pos + name.length + 1))).filterMap
        (callClosedAt? name s) =
      (callsOf name (slice s (pos + name.length + 1) close)).map fun inner =>
        (pos + name.length + 1 + inner.1, pos + name.length + 1 + inner.2) := by
  rw [callsOf, List.map_filterMap, length_slice _ _ _ (Nat.le_of_lt call.close_lt),
    List.range'_eq_map_range, List.filterMap_map]
  refine List.filterMap_congr fun k member => ?_
  rw [List.mem_range] at member
  exact callClosedAt?_slice word call k (by omega)

/-- The calls closed from the start of a call on are those inside its argument list, the call
itself, and those behind it. -/
theorem filterMap_callClosedAt?_of_isCall {pos close : Nat} (between : Between name s pos)
    (call : IsCall name s pos close) :
    (List.range' pos (s.length - pos)).filterMap (callClosedAt? name s) =
      (callsOf name (slice s (pos + name.length + 1) close)).map (fun inner =>
          (pos + name.length + 1 + inner.1, pos + name.length + 1 + inner.2)) ++
        (pos, close) ::
          (List.range' (close + 1) (s.length - (close + 1))).filterMap (callClosedAt? name s) := by
  have inner := call.lt_close
  have outer := call.close_lt
  have here : callClosedAt? name s close = some (pos, close) :=
    (callClosedAt?_eq_some_iff word close _).mpr ⟨rfl, call⟩
  have split : List.range' pos (s.length - pos) =
      List.range' pos (name.length + 1) ++
        (List.range' (pos + name.length + 1) (close - (pos + name.length + 1)) ++
          close :: List.range' (close + 1) (s.length - (close + 1))) := by
    rw [range'_cut pos (pos + name.length + 1) s.length (by omega) (by omega),
      range'_cut (pos + name.length + 1) close s.length (by omega) (by omega),
      range'_cut close (close + 1) s.length (by omega) (by omega), Nat.add_assoc,
      Nat.add_sub_cancel_left, Nat.add_sub_cancel_left]
    rfl
  rw [split, List.filterMap_append, List.filterMap_append, List.filterMap_cons_some here,
    filterMap_callClosedAt?_name word between call, filterMap_callClosedAt?_slice word call,
    List.nil_append]

theorem map_argumentsAt_slice {pos close : Nat} (call : IsCall name s pos close) :
    ((callsOf name (slice s (pos + name.length + 1) close)).map fun inner =>
        (pos + name.length + 1 + inner.1, pos + name.length + 1 + inner.2)).map
          (argumentsAt name s) =
      (callsOf name (slice s (pos + name.length + 1) close)).map
        (argumentsAt name (slice s (pos + name.length + 1) close)) := by
  rw [List.map_map]
  refine List.map_congr_left fun inner member => ?_
  have other := (mem_callsOf_iff word inner.1 inner.2).mp member
  have bound := other.close_lt
  rw [length_slice _ _ _ (Nat.le_of_lt call.close_lt)] at bound
  simp only [Function.comp_apply, argumentsAt]
  rw [slice_slice _ _ _ _ _ (by omega), Nat.add_assoc, Nat.add_assoc, ← Nat.add_assoc inner.1]

end

section

variable {m : Type → Type} [Monad m] [LawfulMonad m] {name s : Text}
  (action : List Text → m (Option Text))

theorem flatten_mapM_cons {α : Type} (change : α → m Text) (x : α) (l : List α) :
    List.flatten <$> (x :: l).mapM change = (do
      let head ← change x
      let rest ← List.flatten <$> l.mapM change
      return head ++ rest) := by
  simp

theorem flatten_mapM_append {α : Type} (change : α → m Text) (first second : List α) :
    List.flatten <$> (first ++ second).mapM change = (do
      let before ← List.flatten <$> first.mapM change
      let after ← List.flatten <$> second.mapM change
      return before ++ after) := by
  simp [List.mapM_append]

theorem flatten_mapM_nil {α : Type} (change : α → m Text) (l : List α)
    (none : ∀ x ∈ l, change x = pure []) : List.flatten <$> l.mapM change = pure [] := by
  induction l with
  | nil => simp
  | cons x l ih =>
      have rest := ih fun y member => none y (List.mem_cons_of_mem x member)
      rw [flatten_mapM_cons, rest, none x List.mem_cons_self]
      simp

variable (word : ∀ c ∈ name, isWordChar c = true)

include word

omit [LawfulMonad m] in
theorem replacedAt_of_inside {pos i k : Nat} (call : IsCall name s i k) (after : i < pos)
    (before : pos ≤ k) : replacedAt name action s pos = pure [] := by
  rw [replacedAt, if_pos ⟨(i, k), (mem_callsOf_iff word i k).mpr call, after, before⟩]

omit [LawfulMonad m] in
theorem replacedAt_of_not_isCall {pos : Nat} (between : Between name s pos)
    (outside : ∀ close, ¬ IsCall name s pos close) :
    replacedAt name action s pos = pure s[pos]?.toList := by
  rw [replacedAt, if_neg (between.not_exists_callsOf word), find?_callsOf_eq_none word outside]

omit [LawfulMonad m] in
theorem replacedAt_of_isCall {pos close : Nat} (between : Between name s pos)
    (call : IsCall name s pos close) :
    replacedAt name action s pos = (do
      let inside ← replaceCallsM name action (slice s (pos + name.length + 1) close)
      let replacement ← action (splitArguments inside)
      return replacement.getD (slice s pos (pos + name.length + 1) ++ inside ++ [')'])) := by
  rw [replacedAt, if_neg (between.not_exists_callsOf word), find?_callsOf_eq_some word call]

theorem replaceM_callsFrom (pos : Nat) (between : Between name s pos) :
    (callsFrom name s pos).replaceM action =
      List.flatten <$> (List.range' pos (s.length - pos)).mapM (replacedAt name action s) := by
  induction s, pos using callsFrom_induction name with
  | done s pos ended =>
      rw [callsFrom_of_length_le pos ended, Nat.sub_eq_zero_of_le ended]
      simp [Calls.replaceM]
  | char s pos bound outside ih =>
      rw [callsFrom_of_not_isCall word pos bound outside, Calls.replaceM, ih (between.succ outside),
        show s.length - pos = (s.length - (pos + 1)) + 1 by omega, List.range'_succ]
      simp [replacedAt_of_not_isCall action word between outside, bound]
  | call s pos close call _ ih =>
      have inner := call.lt_close
      have outer := call.close_lt
      have covered : List.flatten <$> (List.range' (pos + 1) (close - pos)).mapM
          (replacedAt name action s) = pure [] := by
        refine flatten_mapM_nil _ _ fun i member => ?_
        rw [List.mem_range'_1] at member
        exact replacedAt_of_inside action word call (by omega) (by omega)
      have split : List.range' pos (s.length - pos) =
          pos :: (List.range' (pos + 1) (close - pos) ++
            List.range' (close + 1) (s.length - (close + 1))) := by
        rw [range'_cut pos (close + 1) s.length (by omega) (by omega),
          show close + 1 - pos = close - pos + 1 by omega, List.range'_succ, List.cons_append]
      have front := slice_succ s pos (pos + name.length) _ (by omega) call.opened
      rw [callsFrom_of_isCall call, Calls.replaceM, split, flatten_mapM_cons,
        flatten_mapM_append, covered, ih (call.between word between)]
      simp [replacedAt_of_isCall action word between call, replaceCallsM, front]

/-- A visit that never answers leaves the rest of the text as it is, and is paid to the calls that
are closed there one after another. -/
theorem replaceM_callsFrom_visit (visit : List Text → m Unit) (pos : Nat)
    (between : Between name s pos) :
    (callsFrom name s pos).replaceM (fun arguments => do visit arguments; return none) = (do
      let calls := (List.range' pos (s.length - pos)).filterMap (callClosedAt? name s)
      forM (calls.map (argumentsAt name s)) visit
      return s.drop pos) := by
  induction s, pos using callsFrom_induction name with
  | done s pos ended =>
      rw [callsFrom_of_length_le pos ended, Nat.sub_eq_zero_of_le ended,
        List.drop_of_length_le ended]
      simp [Calls.replaceM]
  | char s pos bound outside ih =>
      have unclosed : callClosedAt? name s pos = none := by
        refine callClosedAt?_eq_none word fun i call => ?_
        have less := call.lt_close
        exact Nat.lt_irrefl pos (between i pos call (by omega))
      rw [callsFrom_of_not_isCall word pos bound outside, Calls.replaceM, ih (between.succ outside),
        show s.length - pos = (s.length - (pos + 1)) + 1 by omega, List.range'_succ,
        List.filterMap_cons_none unclosed, List.drop_eq_getElem_cons bound]
      simp
  | call s pos close call inside ih =>
      have inside := inside fun i k _ less => absurd less (Nat.not_lt_zero i)
      rw [callsFrom_zero, Nat.sub_zero, ← List.range_eq_range', ← callsOf] at inside
      rw [callsFrom_of_isCall call, Calls.replaceM, inside, ih (call.between word between),
        filterMap_callClosedAt?_of_isCall word between call]
      simp only [List.map_append, map_argumentsAt_slice word call, List.map_cons,
        List.forM_append, List.forM_cons, argumentsAt, bind_assoc, pure_bind, List.drop_zero,
        Option.getD_none, List.append_assoc, List.cons_append, List.nil_append, call.drop_eq]

/-- The calls of a function are listed once each in the order of their closings. Replacing them puts
the answer to an outermost call in its place, after its argument list has been treated the same way,
and copies every other character. Where no call is answered the text stays, and the arguments asked
about are those of all calls in that order. -/
theorem replaceCallsM_exact (visit : List Text → m Unit) :
    (∀ pos close, (pos, close) ∈ callsOf name s ↔ IsCall name s pos close) ∧
    (callsOf name s).Pairwise (fun first second => first.2 < second.2) ∧
    replaceCallsM name action s =
      List.flatten <$> (List.range s.length).mapM (replacedAt name action s) ∧
    replaceCallsM name (fun arguments => do visit arguments; return none) s = (do
      forM ((callsOf name s).map (argumentsAt name s)) visit
      return s) := by
  have between : Between name s 0 := fun i k _ less => absurd less (Nat.not_lt_zero i)
  refine ⟨mem_callsOf_iff word, pairwise_callsOf word, ?_, ?_⟩
  · have run := replaceM_callsFrom action word 0 between
    rwa [callsFrom_zero, Nat.sub_zero, ← List.range_eq_range'] at run
  · have run := replaceM_callsFrom_visit word visit 0 between
    rwa [callsFrom_zero, Nat.sub_zero, ← List.range_eq_range'] at run

end

theorem replaceCallsM_exact_nested :
    let s : Text := "if(a, IF(b)) 'IF(c)' xIF(d)"
    let visit (arguments : List Text) : StateM (List (List Text)) Unit := modify (· ++ [arguments])
    let asked : List (List Text) := [["b"], ["a", "IF(b)"]]
    (∀ c ∈ ("IF" : Text), isWordChar c = true) ∧
      (replaceCallsM "IF" (fun arguments => do visit arguments; return none) s).run [] =
        (s, asked) := by
  intro s visit asked
  have word : ∀ c ∈ ("IF" : Text), isWordChar c = true := by decide
  refine ⟨word, ?_⟩
  rw [(replaceCallsM_exact (s := s) (fun _ => pure none) word visit).2.2.2]
  decide +kernel

end LiteSql
