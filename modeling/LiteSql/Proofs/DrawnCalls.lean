import LiteSql.Proofs.DrawnAnswers

/-! Draws in texts in which calls are replaced. Inner calls come first, so a call is answered with
arguments that draw no more than they did, and what stands behind it is read as before. -/

namespace LiteSql

open Mode Trail

def endsInDraw (s : Text) : Bool := (after .code ready s).isDraw

/-- No call of a function stands directly behind the name of a draw. Where answers are written
without parentheses, no argument list ends in such a name, and no word goes on behind a call. -/
structure Composed (strict : Bool) (name s : Text) : Prop where
  apart : ∀ pos close, IsCall name s pos close → endsInDraw (s.take pos) = false
  ended : strict = true → ∀ pos close, IsCall name s pos close →
    endsInDraw (s.take close) = false ∧ (s.drop (close + 1)).head?.any isWordChar = false

namespace Trail

theorem Below.trans {t u v : Trail} (first : Below t u) (second : Below u v) : Below t v := by
  rcases first with rfl | rfl | ⟨rfl, rfl⟩
  · exact second
  · exact .inr (.inl rfl)
  · rcases second with rfl | none | ⟨none, -⟩
    · exact .inr (.inr ⟨rfl, rfl⟩)
    · cases none
    · cases none

theorem after_paren {c : Char} (paren : c = '(' ∨ c = ')') (q : ScanState) (t : Trail) (s : Text) :
    after q t (s ++ [c]) = ready := by
  have step (q : ScanState) (t : Trail) : t.step q c = ready := by
    rw [Trail.step]
    split
    · rcases paren with rfl | rfl <;> exact next_other t (by decide)
    · rfl
  rw [after_append]
  exact step _ _

/-- A name with an argument list: the list is read on its own, and so is what stands behind it. -/
theorem read_list {q : ScanState} {w inside : Text} (opened : q.after (w ++ ['(']) = .code)
    (closed : (scan inside).after [')'] = .code) (t : Trail) (rest : Text) :
    count q t (w ++ '(' :: (inside ++ ')' :: rest)) =
        count q t (w ++ ['(']) + draws inside + count .code ready rest ∧
      after q t (w ++ '(' :: (inside ++ ')' :: rest)) = after .code ready rest := by
  have regroup : w ++ '(' :: (inside ++ ')' :: rest) =
      (w ++ ['(']) ++ (inside ++ ([')'] ++ rest)) := by simp
  have within : ScanState.code.after inside = scan inside := rfl
  have silent : count (scan inside) (after .code ready inside) [')'] = 0 :=
    count_eq_zero (by decide) _ _
  have fresh : after (scan inside) (after .code ready inside) [')'] = ready :=
    after_paren (.inr rfl) _ _ []
  rw [regroup, count_append q t (w ++ ['(']), after_append q t (w ++ ['(']), opened,
    after_paren (.inl rfl), count_append .code ready inside, after_append .code ready inside,
    within, count_append _ _ [')'],
    after_append _ _ [')'], silent, fresh, closed, draws_eq_count]
  exact ⟨by omega, rfl⟩

/-- Whether a reading that has come to `t` keeps behind one that has come to `u`: it is below it, or
no draw is open in it and no word goes on. -/
def Follows (t u : Trail) (rest : Text) : Prop := Below t u ∨ t.isDraw = false ∧
    rest.head?.any isWordChar = false

/-- Whether a text that is read from `t` has no more draws than one that is read from `u`, and
leaves a draw open only where that does. -/
structure DrawsAtMost (q : ScanState) (t u : Trail) (r s : Text) : Prop where
  count_le : count q t r ≤ count q u s
  isDraw_le : (after q t r).isDraw = true → (after q u s).isDraw = true

section

variable {q : ScanState} {t u : Trail} {r s : Text}

theorem Follows.drawsAtMost_nil (follows : Follows t u []) : DrawsAtMost q t u [] [] where
  count_le := le_rfl
  isDraw_le draw := by
    rcases follows with below | ⟨idle, -⟩
    · exact below.isDraw_le draw
    · rw [after, idle] at draw
      cases draw

theorem Follows.step {c : Char} (follows : Follows t u (c :: s)) (q : ScanState) :
    Below (t.step q c) (u.step q c) ∧ (t.completes q c).toNat ≤ (u.completes q c).toNat := by
  rcases follows with below | ⟨idle, stop⟩
  · exact ⟨below.step q c, below.completes q c⟩
  · have other : isWordChar c = false := stop
    have fresh : t.step q c = ready := by
      rw [Trail.step, next_other t other, idle, Bool.and_false]
      split <;> rfl
    rw [fresh, completes_of_not_isDraw idle]
    exact ⟨below_ready_step _ _ other, Nat.zero_le _⟩

theorem Follows.drawsAtMost_cons {c : Char} (follows : Follows t u (c :: s))
    (later : DrawsAtMost (q.step c) (t.step q c) (u.step q c) r s) :
    DrawsAtMost q t u (c :: r) (c :: s) where
  count_le := Nat.add_le_add (follows.step q).2 later.count_le
  isDraw_le := later.isDraw_le

variable {w inner : Text} (opened : q.after (w ++ ['(']) = .code)
  (closed : (scan inner).after [')'] = .code)

include opened closed

theorem drawsAtMost_kept {inside : Text} (within : (scan inside).after [')'] = .code)
    (below : Below t u) (fewer : draws inside ≤ draws inner)
    (later : DrawsAtMost .code ready ready r s) :
    DrawsAtMost q t u (w ++ '(' :: (inside ++ ')' :: r)) (w ++ '(' :: (inner ++ ')' :: s)) where
  count_le := by
    rw [(read_list opened within t r).1, (read_list opened closed u s).1]
    have own := below.count_le q (w ++ ['('])
    have behind := later.count_le
    omega
  isDraw_le := by
    rw [(read_list opened within t r).2, (read_list opened closed u s).2]
    exact later.isDraw_le

theorem drawsAtMost_answered {answer : Text} (code : q.after answer = .code)
    (below : Below t ready) (fewer : count q ready answer ≤ draws inner)
    (later : DrawsAtMost .code (after q t answer) ready r s) :
    DrawsAtMost q t ready (answer ++ r) (w ++ '(' :: (inner ++ ')' :: s)) where
  count_le := by
    rw [count_append, code, (read_list opened closed ready s).1]
    have own := below.count_le q answer
    have behind := later.count_le
    omega
  isDraw_le := by
    rw [after_append, code, (read_list opened closed ready s).2]
    exact later.isDraw_le

end

end Trail

section

variable {strict : Bool} {name s : Text} {pos close : Nat}

/-- What is read up to a call: nothing of a draw, unless its name stands there. -/
theorem IsCall.after_take (call : IsCall name s pos close)
    (opened : (scan (s.take pos)).isOpen = true)
    (idle : endsInDraw (s.take pos) = false) : after .code ready (s.take pos) = ready := by
  have outside : (after .code ready (s.take pos)).inWord = false := by
    rw [inWord_after opened]
    have separate := call.separate
    cases last : (s.take pos).getLast? with
    | none => rfl
    | some c =>
        rw [last, Option.any_some] at separate
        rw [Option.any_some, ← Bool.not_eq_true]
        intro letter
        rw [continuesName_of_isWordChar c letter] at separate
        cases separate
  rw [endsInDraw] at idle
  cases trail : after .code ready (s.take pos) <;> simp_all [Trail.inWord, Trail.isDraw]

theorem after_take_slice {m middle : Mode} (call : IsCall name s pos close)
    (passes : Passes strict name s pos close m middle) {i : Nat}
    (bound : i ≤ close - (pos + name.length + 1)) :
    after .code .ready (s.take (pos + name.length + 1 + i)) =
      after .code .ready ((slice s (pos + name.length + 1) close).take i) := by
  have inner := call.lt_close
  have cut : s.take (pos + name.length + 1 + i) =
      (s.take pos ++ slice s pos (pos + name.length) ++ ['(']) ++
      (slice s (pos + name.length + 1) close).take i := by
    rw [List.append_assoc (s.take pos), ← slice_succ s pos _ _ (Nat.le_add_right _ _) call.opened,
      take_append_slice _ _ _ (by omega), List.take_add, slice, List.take_take,
      Nat.min_eq_left bound]
  have state : ScanState.code.after (s.take pos ++ slice s pos
      (pos + name.length) ++ ['(']) = .code := by
    rw [List.append_assoc, ScanState.after_append]
    have reached := state_of_read passes.opened
    rw [scan_of_read passes.before] at reached
    exact reached.symm
  rw [cut, after_append, after_paren (.inl rfl), state]

theorem Composed.slice (word : ∀ c ∈ name, isWordChar c = true) {m middle : Mode}
    (composed : Composed strict name s)
    (call : IsCall name s pos close) (passes : Passes strict name s pos close m middle) :
    Composed strict name (slice s (pos + name.length + 1) close) := by
  have inner := call.lt_close
  have outer := call.close_lt
  have length : (LiteSql.slice s (pos + name.length + 1) close).length =
      close - (pos + name.length + 1) :=
    length_slice _ _ _ (Nat.le_of_lt outer)
  constructor
  · intro i k within
    have found := (call.isCall_slice_iff word i k).mp within
    rw [endsInDraw, ← after_take_slice call passes (by omega)]
    exact composed.apart _ _ found.2
  · intro signs i k within
    have found := (call.isCall_slice_iff word i k).mp within
    have short := within.close_lt
    obtain ⟨idle, stop⟩ := composed.ended signs _ _ found.2
    rw [endsInDraw, ← after_take_slice call passes (by omega)]
    refine ⟨idle, ?_⟩
    rw [List.head?_drop] at stop ⊢
    rw [LiteSql.slice, List.getElem?_take]
    split
    · rw [List.getElem?_drop]
      exact stop
    · rfl

/-- What is open behind an answer: nothing, unless the answer ends as its last argument does. -/
theorem Composed.follows_answer {m middle : Mode} (composed : Composed strict name s)
    (call : IsCall name s pos close)
    (passes : Passes strict name s pos close m middle) {inside answer : Text}
    (closes : endsInDraw inside = true → endsInDraw
      (LiteSql.slice s (pos + name.length + 1) close) = true)
    {q : ScanState} {t : Trail} (below : Below t .ready)
    (ending : Below (after q .ready answer) .ready ∨ strict = true ∧ ∃ last,
      (splitArguments inside).getLast? = some last ∧ after q .ready answer =
        after .code .ready last) :
    Follows (after q t answer) .ready (s.drop (close + 1)) := by
  rcases ending with ready | ⟨signs, last, found, same⟩
  · exact .inl ((below.after q answer).trans ready)
  · obtain ⟨idle, stop⟩ := composed.ended signs pos close call
    refine .inr ⟨?_, stop⟩
    rw [← Bool.not_eq_true]
    intro draw
    have late := (below.after q answer).isDraw_le draw
    rw [same, (draws_splitArguments inside).2 last found] at late
    have early := closes late
    have inner := call.lt_close
    have stretch : pos + name.length + 1 + (close - (pos + name.length + 1)) = close := by omega
    have whole : (LiteSql.slice s (pos + name.length + 1) close).take
        (close - (pos + name.length + 1)) =
        LiteSql.slice s (pos + name.length + 1) close :=
      List.take_of_length_le (length_slice _ _ _ (Nat.le_of_lt call.close_lt)).le
    rw [endsInDraw, ← whole, ← after_take_slice call passes le_rfl, stretch, ← endsInDraw,
      idle] at early
    cases early

variable (ascii : IsAsciiWord name) {action : List Text → Except Fault (Option Text)}

include ascii

theorem IsCall.below_of_follows (call : IsCall name s pos close) {t u : Trail}
    (follows : Follows t u (s.drop pos)) : Below t u := by
  rcases follows with below | ⟨-, stop⟩
  · exact below
  · obtain ⟨filled, letters⟩ := isWordChar_of_spelled ascii call.spelled_slice
    obtain ⟨c, w, whole⟩ := List.exists_cons_of_ne_nil filled
    rw [call.drop_eq, whole, List.cons_append, List.head?_cons, Option.any_some,
      letters c (by rw [whole]; exact List.mem_cons_self)] at stop
    cases stop

/-- Replacing the rest of a text adds no draw, and leaves a draw open only where the rest does. -/
theorem drawsAtMost_replaceM (settles : Settles strict action) (modest : Modest strict action)
    {s r : Text} (pos : Nat) {m last : Mode} (reads : start.read strict s = some last)
    (calm : Calm strict name s) (composed : Composed strict name s)
    (before : start.read strict (s.take pos) = some m) {t u : Trail}
    (trail : after .code .ready (s.take pos) = u) (follows : Follows t u (s.drop pos))
    (replaced : (callsFrom name s pos).replaceM action = .ok r) :
    DrawsAtMost m.state t u r (s.drop pos) := by
  have word : ∀ c ∈ name, isWordChar c = true := fun c member => (ascii.2 c member).2
  induction s, pos using callsFrom_induction name generalizing m last r t u with
  | done s pos ended =>
      rw [callsFrom_of_length_le pos ended] at replaced
      cases replaced
      rw [List.drop_eq_nil_of_le ended] at follows ⊢
      exact follows.drawsAtMost_nil
  | char s pos bound outside ih =>
      rw [callsFrom_of_not_isCall word pos bound outside] at replaced
      obtain ⟨rest, later, rfl⟩ := Calls.exists_of_replaceM_char replaced
      obtain ⟨next, step, past⟩ := exists_advance bound reads before
      have trail' : after .code .ready (s.take (pos + 1)) = u.step m.state s[pos] := by
        rw [← List.take_append_getElem bound, after_append, trail, scan_of_read before]
        rfl
      rw [List.drop_eq_getElem_cons bound] at follows ⊢
      have behind := ih reads calm composed past trail' (.inl (follows.step m.state).1) later
      rw [(state_of_advance step).1] at behind
      exact follows.drawsAtMost_cons behind
  | call s pos close call inner ih =>
      obtain ⟨middle, passes⟩ := exists_passes_of_read word call reads before
      rw [callsFrom_of_isCall call] at replaced
      obtain ⟨inside, answer, rest, first, second, third, rfl⟩ :=
        Calls.exists_of_replaceM_call replaced
      -- nothing is open at a call, in its argument list or behind it
      obtain rfl : u = .ready := by
        rw [← trail]
        exact call.after_take (by rw [← scan_of_read before]; exact passes.isOpen)
          (composed.apart pos close call)
      have below := call.below_of_follows ascii follows
      have insideRead : start.read strict inside = some middle :=
        read_replaceM word settles 0 passes.inside (calm.slice word call passes) rfl
          ((callsFrom_zero name _).symm ▸ first)
      have within : DrawsAtMost .code .ready .ready inside
          (slice s (pos + name.length + 1) close) :=
        inner passes.inside (calm.slice word call passes) (composed.slice word call passes) rfl rfl
          (.inl (.refl .ready)) ((callsFrom_zero name _).symm ▸ first)
      have fewer : draws inside ≤ draws (slice s (pos + name.length + 1) close) := by
        rw [draws_eq_count, draws_eq_count]
        exact within.count_le
      have trail' : after .code .ready (s.take (close + 1)) = .ready := by
        rw [← List.take_append_getElem call.close_lt, (List.getElem?_eq_some_iff.mp call.paren).2]
        exact after_paren (.inr rfl) _ _ _
      have behind {v : Trail} (follows : Follows v .ready (s.drop (close + 1))) :
          DrawsAtMost .code v .ready rest (s.drop (close + 1)) :=
        ih reads calm composed (passes.past call) trail' follows third
      have opened : m.state.after (slice s pos (pos + name.length) ++ ['(']) = .code :=
        (state_of_read passes.opened).symm
      have ended : middle.state.after [')'] = .code := ((state_of_advance passes.closed).1).symm
      have closed : (scan (slice s (pos + name.length + 1) close)).after [')'] = .code := by
        rwa [← scan_of_read passes.inside]
      rw [call.drop_eq]
      cases answer with
      | some answer =>
          have answerRead := settles.read_answer calm call passes insideRead second
          obtain ⟨bounded, ending⟩ := modest _ answer
            (fun _ member => closes_of_mem_splitArguments insideRead passes.ends member) second
            m.state passes.isOpen fun signs => by rw [calm.eq_start call passes signs]; rfl
          rw [(draws_splitArguments inside).1] at bounded
          exact drawsAtMost_answered opened closed (state_of_read answerRead).symm below
            (bounded.trans fewer)
            (behind (composed.follows_answer call passes within.isDraw_le below ending))
      | none =>
          have kept := drawsAtMost_kept opened closed (by rwa [← scan_of_read insideRead])
            below fewer
            (behind (.inl (.refl .ready)))
          rwa [Option.getD_none, List.append_assoc, List.cons_append, List.append_assoc,
            List.singleton_append]

end

end LiteSql
