import LiteSql.Proofs.Preference
import LiteSql.Proofs.TemplateCall
import LiteSql.Proofs.WholeWord

/-! Substrings written with FROM and FOR. The two words are looked for in the text of the argument
as it stands, so the clause is cut where they first stand between blanks, be that in code or in a
literal. -/

namespace LiteSql

namespace Substring

/-! ### Words between blanks -/

def behind? (k s : Text) : Option Text :=
  let named := s.dropWhile isBlank
  let rest := named.drop k.length
  if s.head?.any isBlank && startsIgnoringCase k named && rest.head?.any isBlank then
    some (rest.dropWhile isBlank)
  else none

def cutAt? (k : Text) : Text → Option (Text × Text)
  | [] => none
  | c :: s =>
    ((behind? k (c :: s)).map fun rest => ([], rest)).or
      ((cutAt? k s).map fun cut => (c :: cut.1, cut.2))

structure Spaced (k before w after : Text) : Prop where
  first : before ≠ []
  leading : ∀ c ∈ before, isBlank c = true
  named : spelled k w = true
  last : after ≠ []
  trailing : ∀ c ∈ after, isBlank c = true

theorem head?_dropWhile_isBlank (s : Text) : (s.dropWhile isBlank).head?.any isBlank = false := by
  have stopped := List.head?_dropWhile_not isBlank s
  cases rest : s.dropWhile isBlank with
  | nil => rfl
  | cons c t => simpa [rest] using stopped

section

variable {k : Text} (ascii : IsAsciiWord k)

include ascii

theorem Spaced.head?_word {before w after : Text} (spaced : Spaced k before w after) (rest : Text) :
    (w ++ rest).head?.any isBlank = false := by
  obtain ⟨present, letters⟩ := isWordChar_of_spelled ascii spaced.named
  obtain ⟨c, w, rfl⟩ := List.exists_cons_of_ne_nil present
  rw [List.cons_append, List.head?_cons, Option.any_some, ← Bool.not_eq_true]
  intro blank
  have letter := letters c List.mem_cons_self
  rw [isWordChar_of_isBlank blank] at letter
  cases letter

theorem behind?_spaced {before w after : Text} (spaced : Spaced k before w after) (rest : Text) :
    behind? k (before ++ (w ++ (after ++ rest))) = some (rest.dropWhile isBlank) := by
  obtain ⟨starts, length⟩ := (spelled_iff k w).mp spaced.named
  obtain ⟨b, before', rfl⟩ := List.exists_cons_of_ne_nil spaced.first
  obtain ⟨d, after', rfl⟩ := List.exists_cons_of_ne_nil spaced.last
  have named := dropWhile_of_head? (spaced.head?_word ascii (d :: after' ++ rest))
  rw [← List.dropWhile_append_of_pos spaced.leading] at named
  have more : startsIgnoringCase k (w ++ (d :: after' ++ rest)) = true := by
    rwa [← startsIgnoringCase_take k _ w.length (Nat.le_of_eq length.symm), List.take_left]
  rw [behind?]
  simp only [named, more, ← length, List.drop_left, List.dropWhile_append_of_pos spaced.trailing]
  simp [spaced.leading b List.mem_cons_self, spaced.trailing d List.mem_cons_self]

omit ascii in
theorem exists_spaced_of_behind? {s rest : Text} (found : behind? k s = some rest) :
    ∃ before w after, s = before ++ (w ++ (after ++ rest)) ∧ Spaced k before w after ∧
      rest.head?.any isBlank = false := by
  rw [behind?] at found
  simp only [Option.ite_none_right_eq_some, Option.some.injEq, Bool.and_eq_true] at found
  obtain ⟨⟨⟨start, starts⟩, stop⟩, rfl⟩ := found
  generalize cut : s.dropWhile isBlank = named at starts stop
  refine ⟨s.takeWhile isBlank, named.take k.length, (named.drop k.length).takeWhile isBlank, ?_, ?_,
    head?_dropWhile_isBlank _⟩
  · rw [List.takeWhile_append_dropWhile, List.take_append_drop, ← cut,
      List.takeWhile_append_dropWhile]
  · refine ⟨?_, fun c member => List.mem_takeWhile_imp member, ?_, ?_,
      fun c member => List.mem_takeWhile_imp member⟩
    · cases s with
      | nil => cases start
      | cons c s => simp [show isBlank c = true from start]
    · have enough := length_le_of_startsIgnoringCase starts
      rw [spelled_iff]
      exact ⟨by rwa [startsIgnoringCase_take _ _ _ (Nat.le_refl _)],
        by rw [List.length_take]; omega⟩
    · generalize named.drop k.length = tail at stop
      cases tail with
      | nil => cases stop
      | cons c tail => simp [show isBlank c = true from stop]

/-! ### What the pattern of the clause finds -/

open Pattern

def spacedThen (k : Text) (p : Pattern) : Pattern := .seq .gap (.seq (.keyword k) (.seq .gap p))

theorem first?_spacedThen_of_none {p : Pattern} {next : Reading → Option Reading} {r : Reading}
    (none : behind? k r.rest = none) : (spacedThen k p).first? next r = .none := by
  have missed : ¬ ∃ x after caps, r.rest = x ++ after ∧
      (spacedThen k p).Spans r.before r.pos x after caps := by
    rintro ⟨_, rest, _, cut, before, _, _, _, rfl, -, first, w, _, _, _, rfl, -, word, after, y, _,
      _, rfl, -, last, -⟩
    obtain ⟨⟨first, leading⟩, -⟩ := (spans_someOf_iff _ _ _ _ _ _).mp first
    obtain ⟨named, -⟩ := (spans_keyword_iff _ _ _ _ _ _).mp word
    obtain ⟨⟨last, trailing⟩, -⟩ := (spans_someOf_iff _ _ _ _ _ _).mp last
    have found := behind?_spaced ascii ⟨first, leading, (spelled_iff k w).mpr named, last, trailing⟩
      (y ++ rest)
    simp only [List.append_assoc] at cut
    rw [← cut, none] at found
    cases found
  rw [← ends_ne_nil_iff _ r (mem_ends_iff _ r)] at missed
  rw [first?_eq_findSome?, Decidable.not_not.mp missed]
  rfl

theorem first?_spacedThen {p : Pattern} {next : Reading → Option Reading} {r stop : Reading}
    {before w after rest : Text} (spaced : Spaced k before w after)
    (ended : rest.head?.any isBlank = false)
    (cut : r.rest = before ++ (w ++ (after ++ rest)))
    (found : p.first? next (r.past (before ++ (w ++ after)) rest []) = some stop) :
    (spacedThen k p).first? next r = some stop := by
  have named := (spelled_iff k w).mp spaced.named
  have first : gap.Prefers r.before r.pos before (w ++ (after ++ rest)) [] :=
    .someOf spaced.first spaced.leading (spaced.head?_word ascii _)
  have word : (keyword k).Prefers (before.getLast?.or r.before) (r.pos + before.length) w
      (after ++ rest) [] :=
    .keyword named.1 named.2
  have last : gap.Prefers (w.getLast?.or (before.getLast?.or r.before))
      (r.pos + before.length + w.length) after
      rest [] := .someOf spaced.last spaced.trailing ended
  refine first r _ stop rfl rfl cut ?_
  refine word _ _ stop rfl rfl rfl ?_
  refine last _ _ stop rfl rfl rfl ?_
  rwa [Reading.past_past, Reading.past_past]

end

theorem exists_behind?_of_cutAt? {k s x rest : Text} (cut : cutAt? k s = some (x, rest)) :
    ∃ after, s = x ++ after ∧ behind? k after = some rest := by
  induction s generalizing x with
  | nil => cases cut
  | cons c s ih =>
      rw [cutAt?] at cut
      cases here : behind? k (c :: s) with
      | some found =>
          rw [here] at cut
          cases cut
          exact ⟨c :: s, rfl, here⟩
      | none =>
          rw [here, Option.map_none, Option.none_or] at cut
          obtain ⟨⟨y, _⟩, later, same⟩ := Option.map_eq_some_iff.mp cut
          cases same
          obtain ⟨after, rfl, found⟩ := ih later
          exact ⟨after, rfl, found⟩

theorem getLast?_tail {c : Char} {s : Text} (ended : (c :: s).getLast?.any isBlank = false) :
    s.getLast?.any isBlank = false := by
  cases s with
  | nil => rfl
  | cons d s => rwa [List.getLast?_cons_cons] at ended

section

variable {k : Text} {next : Reading → Option Reading}
  (skips : ∀ r : Reading, r.rest ≠ [] → r.rest.getLast?.any isBlank = false →
    behind? k r.rest = none → next r = none)
  {s : Text} (ended : s.getLast?.any isBlank = false) (caps : List Capture) (pos : Nat)
  (before : Option Char)

include skips ended

theorem firstOfFew_of_cutAt? {x after rest : Text} (cut : cutAt? k s = some (x, rest))
    (whole : s = x ++ after)
    {stop : Reading} (found : next ⟨pos + x.length, x.getLast?.or before, after,
      caps⟩ = some stop) :
    Reading.firstOfFew (fun _ => true) caps next pos before s = some stop := by
  induction s generalizing x pos before with
  | nil => cases cut
  | cons c s ih =>
      rw [Reading.firstOfFew]
      rw [cutAt?] at cut
      cases here : behind? k (c :: s) with
      | some found' =>
          rw [here] at cut
          cases cut
          rw [List.nil_append] at whole
          have first : next ⟨pos, before, after, caps⟩ = some stop := found
          rw [whole, first]
          rfl
      | none =>
          rw [here, Option.map_none, Option.none_or] at cut
          obtain ⟨⟨y, _⟩, later, same⟩ := Option.map_eq_some_iff.mp cut
          cases same
          rw [skips _ (List.cons_ne_nil c s) ended here]
          refine ih (getLast?_tail ended) (pos + 1) (some c) later (List.cons.inj whole).2 ?_
          rwa [← Pattern.getLast?_cons_or c y before, Nat.add_assoc, Nat.add_comm 1]

theorem firstOfFew_of_uncut (none : cutAt? k s = none) :
    Reading.firstOfFew (fun _ => true) caps next pos before s =
      next ⟨pos + s.length, s.getLast?.or before, [], caps⟩ := by
  induction s generalizing pos before with
  | nil => rfl
  | cons c s ih =>
      rw [cutAt?, Option.or_eq_none_iff, Option.map_eq_none_iff, Option.map_eq_none_iff] at none
      rw [Reading.firstOfFew, skips _ (List.cons_ne_nil c s) ended none.1]
      simp only [Option.orElse_none, if_true]
      rw [ih (getLast?_tail ended) (pos + 1) (some c) none.2, Pattern.getLast?_cons_or,
        List.length_cons, Nat.add_assoc, Nat.add_comm 1]

end

def lengthClause : Pattern :=
  .seq (.optional (spacedThen "FOR" (.capture "length" (.someOf fun _ => true)))) .atEnd

def positionClause : Pattern :=
  .seq (.capture "position" (.seq (.one fun _ => true) (.few fun _ => true))) lengthClause

theorem fromFor_eq :
    fromFor = .seq (.capture "text" (.few fun _ => true)) (spacedThen "FROM" positionClause) := rfl

theorem first?_lengthClause_of_none {r : Reading} (none : behind? "FOR" r.rest = none) :
    lengthClause.first? some r = if r.atEnd then some r else .none := by
  have missed : (spacedThen "FOR" (.capture "length" (.someOf fun _ => true))).first?
      (Pattern.atEnd.first? some) r =
      .none := first?_spacedThen_of_none (by decide) none
  rw [lengthClause, Pattern.first?, Pattern.optional, Pattern.first?, missed]
  rfl

theorem first?_lengthClause {r : Reading} {before w after rest : Text}
    (spaced : Spaced "FOR" before w after)
    (ended : rest.head?.any isBlank = false) (present : rest ≠ [])
    (cut : r.rest = before ++ (w ++ (after ++ rest))) :
    lengthClause.first? some r = some (r.past r.rest []
      [⟨"length", r.pos + (before ++ (w ++ after)).length, r.pos + r.rest.length⟩]) := by
  have length : (Pattern.someOf fun _ => true).Prefers
      ((before ++ (w ++ after)).getLast?.or r.before) (r.pos + (before ++ (w ++ after)).length)
        rest [] [] :=
    .someOf present (by simp) rfl
  have size : r.pos + (before ++ (w ++ after)).length + rest.length = r.pos + r.rest.length := by
    rw [cut]
    simp only [List.length_append]
    omega
  have found : (spacedThen "FOR" (.capture "length" (.someOf fun _ => true))).first?
      (Pattern.atEnd.first? some) r =
      some (r.past r.rest [] [⟨"length", r.pos + (before ++ (w ++ after)).length,
        r.pos + r.rest.length⟩]) := by
    refine first?_spacedThen (by decide) spaced ended cut ?_
    refine length.capture _ _ _ rfl rfl (List.append_nil _).symm ?_
    rw [Reading.past_past, List.append_nil, size, List.append_assoc, List.append_assoc, ← cut]
    rfl
  rw [lengthClause, Pattern.first?, Pattern.optional, Pattern.first?, found]
  rfl

theorem ne_nil_of_behind? {k s rest : Text} (found : behind? k s = some rest)
    (ended : s.getLast?.any isBlank = false) : rest ≠ [] := by
  rintro rfl
  obtain ⟨before, w, after, rfl, spaced, -⟩ := exists_spaced_of_behind? found
  rw [List.append_nil, List.getLast?_append_of_ne_nil _ (by simp [spaced.last]),
    List.getLast?_append_of_ne_nil _ spaced.last, List.getLast?_eq_some_getLast spaced.last,
    Option.any_some,
    spaced.trailing _ (List.getLast_mem _)] at ended
  cases ended

theorem getLast?_append_right {x y : Text} (ended : (x ++ y).getLast?.any isBlank = false) :
    y.getLast?.any isBlank = false := by
  cases y with
  | nil => rfl
  | cons c y => rwa [List.getLast?_append_of_ne_nil _ (List.cons_ne_nil c y)] at ended

theorem lengthClause_skips (start : Nat) (r : Reading) (present : r.rest ≠ [])
    (ended : r.rest.getLast?.any isBlank = false) (none : behind? "FOR" r.rest = none) :
    lengthClause.first? some { r with captures := ⟨"position", start, r.pos⟩ :: r.captures } =
      .none := by
  have inside : r.atEnd = false := by
    rw [Reading.atEnd, Bool.or_eq_false_iff, List.isEmpty_eq_false_iff, beq_eq_false_iff_ne]
    refine ⟨present, fun newline => ?_⟩
    rw [newline] at ended
    exact absurd ended (by decide)
  refine (first?_lengthClause_of_none
    (r := { r with captures := ⟨"position", start, r.pos⟩ :: r.captures }) none).trans (if_neg ?_)
  rw [Bool.not_eq_true]
  exact inside

section

variable {r : Reading} {c : Char} {y : Text} (cut : r.rest = c :: y)
  (ended : y.getLast?.any isBlank = false)

include cut

theorem first?_positionClause :
    positionClause.first? some r = Reading.firstOfFew (fun _ => true) r.captures
      (fun stop => lengthClause.first? some
        { stop with captures := ⟨"position", r.pos, stop.pos⟩ :: stop.captures }) (r.pos + 1)
          (some c) y := by
  rw [positionClause, Pattern.first?, Pattern.first?, Pattern.first?, Pattern.first?, cut]
  rfl

include ended

theorem first?_positionClause_of_uncut (none : cutAt? "FOR" y = none) :
    positionClause.first? some r =
      some (r.past r.rest [] [⟨"position", r.pos, r.pos + r.rest.length⟩]) := by
  have size : r.pos + 1 + y.length = r.pos + r.rest.length := by
    rw [cut, List.length_cons]
    omega
  rw [first?_positionClause cut, firstOfFew_of_uncut (lengthClause_skips r.pos) ended _ _ _ none,
    first?_lengthClause_of_none rfl, size, ← Pattern.getLast?_cons_or c y r.before, ← cut]
  rfl

theorem first?_positionClause_of_cutAt? {z n : Text} (found : cutAt? "FOR" y = some (z, n)) :
    ∃ between, y = z ++ (between ++ n) ∧ positionClause.first? some r = some (r.past r.rest []
      [⟨"length", r.pos + (c :: (z ++ between)).length, r.pos + r.rest.length⟩,
        ⟨"position", r.pos, r.pos + (c :: z).length⟩]) := by
  obtain ⟨after, whole, here⟩ := exists_behind?_of_cutAt? found
  have present := ne_nil_of_behind? here (getLast?_append_right (whole ▸ ended))
  obtain ⟨blanks, w, more, text, spaced, started⟩ := exists_spaced_of_behind? here
  refine ⟨blanks ++ (w ++ more), by simp only [whole, text, List.append_assoc], ?_⟩
  -- the place behind the position
  let reached := r.past (c :: z) after [⟨"position", r.pos, r.pos + (c :: z).length⟩]
  have place : (⟨r.pos + 1 + z.length, z.getLast?.or (some c), after,
      ⟨"position", r.pos, r.pos + 1 + z.length⟩ :: r.captures⟩ : Reading) = reached := by
    have size : r.pos + 1 + z.length = r.pos + (c :: z).length := by
      rw [List.length_cons]
      omega
    rw [size, ← Pattern.getLast?_cons_or c z r.before]
    rfl
  have length := first?_lengthClause (r := reached) spaced started present text
  have rest : r.rest = c :: z ++ after := by rw [cut, whole, List.cons_append]
  have early : reached.pos + (blanks ++ (w ++ more)).length =
      r.pos + (c :: (z ++ (blanks ++ (w ++ more)))).length := by
    simp only [reached, Reading.past, List.length_cons, List.length_append]
    omega
  have late : reached.pos + reached.rest.length = r.pos + r.rest.length := by
    simp only [rest, reached, Reading.past, List.length_append]
    omega
  rw [early, late, show reached.past reached.rest [] _ = r.past (c :: z ++ after) [] _ from
    Reading.past_past .., ← rest] at length
  rw [first?_positionClause cut]
  refine firstOfFew_of_cutAt? (lengthClause_skips r.pos) ended _ _ _ found whole ?_
  rw [place]
  exact length

end

theorem cutAt?_cons_of_filled {c : Char} (filled : isBlank c = false) (k y : Text) :
    cutAt? k (c :: y) = (cutAt? k y).map fun cut => (c :: cut.1, cut.2) := by
  have none : behind? k (c :: y) = none := by simp [behind?, filled]
  rw [cutAt?, none]
  rfl

theorem fromClause_skips (r : Reading) (none : behind? "FROM" r.rest = none) :
    (spacedThen "FROM" positionClause).first?
      some { r with captures := ⟨"text", 0, r.pos⟩ :: r.captures } = .none :=
  first?_spacedThen_of_none (by decide)
    (r := { r with captures := ⟨"text", 0, r.pos⟩ :: r.captures }) none

theorem first?_fromFor (s : Text) :
    fromFor.first? some (.start s) = Reading.firstOfFew (fun _ => true) [] (fun stop =>
      (spacedThen "FROM" positionClause).first? some
        { stop with captures := ⟨"text", 0, stop.pos⟩ :: stop.captures }) 0 none s := by
  rw [fromFor_eq, Pattern.first?, Pattern.first?, Pattern.first?]
  rfl

theorem first?_fromFor_of_cutAt? {s x after rest : Text} (ended : s.getLast?.any isBlank = false)
    (cut : cutAt? "FROM" s = some (x, rest)) {stop : Reading} {before w more : Text}
    (whole : s = x ++ after)
    (text : after = before ++ (w ++ (more ++ rest))) (spaced : Spaced "FROM" before w more)
    (started : rest.head?.any isBlank = false)
    (found : positionClause.first? some ((Reading.start s).past (x ++ (before ++ (w ++ more))) rest
      [⟨"text", 0, x.length⟩]) = some stop) : fromFor.first? some (.start s) = some stop := by
  -- the place behind the text
  have place : (⟨0 + x.length, x.getLast?.or none, after, [⟨"text", 0, 0 + x.length⟩]⟩ : Reading) =
      (Reading.start s).past x after [⟨"text", 0, x.length⟩] := by
    simp [Reading.past, Reading.start]
  rw [first?_fromFor]
  refine firstOfFew_of_cutAt? (fun r _ _ => fromClause_skips r) ended _ _ _ cut whole ?_
  rw [place]
  refine first?_spacedThen (by decide) spaced started text ?_
  rwa [Reading.past_past]

theorem matchStart?_fromFor_of_uncut {s : Text} (ended : s.getLast?.any isBlank = false)
    (none : cutAt? "FROM" s = none) : fromFor.matchStart? s = .none := by
  have missed : fromFor.first? some (.start s) = .none := by
    rw [first?_fromFor, firstOfFew_of_uncut (fun r _ _ => fromClause_skips r) ended _ _ _ none]
    exact fromClause_skips _ rfl
  rw [Pattern.matchStart?, Pattern.matchAt?, missed]
  rfl

/-- The arguments are the text before the first FROM between blanks and, behind it, the position
before the first FOR between blanks and the length, or the position alone. -/
theorem arguments?_eq {s : Text} (ended : s.getLast?.any isBlank = false) :
    arguments? [s] = (cutAt? "FROM" s).map fun cut =>
      cut.1 :: (cutAt? "FOR" cut.2).elim [cut.2] fun last => [last.1, last.2] := by
  rw [arguments?]
  cases cut : cutAt? "FROM" s with
  | none => rw [matchStart?_fromFor_of_uncut ended cut]; rfl
  | some parts =>
      obtain ⟨x, rest⟩ := parts
      obtain ⟨after, whole, here⟩ := exists_behind?_of_cutAt? cut
      have last := getLast?_append_right (whole ▸ ended)
      obtain ⟨c, y, rfl⟩ := List.exists_cons_of_ne_nil (ne_nil_of_behind? here last)
      obtain ⟨before, w, more, text, spaced, started⟩ := exists_spaced_of_behind? here
      have tail : y.getLast?.any isBlank = false := by
        rw [text] at last
        exact getLast?_tail (getLast?_append_right
          (getLast?_append_right (getLast?_append_right last)))
      let front := x ++ (before ++ (w ++ more))
      have whole' : s = front ++ c :: y := by simp only [whole, text, front, List.append_assoc]
      let reached := (Reading.start s).past front (c :: y) [⟨"text", 0, x.length⟩]
      have first : s.take x.length = x := by rw [whole, List.take_left]
      rw [Option.map_some, cutAt?_cons_of_filled (by simpa using started)]
      cases found : cutAt? "FOR" y with
      | none =>
          have stop := first?_fromFor_of_cutAt? ended cut whole text spaced started
            (first?_positionClause_of_uncut (r := reached) rfl tail found)
          have second : (s.drop front.length).take (y.length + 1) = c :: y := by
            rw [whole', List.drop_left, ← List.length_cons, List.take_length]
          rw [Pattern.matchStart?, Pattern.matchAt?, stop]
          simp [Match.captured?, Match.between, reached, Reading.past, Reading.start,
            List.lookup_cons, first, second]
      | some parts =>
          obtain ⟨z, n⟩ := parts
          obtain ⟨between, cut', length⟩ := first?_positionClause_of_cutAt?
            (r := reached) rfl tail found
          have stop := first?_fromFor_of_cutAt? ended cut whole text spaced started length
          have second : (s.drop front.length).take (z.length + 1) = c :: z := by
            rw [whole', List.drop_left, cut', ← List.length_cons, ← List.cons_append,
              List.take_left]
          have third : (s.drop (front.length + (z.length + between.length + 1))).take
              (front.length + (y.length + 1) - (front.length +
                (z.length + between.length + 1))) = n := by
            have regrouped : s = (front ++ c :: (z ++ between)) ++ n := by
              simp only [whole', cut', List.append_assoc, List.cons_append]
            rw [regrouped, List.drop_left' (by simp), List.take_of_length_le]
            rw [cut']
            simp only [List.length_append]
            omega
          rw [Pattern.matchStart?, Pattern.matchAt?, stop]
          simp [Match.captured?, Match.between, reached, Reading.past, Reading.start,
            List.lookup_cons, first, second, third]

/-! ### Cutting a text before others -/

def EndsFree (k x : Text) : Prop :=
  ∀ front blanks w, x = front ++ (blanks ++ w) → blanks ≠ [] → (∀ c ∈ blanks, isBlank c = true) →
    spelled k w = false

section

variable {k : Text} (ascii : IsAsciiWord k) {f : Text} (apart : f.head?.all isBlank = true)

include ascii apart

theorem behind?_append {u : Text} (present : u ≠ []) (ended : u.getLast?.any isBlank = false)
    (free : EndsFree k u) :
    behind? k (u ++ f) = (behind? k u).map (· ++ f) := by
  cases found : behind? k u with
  | some rest =>
      have filled := ne_nil_of_behind? found ended
      obtain ⟨before, w, after, rfl, spaced, started⟩ := exists_spaced_of_behind? found
      have started' : (rest ++ f).head?.any isBlank = false := by
        rwa [List.head?_append_of_ne_nil _ filled]
      have again := behind?_spaced ascii spaced (rest ++ f)
      simp only [List.append_assoc] at again ⊢
      rw [again]
      exact congrArg some (dropWhile_of_head? started')
  | none =>
      rw [Option.map_none, Option.eq_none_iff_forall_ne_some]
      intro rest other
      obtain ⟨before, w, after, cut, spaced, -⟩ := exists_spaced_of_behind? other
      -- the blanks before the word stand in the text, which does not end in a blank
      obtain ⟨v, rfl, tail⟩ : ∃ v, u = before ++ v ∧ v ++ f = w ++ (after ++ rest) := by
        rcases List.append_eq_append_iff.mp cut with ⟨more, rfl, -⟩ | ⟨v, rfl, tail⟩
        · rw [List.getLast?_eq_some_getLast present, Option.any_some, spaced.leading _
            (List.mem_append_left _ (List.getLast_mem _))] at ended
          cases ended
        · exact ⟨v, rfl, tail.symm⟩
      obtain ⟨present', letters⟩ := isWordChar_of_spelled ascii spaced.named
      rcases List.append_eq_append_iff.mp tail with ⟨more, rfl, follow⟩ | ⟨z, rfl, follow⟩
      · cases more with
        | nil =>
            have last := free [] before v rfl spaced.first spaced.leading
            rw [List.append_nil] at spaced
            rw [spaced.named] at last
            cases last
        | cons c more =>
            rw [follow] at apart
            have letter := letters c (by simp)
            rw [isWordChar_of_isBlank (by simpa using apart)] at letter
            cases letter
      · cases z with
        | nil =>
            have last := free [] before w (by simp) spaced.first spaced.leading
            rw [spaced.named] at last
            cases last
        | cons c z =>
            obtain ⟨d, after', rfl⟩ := List.exists_cons_of_ne_nil spaced.last
            obtain ⟨rfl, -⟩ := List.cons.inj follow
            have again := behind?_spaced ascii ⟨spaced.first, spaced.leading, spaced.named,
              List.cons_ne_nil d [], by simpa using spaced.trailing d List.mem_cons_self⟩ z
            rw [List.singleton_append, found] at again
            cases again

/-- A text is cut before what follows it, and what follows it only if the text is not cut. -/
theorem cutAt?_append {x : Text} (ended : x.getLast?.any isBlank = false) (free : EndsFree k x) :
    cutAt? k (x ++ f) = ((cutAt? k x).map fun cut => (cut.1, cut.2 ++ f)).or
      ((cutAt? k f).map fun cut => (x ++ cut.1, cut.2)) := by
  induction x with
  | nil => simp [cutAt?]
  | cons c x ih =>
      have later := ih (getLast?_tail ended) fun front blanks w whole =>
        free (c :: front) blanks w (by rw [whole, List.cons_append])
      rw [List.cons_append, cutAt?, ← List.cons_append,
        behind?_append ascii apart (List.cons_ne_nil c x) ended free, later, cutAt?]
      cases behind? k (c :: x) with
      | some rest => rfl
      | none => cases cutAt? k x <;> cases cutAt? k f <;> rfl

end

theorem exists_blank_of_cutAt? {k s x rest : Text} (cut : cutAt? k s = some (x, rest)) :
    ∃ c after, s = x ++ c :: after ∧ isBlank c = true := by
  obtain ⟨after, rfl, found⟩ := exists_behind?_of_cutAt? cut
  obtain ⟨before, w, more, rfl, spaced, -⟩ := exists_spaced_of_behind? found
  obtain ⟨c, before', rfl⟩ := List.exists_cons_of_ne_nil spaced.first
  exact ⟨c, _, rfl, spaced.leading c List.mem_cons_self⟩

end Substring

/-! ### Clauses -/

theorem Sealed.exists_word {ls : List Lexeme} (closed : Sealed ls) {front w : Text}
    (text : ls.flatMap Lexeme.text = front ++ w) (letters : ∀ c ∈ w, isWordChar c = true) :
    ∃ first, ls = first ++ w.map .code ∧ first.flatMap Lexeme.text = front := by
  induction w using List.reverseRecOn generalizing ls with
  | nil => exact ⟨ls, by simp, by simpa using text⟩
  | append_singleton w c ih =>
      rcases List.eq_nil_or_concat ls with rfl | ⟨ls, l, rfl⟩
      · simp at text
      · rw [List.concat_eq_append] at closed text ⊢
        rw [List.flatMap_append, List.flatMap_singleton, ← List.append_assoc] at text
        cases l with
        | code d =>
            obtain ⟨rest, same⟩ := List.append_inj' text rfl
            cases same
            obtain ⟨first, rfl, own⟩ := ih closed.left rest fun d member =>
              letters d (List.mem_append_left _ member)
            exact ⟨first, by simp, own⟩
        | literal kind t =>
            -- a literal ends with a sign of its own
            obtain ⟨⟨d, sign, last⟩, -⟩ := closed.right.literal_ends
            have whole := congrArg List.getLast? text
            rw [List.getLast?_append_of_ne_nil _ (by rintro rfl; cases last),
              List.getLast?_concat] at whole
            obtain rfl : d = c := Option.some.inj (last.symm.trans whole)
            have letter := letters d (by simp)
            rw [(by decide : ∀ c ∈ closers, isWordChar c = false) d sign] at letter
            cases letter

theorem IsArgument.getLast?_ne_blank {s : Text} (argument : IsArgument s) :
    s.getLast?.any isBlank = false := by
  have last := getLast?_trim s
  rwa [argument.trimmed] at last

theorem IsArgument.append {s middle v : Text} (first : IsArgument s) (second : IsArgument v)
    (present : middle ≠ [])
    (neutral : ∀ c ∈ middle, ScanState.isNeutral c = true ∧ c ≠ '(' ∧ c ≠ ')' ∧ c ≠ ',') :
    IsArgument (s ++ (middle ++ v)) := by
  obtain ⟨c, middle, rfl⟩ := List.exists_cons_of_ne_nil present
  have plain : ∀ d ∈ c :: middle, isPlain d = true := fun d member =>
    isPlain_of_isNeutral (neutral d member).1
  have read : lexemes (s ++ (c :: middle ++ v)) = lexemes s ++
      ((c :: middle).map .code ++ lexemes v) := by
    rw [first.lexemes_append (show StartsNeutral (c :: middle ++ v)
      from (neutral c List.mem_cons_self).1), lexemes_append_of_isPlain _ _ plain]
  have closed : Sealed (lexemes (s ++ (c :: middle ++ v))) := by
    rw [read]
    exact first.sealed.append (neutral c List.mem_cons_self).1
      (.code_append (fun d member => (neutral d (List.mem_cons_of_mem c member)).1) second.sealed)
  refine ⟨by simp, trim_eq_self (first.head?_ne_blank _) ?_, closed.not_inLiteral, closed.plain, ?_⟩
  · rw [← List.append_assoc, List.getLast?_append_of_ne_nil _ second.filled]
    exact second.getLast?_ne_blank
  · rw [read]
    exact first.item.append ((item_map_code fun d member => (neutral d member).2).append
      second.item)

namespace Substring

/-- A part of a clause: an argument without a call of the function, and without a word of the clause
outside literals and parentheses. -/
structure IsPart (x : Text) : Prop where
  argument : IsArgument x
  uncalled : ∀ pos close, ¬ IsCall "SUBSTRING" x pos close
  unworded : ∀ k ∈ [("FROM" : Text), "FOR"], (Pattern.wholeWord k).topLevel? x = none

theorem IsPart.endsFree {x : Text} (part : IsPart x) {k : Text}
    (member : k ∈ [("FROM" : Text), "FOR"]) :
    EndsFree k x := by
  intro front blanks w whole present blank
  have ascii : IsAsciiWord k := (by decide : ∀ k ∈ [("FROM" : Text), "FOR"], IsAsciiWord k) k member
  rw [← Bool.not_eq_true]
  intro named
  have letters := (isWordChar_of_spelled ascii named).2
  have cut : (lexemes x).flatMap Lexeme.text = front ++ blanks ++ w := by
    rw [flatMap_text_lexemes, whole, List.append_assoc]
  obtain ⟨first, read, text⟩ := part.argument.sealed.exists_word cut letters
  have filled := text_ne_nil_of_mem_lexemes x
  rw [read, List.forall_mem_append] at filled
  have standing : Standing k first w [] := by
    refine ⟨named, ?_, rfl, ?_⟩
    · rw [endsIn_eq _ filled.1, text, List.getLast?_append_of_ne_nil _ present,
        List.getLast?_eq_some_getLast present]
      exact isWordChar_of_isBlank (blank _ (List.getLast_mem present))
    · have balanced := part.argument.item.balanced
      rw [read, Balanced, levelAfter_append, Option.bind_eq_some_iff] at balanced
      obtain ⟨depth, level, rest⟩ := balanced
      have flat := (balanced_map_code (no_paren_of_spelled ascii named)).levelAfter_append depth []
      rw [List.append_nil, rest] at flat
      rw [level, flat]
      rfl
  obtain ⟨m, found, -⟩ := Pattern.topLevel?_of_standing ascii (read.trans (by simp)) standing
  rw [part.unworded k member] at found
  cases found

/-- The argument of a substring: a text, a position and perhaps a length. -/
def clause (text position : Text) : (length? : Option Text) → Text
  | none => text ++ (" FROM " ++ position)
  | some length => text ++ (" FROM " ++ (position ++ (" FOR " ++ length)))

def lengthPart : Option Text → Text
  | none => []
  | some length => " FOR " ++ length

theorem clause_eq (s p : Text) (length? : Option Text) :
    clause s p length? = s ++ (" FROM " ++ (p ++ lengthPart length?)) := by
  cases length? with
  | none => exact congrArg (fun rest => s ++ (" FROM " ++ rest)) (List.append_nil p).symm
  | some n => rfl

section

variable {s p : Text} {length? : Option Text} (text : IsPart s) (position : IsPart p)
  (length : ∀ n ∈ length?, IsPart n)

include text position length

theorem isArgument_clause : IsArgument (clause s p length?) := by
  cases length? with
  | none => exact text.argument.append position.argument (by decide) (by decide)
  | some n =>
      refine text.argument.append ?_ (by decide) (by decide)
      exact position.argument.append (length n rfl).argument (by decide) (by decide)

theorem replaceCallsM_clause (action : List Text → Except Fault (Option Text)) :
    replaceCallsM "SUBSTRING" action (clause s p length?) = .ok (clause s p length?) := by
  have word : ∀ c ∈ ("SUBSTRING" : Text), isWordChar c = true := by decide
  have part {x : Text} (part : IsPart x) : replaceCallsM "SUBSTRING" action x = .ok x :=
    replaceCallsM_uncalled word action part.uncalled
  cases length? with
  | none =>
      rw [clause, replaceCallsM_argument word action text.argument (by decide), part text,
        replaceCallsM_lead word action (by decide) (by decide), part position]
      rfl
  | some n =>
      rw [clause, replaceCallsM_argument word action text.argument (by decide), part text,
        replaceCallsM_lead word action (by decide) (by decide),
        replaceCallsM_argument word action position.argument (by decide), part position,
        replaceCallsM_lead word action (by decide) (by decide), part (length n rfl)]
      rfl

end

theorem cutAt?_spaced {k rest : Text} (ascii : IsAsciiWord k) (same : spelled k k = true)
    (started : rest.head?.any isBlank = false) : cutAt? k (' ' :: (k ++ ' ' :: rest)) =
      some ([], rest) := by
  have spaced : Spaced k [' '] k [' '] := ⟨by simp, by decide, same, by simp, by decide⟩
  have found := behind?_spaced ascii spaced rest
  rw [dropWhile_of_head? started] at found
  rw [cutAt?, show behind? k (' ' :: (k ++ ' ' :: rest)) = some rest from found]
  rfl

theorem IsPart.cutAt?_append {x f : Text} (part : IsPart x) {k : Text}
    (member : k ∈ [("FROM" : Text), "FOR"])
    (apart : f.head?.all isBlank = true) : cutAt? k (x ++ f) =
      ((cutAt? k x).map fun cut => (cut.1, cut.2 ++ f)).or
      ((cutAt? k f).map fun cut => (x ++ cut.1, cut.2)) :=
  Substring.cutAt?_append ((by decide : ∀ k ∈ [("FROM" : Text), "FOR"], IsAsciiWord k) k
    member) apart
    part.argument.getLast?_ne_blank (part.endsFree member)

theorem joinArguments_ne {x s : Text} {c : Char} {after : Text} (cut : s = x ++ c :: after)
    (blank : isBlank c = true)
    {more : List Text} (present : more ≠ []) (others : List Text) :
    joinArguments (x :: more) ≠ joinArguments (s :: others) := by
  intro same
  obtain ⟨tail, whole⟩ : ∃ tail, joinArguments (s :: others) = s ++ tail := by
    cases others with
    | nil => exact ⟨[], (List.append_nil s).symm⟩
    | cons a others => exact ⟨_, List.append_assoc ..⟩
  rw [whole, joinArguments, joinWith_cons present, cut, List.append_assoc,
    List.append_assoc] at same
  have comma : ',' = c := (List.cons.inj (List.append_cancel_left same)).1
  rw [← comma] at blank
  exact absurd blank (by decide)

def positionAndLength (rest : Text) : List Text :=
  (cutAt? "FOR" rest).elim [rest] fun cut => [cut.1, cut.2]

theorem convert_of_cutAt? {argument x rest : Text} (ended : argument.getLast?.any isBlank = false)
    (cut : cutAt? "FROM" argument = some (x, rest)) :
    convert [argument] = some (callText "SUBSTR" (x :: positionAndLength rest)) := by
  have count : (x :: positionAndLength rest).length = 2 ∨
      (x :: positionAndLength rest).length = 3 := by
    rw [positionAndLength]
    cases cutAt? "FOR" rest with
    | none => exact .inl rfl
    | some last => exact .inr rfl
  have parts : arguments? [argument] = some (x :: positionAndLength rest) := by
    rw [arguments?_eq ended, cut]
    rfl
  rw [convert, parts]
  exact (if_pos count).trans (congrArg some (List.append_assoc ..))

section

variable {s p : Text} {length? : Option Text} (text : IsPart s) (position : IsPart p)
  (length : ∀ n ∈ length?, IsPart n)

include text position

theorem cutAt?_clause (length? : Option Text) : cutAt? "FROM" (clause s p length?) =
    ((cutAt? "FROM" s).map fun cut => (cut.1, cut.2 ++ (" FROM " ++ (p ++ lengthPart length?)))).or
      (some (s, p ++ lengthPart length?)) := by
  have here : cutAt? "FROM" (" FROM " ++ (p ++ lengthPart length?)) =
      some ([], p ++ lengthPart length?) :=
    cutAt?_spaced (k := "FROM") (by decide) (by decide) (position.argument.head?_ne_blank _)
  rw [clause_eq, text.cutAt?_append (by simp) rfl, here]
  simp

omit text

include length

theorem cutAt?_position : cutAt? "FOR" (p ++ lengthPart length?) =
    ((cutAt? "FOR" p).map fun cut => (cut.1, cut.2 ++ lengthPart length?)).or
    (length?.map fun n => (p, n)) := by
  cases length? with
  | none => rw [position.cutAt?_append (by simp) rfl]; rfl
  | some n =>
      have last := (length n rfl).argument.head?_ne_blank []
      rw [List.append_nil] at last
      have here : cutAt? "FOR" (lengthPart (some n)) = some ([], n) :=
        cutAt?_spaced (k := "FOR") (by decide) (by decide) last
      rw [position.cutAt?_append (by simp) rfl, here]
      simp

include text

/-- A substring with a clause gets the text, the position and the length of the clause as arguments
exactly if no FROM stands between blanks in the text and no FOR in the position, be it in a string,
in a comment or in parentheses. -/
theorem apply_clause_iff : Rule.total "substring" "SUBSTRING" convert ∈ Rule.table ∧
    ∃ written, (Rule.total "substring" "SUBSTRING" convert).apply
      (callText "SUBSTRING" [clause s p length?]) =
        .ok written ∧
      (written = callText "SUBSTR" (s :: p :: length?.toList) ↔
        cutAt? "FROM" s = none ∧ cutAt? "FOR" p = none) := by
  have argument := isArgument_clause text position length
  have answer {x rest : Text} (cut : cutAt? "FROM" (clause s p length?) = some (x, rest)) :
      (Rule.total "substring" "SUBSTRING" convert).apply
      (callText "SUBSTRING" [clause s p length?]) =
        .ok (callText "SUBSTR" (x :: positionAndLength rest)) :=
    replaceCallsM_callText (by simpa using argument) (by decide)
      (replaceCallsM_clause text position length _)
      (congrArg Except.ok (convert_of_cutAt? argument.getLast?_ne_blank cut))
  have cancel {first second : List Text} (same : callText "SUBSTR" first =
      callText "SUBSTR" second) :
      joinArguments first = joinArguments second :=
    List.append_cancel_right (List.cons.inj (List.append_cancel_left same)).2
  have member : Rule.total "substring" "SUBSTRING" convert ∈ Rule.stringRules := .tail _ (.head _)
  refine ⟨by simp only [Rule.table, List.mem_append, member, true_or], ?_⟩
  have cuts := cutAt?_clause text position length?
  cases first : cutAt? "FROM" s with
  | some cut =>
      rw [first] at cuts
      refine ⟨_, answer cuts, iff_of_false (fun same => ?_) (by simp)⟩
      obtain ⟨c, after, whole, blank⟩ := exists_blank_of_cutAt? first
      refine joinArguments_ne whole blank ?_ _ (cancel same)
      rw [positionAndLength]
      cases cutAt? "FOR" _ <;> simp
  | none =>
      rw [first] at cuts
      refine ⟨_, answer cuts, ?_⟩
      have lengths := cutAt?_position position length
      cases second : cutAt? "FOR" p with
      | some cut =>
          rw [second] at lengths
          refine iff_of_false (fun same => ?_) (by simp)
          obtain ⟨c, after, whole, blank⟩ := exists_blank_of_cutAt? second
          have tails := cancel same
          rw [positionAndLength, lengths, joinArguments, joinArguments, joinWith_cons (by simp),
            joinWith_cons (by simp)] at tails
          exact joinArguments_ne whole blank (List.cons_ne_nil _ []) length?.toList
            (List.append_cancel_left tails)
      | none =>
          rw [second] at lengths
          rw [positionAndLength, lengths]
          cases length? with
          | none =>
              exact iff_of_true (congrArg (fun p => callText "SUBSTR" [s, p]) (List.append_nil p))
                ⟨rfl, rfl⟩
          | some n => exact iff_of_true rfl ⟨rfl, rfl⟩

end

theorem isPart_of_uncalling {x : Text} (argument : IsArgument x) (free : Uncalling "SUBSTRING" x)
    (unworded : ∀ k ∈ [("FROM" : Text), "FOR"], (Pattern.wholeWord k).topLevel? x =
      none) : IsPart x :=
  ⟨argument, free.not_isCall, unworded⟩

theorem apply_clause_iff_quoted :
    let s : Text := "LOWER(a || ',FROM,')"
    let p : Text := "LENGTH('x FROM y') - 1"
    IsPart s ∧ IsPart p ∧
      (Rule.total "substring" "SUBSTRING" convert).apply
        "SUBSTRING(LOWER(a || ',FROM,') FROM LENGTH('x FROM y') - 1)" =
        .ok "SUBSTR(LOWER(a || ',FROM,'), LENGTH('x FROM y') - 1)" := by
  intro s p
  have text : IsPart s := isPart_of_uncalling (by decide) (by decide) (by decide)
  have position : IsPart p := isPart_of_uncalling (by decide) (by decide) (by decide)
  have length : ∀ n ∈ (none : Option Text), IsPart n := by simp
  obtain ⟨-, written, answered, exact⟩ := apply_clause_iff text position length
  have same := exact.mpr (by decide)
  subst same
  exact ⟨text, position, answered⟩

/-- A FROM in a string is taken for the word of the clause. -/
theorem not_forall_apply_clause :
    ¬ ∀ s p n, IsPart s → IsPart p → IsPart n →
      ((Rule.total "substring" "SUBSTRING" convert).apply
        (callText "SUBSTRING" [clause s p (some n)])).toOption =
        some (callText "SUBSTR" [s, p, n]) := by
  intro exact
  have written := exact "'a FROM b'" "2" "3" (isPart_of_uncalling (by decide) (by decide)
    (by decide))
    (isPart_of_uncalling (by decide) (by decide) (by decide))
    (isPart_of_uncalling (by decide) (by decide) (by decide))
  revert written
  decide +kernel

end Substring

end LiteSql
