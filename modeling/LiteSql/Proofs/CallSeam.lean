import LiteSql.Proofs.Balance

/-! Calls at a seam between two texts. Where no call reaches from the first text into the second,
the calls of both together are those of each. -/

namespace LiteSql

def isSign (c : Char) : Bool := decide (c.toNat < 0x80) && !isWordChar c

theorem isSign_iff (c : Char) : isSign c = true ↔ c.toNat < 0x80 ∧ isWordChar c = false := by
  simp [isSign]

section

variable {name u v : Text} (word : ∀ c ∈ name, isWordChar c = true)

theorem marked_append (read : lexemes (u ++ v) = lexemes u ++ lexemes v) :
    marked (u ++ v) = marked u ++ marked v := by
  rw [marked, read, List.flatMap_append, ← marked, ← marked]

theorem inLiteral_append_left (read : lexemes (u ++ v) = lexemes u ++ lexemes v) {pos : Nat}
    (inside : pos < u.length) : InLiteral (u ++ v) pos ↔ InLiteral u pos := by
  rw [inLiteral_iff_marked, inLiteral_iff_marked, marked_append read,
    List.getElem?_append_left (by rwa [length_marked])]

theorem startsIgnoringCase_drop_append {pos : Nat} (enough : pos + name.length ≤ u.length) :
    startsIgnoringCase name ((u ++ v).drop pos) = startsIgnoringCase name (u.drop pos) := by
  have length : name.length ≤ (u.drop pos).length := by
    rw [List.length_drop]
    omega
  rw [List.drop_append_of_le_length (by omega), ← startsIgnoringCase_take name (_ ++ _) _ length,
    List.take_left]

include word in
theorem lt_length_of_opened {pos : Nat} (inside : pos < u.length)
    (sign : v.head?.all (fun c => isSign c && c != '(') = true)
    (named : startsIgnoringCase name ((u ++ v).drop pos) = true)
    (opened : (u ++ v)[pos + name.length]? = some '(') : pos + name.length < u.length := by
  apply Nat.lt_of_not_le
  intro past
  have bound := (List.getElem?_eq_some_iff.mp opened).1
  cases v with
  | nil =>
      rw [List.append_nil] at bound
      omega
  | cons c v =>
      rw [List.head?_cons, Option.all_some, Bool.and_eq_true, isSign_iff, bne_iff_ne] at sign
      have here : (u ++ c :: v)[u.length]? = some c := by
        rw [List.getElem?_append_right (Nat.le_refl _), Nat.sub_self, List.getElem?_cons_zero]
      rcases Nat.lt_or_eq_of_le past with short | same
      · refine not_startsIgnoringCase_of_sign word (i := u.length - pos)
          (by omega) ?_ sign.1.1 sign.1.2 named
        rwa [Nat.add_sub_cancel' (Nat.le_of_lt inside)]
      · rw [← same, here] at opened
        exact sign.2 (Option.some.inj opened)

include word in
theorem isCall_append_iff (read : lexemes (u ++ v) = lexemes u ++ lexemes v)
    (balanced : Balanced (lexemes u)) (sign : v.head?.all (fun c => isSign c && c != '(') = true)
    {pos : Nat} (inside : pos < u.length) (close : Nat) :
    IsCall name (u ++ v) pos close ↔ IsCall name u pos close := by
  have closing (named : startsIgnoringCase name (u.drop pos) = true)
      (opened : u[pos + name.length]? = some '(') (outside : ¬ InLiteral u pos) :
      closing? ((u ++ v).drop (pos + name.length + 1)) = closing?
        (u.drop (pos + name.length + 1)) := by
    have bound := (List.getElem?_eq_some_iff.mp opened).1
    obtain ⟨front, cut, -⟩ := exists_lexemes_of_opened word pos named opened outside
    have closed := balanced.closingIn_append []
    rw [cut] at closed
    obtain ⟨n, found⟩ := exists_closingIn_nested closed
    have whole : lexemes (u ++ v) = (front ++ [.code '(']) ++
        (lexemes (u.drop (pos + name.length + 1)) ++ lexemes v) := by
      rw [read, cut]
      simp
    obtain ⟨-, later⟩ := lexemes_of_append whole
    rw [List.flatMap_append, flatMap_text_lexemes, flatMap_text_lexemes] at later
    rw [List.drop_append_of_le_length bound, closing?, closing?, later, found,
      closingIn_append _ found]
  have before : (u ++ v).take pos = u.take pos :=
    List.take_append_of_le_length (Nat.le_of_lt inside)
  rw [isCall_iff_closing?, isCall_iff_closing?, before, inLiteral_append_left read inside]
  constructor
  · rintro ⟨named, opened, outside, separate, n, found, position⟩
    have bound := lt_length_of_opened word inside sign named opened
    rw [startsIgnoringCase_drop_append (Nat.le_of_lt bound)] at named
    rw [List.getElem?_append_left bound] at opened
    rw [closing named opened outside] at found
    exact ⟨named, opened, outside, separate, n, found, position⟩
  · rintro ⟨named, opened, outside, separate, n, found, position⟩
    have bound := (List.getElem?_eq_some_iff.mp opened).1
    rw [← closing named opened outside] at found
    rw [← startsIgnoringCase_drop_append (v := v) (Nat.le_of_lt bound)] at named
    exact ⟨named, (List.getElem?_append_left bound).trans opened, outside, separate, n, found,
      position⟩

/-- Whether a name is nowhere followed by a parenthesis, unless it is the end of a longer name. -/
def Uncalling (name s : Text) : Prop :=
  ∀ pos < s.length, startsIgnoringCase name (s.drop pos) = true → s[pos + name.length]? = some '(' →
    (s.take pos).getLast?.any continuesName = true

instance (name s : Text) : Decidable (Uncalling name s) :=
  inferInstanceAs (Decidable (∀ pos < s.length, startsIgnoringCase name (s.drop pos) = true →
    s[pos + name.length]? = some '(' → (s.take pos).getLast?.any continuesName = true))

theorem Uncalling.not_isCall (free : Uncalling name u) (pos close : Nat) :
    ¬ IsCall name u pos close := by
  intro call
  have bound := (List.getElem?_eq_some_iff.mp call.opened).1
  have separate := call.separate
  rw [free pos (by omega) call.named call.opened] at separate
  cases separate

include word in
theorem Uncalling.not_isCall_append (free : Uncalling name u) (ended : u.getLast?.any isSign = true)
    {pos : Nat}
    (inside : pos < u.length) (close : Nat) : ¬ IsCall name (u ++ v) pos close := by
  intro call
  obtain ⟨c, last, sign⟩ := (Option.any_eq_true ..).mp ended
  obtain ⟨front, rfl⟩ := List.getLast?_eq_some_iff.mp last
  rw [isSign_iff] at sign
  rw [List.length_append, List.length_singleton] at inside
  have bound : pos + name.length < (front ++ [c]).length := by
    rw [List.length_append, List.length_singleton]
    apply Nat.lt_of_not_le
    intro past
    refine not_startsIgnoringCase_of_sign word (i := front.length - pos) (by omega) ?_ sign.1 sign.2
      call.named
    rw [Nat.add_sub_cancel' (Nat.le_of_lt_succ inside), List.append_assoc]
    exact List.getElem?_append_right (Nat.le_refl _) |>.trans (by simp)
  have named := call.named
  have opened := call.opened
  have separate := call.separate
  rw [startsIgnoringCase_drop_append (Nat.le_of_lt bound)] at named
  rw [List.getElem?_append_left bound] at opened
  rw [List.take_append_of_le_length (by omega), free pos (by omega) named opened] at separate
  cases separate

/-- Whether the calls that start in `u` are the same with `v` behind it. -/
def CallsApart (name u v : Text) : Prop :=
  ∀ pos < u.length, ∀ close, IsCall name (u ++ v) pos close ↔ IsCall name u pos close

variable {m : Type → Type} [Monad m] [LawfulMonad m] (action : List Text → m (Option Text))

include word in
theorem CallsApart.replaceM_callsFrom (apart : CallsApart name u v) (pos : Nat)
    (bound : pos ≤ u.length) :
    (callsFrom name (u ++ v) pos).replaceM action = do
      let first ← (callsFrom name u pos).replaceM action
      let second ← (callsFrom name (u ++ v) u.length).replaceM action
      return first ++ second := by
  induction u, pos using callsFrom_induction name with
  | done u pos ended =>
      obtain rfl := Nat.le_antisymm bound ended
      rw [callsFrom_of_length_le u.length (Nat.le_refl _), Calls.replaceM]
      simp
  | char u pos inside outside ih =>
      have neither : ∀ close, ¬ IsCall name (u ++ v) pos close := fun close call =>
        outside close ((apart pos inside close).mp call)
      rw [callsFrom_of_not_isCall word pos (by rw [List.length_append]; omega) neither,
        callsFrom_of_not_isCall word pos inside outside, Calls.replaceM, Calls.replaceM,
        ih apart (by omega), List.getElem_append_left inside]
      simp
  | call u pos close call _ ih =>
      have inner := call.lt_close
      have outer := call.close_lt
      have whole := (apart pos (by omega) close).mpr call
      rw [callsFrom_of_isCall whole, callsFrom_of_isCall call, Calls.replaceM, Calls.replaceM,
        ih apart (by omega), slice_append (by omega), slice_append (by omega)]
      simp only [bind_assoc, pure_bind, List.append_assoc]

/-- What stands before a text makes no difference if it does not continue a name, or if no call
starts there. -/
theorem ofMarked_before {before : Option Char} {s : List (Char × Bool)}
    (fresh : before.any continuesName = false ∨ Calls.opensCall name s = false) :
    Calls.ofMarked name 0 before s = Calls.ofMarked name 0 none s := by
  cases s with
  | nil => rw [Calls.ofMarked, Calls.ofMarked]
  | cons here rest =>
      obtain ⟨c, literal⟩ := here
      rw [Calls.ofMarked, Calls.ofMarked]
      rcases fresh with apart | closed
      · have same : Calls.argumentsLength? name before ((c, literal) :: rest) =
            Calls.argumentsLength? name none ((c, literal) :: rest) := by
          rw [Calls.argumentsLength?, Calls.argumentsLength?, apart]
          rfl
        rw [same]
      · rw [if_pos (.inr closed), if_pos (.inr closed)]

include word in
theorem opensCall_marked_of_sign (sign : v.head?.all (fun c => isSign c && c != '(') = true) :
    Calls.opensCall name (marked v) = false := by
  rw [Bool.eq_false_iff, Ne, opensCall_iff, map_fst_marked]
  rintro ⟨named, opened⟩
  cases v with
  | nil => simp at opened
  | cons c v =>
      rw [List.head?_cons, Option.all_some, Bool.and_eq_true, isSign_iff, bne_iff_ne] at sign
      cases name with
      | nil => exact sign.2 (Option.some.inj opened)
      | cons d name =>
          rw [← List.drop_zero (l := c :: v)] at named
          exact not_startsIgnoringCase_of_sign word (i := 0)
            (Nat.succ_pos _) rfl sign.1.1 sign.1.2 named

include word in
theorem CallsApart.replaceCallsM_append (apart : CallsApart name u v)
    (read : lexemes (u ++ v) = lexemes u ++ lexemes v)
    (fresh : u.getLast?.any continuesName = false ∨
      v.head?.all (fun c => isSign c && c != '(') = true) :
    replaceCallsM name action (u ++ v) = do
      let first ← replaceCallsM name action u
      let second ← replaceCallsM name action v
      return first ++ second := by
  have restart : callsFrom name (u ++ v) u.length = Calls.ofText name v := by
    have behind : (marked (u ++ v)).drop u.length = marked v := by
      rw [marked_append read, ← length_marked u, List.drop_left]
    rw [callsFrom, List.take_left, behind, Calls.ofText]
    exact ofMarked_before (fresh.imp_right (opensCall_marked_of_sign word))
  rw [replaceCallsM, replaceCallsM, replaceCallsM, ← callsFrom_zero, ← callsFrom_zero,
    apart.replaceM_callsFrom word action 0 (Nat.zero_le _), restart]

end

end LiteSql
