import LiteSql.Arguments
import LiteSql.Lexeme.Depth
import LiteSql.Text.Case
import LiteSql.Text.Word

/-! The calls of one function in a text. A call is the function's name, in any letter case, directly
followed by an argument list in parentheses; its name stands outside literals, is not the end of a
longer name, and its parenthesis is closed. Putting the calls of a text together gives the text
back. -/

namespace LiteSql

/-- A text as single characters and calls of one function. The text inside a call holds calls
again. -/
inductive Calls
  | done
  | char (c : Char) (rest : Calls)
  | call (name : Text) (inner rest : Calls)
  deriving DecidableEq, Repr

namespace Calls

def render : Calls → Text
  | done => []
  | char c rest => c :: rest.render
  | call name inner rest => name ++ '(' :: (inner.render ++ ')' :: rest.render)

def opensCall (name : Text) (s : List (Char × Bool)) : Bool :=
  let front := (s.take (name.length + 1)).map Prod.fst
  startsIgnoringCase name front && front[name.length]? == some '('

/-- Length of the argument list when the name at the start of `s` opens a call. `before` is the
character in front of it. -/
def argumentsLength? (name : Text) (before : Option Char) (s : List (Char × Bool)) : Option Nat :=
  if before.any continuesName || s.head?.any Prod.snd then none
  else closing? ((s.drop (name.length + 1)).map Prod.fst)

/-- The calls in a marked text. `copied` characters are still part of a name that opens no call; the
search for another call starts at the parenthesis after it. -/
def ofMarked (name : Text) (copied : Nat) (before : Option Char) (s : List (Char × Bool)) : Calls :=
  match s with
  | [] => done
  | (c, literal) :: rest =>
    if 0 < copied ∨ opensCall name ((c, literal) :: rest) = false then
      char c (ofMarked name (copied - 1) (some c) rest)
    else
      match argumentsLength? name before ((c, literal) :: rest) with
      | none => char c (ofMarked name (name.length - 1) (some c) rest)
      | some length =>
        call ((((c, literal) :: rest).take name.length).map Prod.fst)
          (ofMarked name 0 none (marked (((rest.drop name.length).take length).map Prod.fst)))
          (ofMarked name 0 (some ')') (rest.drop (name.length + length + 1)))
termination_by s.length
decreasing_by
  all_goals simp only [List.length_cons, List.length_drop, List.length_map, List.length_take,
    length_marked]
  all_goals omega

def ofText (name s : Text) : Calls := ofMarked name 0 none (marked s)

/-- Puts the answer of `action` on a call's arguments in its place, inner calls first and then from
the left. Where there is no answer the call stays, with what has become of its inside. -/
def replaceM {m : Type → Type} [Monad m] (action : List Text → m (Option Text)) :
    Calls → m Text
  | done => pure []
  | char c rest => do return c :: (← rest.replaceM action)
  | call name inner rest => do
    let inside ← inner.replaceM action
    let replacement ← action (splitArguments inside)
    let after ← rest.replaceM action
    return replacement.getD (name ++ '(' :: (inside ++ [')'])) ++ after

theorem getElem?_of_opensCall (name : Text) (s : List (Char × Bool))
    (opens : opensCall name s = true) : (s.map Prod.fst)[name.length]? = some '(' := by
  simp only [opensCall, Bool.and_eq_true, beq_iff_eq] at opens
  rw [← opens.2, List.map_take, List.getElem?_take_of_lt (Nat.lt_succ_self _)]

theorem render_ofMarked (name : Text) (copied : Nat) (before : Option Char)
    (s : List (Char × Bool)) : (ofMarked name copied before s).render = s.map Prod.fst := by
  fun_induction ofMarked name copied before s with
  | case1 => rfl
  | case2 copied before c literal rest _ ih => simp [render, ih]
  | case3 copied before c literal rest _ _ ih => simp [render, ih]
  | case4 copied before c literal rest opens length found ihInner ihRest =>
      have isOpen : opensCall name ((c, literal) :: rest) = true := by simp_all
      have front := take_append_cons_drop _ _ _ (getElem?_of_opensCall name _ isOpen)
      have close : ((rest.drop name.length).map Prod.fst)[length]? = some ')' := by
        simp only [argumentsLength?] at found
        split at found
        · cases found
        · exact getElem?_closing? _ _ found
      have inside := take_append_cons_drop _ _ _ close
      rw [render, ihInner, ihRest, map_fst_marked]
      rw [List.map_cons, List.drop_succ_cons, ← List.map_drop, ← inside] at front
      rw [List.map_cons, ← front]
      simp [List.map_take, List.map_drop, Nat.add_assoc]

theorem render_ofText (name s : Text) : (ofText name s).render = s := by
  rw [ofText, render_ofMarked, map_fst_marked]

end Calls

def replaceCallsM {m : Type → Type} [Monad m] (name : Text)
    (action : List Text → m (Option Text)) (s : Text) : m Text :=
  (Calls.ofText name s).replaceM action

def replaceCalls (name : Text) (action : List Text → Option Text) (s : Text) : Text :=
  Id.run (replaceCallsM name (fun arguments => pure (action arguments)) s)

end LiteSql
