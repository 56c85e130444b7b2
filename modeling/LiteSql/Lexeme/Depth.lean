import LiteSql.Lexeme.Basic

/-! Parenthesis depth in code, and the parenthesis that closes another. -/

namespace LiteSql

def markedTurn : Char × Bool → Int
  | ('(', false) => 1
  | (')', false) => -1
  | _ => 0

/-- The parenthesis depth before position `pos`. It is negative after more closings than
openings. -/
def depthAt (s : Text) (pos : Nat) : Int :=
  ((marked s).take pos).foldr (fun c depth => markedTurn c + depth) 0

/-- How many characters stand before the parenthesis that closes `depth + 1` open ones. -/
def closingIn (depth : Nat) : List Lexeme → Option Nat
  | [] => none
  | .code c :: rest =>
    if c = ')' then if depth = 0 then some 0 else (closingIn (depth - 1) rest).map (· + 1)
    else if c = '(' then (closingIn (depth + 1) rest).map (· + 1)
    else (closingIn depth rest).map (· + 1)
  | .literal _ text :: rest => (closingIn depth rest).map (· + text.length)

/-- How many characters stand before the parenthesis that closes one opened just before the
text. -/
def closing? (s : Text) : Option Nat := closingIn 0 (lexemes s)

/-- The position of the parenthesis that closes the one at `pos`. -/
def matching? (s : Text) (pos : Nat) : Option Nat :=
  (closing? (s.drop (pos + 1))).map (pos + 1 + ·)

theorem getElem?_closingIn (depth : Nat) (ls : List Lexeme) (n : Nat)
    (found : closingIn depth ls = some n) : (ls.flatMap Lexeme.text)[n]? = some ')' := by
  induction ls generalizing depth n with
  | nil => simp [closingIn] at found
  | cons l ls ih =>
      cases l with
      | literal kind text =>
          obtain ⟨m, inner, rfl⟩ := Option.map_eq_some_iff.mp found
          simpa [Lexeme.text, List.getElem?_append_right] using ih depth m inner
      | code c =>
          rw [closingIn] at found
          split at found
          · next close =>
              split at found
              · obtain rfl := Option.some.inj found
                simp [Lexeme.text, close]
              · obtain ⟨m, inner, rfl⟩ := Option.map_eq_some_iff.mp found
                simpa [Lexeme.text] using ih (depth - 1) m inner
          · split at found
            · obtain ⟨m, inner, rfl⟩ := Option.map_eq_some_iff.mp found
              simpa [Lexeme.text] using ih (depth + 1) m inner
            · obtain ⟨m, inner, rfl⟩ := Option.map_eq_some_iff.mp found
              simpa [Lexeme.text] using ih depth m inner

theorem getElem?_closing? (s : Text) (n : Nat) (found : closing? s = some n) :
    s[n]? = some ')' := by
  have close := getElem?_closingIn 0 (lexemes s) n found
  rwa [flatMap_text_lexemes] at close

end LiteSql
