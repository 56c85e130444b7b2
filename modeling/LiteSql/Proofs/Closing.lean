import LiteSql.Proofs.Locality

/-! The parenthesis that closes another stands between two lexemes, does not depend on what follows
it, and lies behind every parenthesis closed further inside. -/

namespace LiteSql

def depthAfter (depth : Nat) (l : Lexeme) : Nat := (depth + l.turn).toNat

theorem Lexeme.turn_nonneg (l : Lexeme) (other : l ≠ .code ')') : 0 ≤ l.turn := by
  unfold Lexeme.turn
  split <;> simp_all

theorem closingIn_cons (depth : Nat) (l : Lexeme) (ls : List Lexeme) :
    closingIn depth (l :: ls) =
      if l = .code ')' ∧ depth = 0 then some 0
      else (closingIn (depthAfter depth l) ls).map (· + l.text.length) := by
  cases l with
  | literal kind text => simp [closingIn, depthAfter, Lexeme.turn, Lexeme.text]
  | code c =>
      rw [closingIn]
      by_cases close : c = ')'
      · subst close
        by_cases shallow : depth = 0
        · simp [shallow]
        · have left : depthAfter depth (.code ')') = depth - 1 := by
            simp only [depthAfter, Lexeme.turn]
            omega
          simp [shallow, left, Lexeme.text]
      · by_cases opening : c = '('
        · subst opening
          have left : depthAfter depth (.code '(') = depth + 1 := by
            simp only [depthAfter, Lexeme.turn]
            omega
          simp [left, Lexeme.text]
        · have left : depthAfter depth (.code c) = depth := by
            simp [depthAfter, Lexeme.turn, close, opening]
          simp [close, opening, left, Lexeme.text]

theorem closingIn_cons_eq_some {depth : Nat} {l : Lexeme} {ls : List Lexeme} {n : Nat}
    (found : closingIn depth (l :: ls) = some n) :
    (l = .code ')' ∧ depth = 0 ∧ n = 0) ∨
      ¬ (l = .code ')' ∧ depth = 0) ∧
        ∃ m, closingIn (depthAfter depth l) ls = some m ∧ n = m + l.text.length := by
  rw [closingIn_cons] at found
  split at found
  · next here => exact .inl ⟨here.1, here.2, (Option.some.inj found).symm⟩
  · next later =>
      obtain ⟨m, inner, rfl⟩ := Option.map_eq_some_iff.mp found
      exact .inr ⟨later, m, inner, rfl⟩

theorem closingIn_append {depth : Nat} {ls : List Lexeme} {n : Nat} (more : List Lexeme)
    (found : closingIn depth ls = some n) : closingIn depth (ls ++ more) = some n := by
  induction ls generalizing depth n with
  | nil => simp [closingIn] at found
  | cons l ls ih =>
      rw [List.cons_append, closingIn_cons]
      rcases closingIn_cons_eq_some found with ⟨close, shallow, rfl⟩ | ⟨later, m, inner, rfl⟩
      · rw [if_pos ⟨close, shallow⟩]
      · rw [if_neg later, ih inner, Option.map_some]

theorem exists_cut_of_closingIn {depth : Nat} {ls : List Lexeme} {n : Nat}
    (found : closingIn depth ls = some n) :
    ∃ first second, ls = first ++ .code ')' :: second ∧ (first.flatMap Lexeme.text).length = n := by
  induction ls generalizing depth n with
  | nil => simp [closingIn] at found
  | cons l ls ih =>
      rcases closingIn_cons_eq_some found with ⟨rfl, -, rfl⟩ | ⟨-, m, inner, rfl⟩
      · exact ⟨[], ls, rfl, rfl⟩
      · obtain ⟨first, second, rfl, position⟩ := ih inner
        refine ⟨l :: first, second, rfl, ?_⟩
        rw [List.flatMap_cons, List.length_append, position, Nat.add_comm]

/-- Past a front that does not hold the closing parenthesis, the search goes on at some depth. -/
theorem exists_closingIn_of_append {depth : Nat} {front ls : List Lexeme} {n : Nat}
    (found : closingIn depth (front ++ ls) = some n) (past : closingIn depth front = none) :
    ∃ deeper m, closingIn deeper ls = some m ∧ n = (front.flatMap Lexeme.text).length + m := by
  induction front generalizing depth n with
  | nil => exact ⟨depth, n, found, by simp⟩
  | cons l front ih =>
      rw [closingIn_cons] at past
      rcases closingIn_cons_eq_some found with ⟨close, shallow, rfl⟩ | ⟨later, m, inner, rfl⟩
      · simp [close, shallow] at past
      · rw [if_neg later, Option.map_eq_none_iff] at past
        obtain ⟨deeper, k, further, rfl⟩ := ih inner past
        refine ⟨deeper, k, further, ?_⟩
        rw [List.flatMap_cons, List.length_append]
        omega

theorem exists_lt_closingIn {depth : Nat} {ls : List Lexeme} {n : Nat}
    (found : closingIn (depth + 1) ls = some n) : ∃ m < n, closingIn depth ls = some m := by
  induction ls generalizing depth n with
  | nil => simp [closingIn] at found
  | cons l ls ih =>
      rcases closingIn_cons_eq_some found with ⟨-, deep, -⟩ | ⟨-, k, inner, rfl⟩
      · omega
      · rw [closingIn_cons]
        split
        · next here =>
            refine ⟨0, ?_, rfl⟩
            rw [here.1]
            exact Nat.succ_pos k
        · next later =>
            have one : depthAfter (depth + 1) l = depthAfter depth l + 1 := by
              simp only [depthAfter]
              by_cases close : l = .code ')'
              · have deep : depth ≠ 0 := fun shallow => later ⟨close, shallow⟩
                simp only [close, Lexeme.turn]
                omega
              · have nonneg := l.turn_nonneg close
                omega
            rw [one] at inner
            obtain ⟨m, earlier, closes⟩ := ih inner
            exact ⟨m + l.text.length, by omega, by rw [closes, Option.map_some]⟩

theorem exists_le_closingIn_zero {depth : Nat} {ls : List Lexeme} {n : Nat}
    (found : closingIn depth ls = some n) : ∃ m ≤ n, closingIn 0 ls = some m := by
  induction depth generalizing n with
  | zero => exact ⟨n, Nat.le_refl n, found⟩
  | succ depth ih =>
      obtain ⟨k, earlier, closes⟩ := exists_lt_closingIn found
      obtain ⟨m, bound, closes⟩ := ih closes
      exact ⟨m, by omega, closes⟩

theorem closingIn_lt_length {depth : Nat} {ls : List Lexeme} {n : Nat}
    (found : closingIn depth ls = some n) : n < (ls.flatMap Lexeme.text).length := by
  obtain ⟨first, second, rfl, rfl⟩ := exists_cut_of_closingIn found
  simp [Lexeme.text]

theorem closingIn_of_lt {depth : Nat} {front ls : List Lexeme} {n : Nat}
    (found : closingIn depth (front ++ ls) = some n)
    (inside : n < (front.flatMap Lexeme.text).length) : closingIn depth front = some n := by
  cases here : closingIn depth front with
  | some k => rw [← found, closingIn_append ls here]
  | none =>
      obtain ⟨deeper, m, -, rfl⟩ := exists_closingIn_of_append found here
      omega

theorem exists_closingIn_nested {outer inner rest : List Lexeme}
    (found : closingIn 0 (outer ++ .code '(' :: inner ++ rest) =
      some ((outer ++ .code '(' :: inner).flatMap Lexeme.text).length) :
    ∃ m, closingIn 0 inner = some m := by
  have unclosed : closingIn 0 outer = none := by
    cases here : closingIn 0 outer with
    | none => rfl
    | some k =>
        have early := closingIn_lt_length here
        rw [List.append_assoc, closingIn_append _ here] at found
        have same := Option.some.inj found
        rw [List.flatMap_append, List.length_append] at same
        omega
  rw [List.append_assoc] at found
  obtain ⟨depth, m, closes, length⟩ := exists_closingIn_of_append found unclosed
  rw [List.cons_append] at closes
  rcases closingIn_cons_eq_some closes with ⟨wrong, -⟩ | ⟨-, k, deeper, rfl⟩
  · simp at wrong
  · have one : depthAfter depth (.code '(') = depth + 1 := by
      simp only [depthAfter, Lexeme.turn]
      omega
    rw [one] at deeper
    obtain ⟨i, earlier, closes⟩ := exists_lt_closingIn deeper
    obtain ⟨j, bound, closes⟩ := exists_le_closingIn_zero closes
    refine ⟨j, closingIn_of_lt closes ?_⟩
    simp only [List.flatMap_append, List.flatMap_cons, List.length_append, Lexeme.text,
      List.length_singleton] at length
    omega

end LiteSql
