import LiteSql.Proofs.Substitution

/-! The words of a text outside its literals. -/

namespace LiteSql

def words : Text → List Text
  | [] => []
  | c :: s =>
    if isWordChar c then
      if s.head?.any isWordChar then extendFirst [c] (words s) else [c] :: words s
    else words s

theorem words_of_head {s : Text} (head : s.head?.any isWordChar = true) :
    words s = s.takeWhile isWordChar :: words (s.dropWhile isWordChar) := by
  induction s with
  | nil => cases head
  | cons c s ih =>
      have first : isWordChar c = true := head
      rw [words, if_pos first, List.takeWhile_cons_of_pos first, List.dropWhile_cons_of_pos first]
      split
      · next more =>
          rw [ih more]
          rfl
      · next ended =>
          cases s with
          | nil => rfl
          | cons d s =>
              have second : ¬ isWordChar d = true := ended
              rw [List.takeWhile_cons_of_neg second, List.dropWhile_cons_of_neg second]

theorem words_append (x rest : Text)
    (apart : x.getLast?.any isWordChar = false ∨ rest.head?.any isWordChar = false) :
    words (x ++ rest) = words x ++ words rest := by
  induction x with
  | nil => rfl
  | cons c x ih =>
      cases x with
      | nil =>
          rw [List.singleton_append, words, words]
          cases first : isWordChar c with
          | false => rfl
          | true =>
              have ended : rest.head?.any isWordChar = false := by
                simpa [first] using apart
              simp [ended, words]
      | cons d x =>
          have later := ih (by simpa using apart)
          rw [List.cons_append, words, words, later]
          cases second : isWordChar d with
          | false => split <;> simp [second]
          | true =>
              have head : (d :: x).head?.any isWordChar = true := second
              rw [words_of_head head]
              split <;> simp [second, extendFirst]

theorem words_eq_nil {s : Text} (none : ∀ c ∈ s, isWordChar c = false) : words s = [] := by
  induction s with
  | nil => rfl
  | cons c s ih =>
      rw [words, none c List.mem_cons_self]
      exact ih fun d member => none d (List.mem_cons_of_mem c member)

theorem mem_words_iff (w s : Text) :
    w ∈ words s ↔ ∃ front rest, s = front ++ rest ∧ front.getLast?.any isWordChar = false ∧
      rest.head?.any isWordChar = true ∧ w = rest.takeWhile isWordChar := by
  constructor
  · intro member
    induction size : s.length using Nat.strongRecOn generalizing s with
    | ind n ih =>
      cases s with
      | nil => cases member
      | cons c s =>
          cases first : isWordChar c with
          | false =>
              rw [words, first] at member
              obtain ⟨front, rest, rfl, ended, head, rfl⟩ :=
                ih s.length (by simp [← size]) s member rfl
              refine ⟨c :: front, rest, rfl, ?_, head, rfl⟩
              cases front with
              | nil => exact first
              | cons d front => exact ended
          | true =>
              have head : (c :: s).head?.any isWordChar = true := first
              rw [words_of_head head, List.mem_cons] at member
              rcases member with rfl | later
              · exact ⟨[], c :: s, rfl, rfl, head, rfl⟩
              · have shorter : ((c :: s).dropWhile isWordChar).length < n := by
                  rw [← size, List.dropWhile_cons_of_pos first, List.length_cons]
                  exact Nat.lt_succ_of_le (List.dropWhile_suffix isWordChar).length_le
                obtain ⟨front, rest, cut, ended, next, rfl⟩ := ih _ shorter _ later rfl
                refine ⟨(c :: s).takeWhile isWordChar ++ front, rest, ?_, ?_, next, rfl⟩
                · rw [List.append_assoc, ← cut, List.takeWhile_append_dropWhile]
                · cases front with
                  | nil =>
                      -- the word before would reach on
                      have stopped := List.head?_dropWhile_not isWordChar (c :: s)
                      rw [cut, List.nil_append] at stopped
                      cases rest with
                      | nil => cases next
                      | cons d rest =>
                          have second : isWordChar d = true := next
                          simp [second] at stopped
                  | cons d front => simpa [List.getLast?_append, List.getLast?_cons] using ended
  · rintro ⟨front, rest, rfl, ended, head, rfl⟩
    rw [words_append front rest (.inl ended), words_of_head head]
    simp

/-- The character that a lexeme shows when only code is looked at: a literal looks like a space. -/
def Lexeme.outline : Lexeme → Char
  | .code c => c
  | .literal _ _ => ' '

theorem map_outline_map_code (x : Text) : (x.map Lexeme.code).map Lexeme.outline = x := by
  induction x with
  | nil => rfl
  | cons c x ih => exact congrArg (c :: ·) ih

def codeWords (s : Text) : List Text := words ((lexemes s).map Lexeme.outline)

theorem codeWords_eq (s : Text) : codeWords s = (codeSegments s).flatMap words := by
  have spell := spell_segments s
  rw [codeWords, codeSegments]
  generalize segments s = segs, lexemes s = ls at spell
  induction spell with
  | nil => rfl
  | @literal kind text segs ls _ ih =>
      have gap : words ((Lexeme.literal kind text :: ls).map Lexeme.outline) =
          words (ls.map Lexeme.outline) := rfl
      rw [gap, ih]
      rfl
  | @code x segs ls apart later ih =>
      have ended : (ls.map Lexeme.outline).head?.any isWordChar = false := by
        cases later with
        | nil => rfl
        | literal kind text later => rfl
        | code y _ _ => exact absurd rfl (apart y _)
      rw [List.map_append, map_outline_map_code, words_append x _ (.inr ended), ih]
      rfl

def spelled (k w : Text) : Bool := startsIgnoringCase k w && w.length == k.length

theorem any_getLast?_outline {ls : List Lexeme} {before : Option Char}
    (text : (ls.flatMap Lexeme.text).getLast? = before)
    (separate : before.any continuesName = false) :
    (ls.map Lexeme.outline).getLast?.any isWordChar = false := by
  rcases List.eq_nil_or_concat ls with rfl | ⟨front, l, rfl⟩
  · rfl
  · rw [List.concat_eq_append, List.map_append, List.map_singleton, List.getLast?_concat,
      Option.any_some]
    cases l with
    | literal kind text => rfl
    | code c =>
        rw [List.concat_eq_append, List.flatMap_append, List.flatMap_singleton] at text
        have last : before = some c := by
          rw [← text]
          exact List.getLast?_concat
        rw [last, Option.any_some] at separate
        have other := mt (continuesName_of_isWordChar c)
        rw [separate] at other
        exact Bool.eq_false_iff.mpr (other (by simp))

def IsAsciiWord (k : Text) : Prop := k ≠ [] ∧ ∀ c ∈ k, c.toNat < 0x80 ∧ isWordChar c = true

instance (k : Text) : Decidable (IsAsciiWord k) :=
  inferInstanceAs (Decidable (k ≠ [] ∧ ∀ c ∈ k, c.toNat < 0x80 ∧ isWordChar c = true))

theorem Rule.isAsciiWord_function? {rule : Rule} {function : Text} (member : rule ∈ table)
    (named : rule.function? = some function) : IsAsciiWord function := by
  have checked : ∀ rule ∈ table, ∀ function ∈ rule.function?, IsAsciiWord function := by
    decide +kernel
  exact checked rule member function named

theorem isWordChar_of_spelled {k w : Text} (ascii : IsAsciiWord k) (same : spelled k w = true) :
    w ≠ [] ∧ ∀ c ∈ w, isWordChar c = true := by
  rw [spelled, Bool.and_eq_true, beq_iff_eq] at same
  obtain ⟨starts, length⟩ := same
  refine ⟨fun none => ascii.1 (List.eq_nil_of_length_eq_zero (by simp [← length, none])), ?_⟩
  intro c member
  obtain ⟨i, bound, rfl⟩ := List.getElem_of_mem member
  have inside : i < k.length := by omega
  obtain ⟨d, here, same⟩ := getElem?_of_startsIgnoringCase starts (List.getElem?_eq_getElem inside)
  obtain rfl : d = w[i] := by
    rw [List.getElem?_eq_getElem bound] at here
    exact (Option.some.inj here).symm
  obtain ⟨narrow, letter⟩ := ascii.2 _ (List.getElem_mem inside)
  rwa [← isWordChar_congr same (.inl narrow)]

theorem IsCall.exists_mem_codeWords {name s : Text} (ascii : IsAsciiWord name)
    {pos close : Nat} (call : IsCall name s pos close) : ∃ w ∈ codeWords s,
    spelled name w = true := by
  have word : ∀ c ∈ name, isWordChar c = true := fun c member => (ascii.2 c member).2
  have length := (List.getElem?_eq_some_iff.mp call.opened).1
  obtain ⟨first, read, text⟩ := exists_cut_of_not_inLiteral s pos (by omega) call.outside
  rw [lexemes_of_opened word call.named (by rw [List.getElem?_drop, call.opened])] at read
  have same : spelled name ((s.drop pos).take name.length) = true := by
    rw [spelled, startsIgnoringCase_take _ _ _ (Nat.le_refl _), call.named, Bool.true_and,
      beq_iff_eq, List.length_take, List.length_drop]
    omega
  refine ⟨(s.drop pos).take name.length, ?_, same⟩
  generalize (s.drop pos).take name.length = w at read same
  obtain ⟨filled, letters⟩ := isWordChar_of_spelled ascii same
  rw [codeWords, read, List.map_append, List.map_append, map_outline_map_code, List.map_cons,
    mem_words_iff]
  refine ⟨_, _, rfl, any_getLast?_outline (by rw [text]) call.separate, ?_, ?_⟩
  · obtain ⟨c, w, rfl⟩ := List.exists_cons_of_ne_nil filled
    exact letters c List.mem_cons_self
  · rw [List.takeWhile_append_of_pos letters]
    exact (List.append_nil w).symm

/-! ### Counting in pieces -/

def total (count : Text → Nat) : List Text → Nat
  | [] => 0
  | x :: pieces => count x + total count pieces

theorem total_congr {count other : Text → Nat} (same : ∀ x, count x = other x)
    {pieces : List Text} :
    total count pieces = total other pieces := congrArg (total · pieces) (funext same)

theorem length_flatMap_eq_total {α : Type} (f : Text → List α) (pieces : List Text) :
    (pieces.flatMap f).length = total (fun x => (f x).length) pieces := by
  induction pieces with
  | nil => rfl
  | cons x pieces ih => rw [List.flatMap_cons, List.length_append, ih, total]

theorem countP_flatMap_eq_total {α : Type} (q : α → Bool) (f : Text → List α) (pieces : List Text) :
    (pieces.flatMap f).countP q = total (fun x => (f x).countP q) pieces := by
  induction pieces with
  | nil => rfl
  | cons x pieces ih => rw [List.flatMap_cons, List.countP_append, ih, total]

end LiteSql
