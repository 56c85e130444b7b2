import LiteSql.Proofs.Balance

/-! Lexemes that are changed piece by piece. Parentheses close as before if balanced pieces give way
to balanced ones, and the result is read as it stands if each new piece is. A change that spares
what follows a word makes no new call at a lexeme that is kept. -/

namespace LiteSql

/-! ### Parentheses -/

/-- Whether the same parentheses are open behind two lists of lexemes, and whether one is closed in
both. -/
structure ClosesAlike (ls ms : List Lexeme) : Prop where
  level : ∀ depth, levelAfter depth ms = levelAfter depth ls
  closing : ∀ depth, (closingIn depth ms).isSome = (closingIn depth ls).isSome

namespace ClosesAlike

variable {ls ms : List Lexeme}

theorem nil : ClosesAlike [] [] := ⟨fun _ => rfl, fun _ => rfl⟩

theorem cons (l : Lexeme) (later : ClosesAlike ls ms) : ClosesAlike (l :: ls) (l :: ms) where
  level depth := by rw [levelAfter, levelAfter, later.level]
  closing depth := by
    rw [closingIn_cons, closingIn_cons]
    split
    · rfl
    · rw [Option.isSome_map, Option.isSome_map, later.closing]

theorem append {old new : List Lexeme} (before : Balanced old) (after : Balanced new)
    (later : ClosesAlike ls ms) :
    ClosesAlike (old ++ ls) (new ++ ms) where
  level depth := by rw [after.levelAfter_append, before.levelAfter_append, later.level]
  closing depth := by rw [after.isSome_closingIn_append, before.isSome_closingIn_append,
    later.closing]

theorem balanced (alike : ClosesAlike ls ms) (source : Balanced ls) : Balanced ms :=
  (alike.level 0).trans source

end ClosesAlike

/-! ### Reading -/

theorem read_cut {a b : List Lexeme} {rest : Text}
    (read : lexemes ((a ++ b).flatMap Lexeme.text ++ rest) = a ++ b ++ lexemes rest) :
    lexemes (a.flatMap Lexeme.text ++ (b.flatMap Lexeme.text ++ rest)) =
        a ++ lexemes (b.flatMap Lexeme.text ++ rest) ∧
      lexemes (b.flatMap Lexeme.text ++ rest) = b ++ lexemes rest := by
  rw [List.flatMap_append, List.append_assoc, List.append_assoc] at read
  obtain ⟨-, later⟩ := lexemes_of_append read
  rw [List.flatMap_append, flatMap_text_lexemes] at later
  exact ⟨by rw [read, later], later⟩

theorem SameSeam.of_letter {c d : Char} (letter : isWordChar c = true)
    (other : d ∉ ['\x27', '-', '*']) (x y : Text) :
    SameSeam (c :: x) (d :: y) where
  ended none := absurd none (List.cons_ne_nil _ _)
  newline feed := by
    cases feed
    exact absurd letter (by decide)
  special e sign here := by
    cases here
    exact absurd sign other

theorem not_mem_special_of_isWordChar {c : Char} (letter : isWordChar c = true) :
    c ∉ ['\x27', '-', '*'] := by
  intro sign
  have signs : ∀ d ∈ ['\x27', '-', '*'], isWordChar d = false := by decide
  rw [signs c sign] at letter
  cases letter

/-- Whether lexemes are read as they stand before a text if others are, and can stand in their
place. -/
def ReadsAlike (ls ms : List Lexeme) (rest : Text) : Prop :=
  lexemes (ls.flatMap Lexeme.text ++ rest) = ls ++ lexemes rest →
    lexemes (ms.flatMap Lexeme.text ++ rest) = ms ++ lexemes rest ∧
      SameSeam (ls.flatMap Lexeme.text ++ rest) (ms.flatMap Lexeme.text ++ rest)

namespace ReadsAlike

variable {ls ms : List Lexeme} {rest : Text}

theorem nil (rest : Text) : ReadsAlike [] [] rest := fun source => ⟨source, .refl rest⟩

theorem cons (l : Lexeme) (later : ReadsAlike ls ms rest) :
    ReadsAlike (l :: ls) (l :: ms) rest := by
  intro source
  obtain ⟨tail, cut, leads, behind⟩ := exists_leads_of_lexemes_eq_cons source
  rw [List.flatMap_cons, List.append_assoc, List.append_cancel_left_eq] at cut
  subst cut
  obtain ⟨same, seam⟩ := later behind
  rw [List.flatMap_cons, List.flatMap_cons, List.append_assoc, List.append_assoc,
    lexemes_append_of_leads (leads.congr seam), same]
  exact ⟨rfl, seam.append l.text⟩

theorem append {old new : List Lexeme} (read : ∀ t, lexemes (new.flatMap Lexeme.text ++ t) =
    new ++ lexemes t)
    (seam : ∀ s t, SameSeam (old.flatMap Lexeme.text ++ s) (new.flatMap Lexeme.text ++ t))
    (later : ReadsAlike ls ms rest) : ReadsAlike (old ++ ls) (new ++ ms) rest := by
  intro source
  obtain ⟨same, -⟩ := later (read_cut source).2
  rw [List.flatMap_append, List.flatMap_append, List.append_assoc, List.append_assoc, read, same,
    List.append_assoc]
  exact ⟨rfl, seam _ _⟩

theorem lexemes_text (alike : ReadsAlike ls ms [])
    (source : lexemes (ls.flatMap Lexeme.text) = ls) :
    lexemes (ms.flatMap Lexeme.text) = ms := by
  have result := (alike (by rw [List.append_nil, source, lexemes_nil, List.append_nil])).1
  rwa [List.append_nil, lexemes_nil, List.append_nil] at result

end ReadsAlike

/-! ### Words -/

/-- Changes of lexemes behind others that keep everything where a word goes on. -/
structure KeepsWords (changes : List Lexeme → List Lexeme → List Lexeme → Prop) : Prop where
  next : ∀ {front ls ms}, changes front ls ms →
    (front.map Lexeme.outline).getLast?.any isWordChar = true →
    (ls = [] ∧ ms = []) ∨ ∃ l rest others, ls = l :: rest ∧ ms = l :: others ∧
      changes (front ++ [l]) rest others

namespace KeepsWords

variable {changes : List Lexeme → List Lexeme → List Lexeme → Prop} (keeps : KeepsWords changes)
  {front ls ms : List Lexeme}

include keeps

theorem flip : KeepsWords fun front ms ls => changes front ls ms where
  next changed inside := by
    rcases keeps.next changed inside with ⟨rfl, rfl⟩ | ⟨l, rest, others, rfl, rfl, later⟩
    · exact .inl ⟨rfl, rfl⟩
    · exact .inr ⟨l, others, rest, rfl, rfl, later⟩

theorem head?_eq (changed : changes front ls ms)
    (inside : (front.map Lexeme.outline).getLast?.any isWordChar = true) : ls.head? = ms.head? := by
  rcases keeps.next changed inside with ⟨rfl, rfl⟩ | ⟨l, rest, others, rfl, rfl, -⟩
  · rfl
  · rfl

theorem exists_letters {x : Text} (letters : ∀ c ∈ x, isWordChar c = true)
    (changed : changes front ls (x.map .code ++ ms))
    (inside : (front.map Lexeme.outline).getLast?.any isWordChar = true) :
    ∃ rest, ls = x.map .code ++ rest ∧ changes (front ++ x.map .code) rest ms ∧
      ((front ++ x.map Lexeme.code).map Lexeme.outline).getLast?.any isWordChar = true := by
  induction x generalizing front ls with
  | nil => exact ⟨ls, rfl, by simpa using changed, by simpa using inside⟩
  | cons c x ih =>
      obtain ⟨letter, others⟩ := List.forall_mem_cons.mp letters
      rcases keeps.next changed inside with ⟨-, none⟩ | ⟨l, rest, others', rfl, cut, later⟩
      · cases none
      · cases cut
        obtain ⟨tail, rfl, goes, ended⟩ := ih others later (by
          rw [List.map_append, List.map_singleton, List.getLast?_concat]
          exact letter)
        rw [List.append_assoc] at goes ended
        exact ⟨tail, rfl, goes, ended⟩

theorem exists_word {c : Char} {w : Text} (letter : isWordChar c = true)
    (letters : ∀ d ∈ w, isWordChar d = true)
    (later : changes (front ++ [.code c]) ls (w.map .code ++ ms)) :
    ∃ rest, ls = w.map .code ++ rest ∧ changes (front ++ (c :: w).map .code) rest ms ∧
      ((front ++ (c :: w).map Lexeme.code).map Lexeme.outline).getLast?.any isWordChar = true := by
  obtain ⟨rest, cut, goes, inside⟩ := keeps.exists_letters letters later (by
    rw [List.map_append, List.map_singleton, List.getLast?_concat]
    exact letter)
  rw [List.append_assoc] at goes inside
  exact ⟨rest, cut, goes, inside⟩

/-- Where a lexeme is kept, no call starts unless one starts there in the source. -/
theorem startsNoCall (closes : ∀ {front ls ms}, changes front ls ms → ClosesAlike ls ms)
    {name : Text}
    (ascii : IsAsciiWord name) {l : Lexeme} (uncalled : StartsNoCall name front (l :: ls))
    (later : changes (front ++ [l]) ls ms) {early : List Lexeme}
    (follows : (early.flatMap Lexeme.text).getLast?.any continuesName = false →
      (front.flatMap Lexeme.text).getLast?.any continuesName = false) :
        StartsNoCall name early (l :: ms) := by
  intro written inner behind result cut
  obtain ⟨present, letters⟩ := isWordChar_of_spelled ascii cut.named
  obtain ⟨c, w, rfl⟩ := List.exists_cons_of_ne_nil present
  obtain ⟨letter, others⟩ := List.forall_mem_cons.mp letters
  have whole (inner behind : List Lexeme) : callLexemes (c :: w) inner ++ behind =
      .code c :: (w.map .code ++ .code '(' :: (inner ++ .code ')' :: behind)) := by
    simp [callLexemes]
  rw [whole] at result
  obtain ⟨rfl, rfl⟩ := List.cons.inj result
  obtain ⟨rest, rfl, later, inside⟩ := keeps.exists_word letter others later
  rcases keeps.next later inside with ⟨-, none⟩ | ⟨l, rest, others, rfl, opened, later⟩
  · cases none
  · -- the argument list is closed in the source as well
    cases opened
    have closing := (closes later).closing 0
    rw [cut.balanced.closingIn_append, Option.isSome_some] at closing
    obtain ⟨n, found⟩ := Option.isSome_iff_exists.mp closing.symm
    obtain ⟨first, second, rfl, level, -⟩ := exists_level_of_closingIn found
    exact uncalled _ first second (whole first second).symm ⟨cut.named, follows cut.separate, level⟩

end KeepsWords

end LiteSql
