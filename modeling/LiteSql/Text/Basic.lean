import LiteSql.Text.CharClass

/-! Statement texts, blanks, trimming and the small searches that every later module uses.
A text is a list of characters and positions in it count characters. -/

namespace LiteSql

abbrev Text := List Char

instance : Coe String Text := ⟨String.toList⟩

/-- A property of all characters of a text is checked on the text, not on all characters there are.
-/
instance (priority := high) decidableForallMem (s : Text) (p : Char → Prop) [DecidablePred p] :
    Decidable (∀ c ∈ s, p c) :=
  List.decidableBAll p s

/-- Blank characters: spaces of any width, tabs, line and paragraph breaks, and the separators
U+001C to U+001F. A zero-width space is not blank. -/
def isBlank (c : Char) : Bool :=
  inRanges [(0x9, 0xd), (0x1c, 0x20), (0x85, 0x85), (0xa0, 0xa0), (0x1680, 0x1680),
    (0x2000, 0x200a), (0x2028, 0x2029), (0x202f, 0x202f), (0x205f, 0x205f), (0x3000, 0x3000)] c

/-- Drops the characters of a class from the end of a text. A character stays if something after it
stays or if it is not in the class. -/
def dropEndWhile (p : Char → Bool) : Text → Text
  | [] => []
  | c :: s =>
    let kept := dropEndWhile p s
    if kept.isEmpty && p c then [] else c :: kept

def trimEnd (s : Text) : Text := dropEndWhile isBlank s

def trim (s : Text) : Text := trimEnd (s.dropWhile isBlank)

def includes (part : Text) : Text → Bool
  | [] => part.isEmpty
  | c :: s => part.isPrefixOf (c :: s) || includes part s

def extendFirst (head : Text) : List Text → List Text
  | [] => [head]
  | piece :: pieces => (head ++ piece) :: pieces

/-- The lines of a text. Only a line feed ends a line, and there is always at least one line. -/
def lines : Text → List Text
  | [] => [[]]
  | c :: s => if c = '\n' then [] :: lines s else extendFirst [c] (lines s)

def joinWith (separator : Text) : List Text → Text
  | [] => []
  | [s] => s
  | s :: t :: rest => s ++ separator ++ joinWith separator (t :: rest)

/-- Puts a blank between `first` and `second` wherever they stand together. -/
def spaceOut (first second : Char) : Text → Text
  | c :: d :: s =>
    if c = first ∧ d = second then c :: ' ' :: d :: spaceOut first second s
    else c :: spaceOut first second (d :: s)
  | s => s

theorem take_append_cons_drop (s : Text) (n : Nat) (c : Char) (here : s[n]? = some c) :
    s.take n ++ c :: s.drop (n + 1) = s := by
  induction s generalizing n with
  | nil => simp at here
  | cons d s ih =>
      cases n with
      | zero => simp at here; simp [here]
      | succ n => simpa using ih n (by simpa using here)

theorem extendFirst_ne_nil (head : Text) (pieces : List Text) : extendFirst head pieces ≠ [] := by
  cases pieces <;> simp [extendFirst]

theorem lines_ne_nil (s : Text) : lines s ≠ [] := by
  cases s with
  | nil => simp [lines]
  | cons c s =>
      rw [lines]
      split
      · simp
      · exact extendFirst_ne_nil _ _

theorem joinWith_extendFirst (separator head : Text) (pieces : List Text) (present : pieces ≠ []) :
    joinWith separator (extendFirst head pieces) = head ++ joinWith separator pieces := by
  match pieces with
  | [] => exact absurd rfl present
  | [piece] => rfl
  | piece :: next :: rest => simp [extendFirst, joinWith]

theorem joinWith_nil_cons (separator : Text) (pieces : List Text) (present : pieces ≠ []) :
    joinWith separator ([] :: pieces) = separator ++ joinWith separator pieces := by
  match pieces with
  | [] => exact absurd rfl present
  | piece :: rest => simp [joinWith]

theorem joinWith_lines (s : Text) : joinWith ['\n'] (lines s) = s := by
  induction s with
  | nil => rfl
  | cons c s ih =>
      rw [lines]
      split
      · next newline => rw [joinWith_nil_cons _ _ (lines_ne_nil s), ih, newline]; rfl
      · rw [joinWith_extendFirst _ _ _ (lines_ne_nil s), ih]; rfl

end LiteSql
