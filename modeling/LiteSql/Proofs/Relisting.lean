import LiteSql.Proofs.LineContent

/-! Arguments that are put on one line each and listed again. The commas that divide a list are told
by its code alone, whatever its depth, and putting an argument on one line keeps its code; so the
list is divided where it was. -/

namespace LiteSql

/-- The depth behind code, where each parenthesis that is closed and was not opened counts against
it. -/
def codeLevel (depth : Int) (code : Text) : Int :=
  code.foldl (fun depth c => depth + (Lexeme.code c).turn) depth

def Unparted (depth : Int) (code : Text) : Prop := ∀ y z, code = y ++ ',' :: z →
    codeLevel depth y ≠ 0

theorem Unparted.of_cons {depth : Int} {c : Char} {code : Text}
    (unparted : Unparted depth (c :: code)) :
    Unparted (depth + (Lexeme.code c).turn) code :=
  fun y z cut => unparted (c :: y) z (by rw [cut]; rfl)

theorem Unparted.cons {depth : Int} {c : Char} {code : Text} (apart : ¬ (c = ',' ∧ depth = 0))
    (unparted : Unparted (depth + (Lexeme.code c).turn) code) : Unparted depth (c :: code) := by
  rintro (_ | ⟨d, y⟩) z cut
  · obtain ⟨rfl, -⟩ := List.cons.inj cut
    exact fun zero => apart ⟨rfl, zero⟩
  · obtain ⟨rfl, rest⟩ := List.cons.inj cut
    exact unparted y z rest

theorem solidCode_cons_cases (l : Lexeme) :
    (∃ c, l = .code c ∧ ∀ ls, solidCode (l :: ls) = c :: solidCode ls) ∨
      (l.turn = 0 ∧ l ≠ .code ',' ∧ ∀ ls, solidCode (l :: ls) = solidCode ls) := by
  cases l with
  | literal kind text => exact .inr ⟨rfl, nofun, fun _ => rfl⟩
  | code c =>
      cases blank : isBlank c with
      | false => exact .inl ⟨c, rfl, fun ls => by simp [solidCode, Lexeme.solid?, blank]⟩
      | true =>
          have other {d : Char} (solid : isBlank d = false) : c ≠ d := by
            rintro rfl
            rw [blank] at solid
            cases solid
          have opened : c ≠ '(' := other (by decide)
          have closed : c ≠ ')' := other (by decide)
          have comma : c ≠ ',' := other (by decide)
          exact .inr ⟨by simp [Lexeme.turn, opened, closed], by simpa using comma,
            fun ls => by simp [solidCode, Lexeme.solid?, blank]⟩

theorem piecesAt_of_unparted {depth : Int} {x : List Lexeme}
    (unparted : Unparted depth (solidCode x)) :
    piecesAt depth x = [x.flatMap Lexeme.text] ∧ (codeLevel depth (solidCode x) = 0 → ∀ rest,
      piecesAt depth (x ++ .code ',' :: rest) = x.flatMap Lexeme.text :: piecesAt 0 rest) := by
  induction x generalizing depth with
  | nil =>
      refine ⟨rfl, fun zero rest => ?_⟩
      obtain rfl : depth = 0 := zero
      rw [List.nil_append, piecesAt, if_pos ⟨rfl, rfl⟩]
      rfl
  | cons l x ih =>
      obtain ⟨apart, later, level⟩ : ¬ (l = .code ',' ∧ depth = 0) ∧
          Unparted (depth + l.turn) (solidCode x) ∧
          codeLevel depth (solidCode (l :: x)) = codeLevel (depth + l.turn) (solidCode x) := by
        rcases solidCode_cons_cases l with ⟨c, rfl, cons⟩ | ⟨still, other, same⟩
        · rw [cons] at unparted ⊢
          refine ⟨fun comma => ?_, unparted.of_cons, rfl⟩
          cases comma.1
          exact unparted [] _ rfl comma.2
        · rw [same] at unparted ⊢
          rw [still, Int.add_zero]
          exact ⟨fun comma => other comma.1, unparted, rfl⟩
      obtain ⟨alone, before⟩ := ih later
      refine ⟨by rw [piecesAt, if_neg apart, alone]; rfl, fun zero rest => ?_⟩
      rw [List.cons_append, piecesAt, if_neg apart, before (level ▸ zero)]
      rfl

theorem exists_part (depth : Int) (ls : List Lexeme) : Unparted depth (solidCode ls) ∨
    ∃ x rest, ls = x ++ .code ',' :: rest ∧ Unparted depth (solidCode x) ∧
      codeLevel depth (solidCode x) = 0 := by
  have nothing (depth : Int) : Unparted depth [] := fun y z cut => absurd cut (by simp)
  induction ls generalizing depth with
  | nil => exact .inl (nothing depth)
  | cons l ls ih =>
      by_cases comma : l = .code ',' ∧ depth = 0
      · exact .inr ⟨[], ls, by rw [comma.1]; rfl, nothing depth, comma.2⟩
      · have longer {x : List Lexeme} (unparted : Unparted (depth + l.turn) (solidCode x)) :
            Unparted depth (solidCode (l :: x)) ∧
              codeLevel depth (solidCode (l :: x)) = codeLevel (depth + l.turn) (solidCode x) := by
          rcases solidCode_cons_cases l with ⟨c, rfl, cons⟩ | ⟨still, -, same⟩
          · rw [cons]
            exact ⟨.cons (by simpa using comma) unparted, rfl⟩
          · rw [same]
            rw [still, Int.add_zero] at unparted ⊢
            exact ⟨unparted, rfl⟩
        rcases ih (depth + l.turn) with unparted | ⟨x, rest, rfl, unparted, zero⟩
        · exact .inl (longer unparted).1
        · exact .inr ⟨l :: x, rest, rfl, (longer unparted).1, (longer unparted).2.trans zero⟩

/-! ### Pieces on one line -/

theorem solidCode_onOneLine_trim {x : List Lexeme} (read : lexemes (x.flatMap Lexeme.text) = x) :
    solidCode (lexemes (onOneLine (trim (x.flatMap Lexeme.text)))) = solidCode x := by
  rw [solidCode_onOneLine, (sameContent_trim _).code, read]

theorem map_trim_extendFirst {pieces : List Text} (present : pieces ≠ []) :
    (extendFirst [' '] pieces).map trim = pieces.map trim := by
  obtain ⟨piece, pieces, rfl⟩ := List.exists_cons_of_ne_nil present
  rfl

theorem map_trim_piecesAt_joinArguments {ls : List Lexeme}
    (read : lexemes (ls.flatMap Lexeme.text) = ls) :
    (piecesAt 0 (lexemes (joinArguments ((piecesAt 0 ls).map fun s => onOneLine (trim s))))).map
      trim =
      (piecesAt 0 ls).map fun s => onOneLine (trim s) := by
  induction size : ls.length using Nat.strongRecOn generalizing ls with
  | ind length ih =>
      subst size
      rcases exists_part 0 ls with unparted | ⟨x, rest, rfl, unparted, zero⟩
      · have alone := (piecesAt_of_unparted unparted).1
        rw [← solidCode_onOneLine_trim read] at unparted
        have again := (piecesAt_of_unparted unparted).1
        rw [flatMap_text_lexemes] at again
        rw [alone, List.map_singleton, joinArguments, joinWith, again, List.map_singleton,
          trim_onOneLine]
      · have cut : x ++ .code ',' :: rest = x ++ ([.code ','] ++ rest) := rfl
        have front : lexemes (x.flatMap Lexeme.text ++ ',' :: rest.flatMap Lexeme.text) =
            x ++ lexemes (',' :: rest.flatMap Lexeme.text) := by
          obtain ⟨-, later⟩ := lexemes_of_append read
          rw [List.flatMap_append] at read
          exact read.trans (congrArg (x ++ ·) later.symm)
        have behind : lexemes (rest.flatMap Lexeme.text) = rest := by
          rw [cut, ← List.append_assoc] at read
          exact (lexemes_of_append read).2
        have others := ih rest.length (by simp; omega) behind rfl
        have pieces := (piecesAt_of_unparted unparted).2 zero rest
        obtain ⟨core, closed, -, line, -⟩ := exists_onOneLine_trim (by simp) front
        have code := solidCode_onOneLine_trim (lexemes_front front)
        rw [line, closed.lexemes_text] at code
        rw [← code] at unparted zero
        generalize listed : (piecesAt 0 rest).map (fun s => onOneLine (trim s)) = lines at others
        have present : lines ≠ [] := by
          rw [← listed]
          simpa using piecesAt_ne_nil 0 rest
        have joined : joinArguments (core.flatMap Lexeme.text :: lines) =
            core.flatMap Lexeme.text ++ (',' :: ' ' :: joinArguments lines) := by
          rw [joinArguments, joinWith_cons present, List.append_assoc]
          rfl
        have spaced : lexemes (',' :: ' ' :: joinArguments lines) =
            .code ',' :: .code ' ' :: lexemes (joinArguments lines) :=
          lexemes_append_of_isPlain ", " (joinArguments lines) (by decide)
        have space : piecesAt 0 (.code ' ' :: lexemes (joinArguments lines)) =
            extendFirst [' '] (piecesAt 0 (lexemes (joinArguments lines))) := rfl
        have whole := closed.read (',' :: ' ' :: joinArguments lines) rfl
        rw [pieces, List.map_cons, listed, line, joined, whole, spaced,
          (piecesAt_of_unparted unparted).2 zero, List.map_cons, space,
          map_trim_extendFirst (piecesAt_ne_nil 0 _), others, ← line, trim_onOneLine]

theorem isBlank_of_trim_eq_nil {s : Text} (none : trim s = []) : ∀ c ∈ s, isBlank c = true := by
  obtain ⟨before, after, whole, leading, trailing⟩ := Layout.exists_trim_eq s
  rw [none, List.nil_append] at whole
  intro c member
  rw [whole] at member
  exact (List.mem_append.mp member).elim (leading c) (trailing c)

theorem isBlank_of_onOneLine_eq_nil {s : Text} (none : onOneLine s = []) :
    ∀ c ∈ s, isBlank c = true := by
  rw [onOneLine_eq] at none
  have read := lexemes_squeeze_closed s
  rw [lexemes_of_isBlank (isBlank_of_trim_eq_nil none)] at read
  have blank : filled ((lexemes s).map Lexeme.closed) = [] := by
    rw [← filled_squeeze, ← read, filled_eq_nil_iff]
    exact isBlank_of_mem_map (isBlank_of_trim_eq_nil none)
  have each : ∀ l ∈ lexemes s, l.isBlank = true := by
    intro l member
    have closed := (filled_eq_nil_iff _).mp blank l.closed (List.mem_map_of_mem member)
    cases l with
    | code c => exact closed
    | literal kind text => cases kind <;> cases closed
  have texts := isBlank_of_mem_flatMap_text each
  rwa [flatMap_text_lexemes] at texts

theorem not_blank_joinArguments {inner : Text} (filled : ¬ ∀ c ∈ inner, isBlank c = true) :
    ¬ ∀ c ∈ joinArguments ((piecesAt 0 (lexemes inner)).map fun s => onOneLine (trim s)),
    isBlank c = true := by
  intro blank
  rcases exists_part 0 (lexemes inner) with unparted | ⟨x, rest, cut, unparted, zero⟩
  · rw [(piecesAt_of_unparted unparted).1, flatMap_text_lexemes] at blank
    have none : onOneLine (trim inner) = [] := by
      rw [← trim_onOneLine]
      exact trim_eq_nil blank
    have empty := trim_eq_nil (isBlank_of_onOneLine_eq_nil none)
    rw [trim_trim] at empty
    exact filled (isBlank_of_trim_eq_nil empty)
  · have present : (piecesAt 0 rest).map (fun s => onOneLine (trim s)) ≠ [] := by
      simpa using piecesAt_ne_nil 0 rest
    rw [cut, (piecesAt_of_unparted unparted).2 zero, List.map_cons, joinArguments,
      joinWith_cons present] at blank
    exact absurd (blank ',' (by simp)) (by decide)

/-- A list whose arguments are put on one line each is split into the same arguments again. -/
theorem splitArguments_joinArguments_onOneLine (inner : Text) :
    splitArguments (joinArguments ((splitArguments inner).map onOneLine)) =
      (splitArguments inner).map onOneLine := by
  by_cases blank : inner.all isBlank = true
  · have none : splitArguments inner = [] := if_pos blank
    rw [none]
    rfl
  · have read : lexemes ((lexemes inner).flatMap Lexeme.text) = lexemes inner := by
      rw [flatMap_text_lexemes]
    have relisted := map_trim_piecesAt_joinArguments read
    have lines : (splitArguments inner).map onOneLine = (piecesAt 0 (lexemes inner)).map fun s =>
        onOneLine (trim s) := by
      rw [splitArguments, if_neg blank, List.map_map]
      rfl
    rw [lines, splitArguments, relisted, if_neg]
    rw [List.all_eq_true] at blank ⊢
    exact not_blank_joinArguments blank

end LiteSql
