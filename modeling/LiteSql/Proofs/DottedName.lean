import LiteSql.Proofs.OneLine
import LiteSql.Proofs.WordStep

/-! Names of several parts. The dots between their parts are read from the left, and a part of one
letter that has been joined to the part before it is not joined to the part behind it. -/

namespace LiteSql

def Lexeme.isWord : Lexeme → Bool
  | .code c => isWordChar c
  | .literal _ _ => false

theorem Lexeme.isBlank_of_isWord {l : Lexeme} (word : l.isWord = true) : l.isBlank = false := by
  cases l with
  | code c => exact isBlank_of_isWordChar word
  | literal kind text => cases word

theorem Lexeme.isWord_of_isBlank {l : Lexeme} (blank : l.isBlank = true) : l.isWord = false := by
  rw [← Bool.not_eq_true]
  intro word
  rw [isBlank_of_isWord word] at blank
  cases blank

/-! ### Dots with blanks around them -/

/-- The character of a word behind a dot, and what stands behind it, if there are only blanks around
the dot. -/
def member? (ls : List Lexeme) : Option (Lexeme × List Lexeme) :=
  match ls.dropWhile Lexeme.isBlank with
  | [] => none
  | dot :: rest =>
    match rest.dropWhile Lexeme.isBlank with
    | [] => none
    | m :: behind => if dot = .code '.' ∧ m.isWord = true then some (m, behind) else none

theorem member?_eq_some_iff {ls behind : List Lexeme} {m : Lexeme} : member? ls = some (m, behind) ↔
    m.isWord = true ∧ ∃ b, Padding [.code '.'] b ∧ ls = b ++ m :: behind := by
  have blanks (ls : List Lexeme) : ∀ l ∈ ls.takeWhile Lexeme.isBlank, l.isBlank = true :=
    fun l inside => List.all_eq_true.mp List.all_takeWhile l inside
  constructor
  · intro found
    rw [member?] at found
    split at found
    · cases found
    · next dot rest first =>
        split at found
        · cases found
        · next k others second =>
            split at found
            · next both =>
                obtain ⟨rfl, rfl⟩ := Prod.mk.inj (Option.some.inj found)
                obtain ⟨rfl, word⟩ := both
                refine ⟨word, _, ⟨ls.takeWhile Lexeme.isBlank, rest.takeWhile Lexeme.isBlank, rfl,
                  blanks ls, blanks rest⟩, ?_⟩
                have inner := List.takeWhile_append_dropWhile (p := Lexeme.isBlank) (l := rest)
                have whole := List.takeWhile_append_dropWhile (p := Lexeme.isBlank) (l := ls)
                rw [second] at inner
                rw [first, ← inner] at whole
                exact whole.symm.trans (by simp)
            · cases found
  · rintro ⟨word, b, ⟨before, after, rfl, leading, trailing⟩, rfl⟩
    have solid : (Lexeme.code '.').isBlank = false := by decide
    have first : (before ++ ([Lexeme.code '.'] ++ after) ++ m :: behind).dropWhile Lexeme.isBlank =
        .code '.' :: (after ++ m :: behind) := by
      rw [List.append_assoc, List.dropWhile_append_of_pos leading, List.singleton_append,
        List.cons_append, List.dropWhile_cons_of_neg (by simp [solid])]
    have second : (after ++ m :: behind).dropWhile Lexeme.isBlank = m :: behind := by
      rw [List.dropWhile_append_of_pos trailing, List.dropWhile_cons_of_neg
        (by simp [Lexeme.isBlank_of_isWord word])]
    rw [member?, first]
    dsimp only
    rw [second]
    exact if_pos ⟨rfl, word⟩

/-- Lexemes in which the dots between the parts of names have lost the blanks around them. A
character that has been joined to the one before it is not joined to the one behind it. -/
def tighten : List Lexeme → List Lexeme
  | [] => []
  | l :: ls =>
    match _ : if l.isWord then member? ls else none with
    | some (m, behind) => l :: .code '.' :: m :: tighten behind
    | none => l :: tighten ls
termination_by ls => ls.length
decreasing_by
  · next found =>
    split at found
    · obtain ⟨-, b, -, rfl⟩ := member?_eq_some_iff.mp found
      simp only [List.length_cons, List.length_append]
      omega
    · cases found
  · exact Nat.lt_succ_self _

theorem tighten_pass {l : Lexeme} {ls : List Lexeme} (apart : l.isWord = true → member? ls = none) :
    tighten (l :: ls) = l :: tighten ls := by
  have missed : (if l.isWord then member? ls else none) = none := by
    split
    · next word => exact apart word
    · rfl
  rw [tighten]
  split
  · next found =>
      rw [missed] at found
      cases found
  · rfl

theorem tighten_join {l m : Lexeme} {b : List Lexeme} (owner : l.isWord = true)
    (member : m.isWord = true)
    (dotted : Padding [.code '.'] b) (behind : List Lexeme) :
    tighten (l :: (b ++ m :: behind)) = l :: .code '.' :: m :: tighten behind := by
  have hit : (if l.isWord then member? (b ++ m :: behind) else none) = some (m, behind) := by
    rw [if_pos owner, member?_eq_some_iff]
    exact ⟨member, b, dotted, rfl⟩
  rw [tighten]
  split
  · next found =>
      rw [hit] at found
      obtain ⟨rfl, rfl⟩ := Prod.mk.inj (Option.some.inj found)
      rfl
  · next found =>
      rw [hit] at found
      cases found

theorem tighten_induction {motive : List Lexeme → Prop} (nil : motive [])
    (pass : ∀ l ls, (l.isWord = true → member? ls = none) → motive ls → motive (l :: ls))
    (join : ∀ l m b behind, l.isWord = true → m.isWord = true → Padding [.code '.'] b →
      motive behind →
      motive (l :: (b ++ m :: behind))) (ls : List Lexeme) : motive ls := by
  induction size : ls.length using Nat.strongRecOn generalizing ls with
  | ind n ih =>
      subst size
      cases ls with
      | nil => exact nil
      | cons l ls =>
          by_cases apart : l.isWord = true → member? ls = none
          · exact pass l ls apart (ih _ (Nat.lt_succ_self _) ls rfl)
          · obtain ⟨owner, found⟩ := Classical.not_imp.mp apart
            obtain ⟨⟨m, behind⟩, found⟩ := Option.ne_none_iff_exists'.mp found
            obtain ⟨member, b, dotted, rfl⟩ := member?_eq_some_iff.mp found
            refine join l m b behind owner member dotted (ih behind.length ?_ behind rfl)
            simp only [List.length_cons, List.length_append]
            omega

theorem isWord_of_mem_dot {b : List Lexeme} (dotted : Padding [.code '.'] b) :
    ∀ l ∈ b, l.isWord = false := by
  obtain ⟨before, after, rfl, leading, trailing⟩ := dotted
  simp only [List.forall_mem_append, List.forall_mem_singleton]
  exact ⟨fun l inside => Lexeme.isWord_of_isBlank (leading l inside), by decide,
    fun l inside => Lexeme.isWord_of_isBlank (trailing l inside)⟩

theorem filled_dot {b : List Lexeme} (dotted : Padding [.code '.'] b) : filled b = [.code '.'] :=
  dotted.filled_eq.trans (by decide)

theorem filled_cons {l : Lexeme} (solid : l.isBlank = false) (ls : List Lexeme) :
    filled (l :: ls) = l :: filled ls := by
  simp [filled, solid]

theorem filled_tighten (ls : List Lexeme) : filled (tighten ls) = filled ls := by
  induction ls using tighten_induction with
  | nil => rw [tighten]
  | pass l ls apart ih =>
      rw [tighten_pass apart]
      exact (filled_append [l] _).trans ((congrArg (filled [l] ++ ·) ih).trans
        (filled_append [l] ls).symm)
  | join l m b behind owner member dotted ih =>
      have solid := Lexeme.isBlank_of_isWord owner
      have firm := Lexeme.isBlank_of_isWord member
      rw [tighten_join owner member dotted, filled_cons solid, filled_cons (by decide),
        filled_cons firm, ih, filled_cons solid, filled_append, filled_dot dotted, filled_cons firm,
        List.singleton_append]

theorem head?_tighten (ls : List Lexeme) : (tighten ls).head? = ls.head? := by
  induction ls using tighten_induction with
  | nil => rw [tighten]
  | pass l ls apart _ => rw [tighten_pass apart]; rfl
  | join l m b behind owner member dotted _ => rw [tighten_join owner member dotted]; rfl

theorem exists_of_tighten_eq {ls b behind : List Lexeme} {m : Lexeme}
    (none : ∀ l ∈ b, l.isWord = false)
    (cut : tighten ls = b ++ m :: behind) : ∃ rest, ls = b ++ m :: rest := by
  have head := head?_tighten ls
  induction b generalizing ls with
  | nil =>
      rw [cut] at head
      obtain ⟨rest, same⟩ := List.head?_eq_some_iff.mp head.symm
      exact ⟨rest, same⟩
  | cons l b ih =>
      obtain ⟨first, others⟩ := List.forall_mem_cons.mp none
      rw [cut] at head
      obtain ⟨ls, rfl⟩ := List.head?_eq_some_iff.mp head.symm
      rw [tighten_pass fun word => absurd word (by simp [first])] at cut
      obtain ⟨rest, rfl⟩ := ih others (List.cons.inj cut).2 (head?_tighten ls)
      exact ⟨rest, rfl⟩

theorem member?_tighten {ls : List Lexeme} (apart : member? ls = none) :
    member? (tighten ls) = none := by
  cases found : member? (tighten ls) with
  | none => rfl
  | some pair =>
      obtain ⟨word, b, dotted, cut⟩ := member?_eq_some_iff.mp found
      obtain ⟨rest, rfl⟩ := exists_of_tighten_eq (isWord_of_mem_dot dotted) cut
      rw [member?_eq_some_iff.mpr ⟨word, b, dotted, rfl⟩] at apart
      cases apart

theorem tighten_tighten (ls : List Lexeme) : tighten (tighten ls) = tighten ls := by
  induction ls using tighten_induction with
  | nil => rw [tighten, tighten]
  | pass l ls apart ih =>
      rw [tighten_pass apart, tighten_pass fun word => member?_tighten (apart word), ih]
  | join l m b behind owner member dotted ih =>
      rw [tighten_join owner member dotted]
      have again := tighten_join owner member (padding_self [.code '.']) (tighten behind)
      rw [ih] at again
      exact again

theorem Squeezed.tighten {ls : List Lexeme} (squeezed : Squeezed ls) : Squeezed (tighten ls) := by
  induction ls using tighten_induction with
  | nil => rwa [LiteSql.tighten]
  | pass l ls apart ih =>
      have later := ih (squeezed.of_isInfix (List.suffix_cons l ls).isInfix)
      obtain ⟨next, -⟩ := List.isChain_cons.mp squeezed.apart
      rw [tighten_pass apart]
      refine ⟨List.isChain_cons.mpr ⟨fun m head => next m (by rwa [head?_tighten] at head),
        later.apart⟩, ?_⟩
      exact List.forall_mem_cons.mpr ⟨squeezed.space l List.mem_cons_self, later.space⟩
  | join l m b behind owner member dotted ih =>
      have later := ih (squeezed.of_isInfix ⟨l :: b ++ [m], [], by simp⟩)
      have solid := Lexeme.isBlank_of_isWord owner
      have firm := Lexeme.isBlank_of_isWord member
      have dot : (Lexeme.code '.').isBlank = false := by decide
      rw [tighten_join owner member dotted]
      constructor
      · simp only [List.isChain_cons_cons, solid, dot, Bool.false_eq_true, false_and,
          not_false_eq_true, true_and]
        refine List.isChain_cons.mpr ⟨fun k _ both => ?_, later.apart⟩
        rw [firm] at both
        cases both.1
      · simp only [List.forall_mem_cons, solid, dot, firm, Bool.false_eq_true, false_implies,
          true_and]
        exact later.space

theorem isNeutral_of_isWord {c : Char} (word : isWordChar c = true) :
    ScanState.isNeutral c = true :=
  ScanState.isNeutral_of_class (by decide) word

theorem Sealed.tighten {ls : List Lexeme} (closed : Sealed ls) : Sealed (tighten ls) := by
  induction ls using tighten_induction with
  | nil => rwa [LiteSql.tighten]
  | pass l ls apart ih =>
      have later : Sealed ls := (show Sealed ([l] ++ ls) from closed).right
      have behind := ih later
      have plain := closed.plain l List.mem_cons_self
      obtain ⟨tail, whole, leads, -⟩ := exists_leads_of_lexemes_eq_cons (closed.read [' '] rfl)
      rw [List.flatMap_cons, List.append_assoc, List.append_cancel_left_eq] at whole
      subst whole
      have next : l.Leads ((LiteSql.tighten ls).flatMap Lexeme.text ++ [' ']) := by
        have head := head?_tighten ls
        cases ls with
        | nil => rwa [LiteSql.tighten]
        | cons k ls =>
            obtain ⟨others, cut⟩ := List.head?_eq_some_iff.mp head
            obtain ⟨c, text, first⟩ := List.exists_cons_of_ne_nil
              (later.text_ne_nil k List.mem_cons_self)
            rw [cut, List.flatMap_cons, first]
            rw [List.flatMap_cons, first] at leads
            exact leads.congr (SameSeam.of_head _ _ (by simp) rfl)
      have read : lexemes ((l :: LiteSql.tighten ls).flatMap Lexeme.text ++ [' ']) =
          l :: LiteSql.tighten ls ++ lexemes [' '] := by
        rw [List.flatMap_cons, List.append_assoc, lexemes_append_of_leads next,
          behind.read [' '] rfl]
        rfl
      rw [tighten_pass apart]
      exact .of_read read (by simp) (List.forall_mem_cons.mpr ⟨plain, behind.plain⟩)
  | join l m b behind owner member dotted ih =>
      have later : Sealed behind :=
        (show Sealed ((l :: b ++ [m]) ++ behind) by simpa using closed).right
      rw [tighten_join owner member dotted]
      cases l with
      | literal kind text => cases owner
      | code c =>
          cases m with
          | literal kind text => cases member
          | code d =>
              refine .code_append (x := [c, '.', d]) ?_ (ih later)
              simp only [List.forall_mem_cons]
              exact ⟨isNeutral_of_isWord owner, by decide, isNeutral_of_isWord member, nofun⟩

/-! ### What no name goes over -/

def Lexeme.isBreak (l : Lexeme) : Bool := !l.isWord && !l.isBlank && l != .code '.'

theorem not_isBreak_of_mem_dot {b : List Lexeme} (dotted : Padding [.code '.'] b) :
    ∀ l ∈ b, l.isBreak = false := by
  obtain ⟨before, after, rfl, leading, trailing⟩ := dotted
  simp only [List.forall_mem_append, List.forall_mem_singleton]
  exact ⟨fun l inside => by simp [Lexeme.isBreak, leading l inside], by decide,
    fun l inside => by simp [Lexeme.isBreak, trailing l inside]⟩

def Ends (after : List Lexeme) : Prop :=
  ∀ x, member? x = none → member? (x ++ after) = none

theorem ends_of_cut {after : List Lexeme}
    (none : ∀ e m behind, after = e ++ m :: behind → m.isWord = true → ∃ l ∈ e, l.isBreak = true) :
      Ends after := by
  intro x apart
  cases found : member? (x ++ after) with
  | none => rfl
  | some pair =>
      obtain ⟨m, behind⟩ := pair
      obtain ⟨word, b, dotted, whole⟩ := member?_eq_some_iff.mp found
      rcases List.append_eq_append_iff.mp whole with ⟨e, rfl, cut⟩ | ⟨e, rfl, cut⟩
      · obtain ⟨l, inside, broken⟩ := none e m behind cut word
        rw [not_isBreak_of_mem_dot dotted l (List.mem_append_right x inside)] at broken
        cases broken
      · cases e with
        | nil =>
            obtain ⟨l, inside, -⟩ := none [] m behind cut.symm word
            cases inside
        | cons k e =>
            obtain ⟨rfl, rfl⟩ := List.cons.inj cut
            rw [member?_eq_some_iff.mpr ⟨word, b, dotted, rfl⟩] at apart
            cases apart

theorem ends_blanks {after : List Lexeme} (blank : ∀ l ∈ after, l.isBlank = true) : Ends after := by
  refine ends_of_cut fun e m behind cut word => ?_
  have space := blank m (cut ▸ List.mem_append_right e List.mem_cons_self)
  rw [Lexeme.isBlank_of_isWord word] at space
  cases space

theorem ends_break {k : Lexeme} (broken : k.isBreak = true) (rest : List Lexeme) :
    Ends (k :: rest) := by
  refine ends_of_cut fun e m behind cut word => ?_
  cases e with
  | nil =>
      obtain ⟨rfl, -⟩ := List.cons.inj cut
      simp [Lexeme.isBreak, word] at broken
  | cons l e =>
      obtain ⟨rfl, -⟩ := List.cons.inj cut
      exact ⟨k, List.mem_cons_self, broken⟩

theorem tighten_append {after : List Lexeme} (ends : Ends after) (x : List Lexeme) :
    tighten (x ++ after) = tighten x ++ tighten after := by
  induction x using tighten_induction with
  | nil => rw [tighten]; rfl
  | pass l ls apart ih =>
      rw [List.cons_append, tighten_pass apart, tighten_pass fun word => ends ls (apart word), ih]
      rfl
  | join l m b behind owner member dotted ih =>
      rw [List.cons_append, List.append_assoc, List.cons_append, tighten_join owner member dotted,
        tighten_join owner member dotted, ih]
      rfl

theorem tighten_of_not_isWord {ls : List Lexeme} (none : ∀ l ∈ ls, l.isWord = false) :
    tighten ls = ls := by
  induction ls with
  | nil => rw [tighten]
  | cons l ls ih =>
      obtain ⟨first, others⟩ := List.forall_mem_cons.mp none
      rw [tighten_pass fun word => absurd word (by simp [first]), ih others]

theorem tighten_cons {l : Lexeme} (other : l.isWord = false) (ls : List Lexeme) :
    tighten (l :: ls) = l :: tighten ls :=
  tighten_pass fun word => absurd word (by simp [other])

theorem tighten_append_break {k : Lexeme} (broken : k.isBreak = true) (x rest : List Lexeme) :
    tighten (x ++ k :: rest) = tighten x ++ k :: tighten rest := by
  have other : k.isWord = false := by
    simp only [Lexeme.isBreak, Bool.and_eq_true, Bool.not_eq_true'] at broken
    exact broken.1.1
  rw [tighten_append (ends_break broken rest), tighten_cons other]

theorem member?_eq_none_of_append {x y : List Lexeme} (apart : member? (x ++ y) = none) :
    member? x = none := by
  cases found : member? x with
  | none => rfl
  | some pair =>
      obtain ⟨m, behind⟩ := pair
      obtain ⟨member, b, dotted, rfl⟩ := member?_eq_some_iff.mp found
      have whole : member? (b ++ m :: behind ++ y) = some (m, behind ++ y) :=
        member?_eq_some_iff.mpr ⟨member, b, dotted, by simp⟩
      rw [apart] at whole
      cases whole

theorem exists_of_tighten_append {x p q : List Lexeme} {k : Lexeme} (broken : k.isBreak = true)
    (cut : tighten x = p ++ k :: q) : ∃ a b, x = a ++ k :: b ∧ tighten a = p ∧ tighten b = q := by
  have other {m : Lexeme} (word : m.isWord = true) : m ≠ k := by
    rintro rfl
    simp [Lexeme.isBreak, word] at broken
  have dot : .code '.' ≠ k := by
    rintro rfl
    exact absurd broken (by decide)
  induction x using tighten_induction generalizing p with
  | nil =>
      rw [tighten] at cut
      cases p <;> cases cut
  | pass l ls apart ih =>
      rw [tighten_pass apart] at cut
      cases p with
      | nil =>
          obtain ⟨rfl, rfl⟩ := List.cons.inj cut
          exact ⟨[], ls, rfl, by rw [tighten], rfl⟩
      | cons d p =>
          obtain ⟨rfl, later⟩ := List.cons.inj cut
          obtain ⟨a, b, rfl, rfl, rfl⟩ := ih later
          exact ⟨l :: a, b, rfl, tighten_pass fun word => member?_eq_none_of_append
            (apart word), rfl⟩
  | join l m b behind owner member dotted ih =>
      rw [tighten_join owner member dotted] at cut
      rcases p with _ | ⟨first, _ | ⟨second, _ | ⟨third, p⟩⟩⟩
      · exact absurd (List.cons.inj cut).1 (other owner)
      · exact absurd (List.cons.inj (List.cons.inj cut).2).1 dot
      · exact absurd (List.cons.inj (List.cons.inj (List.cons.inj cut).2).2).1 (other member)
      · simp only [List.cons_append, List.cons.injEq] at cut
        obtain ⟨rfl, rfl, rfl, later⟩ := cut
        obtain ⟨a, c, rfl, rfl, rfl⟩ := ih later
        exact ⟨l :: (b ++ m :: a), c, by simp, tighten_join owner member dotted a, rfl⟩

theorem eq_map_code_of_tighten {x : List Lexeme} {w : Text} (letters : ∀ c ∈ w, isWordChar c = true)
    (same : tighten x = w.map .code) : x = w.map .code := by
  induction w generalizing x with
  | nil =>
      have head := head?_tighten x
      rw [same] at head
      exact List.head?_eq_none_iff.mp head.symm
  | cons c w ih =>
      have head := head?_tighten x
      rw [same] at head
      obtain ⟨rest, rfl⟩ := List.head?_eq_some_iff.mp head.symm
      obtain ⟨-, others⟩ := List.forall_mem_cons.mp letters
      cases found : member? rest with
      | none =>
          rw [tighten_pass fun _ => found] at same
          rw [ih others (List.cons.inj same).2]
          rfl
      | some pair =>
          obtain ⟨m, behind⟩ := pair
          obtain ⟨member, b, dotted, rfl⟩ := member?_eq_some_iff.mp found
          rw [tighten_join (l := .code c) (letters c List.mem_cons_self) member dotted] at same
          have dot : Lexeme.code '.' ∈ w.map Lexeme.code := by
            rw [← (List.cons.inj same).2]
            exact List.mem_cons_self
          obtain ⟨d, inside, here⟩ := List.mem_map.mp dot
          cases here
          exact absurd (others '.' inside) (by decide)

theorem exists_of_tighten_word {x p : List Lexeme} {w : Text} (present : w ≠ [])
    (letters : ∀ c ∈ w, isWordChar c = true)
    (apart : p.getLast? ≠ some (.code '.')) (cut : tighten x = p ++ w.map .code) :
    ∃ a, x = a ++ w.map .code ∧ tighten a = p := by
  induction x using tighten_induction generalizing p with
  | nil =>
      rw [tighten] at cut
      exact absurd (List.map_eq_nil_iff.mp (List.append_eq_nil_iff.mp cut.symm).2) present
  | pass l ls free ih =>
      cases p with
      | nil => exact ⟨[], eq_map_code_of_tighten letters cut, by rw [tighten]⟩
      | cons d p =>
          rw [tighten_pass free] at cut
          obtain ⟨rfl, later⟩ := List.cons.inj cut
          have ended : p.getLast? ≠ some (.code '.') := by
            cases p with
            | nil => nofun
            | cons e p => rwa [List.getLast?_cons_cons] at apart
          obtain ⟨a, rfl, rfl⟩ := ih ended later
          exact ⟨l :: a, rfl, tighten_pass fun word => member?_eq_none_of_append (free word)⟩
  | join l m b behind owner member dotted ih =>
      have dot (w : Text) (letters : ∀ c ∈ w, isWordChar c = true) : ∀ rest,
          Lexeme.code '.' :: rest ≠ w.map .code := by
        rintro rest same
        cases w with
        | nil => cases same
        | cons c w =>
            cases (List.cons.inj same).1
            exact absurd (letters '.' List.mem_cons_self) (by decide)
      rw [tighten_join owner member dotted] at cut
      rcases p with _ | ⟨first, _ | ⟨second, _ | ⟨third, p⟩⟩⟩
      · cases w with
        | nil => exact absurd rfl present
        | cons c w =>
            exact absurd (List.cons.inj cut).2
              (dot w (fun d inside => letters d (List.mem_cons_of_mem c inside)) _)
      · exact absurd (List.cons.inj cut).2 (dot w letters _)
      · simp only [List.cons_append, List.cons.injEq] at cut
        obtain ⟨rfl, rfl, -⟩ := cut
        exact absurd rfl apart
      · simp only [List.cons_append, List.cons.injEq] at cut
        obtain ⟨rfl, rfl, rfl, later⟩ := cut
        have ended : p.getLast? ≠ some (.code '.') := by
          cases p with
          | nil => nofun
          | cons e p =>
              rwa [List.getLast?_cons_cons, List.getLast?_cons_cons,
                List.getLast?_cons_cons] at apart
        obtain ⟨a, rfl, rfl⟩ := ih ended later
        exact ⟨l :: (b ++ m :: a), by simp, tighten_join owner member dotted a⟩

/-! ### Names in a text -/

namespace GroupConcat

open Pattern

def joined (m : Match) : Text := (m.captured? "owner").getD [] ++ '.' ::
    (m.captured? "member").getD []

def pair (c : Char) (x y : Text) (d : Char) : Text := c :: (x ++ '.' :: (y ++ [d]))

section

variable {c d : Char} {x y : Text} (owner : isWordChar c = true) (member : isWordChar d = true)
  (first : ∀ c ∈ x, isBlank c = true) (second : ∀ c ∈ y, isBlank c = true)

include owner member first second

theorem prefers_qualifiedName (before : Option Char) (pos : Nat) (after : Text) :
    qualifiedName.Prefers before pos (pair c x y d) after
      [⟨"member", pos + 1 + x.length + 1 + y.length, pos + 1 + x.length + 1 + y.length + 1⟩,
        ⟨"owner", pos, pos + 1⟩] := by
  have last : isBlank d = false := isBlank_of_isWordChar member
  have dot : isBlank '.' = false := by decide
  have given : (capture "owner" (one isWordChar)).Prefers before pos [c]
      (x ++ (['.'] ++ (y ++ [d])) ++ after)
      [⟨"owner", pos, pos + 1⟩] := .capture (.one owner)
  have taken (before : Option Char) (pos : Nat) :
      (capture "member" (one isWordChar)).Prefers before pos [d] after
      [⟨"member", pos, pos + 1⟩] := .capture (.one member)
  have behind (before : Option Char) (pos : Nat) :
      (all [blanks, ".", blanks, capture "member" (one isWordChar)]).Prefers
      before pos (x ++ (['.'] ++ (y ++ [d]))) after
      [⟨"member", pos + x.length + 1 + y.length, pos + x.length + 1 + y.length + 1⟩] :=
    .seq (.many first (by simpa using dot)) (.seq (.keyword (by decide) rfl)
      (.seq (.many second (by simpa using last)) (taken _ _)))
  exact given.seq (behind _ _)

theorem replaceFrom_pair (before : Option Char) (pos : Nat) (after : Text) :
    qualifiedName.replaceFrom joined pos before (pair c x y d ++ after) =
      c :: '.' :: d :: qualifiedName.replaceFrom joined (pos + (pair c x y d).length)
        ((pair c x y d).getLast?.or before) after := by
  have found := (prefers_qualifiedName owner member first second before pos after).matchAt?
  have place : pos + 1 + x.length + 1 + y.length - pos = (c :: (x ++ '.' :: y)).length := by
    simp only [List.length_cons, List.length_append]
    omega
  have text : pair c x y d ++ after = (c :: (x ++ '.' :: y)) ++ d :: after := by simp [pair]
  have width : pos + 1 + x.length + 1 + y.length + 1 - (pos + 1 + x.length + 1 + y.length) = 1 :=
    Nat.add_sub_cancel_left _ 1
  have size : pos + 1 - pos = 1 := Nat.add_sub_cancel_left _ 1
  rw [replaceFrom_hit joined found rfl (by simp [pair])]
  simp only [joined, Match.captured?, List.map_cons, List.map_nil, place, width, Nat.sub_self, size,
    text, List.drop_left]
  rfl

end

theorem exists_of_spans_qualifiedName {before : Option Char} {pos : Nat} {h after : Text}
    {caps : List Capture}
    (taken : qualifiedName.Spans before pos h after caps) : ∃ c x y d, h = pair c x y d ∧
      isWordChar c = true ∧ isWordChar d = true ∧ (∀ c ∈ x, isBlank c = true) ∧ ∀ c ∈ y,
      isBlank c = true := by
  obtain ⟨_, _, _, _, rfl, -, ⟨_, -, ⟨c, owner, rfl⟩, -⟩, x, _, _, _, rfl, -, ⟨first, -⟩, _, _, _,
      _, rfl, -, ⟨⟨dot, same, rfl⟩, -⟩, y, _, _, _, rfl, -, ⟨second, -⟩, _, -, ⟨d, member, rfl⟩,
        -⟩ := taken
  have only : (dot == '.') = true :=
    forall_sameIgnoringCase (c := '.') (· == '.') (by decide) (by decide) (by decide) same
  obtain rfl := eq_of_beq only
  exact ⟨c, x, y, d, rfl, owner, member, first, second⟩

theorem padding_map_code {x y : Text} (first : ∀ c ∈ x, isBlank c = true)
    (second : ∀ c ∈ y, isBlank c = true) :
    Padding [.code '.'] (x.map .code ++ ([.code '.'] ++ y.map .code)) :=
  ⟨_, _, rfl, isBlank_of_mem_map first, isBlank_of_mem_map second⟩

theorem exists_of_member?_map_code {t : Text} {m : Lexeme} {behind : List Lexeme}
    (found : member? (t.map .code) = some (m, behind)) : ∃ x y d after,
    t = x ++ '.' :: (y ++ d :: after) ∧
      isWordChar d = true ∧ (∀ c ∈ x, isBlank c = true) ∧ ∀ c ∈ y, isBlank c = true := by
  obtain ⟨member, b, ⟨before, rest, rfl, leading, trailing⟩, cut⟩ := member?_eq_some_iff.mp found
  obtain ⟨front, last, rfl, early, late⟩ := List.map_eq_append_iff.mp cut
  obtain ⟨d, after, rfl, rfl, -⟩ := List.map_eq_cons_iff.mp late
  obtain ⟨x, middle, rfl, rfl, inner⟩ := List.map_eq_append_iff.mp early
  obtain ⟨dot, y, rfl, same, rfl⟩ := List.map_eq_cons_iff.mp inner
  cases same
  rw [List.forall_mem_map] at leading trailing
  exact ⟨x, y, d, after, by simp, member, leading, trailing⟩

theorem replaceFrom_qualifiedName (t : Text) (pos : Nat) (before : Option Char) :
    qualifiedName.replaceFrom joined pos before t =
      (tighten (t.map .code)).flatMap Lexeme.text := by
  induction size : t.length using Nat.strongRecOn generalizing t pos before with
  | ind n ih =>
      subst size
      cases t with
      | nil =>
          rw [List.map_nil, tighten]
          rfl
      | cons c t =>
          by_cases apart : (Lexeme.code c).isWord = true → member? (t.map .code) = none
          · have missed : qualifiedName.matchAt? ⟨pos, before, c :: t, []⟩ = none := by
              rw [matchAt?_eq_none_iff]
              rintro ⟨h, after, caps, cut, taken⟩
              obtain ⟨b, x, y, d, rfl, owner, member, first, second⟩ :=
                exists_of_spans_qualifiedName taken
              obtain ⟨rfl, rfl⟩ := List.cons.inj cut
              have found : member? ((x ++ '.' :: (y ++ [d]) ++ after).map Lexeme.code) =
                  some (.code d, after.map .code) :=
                member?_eq_some_iff.mpr ⟨member, _, padding_map_code first second, by simp⟩
              cases (apart owner).symm.trans found
            rw [replaceFrom_missed joined missed, List.map_cons, tighten_pass apart,
              ih t.length (by simp) t _ _ rfl]
            rfl
          · obtain ⟨owner, found⟩ := Classical.not_imp.mp apart
            obtain ⟨⟨m, behind⟩, found⟩ := Option.ne_none_iff_exists'.mp found
            obtain ⟨x, y, d, after, rfl, member, first, second⟩ := exists_of_member?_map_code found
            have cut : c :: (x ++ '.' :: (y ++ d :: after)) = pair c x y d ++ after := by
              simp [pair]
            have shorter : after.length < (c :: (x ++ '.' :: (y ++ d :: after))).length := by
              simp only [List.length_cons, List.length_append]
              omega
            have read := tighten_join (l := .code c) (m := .code d) owner member
              (padding_map_code first second) (after.map .code)
            rw [cut, replaceFrom_pair owner member first second,
              ih after.length shorter after _ _ rfl]
            have text : (pair c x y d ++ after).map Lexeme.code =
                .code c :: (x.map .code ++ ([.code '.'] ++ y.map .code) ++
                  .code d :: after.map .code) := by
              simp [pair]
            rw [text, read]
            rfl

theorem tightenNames_eq (s : Text) : tightenNames s =
    (tighten (lexemes s)).flatMap Lexeme.text := by
  have spell := spell_segments s
  rw [tightenNames, Pattern.replaceCode, mapCode]
  generalize segments s = segs, lexemes s = ls at spell ⊢
  induction spell with
  | nil => rw [tighten]; rfl
  | literal kind text _ ih =>
      rw [tighten_cons rfl, List.flatMap_cons, List.flatMap_cons, ih]
      rfl
  | @code x segs ls apart later ih =>
      have ended : Ends ls := by
        cases later with
        | nil => exact ends_blanks (List.forall_mem_nil _)
        | literal kind text _ => exact ends_break rfl _
        | code y _ _ => exact absurd rfl (apart y _)
      rw [tighten_append ended, List.flatMap_append, List.flatMap_cons, ih,
        ← replaceFrom_qualifiedName x 0 none]
      rfl

end GroupConcat

end LiteSql
