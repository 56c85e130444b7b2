import LiteSql.Proofs.Folding
import LiteSql.Proofs.Listing
import LiteSql.Proofs.Preference
import LiteSql.Proofs.WholeWord

/-! Texts on one line. A line comment that has become a block comment ends by itself, so a text
without line comments keeps its lexemes wherever it stands; runs of blanks become single spaces, and
a text that is on one line stays as it is. -/

namespace LiteSql

/-! ### Line comments that are closed -/

def Lexeme.closed : Lexeme → Lexeme
  | .literal .lineComment text =>
      .literal .blockComment (blockComment (spaceOut '*' '/' (trim (text.drop 2))))
  | l => l

namespace Lexeme

theorem text_closed (l : Lexeme) : l.closed.text = l.withoutLineComment := by
  cases l with
  | code c => rfl
  | literal kind text => cases kind <;> rfl

theorem isLineComment_closed (l : Lexeme) : l.closed.isLineComment = false := by
  cases l with
  | code c => rfl
  | literal kind text => cases kind <;> rfl

theorem isLineComment_of_ne {kind : LiteralKind} {text : Text} (other : kind ≠ .lineComment) :
    (literal kind text).isLineComment = false := by
  cases kind with
  | lineComment => exact absurd rfl other
  | string | doubleQuoted | backQuoted | blockComment => rfl

theorem closed_of_plain {l : Lexeme} (plain : l.isLineComment = false) : l.closed = l := by
  cases l with
  | code c => rfl
  | literal kind text =>
      cases kind with
      | lineComment => cases plain
      | string | doubleQuoted | backQuoted | blockComment => rfl

theorem turn_closed (l : Lexeme) : l.closed.turn = l.turn := by
  cases l with
  | code c => rfl
  | literal kind text => cases kind <;> rfl

theorem closed_eq_code_iff {l : Lexeme} {c : Char} : l.closed = .code c ↔ l = .code c := by
  cases l with
  | code d => rfl
  | literal kind text => cases kind <;> simp [closed]

end Lexeme

theorem closeLineComments_eq (s : Text) :
    closeLineComments s = ((lexemes s).map Lexeme.closed).flatMap Lexeme.text := by
  rw [closeLineComments, List.flatMap_map]
  simp only [Lexeme.text_closed]

theorem exists_closed_lineComment (text : Text) : ∃ body, Unclosing body ∧
    (Lexeme.literal .lineComment text).closed = .literal .blockComment
    ('/' :: '*' :: (body ++ "*/")) := by
  have unclosing : Unclosing (spaceOut '*' '/' (trim (text.drop 2))) := unclosing_spaceOut _
  rw [Lexeme.closed, blockComment]
  split
  · exact ⟨[' '], List.isChain_singleton _, rfl⟩
  · exact ⟨_, unclosing.spaced, by simp⟩

theorem exists_eq_lineComment {l : Lexeme} (comment : l.isLineComment = true) :
    ∃ text, l = .literal .lineComment text := by
  cases l with
  | code c => cases comment
  | literal kind text =>
      cases kind with
      | lineComment => exact ⟨text, rfl⟩
      | string | doubleQuoted | backQuoted | blockComment => cases comment

theorem lineComment_eq_cons {text rest : Text}
    (leads : (Lexeme.literal .lineComment text).Leads rest) :
    ∃ body, text = '-' :: '-' :: body := by
  obtain ⟨opens, whole⟩ := leads
  have enough : LiteralKind.lineComment.opener.length ≤ text.length :=
    whole ▸ LiteralKind.opener_length_le_length _ _
  obtain ⟨body, rfl⟩ := List.prefix_of_prefix_length_le
    ((LiteralKind.opening?_eq_some_iff _ _).mp opens)
    (List.prefix_append text _) enough
  exact ⟨body, rfl⟩

theorem head?_of_lineLength {text rest : Text} (whole : lineLength (text ++ rest) = text.length) :
    rest = [] ∨ rest.head? = some '\n' := by
  induction text with
  | nil =>
      cases rest with
      | nil => exact .inl rfl
      | cons c rest =>
          by_cases feed : c = '\n'
          · exact .inr (by rw [feed]; rfl)
          · simp [lineLength, feed] at whole
  | cons c text ih =>
      by_cases feed : c = '\n'
      · simp [lineLength, feed] at whole
      · exact ih (by simpa [lineLength, feed] using whole)

theorem head?_of_leads_lineComment {text rest : Text}
    (leads : (Lexeme.literal .lineComment text).Leads rest) :
    rest = [] ∨ rest.head? = some '\n' := by
  obtain ⟨body, rfl⟩ := lineComment_eq_cons leads
  have whole : lineLength (body ++ rest) = body.length := by
    simpa [LiteralKind.length] using leads.2
  exact head?_of_lineLength whole

theorem lexemes_map_closed {ls : List Lexeme} {rest : Text}
    (read : lexemes (ls.flatMap Lexeme.text ++ rest) = ls ++ lexemes rest) :
    lexemes ((ls.map Lexeme.closed).flatMap Lexeme.text ++ rest) =
      ls.map Lexeme.closed ++ lexemes rest ∧
      SameSeam (ls.flatMap Lexeme.text ++ rest)
        ((ls.map Lexeme.closed).flatMap Lexeme.text ++ rest) := by
  induction ls with
  | nil => exact ⟨rfl, .refl _⟩
  | cons l ls ih =>
      obtain ⟨tail, whole, leads, later⟩ := exists_leads_of_lexemes_eq_cons read
      rw [List.flatMap_cons, List.append_assoc, List.append_cancel_left_eq] at whole
      subst whole
      obtain ⟨again, seam⟩ := ih later
      rw [List.map_cons, List.flatMap_cons, List.flatMap_cons, List.append_assoc, List.append_assoc]
      cases comment : l.isLineComment with
      | false =>
          rw [Lexeme.closed_of_plain comment]
          refine ⟨?_, seam.append _⟩
          rw [lexemes_append_of_leads (leads.congr seam), again]
          rfl
      | true =>
          obtain ⟨text, rfl⟩ := exists_eq_lineComment comment
          obtain ⟨body, unclosing, closed⟩ := exists_closed_lineComment text
          obtain ⟨inner, rfl⟩ := lineComment_eq_cons leads
          rw [closed]
          refine ⟨?_, ⟨nofun, nofun, by simp [Lexeme.text]⟩⟩
          rw [lexemes_append_of_leads (leads_blockComment unclosing _), again]
          rfl

theorem sealed_map_closed {ls : List Lexeme} {rest : Text} (present : rest ≠ [])
    (read : lexemes (ls.flatMap Lexeme.text ++ rest) = ls ++ lexemes rest) :
      Sealed (ls.map Lexeme.closed) := by
  refine .of_read (lexemes_map_closed read).1 present fun l member => ?_
  obtain ⟨m, -, rfl⟩ := List.mem_map.mp member
  exact m.isLineComment_closed

/-! ### Runs of blanks -/

def squeeze : List Lexeme → List Lexeme
  | [] => []
  | l :: ls =>
    if l.isBlank then if ls.head?.any Lexeme.isBlank then squeeze ls else .code ' ' :: squeeze ls
    else l :: squeeze ls

structure Squeezed (ls : List Lexeme) : Prop where
  apart : ls.IsChain fun l m => ¬ (l.isBlank = true ∧ m.isBlank = true)
  space : ∀ l ∈ ls, l.isBlank = true → l = .code ' '

theorem Squeezed.of_isInfix {ls ms : List Lexeme} (squeezed : Squeezed ls) (part : ms <:+: ls) :
    Squeezed ms :=
  ⟨ List.IsChain.infix squeezed.apart part, fun l member => squeezed.space l (part.subset member)⟩

theorem squeeze_cons_filled {l : Lexeme} (filled : l.isBlank = false) (ls : List Lexeme) :
    squeeze (l :: ls) = l :: squeeze ls := by
  rw [squeeze, if_neg (by simp [filled])]

theorem head?_squeeze (ls : List Lexeme) :
    (squeeze ls).head? = ls.head?.map fun l => if l.isBlank then .code ' ' else l := by
  induction ls with
  | nil => rfl
  | cons l ls ih =>
      rw [squeeze]
      cases blank : l.isBlank with
      | false => simp [blank]
      | true =>
          cases ls with
          | nil => simp [blank]
          | cons m ls => cases next : m.isBlank <;> simp_all

theorem squeezed_squeeze (ls : List Lexeme) : Squeezed (squeeze ls) := by
  have space : (Lexeme.code ' ').isBlank = true := by decide
  induction ls with
  | nil => exact ⟨List.isChain_nil, by simp [squeeze]⟩
  | cons l ls ih =>
      have first : ∀ m ∈ (squeeze ls).head?, m.isBlank = true →
          ls.head?.any Lexeme.isBlank = true := by
        intro m head blank
        rw [head?_squeeze] at head
        cases ls with
        | nil => cases head
        | cons k ls => cases here : k.isBlank <;> simp_all
      rw [squeeze]
      split
      · split
        · exact ih
        · next apart =>
            refine ⟨List.isChain_cons.mpr ⟨fun m head both => apart (first m head both.2),
              ih.apart⟩, ?_⟩
            exact List.forall_mem_cons.mpr ⟨fun _ => rfl, ih.space⟩
      · next filled =>
          refine ⟨List.isChain_cons.mpr ⟨fun m _ both => filled both.1, ih.apart⟩, ?_⟩
          exact List.forall_mem_cons.mpr ⟨fun blank => absurd blank filled, ih.space⟩

theorem squeeze_eq_self {ls : List Lexeme} (squeezed : Squeezed ls) : squeeze ls = ls := by
  induction ls with
  | nil => rfl
  | cons l ls ih =>
      have later := ih (squeezed.of_isInfix (List.suffix_cons l ls).isInfix)
      obtain ⟨next, -⟩ := List.isChain_cons.mp squeezed.apart
      rw [squeeze, later]
      split
      · next blank =>
          have alone : ls.head?.any Lexeme.isBlank = false := by
            cases head : ls.head? with
            | none => rfl
            | some m => simpa [blank] using next m head
          rw [alone, squeezed.space l List.mem_cons_self blank]
          rfl
      · rfl

theorem filled_squeeze (ls : List Lexeme) : filled (squeeze ls) = filled ls := by
  have space : (Lexeme.code ' ').isBlank = true := by decide
  induction ls with
  | nil => rfl
  | cons l ls ih =>
      rw [squeeze]
      cases blank : l.isBlank with
      | false => simpa [filled, blank] using ih
      | true =>
          have dropped : filled (l :: ls) = filled ls := by simp [filled, blank]
          rw [dropped, if_pos rfl]
          split
          · exact ih
          · rw [← ih]
            simp [filled, space]

/-- What stands behind a lexeme can be squeezed, unless the lexeme is a line comment. -/
theorem Lexeme.Leads.squeeze {l : Lexeme} {ls : List Lexeme} {rest : Text}
    (leads : l.Leads (ls.flatMap Lexeme.text ++ rest)) (plain : l.isLineComment = false)
    (present : ∀ m ∈ ls, m.text ≠ []) : l.Leads ((squeeze ls).flatMap Lexeme.text ++ rest) := by
  have head := head?_squeeze ls
  cases ls with
  | nil => exact leads
  | cons m ls =>
      obtain ⟨c, text, first⟩ := List.exists_cons_of_ne_nil (present m List.mem_cons_self)
      obtain ⟨n, others, cut⟩ : ∃ n others, LiteSql.squeeze (m :: ls) = n :: others := by
        cases whole : LiteSql.squeeze (m :: ls) with
        | nil => simp [whole] at head
        | cons n others => exact ⟨n, others, rfl⟩
      rw [cut] at head ⊢
      rw [List.flatMap_cons, first] at leads
      cases blank : m.isBlank with
      | true =>
          obtain rfl : n = .code ' ' := by simpa [blank] using head
          exact leads.exchange plain (by simp) rfl
      | false =>
          obtain rfl : n = m := by simpa [blank] using head
          rw [List.flatMap_cons, first]
          exact leads.congr (SameSeam.of_head _ _ (by simp) rfl)

/-- Lexemes are read as they were once they are squeezed, unless a line comment stands before
others. -/
theorem lexemes_squeeze {ls : List Lexeme} (read : lexemes (ls.flatMap Lexeme.text) = ls)
    (plain : ∀ x l y, ls = x ++ l :: y → l.isLineComment = true → y = []) :
    lexemes ((squeeze ls).flatMap Lexeme.text) = squeeze ls := by
  induction ls with
  | nil => rfl
  | cons l ls ih =>
      obtain ⟨rest, whole, leads, later⟩ := exists_leads_of_lexemes_eq_cons read
      rw [List.flatMap_cons, List.append_cancel_left_eq] at whole
      subst whole
      have behind := ih later fun x m y cut => plain (l :: x) m y (by rw [cut]; rfl)
      have present := text_ne_nil_of_mem_lexemes (ls.flatMap Lexeme.text)
      rw [later] at present
      rw [squeeze]
      split
      · split
        · exact behind
        · have space : (Lexeme.code ' ').Leads ((squeeze ls).flatMap Lexeme.text) :=
            Lexeme.leads_code_of_isPlain ' ' (by decide) _
          rw [List.flatMap_cons, lexemes_append_of_leads space, behind]
      · have next : l.Leads ((squeeze ls).flatMap Lexeme.text) := by
          cases comment : l.isLineComment with
          | false =>
              simpa using (by simpa using leads : l.Leads (ls.flatMap Lexeme.text ++ [])).squeeze
                comment present
          | true =>
              obtain rfl := plain [] l ls rfl comment
              exact leads
        rw [List.flatMap_cons, lexemes_append_of_leads next, behind]

theorem Sealed.squeeze {ls : List Lexeme} (closed : Sealed ls) : Sealed (squeeze ls) := by
  induction ls with
  | nil => exact .nil
  | cons l ls ih =>
      have later : Sealed ls := (show Sealed ([l] ++ ls) from closed).right
      have behind := ih later
      rw [LiteSql.squeeze]
      split
      · split
        · exact behind
        · exact Sealed.nil.append (by decide) behind
      · have plain := closed.plain l List.mem_cons_self
        obtain ⟨tail, whole, leads, -⟩ := exists_leads_of_lexemes_eq_cons (closed.read [' '] rfl)
        rw [List.flatMap_cons, List.append_assoc, List.append_cancel_left_eq] at whole
        subst whole
        have next := leads.squeeze plain later.text_ne_nil
        have read : lexemes ((l :: LiteSql.squeeze ls).flatMap Lexeme.text ++ [' ']) =
            l :: LiteSql.squeeze ls ++ lexemes [' '] := by
          rw [List.flatMap_cons, List.append_assoc, lexemes_append_of_leads next,
            behind.read [' '] rfl]
          rfl
        exact .of_read read (by simp) (List.forall_mem_cons.mpr ⟨plain, behind.plain⟩)

theorem squeeze_blanks {blanks rest : List Lexeme} (present : blanks ≠ [])
    (blank : ∀ l ∈ blanks, l.isBlank = true) (apart : rest.head?.any Lexeme.isBlank = false) :
    squeeze (blanks ++ rest) = .code ' ' :: squeeze rest := by
  induction blanks with
  | nil => exact absurd rfl present
  | cons l blanks ih =>
      obtain ⟨first, others⟩ := List.forall_mem_cons.mp blank
      rw [List.cons_append, squeeze, if_pos first]
      cases blanks with
      | nil => rw [List.nil_append, apart]; rfl
      | cons m blanks =>
          rw [if_pos (by simpa using others m List.mem_cons_self)]
          exact ih (by simp) others

theorem squeeze_append {ls ms : List Lexeme} (apart : ms.head?.any Lexeme.isBlank = false) :
    squeeze (ls ++ ms) = squeeze ls ++ squeeze ms := by
  induction ls with
  | nil => rfl
  | cons l ls ih =>
      rw [List.cons_append, squeeze, squeeze, ih]
      cases ls with
      | nil =>
          rw [List.nil_append, apart]
          split <;> rfl
      | cons m ls =>
          rw [List.cons_append, List.head?_cons, List.head?_cons, Option.any_some]
          cases l.isBlank <;> cases m.isBlank <;> rfl

theorem exists_longest_run (p : Char → Bool) (s : Text) :
    ∃ run after, s = run ++ after ∧ (∀ c ∈ run, p c = true) ∧
    after.head?.any p = false := by
  refine ⟨s.takeWhile p, s.dropWhile p, List.takeWhile_append_dropWhile.symm,
    fun c member => List.all_eq_true.mp List.all_takeWhile c member, ?_⟩
  have stopped := List.head?_dropWhile_not p s
  cases head : (s.dropWhile p).head? with
  | none => rfl
  | some c => simpa [head] using stopped

namespace Pattern

theorem piecesAfter_of_none {p : Pattern} {c : Char} {rest : Text} {pos : Nat}
    {before : Option Char}
    (none : p.matchAt? ⟨pos, before, c :: rest, []⟩ = none) :
    p.piecesAfter 0 pos before (c :: rest) = .plain c :: p.piecesAfter 0 (pos + 1)
      (some c) rest := by
  rw [piecesAfter, none]
  rfl

theorem Prefers.piecesAfter {p : Pattern} {before : Option Char} {pos : Nat} {x after : Text}
    {caps : List Capture}
    (prefers : p.Prefers before pos x after caps) (present : x ≠ []) : ∃ m,
    p.piecesAfter 0 pos before (x ++ after) =
      .hit m :: p.piecesAfter 0 (pos + x.length) (x.getLast?.or before) after := by
  have found := prefers.matchAt?
  have behind := p.piecesAfter_length
  obtain ⟨c, x, rfl⟩ := List.exists_cons_of_ne_nil present
  rw [List.cons_append] at found ⊢
  rw [Pattern.piecesAfter, found, getLast?_cons_or, List.length_cons, Nat.add_comm x.length,
    ← Nat.add_assoc, ← behind]
  exact ⟨_, rfl⟩

theorem piecesAfter_someOf_other {q : Char → Bool} {c : Char} (other : q c = false) (rest : Text)
    (pos : Nat)
    (before : Option Char) : (someOf q).piecesAfter 0 pos before (c :: rest) =
      .plain c :: (someOf q).piecesAfter 0 (pos + 1) (some c) rest := by
  apply piecesAfter_of_none
  rw [matchAt?_eq_none_iff]
  rintro ⟨x, after, caps, cut, taken⟩
  obtain ⟨⟨present, members⟩, -⟩ := (spans_someOf_iff _ _ _ _ _ _).mp taken
  obtain ⟨d, x, rfl⟩ := List.exists_cons_of_ne_nil present
  obtain ⟨rfl, -⟩ := List.cons.inj cut
  rw [members c List.mem_cons_self] at other
  cases other

end Pattern

def squeezeRuns (q : Char → Bool) : Text → Text
  | [] => []
  | c :: s =>
    if q c then if s.head?.any q then squeezeRuns q s else ' ' :: squeezeRuns q s
    else c :: squeezeRuns q s

theorem squeezeRuns_append {q : Char → Bool} {run : Text} (present : run ≠ [])
    (members : ∀ c ∈ run, q c = true)
    {after : Text} (ended : after.head?.any q = false) :
    squeezeRuns q (run ++ after) = ' ' :: squeezeRuns q after := by
  induction run with
  | nil => exact absurd rfl present
  | cons c run ih =>
      obtain ⟨first, others⟩ := List.forall_mem_cons.mp members
      rw [List.cons_append, squeezeRuns, if_pos first]
      cases run with
      | nil => rw [List.nil_append, ended]; rfl
      | cons d run =>
          rw [if_pos (by simpa using others d List.mem_cons_self)]
          exact ih (List.cons_ne_nil _ _) others

theorem flatMap_text_squeeze_map_code (x : Text) :
    (squeeze (x.map .code)).flatMap Lexeme.text = squeezeRuns isBlank x := by
  induction x with
  | nil => rfl
  | cons c x ih =>
      have next : (x.map Lexeme.code).head?.any Lexeme.isBlank = x.head?.any isBlank := by
        rw [List.head?_map, Option.any_map]
        rfl
      rw [List.map_cons, squeeze, squeezeRuns, next, Lexeme.isBlank]
      split
      · split
        · exact ih
        · exact congrArg (' ' :: ·) ih
      · exact congrArg (c :: ·) ih

namespace Pattern

theorem replace_someOf (q : Char → Bool) (x : Text) :
    (someOf q).replace (fun _ => " ") x = squeezeRuns q x := by
  have all (x : Text) (pos : Nat) (before : Option Char) :
      ((someOf q).piecesAfter 0 pos before x).flatMap (replaced fun _ => " ") =
        squeezeRuns q x := by
    induction size : x.length using Nat.strongRecOn generalizing x pos before with
    | ind n ih =>
        subst size
        obtain ⟨run, after, rfl, members, ended⟩ := exists_longest_run q x
        by_cases present : run = []
        · subst present
          cases after with
          | nil => rfl
          | cons c after =>
              have other : q c = false := ended
              rw [List.nil_append, piecesAfter_someOf_other other, squeezeRuns, other]
              exact congrArg (c :: ·) (ih after.length (by simp) after _ _ rfl)
        · have shorter : after.length < (run ++ after).length := by
            rw [List.length_append]
            exact Nat.lt_add_of_pos_left (List.length_pos_of_ne_nil present)
          have prefers : (someOf q).Prefers before pos run after [] := .someOf present members ended
          obtain ⟨m, cut⟩ := prefers.piecesAfter present
          rw [cut, squeezeRuns_append present members ended]
          exact congrArg (' ' :: ·) (ih after.length shorter after _ _ rfl)
  exact all x 0 none

theorem replace_gap (x : Text) :
    gap.replace (fun _ => " ") x = (squeeze (x.map .code)).flatMap Lexeme.text := by
  rw [flatMap_text_squeeze_map_code, ← replace_someOf, gap]

end Pattern

theorem replaceCode_gap (s : Text) :
    Pattern.gap.replaceCode (fun _ => " ") s = (squeeze (lexemes s)).flatMap Lexeme.text := by
  have spell := spell_segments s
  rw [Pattern.replaceCode, mapCode]
  generalize segments s = segs, lexemes s = ls at spell ⊢
  induction spell with
  | nil => rfl
  | literal kind text _ ih =>
      rw [squeeze_cons_filled rfl, List.flatMap_cons, List.flatMap_cons, ih]
      rfl
  | @code x segs ls apart later ih =>
      have ended : ls.head?.any Lexeme.isBlank = false := by
        cases later with
        | nil => rfl
        | literal kind text _ => rfl
        | code y _ _ => exact absurd rfl (apart y _)
      rw [squeeze_append ended, List.flatMap_append, List.flatMap_cons, ih, ← Pattern.replace_gap]
      rfl

/-! ### One line -/

theorem exists_onOneLine {s : Text} (closed : Sealed ((lexemes s).map Lexeme.closed)) :
    ∃ ls, Sealed ls ∧ Squeezed ls ∧ onOneLine s = ls.flatMap Lexeme.text ∧
      filled ls = filled ((lexemes s).map Lexeme.closed) := by
  obtain ⟨before, ls, after, cut, leading, trailing, trimmed⟩ := closed.squeeze.exists_trim
  have again := closed.squeeze
  have spaces := squeezed_squeeze ((lexemes s).map Lexeme.closed)
  have kept := filled_squeeze ((lexemes s).map Lexeme.closed)
  rw [cut] at again spaces kept
  refine ⟨ls, again.right.left, spaces.of_isInfix ⟨before.map .code,
    after.map .code, by simp⟩, ?_, ?_⟩
  · rw [onOneLine, collapseBlanks, replaceCode_gap, closeLineComments_eq,
      closed.lexemes_text, trimmed]
  · rw [← kept, filled_append, filled_append, (filled_eq_nil_iff _).mpr
      (isBlank_of_mem_map leading), (filled_eq_nil_iff _).mpr (isBlank_of_mem_map trailing)]
    simp

theorem trim_onOneLine (s : Text) : trim (onOneLine s) = onOneLine s := trim_trim _

theorem onOneLine_eq_self {ls : List Lexeme} (closed : Sealed ls) (squeezed : Squeezed ls)
    (trimmed : trim (ls.flatMap Lexeme.text) = ls.flatMap Lexeme.text) :
    onOneLine (ls.flatMap Lexeme.text) = ls.flatMap Lexeme.text := by
  have same : ls.map Lexeme.closed = ls :=
    (List.map_congr_left fun l member => Lexeme.closed_of_plain (closed.plain l member)).trans
    (List.map_id ls)
  rw [onOneLine, closeLineComments_eq, closed.lexemes_text, same, collapseBlanks, replaceCode_gap,
    closed.lexemes_text, squeeze_eq_self squeezed, trimmed]

/-! ### Pieces of a list on one line -/

theorem levelAfter_map_closed (depth : Nat) (ls : List Lexeme) :
    levelAfter depth (ls.map Lexeme.closed) = levelAfter depth ls := by
  induction ls generalizing depth with
  | nil => rfl
  | cons l ls ih =>
      have same : depthAfter depth l.closed = depthAfter depth l := by
        rw [depthAfter, depthAfter, l.turn_closed]
      simp only [List.map_cons, levelAfter, Lexeme.closed_eq_code_iff, same, ih]

theorem Item.map_closed {x : List Lexeme} (item : Item x) : Item (x.map Lexeme.closed) where
  balanced := (levelAfter_map_closed 0 x).trans item.balanced
  undivided := by
    intro y z divided shallow
    obtain ⟨front, rest, rfl, rfl, others⟩ := List.map_eq_append_iff.mp divided
    obtain ⟨l, behind, rfl, comma, -⟩ := List.map_eq_cons_iff.mp others
    obtain rfl := Lexeme.closed_eq_code_iff.mp comma
    refine item.undivided front behind rfl ?_
    rw [List.nil_append] at shallow ⊢
    rwa [levelAfter_map_closed] at shallow

theorem map_closed_map_code (x : Text) : (x.map Lexeme.code).map Lexeme.closed = x.map .code := by
  rw [List.map_map]
  rfl

theorem closed_append_blanks {text more : Text} (blank : ∀ c ∈ more, isBlank c = true)
    (opened : 2 ≤ text.length) : (Lexeme.literal .lineComment (text ++ more)).closed =
      (Lexeme.literal .lineComment text).closed := by
  have none : ∀ c ∈ ([] : Text), isBlank c = true := by simp
  have same : trim (text.drop 2 ++ more) = trim (text.drop 2) :=
    trim_padded none blank (text.drop 2)
  rw [Lexeme.closed, Lexeme.closed, List.drop_append_of_le_length opened, same]

theorem Sealed.eq_nil_of_literal {kind : LiteralKind} {text more : Text} {ls : List Lexeme}
    (closed : Sealed (.literal kind (text ++ more) :: ls)) (blank : ∀ c ∈ more, isBlank c = true) :
      more = [] := by
  by_contra present
  obtain ⟨c, closer, last⟩ := closed.literal_ends.1
  rw [List.getLast?_append_of_ne_nil _ present] at last
  have solid : ∀ c ∈ closers, isBlank c = false := by decide
  have spaced := blank c (List.mem_of_getLast? last)
  rw [solid c closer] at spaced
  cases spaced

theorem exists_lexemes_trim (s : Text) : ∃ before tail : Text, (∀ c ∈ before, isBlank c = true) ∧
    (∀ c ∈ tail, isBlank c = true) ∧ lexemes s = before.map .code ++ lexemes (trim s ++ tail) := by
  have blank : ∀ c ∈ s.takeWhile isBlank, isBlank c = true := fun c member =>
    List.all_eq_true.mp List.all_takeWhile c member
  have plain : ∀ c ∈ s.takeWhile isBlank, isPlain c = true := fun c member =>
    isPlain_of_isNeutral (ScanState.isNeutral_of_class (by decide) (blank c member))
  obtain ⟨tail, cut, spaces⟩ := exists_dropEndWhile isBlank (s.dropWhile isBlank)
  have read := lexemes_append_of_isPlain (s.takeWhile isBlank) (s.dropWhile isBlank) plain
  refine ⟨s.takeWhile isBlank, tail, blank, spaces, ?_⟩
  rw [trim, trimEnd, ← cut, ← read, List.takeWhile_append_dropWhile]

theorem lexemes_trim (s : Text) : lexemes (trim s) <:+: lexemes s ∨
    ∃ front kind text, lexemes (trim s) = front ++ [.literal kind text] ∧ front <:+: lexemes s := by
  obtain ⟨before, tail, -, blank, read⟩ := exists_lexemes_trim s
  rw [read]
  rcases lexemes_append_blanks (trim s) blank with whole | ⟨front, kind, text, more, rest, ends,
    -, whole⟩
  · rw [whole]
    exact .inl (List.infix_append' _ _ _)
  · rw [whole]
    exact .inr ⟨front, kind, text, ends, List.infix_append' _ _ _⟩

theorem padding_map_closed_trim {ls : List Lexeme} (read : lexemes (ls.flatMap Lexeme.text) = ls)
    (closed : Sealed (ls.map Lexeme.closed)) :
    Padding ((lexemes (trim (ls.flatMap Lexeme.text))).map Lexeme.closed)
      (ls.map Lexeme.closed) := by
  obtain ⟨before, tail, leading, trailing, whole⟩ := exists_lexemes_trim (ls.flatMap Lexeme.text)
  rw [read] at whole
  generalize trim (ls.flatMap Lexeme.text) = core at whole ⊢
  refine ⟨before.map .code, ?_⟩
  rcases lexemes_append_blanks core trailing with plain | ⟨front, kind, text, more, rest, inner,
    rfl, longer⟩
  · refine ⟨tail.map .code, ?_, isBlank_of_mem_map leading, isBlank_of_mem_map trailing⟩
    rw [whole, plain, List.map_append, List.map_append, map_closed_map_code, map_closed_map_code]
  · have blank : ∀ c ∈ more, isBlank c = true := fun c member =>
      trailing c (List.mem_append_left rest member)
    refine ⟨rest.map .code, ?_, isBlank_of_mem_map leading,
      isBlank_of_mem_map fun c member => trailing c (List.mem_append_right more member)⟩
    have same : (Lexeme.literal kind (text ++ more)).closed =
        (Lexeme.literal kind text).closed := by
      by_cases comment : kind = .lineComment
      · subst comment
        obtain ⟨-, later⟩ := lexemes_of_append inner
        obtain ⟨behind, -, leads, -⟩ := exists_leads_of_lexemes_eq_cons later
        obtain ⟨body, rfl⟩ := lineComment_eq_cons leads
        exact closed_append_blanks blank (by simp)
      · have alone : (Lexeme.literal kind (text ++ more)).closed = .literal kind (text ++ more) :=
          Lexeme.closed_of_plain (Lexeme.isLineComment_of_ne comment)
        rw [whole, longer, List.map_append, List.map_append, List.map_cons, alone] at closed
        rw [closed.right.right.eq_nil_of_literal blank, List.append_nil]
    rw [whole, longer, inner]
    simp only [List.map_append, List.map_cons, List.map_nil, map_closed_map_code, same]
    simp

theorem exists_onOneLine_trim {x : List Lexeme} {rest : Text} (present : rest ≠ [])
    (read : lexemes (x.flatMap Lexeme.text ++ rest) = x ++ lexemes rest) :
    ∃ ls, Sealed ls ∧ Squeezed ls ∧ onOneLine (trim (x.flatMap Lexeme.text)) =
      ls.flatMap Lexeme.text ∧
      filled ls = filled (x.map Lexeme.closed) := by
  have closed := sealed_map_closed present read
  have padding := padding_map_closed_trim (lexemes_front read) closed
  have inner : Sealed ((lexemes (trim (x.flatMap Lexeme.text))).map Lexeme.closed) := by
    obtain ⟨before, after, cut, -, -⟩ := padding
    rw [cut] at closed
    exact closed.right.left
  obtain ⟨ls, sealed, squeezed, text, same⟩ := exists_onOneLine inner
  exact ⟨ls, sealed, squeezed, text, same.trans padding.filled_eq.symm⟩

theorem Item.exists_onOneLine {x : List Lexeme} (item : Item x) {rest : Text} (present : rest ≠ [])
    (read : lexemes (x.flatMap Lexeme.text ++ rest) = x ++ lexemes rest) :
    ∃ ls, Item ls ∧ Sealed ls ∧ Squeezed ls ∧ onOneLine (trim (x.flatMap Lexeme.text)) =
      ls.flatMap Lexeme.text := by
  obtain ⟨ls, sealed, squeezed, text, same⟩ := exists_onOneLine_trim present read
  exact ⟨ls, item.map_closed.congr same, sealed, squeezed, text⟩

end LiteSql
