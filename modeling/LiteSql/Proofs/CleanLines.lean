import LiteSql.Proofs.CleanForm
import LiteSql.Proofs.QueryLayout

/-! Cleanup of a query that has been laid out. It takes the indentation of lines away and nothing
else, so the layout of the result is the query again. -/

namespace LiteSql

/-! ### Lines of texts that are laid out again -/

theorem trim_append_blanks (x : Text) {b : Text} (blank : ∀ c ∈ b, isBlank c = true) :
    trim (x ++ b) = trim x := by
  have none : ∀ c ∈ ([] : Text), isBlank c = true := by simp
  exact trim_padded none blank x

namespace Layout

theorem solidLines_cons_congr {line other : Text} {rest others : List Text}
    (first : trim line = trim other)
    (later : solidLines rest = solidLines others) : solidLines (line :: rest) =
      solidLines (other :: others) := by
  by_cases blank : trim line = []
  · rw [solidLines_cons_blank blank, solidLines_cons_blank (first ▸ blank), later]
  · rw [solidLines_cons blank, solidLines_cons (first ▸ blank), first, later]

theorem solidLines_lines_append {b : Text} (blank : ∀ c ∈ b, isBlank c = true) (x : Text) :
    solidLines (lines (b ++ x)) = solidLines (lines x) := by
  induction b with
  | nil => rfl
  | cons c b ih =>
      obtain ⟨first, others⟩ := List.forall_mem_cons.mp blank
      rw [List.cons_append, lines]
      split
      · rw [solidLines_cons_blank rfl, ih others]
      · rw [← ih others]
        cases read : lines (b ++ x) with
        | nil => exact absurd read (lines_ne_nil _)
        | cons line rest =>
            refine solidLines_cons_congr ?_ rfl
            rw [List.singleton_append, trim, List.dropWhile_cons_of_pos first, trim]

end Layout

namespace Relaid

open Layout

section

variable {x y : Text} (relaid : Relaid x y)

include relaid

theorem exists_lines : ∃ core b d rest others, lines x = (core ++ b) :: rest ∧
    lines y = (core ++ d) :: others ∧
    (∀ c ∈ b, isBlank c = true) ∧ (∀ c ∈ d, isBlank c = true) ∧
      solidLines rest = solidLines others := by
  have none : ∀ c ∈ ([] : Text), isBlank c = true := by simp
  induction relaid with
  | nil => exact ⟨[], [], [], [], [], rfl, rfl, none, none, rfl⟩
  | keep c _ ih =>
      obtain ⟨core, b, d, rest, others, one, two, first, second, later⟩ := ih
      rw [lines, lines, one, two]
      by_cases feed : c = '\n'
      · rw [if_pos feed, if_pos feed]
        refine ⟨[], [], [], _, _, rfl, rfl, none, none, solidLines_cons_congr ?_ later⟩
        rw [trim_append_blanks core first, trim_append_blanks core second]
      · rw [if_neg feed, if_neg feed]
        exact ⟨c :: core, b, d, rest, others, rfl, rfl, first, second, later⟩
  | @swap b d x y one other _ ih =>
      obtain ⟨core, e, f, rest, others, left, right, first, second, later⟩ := ih
      obtain ⟨b₁, b₂, rfl, early⟩ := List.eq_append_cons_of_mem one.2
      obtain ⟨d₁, d₂, rfl, late⟩ := List.eq_append_cons_of_mem other.2
      refine ⟨[], b₁, d₁, lines (b₂ ++ x), lines (d₂ ++ y), ?_, ?_, ?_, ?_, ?_⟩
      · rw [List.append_assoc, List.cons_append, lines_append early, List.nil_append]
      · rw [List.append_assoc, List.cons_append, lines_append late, List.nil_append]
      · exact fun c member => one.1 c (List.mem_append_left _ member)
      · exact fun c member => other.1 c (List.mem_append_left _ member)
      · rw [solidLines_lines_append fun c member => one.1 c (by simp [member]),
          solidLines_lines_append fun c member => other.1 c (by simp [member]), left, right]
        refine solidLines_cons_congr ?_ later
        rw [trim_append_blanks core first, trim_append_blanks core second]

theorem solidLines_eq : solidLines (lines x) = solidLines (lines y) := by
  obtain ⟨core, b, d, rest, others, one, two, first, second, later⟩ := relaid.exists_lines
  rw [one, two]
  refine solidLines_cons_congr ?_ later
  rw [trim_append_blanks core first, trim_append_blanks core second]

theorem any_head? : x.head?.any isBlank = y.head?.any isBlank := by
  cases relaid with
  | nil => rfl
  | keep c _ => rfl
  | swap one other _ =>
      obtain ⟨c, b, rfl, first⟩ := one.exists_cons
      obtain ⟨d, e, rfl, second⟩ := other.exists_cons
      exact first.trans second.symm

theorem any_getLast? : x.getLast?.any isBlank = y.getLast?.any isBlank := by
  induction relaid with
  | nil => rfl
  | @keep c x y later ih =>
      by_cases none : x = []
      · rw [none, later.eq_nil_iff.mp none]
      · rw [List.getLast?_cons_of_ne_nil none, List.getLast?_cons_of_ne_nil fun gone =>
          none (later.eq_nil_iff.mpr gone), ih]
  | @swap b d x y one other later ih =>
      by_cases none : x = []
      · have last {b : Text} (breaks : IsBreak b) : b.getLast?.any isBlank = true := by
          cases ends : b.getLast? with
          | none =>
              rw [List.getLast?_eq_none_iff] at ends
              exact absurd breaks.2 (ends ▸ List.not_mem_nil)
          | some c => exact breaks.1 c (List.mem_of_getLast? ends)
        rw [none, later.eq_nil_iff.mp none, List.append_nil, List.append_nil, last one, last other]
      · rw [List.getLast?_append_of_ne_nil _ none,
          List.getLast?_append_of_ne_nil _ fun gone => none (later.eq_nil_iff.mpr gone), ih]

theorem trim_eq (trimmed : trim x = x) : trim y = y := by
  apply trim_eq_self
  · rw [← relaid.any_head?, ← trimmed, head?_trim]
  · rw [← relaid.any_getLast?, ← trimmed, getLast?_trim]

theorem mem_feed (feed : '\n' ∈ x) : '\n' ∈ y := by
  by_contra flat
  rw [relaid.symm.eq_of_not_mem flat] at feed
  exact flat feed

end

theorem exists_append_of_flat {front x t : Text} (flat : '\n' ∉ front)
    (solid : front.getLast?.any isBlank = false)
    (relaid : Relaid (front ++ x) t) : ∃ y, t = front ++ y ∧ Relaid x y := by
  induction front generalizing t with
  | nil => exact ⟨t, rfl, relaid⟩
  | cons c front ih =>
      rw [List.mem_cons, not_or] at flat
      rcases relaid.of_cons with ⟨rest, rfl, later⟩ | ⟨b, d, u, v, cut, -, one, -, -⟩
      · have ended : front.getLast?.any isBlank = false := by
          cases front with
          | nil => rfl
          | cons d front => rwa [List.getLast?_cons_cons] at solid
        obtain ⟨y, rfl, last⟩ := ih flat.2 ended later
        exact ⟨y, rfl, last⟩
      · -- The blanks would have to reach from the first character over the last one.
        have whole : c :: front ++ x = b ++ u := cut
        rcases List.append_eq_append_iff.mp whole with ⟨more, rfl, -⟩ | ⟨more, early, -⟩
        · cases ends : (c :: front).getLast? with
          | none => simp at ends
          | some e =>
              rw [ends, Option.any_some, one.1 e (List.mem_append_left _
                (List.mem_of_getLast? ends))] at solid
              cases solid
        · have feed : '\n' ∈ c :: front := by
            rw [early]
            exact List.mem_append_left _ one.2
          exact absurd feed (by simp [flat])

end Relaid

/-! ### The shape of texts that are laid out again -/

theorem lowerAscii_blanks_append {b : Text} (blank : ∀ c ∈ b, isBlank c = true) (x : Text) :
    lowerAscii (b ++ x) = b ++ lowerAscii x := by
  have same : lowerAscii b = b := by
    refine (List.map_congr_left fun c member => ?_).trans (List.map_id b)
    exact eq_of_beq (forall_inRanges (fun c => c.toLower == c) (by decide +kernel) (blank c member))
  rw [lowerAscii, List.map_append, ← lowerAscii, same, lowerAscii]

theorem includes_iff (part s : Text) : includes part s = true ↔ part <:+: s := by
  induction s with
  | nil => simp [includes]
  | cons c s ih =>
      rw [includes, Bool.or_eq_true, ih, List.isPrefixOf_iff_prefix, List.infix_cons_iff]

namespace Relaid

variable {x y : Text}

theorem isInfix_of_solid (relaid : Relaid x y) {w : Text} (present : w ≠ [])
    (solid : ∀ c ∈ w, isBlank c = false)
    (part : w <:+: x) : w <:+: y := by
  induction relaid with
  | nil => exact part
  | @keep c x y later ih =>
      rcases List.infix_cons_iff.mp part with ⟨rest, cut⟩ | inner
      · obtain ⟨u, whole, -⟩ := (cut ▸ Relaid.keep c later).exists_append_of_solid solid
        exact ⟨[], u, by rw [List.nil_append, whole]⟩
      · exact List.infix_cons (ih inner)
  | @swap b d x y one other _ ih =>
      refine (ih ?_).trans (List.suffix_append d y).isInfix
      have apart : ∀ c ∈ w, c ∉ b := by
        intro c member inside
        have blank := one.1 c inside
        rw [solid c member] at blank
        cases blank
      obtain ⟨c, rest, rfl⟩ := List.exists_cons_of_ne_nil present
      rcases List.infix_append_iff_ne_nil.mp part with inner | outer | ⟨front, back, filled, -, cut,
        suffix, -⟩
      · exact absurd (inner.subset List.mem_cons_self) (apart c List.mem_cons_self)
      · exact outer
      · obtain ⟨e, front, rfl⟩ := List.exists_cons_of_ne_nil filled
        exact absurd (suffix.subset List.mem_cons_self) (apart e (by rw [cut]; simp))

theorem lowerAscii (relaid : Relaid x y) : Relaid (lowerAscii x) (lowerAscii y) := by
  induction relaid with
  | nil => exact .nil
  | keep c _ ih => exact .keep c.toLower ih
  | swap one other _ ih =>
      rw [lowerAscii_blanks_append one.1, lowerAscii_blanks_append other.1]
      exact .swap one other ih

theorem detect_eq (relaid : Relaid x y) : Shape.detect x = Shape.detect y := by
  have defines {x y : Text} (relaid : Relaid x y) (starts :
      "create table".toList.isPrefixOf x = true) :
      "create table".toList.isPrefixOf y = true := by
    obtain ⟨rest, rfl⟩ := List.isPrefixOf_iff_prefix.mp starts
    obtain ⟨rest', rfl, -⟩ := relaid.exists_append_of_flat (by decide) (by decide)
    exact List.isPrefixOf_iff_prefix.mpr (List.prefix_append _ _)
  have calls {x y : Text} (relaid : Relaid x y) (inside : includes "group_concat" x = true) :
      includes "group_concat" y = true := by
    rw [includes_iff] at inside ⊢
    exact relaid.isInfix_of_solid (by decide) (by decide) inside
  have lower := relaid.lowerAscii
  have same : "create table".toList.isPrefixOf (LiteSql.lowerAscii x) =
      "create table".toList.isPrefixOf (LiteSql.lowerAscii y) :=
    Bool.eq_iff_iff.mpr ⟨defines lower, defines lower.symm⟩
  have among : includes "group_concat" (LiteSql.lowerAscii x) = includes "group_concat"
      (LiteSql.lowerAscii y) :=
    Bool.eq_iff_iff.mpr ⟨calls lower, calls lower.symm⟩
  simp only [Shape.detect, same, among]

end Relaid

/-! ### Segments of texts that are laid out again -/

namespace Segment

/-- Code that is laid out again, or any two literals. -/
def Relaid : Segment → Segment → Prop
  | code x, code y => LiteSql.Relaid x y
  | literal _, literal _ => True
  | _, _ => False

theorem forall₂_foldr_cons {x y : Text} (relaid : LiteSql.Relaid x y) (present : x ≠ [])
    {segs others : List Segment}
    (aligned : List.Forall₂ Relaid segs others) :
    List.Forall₂ Relaid ((x.map Lexeme.code).foldr cons segs)
      ((y.map Lexeme.code).foldr cons others) := by
  have filled : y ≠ [] := fun none => present (relaid.eq_nil_iff.mpr none)
  cases aligned with
  | nil =>
      have apart : ∀ z rest, ([] : List Segment) ≠ .code z :: rest := nofun
      rw [foldr_cons_apart present apart, foldr_cons_apart filled apart]
      exact .cons relaid .nil
  | @cons segment other _ _ first later =>
      cases segment with
      | literal text =>
          cases other with
          | literal text' =>
              have apart (text : Text) (segs : List Segment) : ∀ z rest,
                  .literal text :: segs ≠ .code z :: rest := nofun
              rw [foldr_cons_apart present (apart _ _), foldr_cons_apart filled (apart _ _)]
              exact .cons relaid (.cons trivial later)
          | code z => exact first.elim
      | code w =>
          cases other with
          | literal text => exact first.elim
          | code z =>
              rw [foldr_cons_code, foldr_cons_code]
              exact .cons (relaid.append first) later

end Segment

theorem Aligned.forall₂_foldr_cons {ls ms : List Lexeme} (aligned : Aligned ls ms) :
    List.Forall₂ Segment.Relaid (ls.foldr Segment.cons []) (ms.foldr Segment.cons []) := by
  induction aligned with
  | nil => exact .nil
  | code c _ ih => exact Segment.forall₂_foldr_cons (Relaid.refl [c]) (List.cons_ne_nil _ _) ih
  | @swap b d _ _ one other _ ih =>
      have relaid : Relaid b d := by simpa using Relaid.swap one other .nil
      rw [List.foldr_append, List.foldr_append]
      exact Segment.forall₂_foldr_cons relaid (List.ne_nil_of_mem one.2) ih
  | literal _ _ _ _ ih => exact .cons trivial ih

theorem Relaid.exists_mem_codeSegments {s t x : Text} (relaid : Relaid s t)
    (member : x ∈ codeSegments t) :
    ∃ y ∈ codeSegments s, Relaid y x := by
  have aligned : List.Forall₂ Segment.Relaid (segments s) (segments t) :=
    relaid.aligned.forall₂_foldr_cons
  obtain ⟨i, inside, same⟩ := List.getElem_of_mem (mem_codeSegments_iff.mp member)
  have early : i < (segments s).length := aligned.length_eq ▸ inside
  have pair := List.Forall₂.get aligned early inside
  simp only [List.get_eq_getElem, same] at pair
  cases source : (segments s)[i] with
  | literal text =>
      rw [source] at pair
      exact pair.elim
  | code y =>
      rw [source] at pair
      exact ⟨y, mem_codeSegments_iff.mpr (source ▸ List.getElem_mem early), pair⟩

theorem isInfix_of_mem_codeSegments {s x : Text} (member : x ∈ codeSegments s) : x <:+: s := by
  obtain ⟨front, behind, cut⟩ := (spell_segments s).infix_of_mem (mem_codeSegments_iff.mp member)
  refine ⟨front.flatMap Lexeme.text, behind.flatMap Lexeme.text, ?_⟩
  rw [← flatMap_text_map_code x, ← List.flatMap_append, ← List.flatMap_append, cut,
    flatMap_text_lexemes]

/-! ### Blanks that cleanup changes -/

namespace Relaid

theorem mapCode {change : Text → Text} {s : Text}
    (all : ∀ x ∈ codeSegments s, Relaid x (change x)) :
    Relaid s (mapCode change s) := by
  have whole := flatMap_text_segments s
  have each : ∀ x, Segment.code x ∈ segments s → Relaid x (change x) := fun x member =>
    all x (mem_codeSegments_iff.mpr member)
  rw [LiteSql.mapCode]
  generalize segments s = segs at whole each
  subst whole
  clear all
  induction segs with
  | nil => exact .nil
  | cons segment segs ih =>
      have later := ih fun x member => each x (List.mem_cons_of_mem _ member)
      rw [List.flatMap_cons, List.flatMap_cons]
      cases segment with
      | literal text => exact (refl text).append later
      | code x => exact (each x List.mem_cons_self).append later

end Relaid

namespace Cleanup

theorem relaid_dropLineEnds (x : Text) : Relaid x (dropLineEnds x) := by
  induction size : x.length using Nat.strongRecOn generalizing x with
  | ind n ih =>
      subst size
      cases x with
      | nil => exact .nil
      | cons c s =>
          by_cases dropped : c = ' ' ∧ endsLine s = true
          · obtain ⟨rfl, ends⟩ := dropped
            obtain ⟨run, rest, rfl, spaces⟩ := exists_of_endsLine ends
            have whole : ∀ c ∈ ' ' :: run, c = ' ' := by simpa using spaces
            have one : IsBreak (' ' :: run ++ ['\n']) := by
              refine ⟨fun c member => ?_, by simp⟩
              rcases List.mem_append.mp member with space | feed
              · exact whole c space ▸ rfl
              · exact List.mem_singleton.mp feed ▸ rfl
            have other : IsBreak ['\n'] := ⟨by decide, List.mem_cons_self⟩
            have later :=
              ih rest.length (by simp only [List.length_cons, List.length_append]; omega) rest rfl
            rw [← List.cons_append, dropLineEnds_append whole rfl, dropLineEnds, if_neg (by simp)]
            simpa using Relaid.swap one other later
          · rw [dropLineEnds, if_neg dropped]
            exact .keep c (ih s.length (by simp) s rfl)

theorem WithoutBlankLines.relaid {x y : Text} (without : WithoutBlankLines x y) : Relaid x y := by
  induction without with
  | nil => exact .nil
  | keep _ _ ih => exact .keep _ ih
  | @feed deleted last x y early late _ _ _ ih =>
      have one : IsBreak ('\n' :: (deleted ++ last)) :=
        ⟨List.forall_mem_cons.mpr ⟨rfl, List.forall_mem_append.mpr ⟨early, late⟩⟩,
          List.mem_cons_self⟩
      have other : IsBreak ('\n' :: last) :=
        ⟨List.forall_mem_cons.mpr ⟨rfl, late⟩, List.mem_cons_self⟩
      simpa using Relaid.swap one other ih

theorem relaid_spacesAtLineEnd (s : Text) :
    Relaid s (spacesAtLineEnd.replaceCode (fun _ => []) s) := by
  apply Relaid.mapCode
  intro x _
  rw [replace_spacesAtLineEnd]
  exact relaid_dropLineEnds x

theorem relaid_blankLines (s : Text) : Relaid s (blankLines.replaceCode (fun _ => "\n") s) :=
  Relaid.mapCode fun x _ => (withoutBlankLines_replace x).relaid

theorem exists_squeezeRuns_append {q : Char → Bool} (feed : q '\n' = false) {b : Text}
    (blank : ∀ c ∈ b, isBlank c = true) (x : Text) :
    ∃ d, squeezeRuns q (b ++ x) = d ++ squeezeRuns q x ∧ (∀ c ∈ d, isBlank c = true) ∧
      ('\n' ∈ b → '\n' ∈ d) := by
  induction b with
  | nil => exact ⟨[], rfl, by simp, id⟩
  | cons c b ih =>
      obtain ⟨first, others⟩ := List.forall_mem_cons.mp blank
      obtain ⟨d, same, spaces, feeds⟩ := ih others
      rw [List.cons_append, squeezeRuns, same]
      split
      · next member =>
        have kept (among : '\n' ∈ c :: b) : '\n' ∈ d := by
          rcases List.mem_cons.mp among with rfl | later
          · rw [feed] at member
            cases member
          · exact feeds later
        split
        · exact ⟨d, rfl, spaces, kept⟩
        · exact ⟨' ' :: d, rfl, List.forall_mem_cons.mpr ⟨rfl, spaces⟩,
            fun among => List.mem_cons_of_mem _ (kept among)⟩
      · refine ⟨c :: d, rfl, List.forall_mem_cons.mpr ⟨first, spaces⟩, fun among => ?_⟩
        rcases List.mem_cons.mp among with rfl | later
        · exact List.mem_cons_self
        · exact List.mem_cons_of_mem c (feeds later)

theorem exists_blank_before_feed {b : Text} (breaks : IsBreak b) {c : Char}
    (blank : isBlank c = true) :
    ∃ d, isBlank d = true ∧ [d, '\n'] <:+: c :: b := by
  obtain ⟨early, late, rfl, -⟩ := List.eq_append_cons_of_mem breaks.2
  obtain ⟨front, d, cut⟩ := (List.eq_nil_or_concat (c :: early)).resolve_left (List.cons_ne_nil _ _)
  have spaces : ∀ e ∈ c :: early, isBlank e = true :=
    List.forall_mem_cons.mpr ⟨blank, fun e member => breaks.1 e (List.mem_append_left _ member)⟩
  refine ⟨d, spaces d (by simp [cut]), front, late, ?_⟩
  rw [List.append_assoc, ← List.cons_append, cut, List.concat_eq_append, List.append_assoc]
  rfl

/-- Of code that was in normal form before its lines were laid out, only the indentation is
squeezed. -/
theorem Tidy.relaid_squeezeRuns {w z : Text} (tidy : Tidy w) (relaid : Relaid w z)
    (ended : ∀ c, isBlank c = true → ¬ [c, '\n'] <:+: z) :
    Relaid z (squeezeRuns (fun c => c == ' ' || c == '\t') z) := by
  induction relaid with
  | nil => exact .nil
  | @keep c w z later ih =>
      have next := ih (tidy.of_isInfix (List.suffix_cons c w).isInfix) fun d blank part =>
        ended d blank (List.infix_cons part)
      rw [squeezeRuns]
      split
      · next space =>
        have tabless : ∀ d ∈ c :: w, (d == ' ' || d == '\t') = true → d = ' ' := by
          intro d member blank
          have other : d ≠ '\t' := fun tab => tidy.tabless (tab ▸ member)
          simpa [other] using blank
        obtain rfl := tabless c List.mem_cons_self space
        have alone : z.head?.any (fun c => c == ' ' || c == '\t') = false := by
          rw [← Bool.not_eq_true]
          intro more
          cases z with
          | nil => cases more
          | cons d z =>
              rcases later.symm.of_cons with ⟨y, rfl, -⟩ | ⟨b, _, u, _, cut, -, breaks, -, -⟩
              · obtain rfl := tabless d (by simp) more
                exact tidy.single ⟨[], y, rfl⟩
              · obtain ⟨e, blank, part⟩ := exists_blank_before_feed breaks (c := ' ') rfl
                rw [cut] at ended
                exact ended e blank (part.trans ⟨[], u, by simp⟩)
        rw [alone]
        exact .keep ' ' next
      · exact .keep c next
  | @swap b d w z one other later ih =>
      have next := ih (tidy.of_isInfix (List.suffix_append b w).isInfix) fun c blank part =>
        ended c blank (part.trans (List.suffix_append d z).isInfix)
      obtain ⟨e, same, blank, feeds⟩ := exists_squeezeRuns_append
        (q := fun c => c == ' ' || c == '\t') rfl other.1 z
      rw [same]
      exact .swap other ⟨blank, feeds other.2⟩ next

/-- Of a text whose code was in normal form before its lines were laid out, only the indentation is
squeezed. -/
theorem relaid_spacesAndTabs {s t : Text} (relaid : Relaid s t)
    (tidy : ∀ x ∈ codeSegments s, Tidy x)
    (ended : ∀ c, isBlank c = true → ¬ [c, '\n'] <:+: t) :
      Relaid t (spacesAndTabs.replaceCode (fun _ => " ") t) := by
  apply Relaid.mapCode
  intro z member
  obtain ⟨w, source, alike⟩ := relaid.exists_mem_codeSegments member
  rw [spacesAndTabs, Pattern.replace_someOf]
  exact (tidy w source).relaid_squeezeRuns alike fun c blank part =>
    ended c blank (part.trans (isInfix_of_mem_codeSegments member))

end Cleanup

/-! ### Blank runs in normal form -/

def TidyRuns (ls : List Lexeme) : Prop :=
  ∀ w : Text, (∀ c ∈ w, isBlank c = true) → w.map .code <:+: ls → Cleanup.Tidy w

theorem Cleanup.tidy_nil : Tidy [] :=
  ⟨by simp, by simp, by simp, fun b _ => by simp⟩

theorem tidyRuns_lexemes_iff (s : Text) : TidyRuns (lexemes s) ↔ ∀ x ∈ codeSegments s,
    Cleanup.Tidy x := by
  constructor
  · intro tidy x member
    have within := (spell_segments s).infix_of_mem (mem_codeSegments_iff.mp member)
    have runs {w : Text} (blank : ∀ c ∈ w, isBlank c = true) (part : w <:+: x) : Cleanup.Tidy w :=
      tidy w blank ((part.map Lexeme.code).trans within)
    refine ⟨fun tab => ?_, fun spaces => ?_, fun space => ?_, fun b blank feeds => ?_⟩
    · obtain ⟨front, behind, cut⟩ := List.append_of_mem tab
      exact (runs (w := ['\t']) (by decide) ⟨front, behind, by simp [cut]⟩).tabless (by simp)
    · exact (runs (by decide) spaces).single List.infix_rfl
    · exact (runs (by decide) space).ended List.infix_rfl
    · have spaces : ∀ c ∈ '\n' :: (b ++ ['\n']), isBlank c = true :=
        List.forall_mem_cons.mpr ⟨rfl, List.forall_mem_append.mpr ⟨blank, by decide⟩⟩
      exact (runs spaces feeds).closed b blank List.infix_rfl
  · intro tidy w _ part
    by_cases none : w = []
    · exact none ▸ Cleanup.tidy_nil
    · obtain ⟨x, member, inner⟩ := (spell_segments s).exists_mem_of_isInfix none part
      exact (tidy x (mem_codeSegments_iff.mpr member)).of_isInfix inner

namespace TidyRuns

variable {ls ms : List Lexeme}

theorem of_isInfix (tidy : TidyRuns ls) (part : ms <:+: ls) : TidyRuns ms :=
  fun w blank inner => tidy w blank (inner.trans part)

theorem append_cons (first : TidyRuns ls) {l : Lexeme} (solid : l.isBlank = false)
    (second : TidyRuns ms) :
    TidyRuns (ls ++ l :: ms) := by
  intro w blank part
  have apart : l ∉ w.map .code := by
    rintro member
    obtain ⟨c, among, rfl⟩ := List.mem_map.mp member
    rw [Lexeme.isBlank, blank c among] at solid
    cases solid
  rcases List.infix_append_iff_ne_nil.mp part with inner | outer | ⟨front, back, -, filled, cut,
    -, start⟩
  · exact first w blank inner
  · rcases List.infix_cons_iff.mp outer with ⟨behind, start⟩ | later
    · by_cases none : w = []
      · exact none ▸ Cleanup.tidy_nil
      · obtain ⟨c, w, rfl⟩ := List.exists_cons_of_ne_nil none
        obtain ⟨rfl, -⟩ := List.cons.inj start
        exact absurd List.mem_cons_self apart
    · exact second w blank later
  · obtain ⟨m, back, rfl⟩ := List.exists_cons_of_ne_nil filled
    obtain ⟨behind, start⟩ := start
    obtain ⟨rfl, -⟩ := List.cons.inj start
    exact absurd (by rw [cut]; simp) apart

end TidyRuns

theorem Squeezed.tidyRuns {ls : List Lexeme} (squeezed : Squeezed ls) : TidyRuns ls := by
  intro w blank part
  obtain ⟨apart, space⟩ := squeezed.of_isInfix part
  have spaces : ∀ c ∈ w, c = ' ' := fun c among =>
    Lexeme.code.inj (space (.code c) (List.mem_map_of_mem among) (blank c among))
  have flat : '\n' ∉ w := fun feed => absurd (spaces '\n' feed) (by decide)
  refine ⟨fun tab => absurd (spaces '\t' tab) (by decide), fun pair => ?_, fun pair => ?_,
    fun b _ pair => ?_⟩
  · exact List.isChain_pair.mp ( List.IsChain.infix apart (pair.map Lexeme.code)) ⟨rfl, rfl⟩
  · exact flat (pair.subset (by simp))
  · exact flat (pair.subset List.mem_cons_self)

theorem tidyRuns_map_code {x : Text} (solid : ∀ c ∈ x, isBlank c = false) :
    TidyRuns (x.map .code) := by
  intro w blank part
  cases w with
  | nil => exact Cleanup.tidy_nil
  | cons c w =>
      obtain ⟨d, among, same⟩ :=
        List.mem_map.mp (part.subset (List.mem_cons_self (a := Lexeme.code c)))
      cases same
      have space := blank c List.mem_cons_self
      rw [solid c among] at space
      cases space

/-! ### Cleanup of a plain query that has been laid out -/

namespace Layout

theorem head?_joinWith {line : Text} (present : line ≠ []) (rest : List Text) :
    (joinWith "\n" (line :: rest)).head? = line.head? := by
  cases rest with
  | nil => rfl
  | cons next rest =>
      rw [joinWith_cons (List.cons_ne_nil _ _), List.append_assoc,
        List.head?_append_of_ne_nil _ present]

theorem not_infix_joinWith {ls : List Text}
    (solid : ∀ line ∈ ls, '\n' ∉ line ∧ line ≠ [] ∧ line.getLast?.any isBlank = false) {c : Char}
    (blank : isBlank c = true) : ¬ [c, '\n'] <:+: joinWith "\n" ls := by
  induction ls with
  | nil => simp [joinWith]
  | cons line ls ih =>
      obtain ⟨⟨flat, present, last⟩, others⟩ := List.forall_mem_cons.mp solid
      cases ls with
      | nil => exact fun part => flat (part.subset (by simp))
      | cons next rest =>
          have whole : joinWith "\n" (line :: next :: rest) = line ++ '\n' :: joinWith "\n"
              (next :: rest) := by
            rw [joinWith_cons (List.cons_ne_nil _ _), List.append_assoc]
            rfl
          obtain ⟨⟨flatNext, filledNext, -⟩, -⟩ := List.forall_mem_cons.mp others
          rw [whole]
          intro part
          rcases List.infix_append_iff_ne_nil.mp part with inner | outer | ⟨front, back, filled,
            more, cut, suffix, -⟩
          · exact flat (inner.subset (by simp))
          · rcases List.infix_cons_iff.mp outer with ⟨behind, start⟩ | later
            · obtain ⟨-, behind⟩ := List.cons.inj start
              have first : (joinWith "\n" (next :: rest)).head? = next.head? :=
                head?_joinWith filledNext rest
              rw [← behind] at first
              exact flatNext (List.mem_of_head? first.symm)
            · exact ih others later
          · obtain ⟨d, front, rfl⟩ := List.exists_cons_of_ne_nil filled
            obtain ⟨rfl, rest⟩ := List.cons.inj cut
            cases front with
            | nil =>
                obtain ⟨early, rfl⟩ := suffix
                rw [List.getLast?_concat, Option.any_some, blank] at last
                cases last
            | cons e front =>
                obtain ⟨-, none⟩ := List.cons.inj rest
                exact more (List.append_eq_nil_iff.mp none.symm).2

theorem mem_indentLines {inSelect : Bool} {kept : List Text} {line : Text}
    (member : line ∈ indentLines inSelect kept) :
    ∃ core ∈ kept, line = core ∨ line = indent ++ core := by
  induction kept generalizing inSelect with
  | nil => cases member
  | cons core rest ih =>
      rw [indentLines, List.mem_cons] at member
      rcases member with rfl | later
      · refine ⟨core, List.mem_cons_self, ?_⟩
        split
        · exact .inr rfl
        · exact .inl rfl
      · obtain ⟨other, among, same⟩ := ih later
        exact ⟨other, List.mem_cons_of_mem _ among, same⟩

section

variable {s : Text} (complex : isSimple s = false)

include complex

theorem not_infix_plainQuery {c : Char} (blank : isBlank c = true) :
    ¬ [c, '\n'] <:+: plainQuery s := by
  rw [plainQuery_of_complex complex]
  refine not_infix_joinWith (fun line member => ?_) blank
  obtain ⟨core, among, same⟩ := mem_indentLines member
  obtain ⟨whole, inside, rfl, present⟩ := mem_solidLines among
  have flat := not_mem_trim (not_mem_of_mem_lines inside)
  rcases same with rfl | rfl
  · exact ⟨flat, present, getLast?_trim whole⟩
  · refine ⟨?_, by simp [present], ?_⟩
    · rw [List.mem_append, not_or]
      exact ⟨by decide, flat⟩
    · rw [List.getLast?_append_of_ne_nil _ present, getLast?_trim]

end

theorem isSimple_of_feed {s : Text} (feed : '\n' ∈ s) : isSimple s = false := by
  rw [← Bool.not_eq_true]
  exact fun simple => not_mem_of_isSimple simple feed

theorem solidLines_clean {s : Text} (tidy : ∀ x ∈ codeSegments s, Cleanup.Tidy x)
    (trimmed : trim s = s) (feed : '\n' ∈ s)
    (none : Cleanup.option.codeHits (plainQuery s) = []) :
    solidLines (lines (Cleanup.clean (plainQuery s))) = solidLines (lines (plainQuery s)) ∧
      '\n' ∈ Cleanup.clean (plainQuery s) := by
  have complex := isSimple_of_feed feed
  have relaid := relaid_plainQuery complex
  rw [trimmed] at relaid
  have first := Cleanup.relaid_spacesAndTabs relaid tidy fun _ => not_infix_plainQuery complex
  have second := Cleanup.relaid_spacesAtLineEnd
    (Cleanup.spacesAndTabs.replaceCode (fun _ => " ") (plainQuery s))
  have third := Cleanup.relaid_blankLines (Cleanup.spacesAtLineEnd.replaceCode (fun _ => [])
    (Cleanup.spacesAndTabs.replaceCode (fun _ => " ") (plainQuery s)))
  rw [Cleanup.clean, Pattern.replaceCode_of_codeHits_eq_nil none,
    third.trim_eq (second.trim_eq (first.trim_eq (relaid.trim_eq trimmed)))]
  constructor
  · rw [← third.solidLines_eq, ← second.solidLines_eq, ← first.solidLines_eq]
  · exact third.mem_feed (second.mem_feed (first.mem_feed (relaid.mem_feed feed)))

theorem plainQuery_clean {s : Text} (tidy : ∀ x ∈ codeSegments s, Cleanup.Tidy x)
    (trimmed : trim s = s)
    (none : Cleanup.option.codeHits (plainQuery s) = []) :
    plainQuery (Cleanup.clean (plainQuery s)) = plainQuery s ∧
      Shape.detect (Cleanup.clean (plainQuery s)) = Shape.detect (plainQuery s) := by
  have again := plainQuery_plainQuery trimmed
  by_cases feed : '\n' ∈ s
  · obtain ⟨kept, feeds⟩ := solidLines_clean tidy trimmed feed none
    have relaid := relaid_plainQuery (isSimple_of_feed feed)
    rw [trimmed] at relaid
    have same : plainQuery (Cleanup.clean (plainQuery s)) = plainQuery s := by
      rw [plainQuery_of_complex (isSimple_of_feed feeds), kept,
        ← plainQuery_of_complex (isSimple_of_feed (relaid.mem_feed feed)), again]
    have back := relaid_plainQuery (isSimple_of_feed feeds)
    rw [same] at back
    refine ⟨same, ?_⟩
    rw [← back.detect_eq]
    exact congrArg Shape.detect (trim_trim _).symm
  · have fixed : Cleanup.clean (plainQuery s) = plainQuery s := by
      cases simple : isSimple s with
      | false =>
          rw [plainQuery_of_flat trimmed simple feed] at none ⊢
          exact Cleanup.clean_eq_self none tidy trimmed
      | true =>
          have same : plainQuery s = collapseBlanks s := by rw [plainQuery, if_pos simple]
          rw [same] at none ⊢
          exact Cleanup.clean_eq_self none ((tidyRuns_lexemes_iff _).mp
            (squeezed_collapseBlanks feed).tidyRuns) (trim_trim _)
    rw [fixed, again]
    exact ⟨rfl, rfl⟩

end Layout

end LiteSql
