import LiteSql.Proofs.OneLine
import LiteSql.Proofs.Respacing
import LiteSql.Proofs.Token

/-! The normal form of blanks that cleanup reaches. Each pass is described on one code segment: what
it makes of the segment, and that it keeps what the passes before it have reached. -/

namespace LiteSql

/-! ### Code segments of a trimmed text -/

theorem mem_codeSegments_iff {s x : Text} : x ∈ codeSegments s ↔ Segment.code x ∈ segments s := by
  rw [codeSegments, List.mem_filterMap]
  constructor
  · rintro ⟨segment, member, same⟩
    cases segment with
    | literal text => cases same
    | code y => exact Option.some.inj same ▸ member
  · intro member
    exact ⟨.code x, member, rfl⟩

namespace Segment.Spell

variable {segs : List Segment} {ls : List Lexeme}

theorem infix_of_mem (spell : Spell segs ls) {x : Text} (member : Segment.code x ∈ segs) :
    x.map .code <:+: ls := by
  induction spell with
  | nil => cases member
  | literal kind text _ ih =>
      rcases List.mem_cons.mp member with impossible | later
      · cases impossible
      · exact (ih later).trans (List.infix_cons List.infix_rfl)
  | code y _ _ ih =>
      rcases List.mem_cons.mp member with here | later
      · cases here
        exact (List.prefix_append _ _).isInfix
      · exact (ih later).trans (List.suffix_append _ _).isInfix

theorem exists_mem_of_isInfix (spell : Spell segs ls) {y : Text} (present : y ≠ [])
    (part : y.map .code <:+: ls) :
    ∃ x, Segment.code x ∈ segs ∧ y <:+: x := by
  induction spell with
  | nil =>
      rw [List.infix_nil, List.map_eq_nil_iff] at part
      exact absurd part present
  | @literal kind text segs ls _ ih =>
      rcases List.infix_cons_iff.mp part with first | later
      · obtain ⟨c, y, rfl⟩ := List.exists_cons_of_ne_nil present
        obtain ⟨rest, cut⟩ := first
        cases cut
      · obtain ⟨x, member, inner⟩ := ih later
        exact ⟨x, List.mem_cons_of_mem _ member, inner⟩
  | @code x segs ls apart later ih =>
      have ended : ∀ l extra, l :: extra <+: ls → ∀ c, l ≠ .code c := by
        rintro l extra ⟨rest, cut⟩ c rfl
        cases later with
        | nil => cases cut
        | literal kind text _ => cases cut
        | code z _ _ => exact absurd rfl (apart z _)
      rcases List.infix_append_iff_ne_nil.mp part with inner | outer | ⟨front, back, -, filled, cut,
        -, start⟩
      · obtain ⟨z, inside, same⟩ := List.infix_map_iff.mp inner
        have equal : y = z := List.map_injective_iff.mpr (fun _ _ => Lexeme.code.inj) same
        exact ⟨x, List.mem_cons_self, equal ▸ inside⟩
      · obtain ⟨z, member, inner⟩ := ih outer
        exact ⟨z, List.mem_cons_of_mem _ member, inner⟩
      · obtain ⟨l, extra, rfl⟩ := List.exists_cons_of_ne_nil filled
        have among : l ∈ y.map Lexeme.code := by
          rw [cut]
          exact List.mem_append_right _ List.mem_cons_self
        obtain ⟨c, -, rfl⟩ := List.mem_map.mp among
        exact absurd rfl (ended _ extra start c)

end Segment.Spell

theorem ne_nil_of_mem_codeSegments {s x : Text} (member : x ∈ codeSegments s) : x ≠ [] :=
  Segment.ne_nil_of_mem_foldr_cons (lexemes s) x (mem_codeSegments_iff.mp member)

theorem exists_mem_codeSegments_of_trim {s x : Text} (member : x ∈ codeSegments (trim s)) :
    ∃ y ∈ codeSegments s, x <:+: y := by
  have present := ne_nil_of_mem_codeSegments member
  have part : x.map .code <:+: lexemes s := by
    have within := (spell_segments (trim s)).infix_of_mem (mem_codeSegments_iff.mp member)
    rcases lexemes_trim s with whole | ⟨front, kind, text, whole, inner⟩
    · exact within.trans whole
    · rw [whole, List.infix_concat_iff] at within
      rcases within with ⟨early, cut⟩ | within
      · -- The last lexeme is a literal, so no code ends there.
        have last := congrArg List.getLast? cut
        rw [List.getLast?_append_of_ne_nil _ (by simpa using present), List.getLast?_concat,
          List.getLast?_map, Option.map_eq_some_iff] at last
        obtain ⟨c, -, impossible⟩ := last
        cases impossible
      · exact within.trans inner
  obtain ⟨y, among, inner⟩ := (spell_segments s).exists_mem_of_isInfix present part
  exact ⟨y, mem_codeSegments_iff.mpr among, inner⟩

namespace Cleanup

/-! ### Spaces and tabs -/

section

variable {q : Char → Bool}

theorem mem_squeezeRuns {c : Char} {x : Text} (member : c ∈ squeezeRuns q x) :
    c = ' ' ∨ q c = false := by
  induction x with
  | nil => cases member
  | cons d x ih =>
      rw [squeezeRuns] at member
      split at member
      · split at member
        · exact ih member
        · rcases List.mem_cons.mp member with space | later
          · exact .inl space
          · exact ih later
      · next other =>
        rcases List.mem_cons.mp member with rfl | later
        · exact .inr (Bool.eq_false_iff.mpr other)
        · exact ih later

theorem head?_squeezeRuns (x : Text) :
    (squeezeRuns q x).head? = x.head?.map fun c => if q c then ' ' else c := by
  induction x with
  | nil => rfl
  | cons c x ih =>
      rw [squeezeRuns]
      cases member : q c with
      | false => simp [member]
      | true =>
          rw [if_pos rfl]
          split
          · next more =>
            rw [ih]
            cases x with
            | nil => cases more
            | cons d x => simp_all
          · simp [member]

theorem isChain_squeezeRuns (space : q ' ' = true) (x : Text) :
    (squeezeRuns q x).IsChain fun c d => c = ' ' → d ≠ ' ' := by
  induction x with
  | nil => exact .nil
  | cons c x ih =>
      rw [squeezeRuns]
      split
      · split
        · exact ih
        · next ended =>
          rw [List.isChain_cons]
          refine ⟨?_, ih⟩
          intro d head _
          rw [head?_squeezeRuns] at head
          cases x with
          | nil => cases head
          | cons e x =>
              have other : q e = false := by simpa using ended
              obtain rfl : e = d := by simpa [other] using head
              rintro rfl
              rw [space] at other
              cases other
      · next other =>
        rw [List.isChain_cons]
        refine ⟨?_, ih⟩
        rintro d - rfl
        exact absurd space other

end

/-! ### Spaces at the end of a line -/

def endsLine (s : Text) : Bool := (s.dropWhile (· == ' ')).head? == some '\n'

theorem exists_of_endsLine {s : Text} (ends : endsLine s = true) :
    ∃ run rest, s = run ++ '\n' :: rest ∧ ∀ c ∈ run, (c == ' ') = true := by
  obtain ⟨rest, behind⟩ := List.head?_eq_some_iff.mp (eq_of_beq ends)
  refine ⟨s.takeWhile (· == ' '), rest, ?_, List.all_eq_true.mp List.all_takeWhile⟩
  rw [← behind, List.takeWhile_append_dropWhile]

def dropLineEnds : Text → Text
  | [] => []
  | c :: s => if c = ' ' ∧ endsLine s then dropLineEnds s else c :: dropLineEnds s

theorem dropLineEnds_ne_nil {x : Text} (present : x ≠ []) : dropLineEnds x ≠ [] := by
  induction x with
  | nil => exact absurd rfl present
  | cons c x ih =>
      rw [dropLineEnds]
      split
      · next dropped =>
        apply ih
        rintro rfl
        cases dropped.2
      · exact List.cons_ne_nil _ _

theorem dropLineEnds_append {run after : Text} (spaces : ∀ c ∈ run, c = ' ')
    (feed : after.head? = some '\n') :
    dropLineEnds (run ++ after) = dropLineEnds after := by
  induction run with
  | nil => rfl
  | cons c run ih =>
      obtain ⟨rfl, others⟩ := List.forall_mem_cons.mp spaces
      have ends : endsLine (run ++ after) = true := by
        rw [endsLine, List.dropWhile_append_of_pos (by simpa using others)]
        cases after with
        | nil => cases feed
        | cons d after =>
            obtain rfl : d = '\n' := Option.some.inj feed
            rfl
      rw [List.cons_append, dropLineEnds, if_pos ⟨rfl, ends⟩, ih others]

theorem matchAt?_spacesAtLineEnd_eq_none {c : Char} {s : Text}
    (kept : ¬ (c = ' ' ∧ endsLine s = true)) (pos : Nat)
    (before : Option Char) : spacesAtLineEnd.matchAt? ⟨pos, before, c :: s, []⟩ = none := by
  rw [Pattern.matchAt?_eq_none_iff]
  rintro ⟨x, after, caps, cut, y, z, _, _, rfl, -, taken, rfl, -, _, rest, _, next,
    ⟨d, feed, rfl⟩, -⟩
  obtain ⟨⟨present, spaces⟩, -⟩ := (Pattern.spans_someOf_iff _ _ _ _ _ _).mp taken
  obtain ⟨e, y, rfl⟩ := List.exists_cons_of_ne_nil present
  obtain ⟨first, others⟩ := List.forall_mem_cons.mp spaces
  rw [List.append_nil] at cut
  have same : c = e := (List.cons.inj cut).1
  have tail : s = y ++ after := (List.cons.inj cut).2
  apply kept
  refine ⟨same.trans (eq_of_beq first), ?_⟩
  rw [endsLine, tail, List.dropWhile_append_of_pos others, next, eq_of_beq feed]
  rfl

theorem replace_spacesAtLineEnd (x : Text) : spacesAtLineEnd.replace (fun _ => []) x =
    dropLineEnds x := by
  have all (x : Text) (pos : Nat) (before : Option Char) :
      (spacesAtLineEnd.piecesAfter 0 pos before x).flatMap (Pattern.replaced fun _ => []) =
        dropLineEnds x := by
    induction size : x.length using Nat.strongRecOn generalizing x pos before with
    | ind n ih =>
        subst size
        cases x with
        | nil => rfl
        | cons c s =>
            by_cases dropped : c = ' ' ∧ endsLine s = true
            · obtain ⟨rfl, ends⟩ := dropped
              obtain ⟨run, rest, rfl, spaces⟩ := exists_of_endsLine ends
              have seen (before : Option Char) (pos : Nat) (rest : Text) :
                  (Pattern.one (· == '\n')).Spans before pos ['\n'] rest [] :=
                    ⟨⟨'\n', rfl, rfl⟩, rfl⟩
              have whole : ∀ c ∈ ' ' :: run, (c == ' ') = true :=
                List.forall_mem_cons.mpr ⟨rfl, spaces⟩
              have prefers : spacesAtLineEnd.Prefers before pos (' ' :: run ++ [])
                  ('\n' :: rest) [] :=
                (Pattern.Prefers.someOf (List.cons_ne_nil _ _) whole rfl).seq
                (.ahead (seen _ _ rest) rfl)
              rw [List.append_nil] at prefers
              obtain ⟨m, cut⟩ := prefers.piecesAfter (List.cons_ne_nil _ _)
              rw [← List.cons_append, cut, dropLineEnds_append (by simpa using whole) rfl]
              exact ih _ (by simp only [List.length_append, List.length_cons]; omega) _ _ _ rfl
            · rw [Pattern.piecesAfter_of_none (matchAt?_spacesAtLineEnd_eq_none dropped pos before),
                dropLineEnds, if_neg dropped]
              exact congrArg (c :: ·) (ih s.length (by simp) s _ _ rfl)
  exact all x 0 none

theorem head?_dropLineEnds {c : Char} (other : c ≠ ' ') (s : Text) :
    (dropLineEnds (c :: s)).head? = some c := by
  rw [dropLineEnds, if_neg fun dropped => other dropped.1]
  rfl

theorem isChain_dropLineEnds {x : Text} (single : x.IsChain fun c d => c = ' ' → d ≠ ' ') :
    (dropLineEnds x).IsChain fun c d => c = ' ' → d ≠ ' ' ∧ d ≠ '\n' := by
  induction x with
  | nil => exact .nil
  | cons c x ih =>
      obtain ⟨next, later⟩ := List.isChain_cons.mp single
      rw [dropLineEnds]
      split
      · exact ih later
      · next kept =>
        rw [List.isChain_cons]
        refine ⟨?_, ih later⟩
        rintro d head rfl
        cases x with
        | nil => cases head
        | cons e x =>
            have apart : e ≠ ' ' := next e rfl rfl
            obtain rfl : e = d := by simpa [head?_dropLineEnds apart] using head
            refine ⟨apart, ?_⟩
            rintro rfl
            exact kept ⟨rfl, rfl⟩

theorem mem_dropLineEnds {c : Char} {x : Text} (member : c ∈ dropLineEnds x) : c ∈ x := by
  induction x with
  | nil => exact member
  | cons d x ih =>
      rw [dropLineEnds] at member
      split at member
      · exact List.mem_cons_of_mem d (ih member)
      · rcases List.mem_cons.mp member with rfl | later
        · exact List.mem_cons_self
        · exact List.mem_cons_of_mem d (ih later)

/-! ### Lines of blanks -/

/-- The second text is the first without its lines of blanks: what stands between a line feed and
the last line feed of the blanks behind it is deleted. -/
inductive WithoutBlankLines : Text → Text → Prop
  | nil : WithoutBlankLines [] []
  | keep {c : Char} {x y : Text} : c ≠ '\n' → WithoutBlankLines x y →
      WithoutBlankLines (c :: x) (c :: y)
  | feed {deleted last x y : Text} : (∀ c ∈ deleted, isBlank c = true) →
      (∀ c ∈ last, isBlank c = true) →
      '\n' ∉ last → x.head?.any isBlank = false → WithoutBlankLines x y →
      WithoutBlankLines ('\n' :: (deleted ++ (last ++ x))) ('\n' :: (last ++ y))

theorem piecesAfter_blankLines_append {x : Text} (flat : '\n' ∉ x) (pos : Nat)
    (before : Option Char) (after : Text) :
    (blankLines.piecesAfter 0 pos before (x ++ after)).flatMap (Pattern.replaced fun _ => "\n") =
      x ++ (blankLines.piecesAfter 0 (pos + x.length) (x.getLast?.or before) after).flatMap
        (Pattern.replaced fun _ => "\n") := by
  induction x generalizing pos before with
  | nil => rfl
  | cons c x ih =>
      rw [List.mem_cons, not_or] at flat
      have none : blankLines.matchAt? ⟨pos, before, c :: (x ++ after), []⟩ = none := by
        rw [Pattern.matchAt?_eq_none_iff]
        rintro ⟨_, _, _, cut, _, _, _, _, rfl, -, ⟨⟨d, feed, rfl⟩, -⟩, -⟩
        obtain ⟨rfl, -⟩ := List.cons.inj cut
        exact flat.1 (eq_of_beq feed).symm
      rw [List.cons_append, Pattern.piecesAfter_of_none none, List.flatMap_cons, ih flat.2,
        Pattern.getLast?_cons_or, List.length_cons, Nat.add_comm x.length, ← Nat.add_assoc]
      rfl

theorem mem_run_of_blanks {b rest run after : Text} (blank : ∀ c ∈ b, isBlank c = true)
    (ended : after.head?.any isBlank = false) (cut : b ++ '\n' :: rest = run ++ after) :
      '\n' ∈ run := by
  rcases List.append_eq_append_iff.mp cut with ⟨more, rfl, tail⟩ | ⟨extra, rfl, tail⟩
  · cases more with
    | nil =>
        rw [List.nil_append] at tail
        rw [← tail] at ended
        cases ended
    | cons d more =>
        obtain ⟨rfl, -⟩ := List.cons.inj tail
        simp
  · cases extra with
    | nil =>
        rw [tail] at ended
        cases ended
    | cons d extra =>
        have member := blank d (by simp)
        rw [tail, List.cons_append, List.head?_cons, Option.any_some, member] at ended
        cases ended

theorem exists_last {c : Char} {x : Text} (member : c ∈ x) : ∃ front last, x = front ++ c :: last ∧
    c ∉ last := by
  obtain ⟨last, front, cut, free⟩ := List.eq_append_cons_of_mem (List.mem_reverse.mpr member)
  refine ⟨front.reverse, last.reverse, ?_, by simpa using free⟩
  simpa using congrArg List.reverse cut

section

variable {run after : Text} (ended : after.head?.any isBlank = false)

include ended

theorem matchAt?_blankLines_eq_none (flat : '\n' ∉ run) (pos : Nat) (before : Option Char) :
    blankLines.matchAt? ⟨pos, before, '\n' :: (run ++ after), []⟩ = none := by
  rw [Pattern.matchAt?_eq_none_iff]
  rintro ⟨_, rest, _, cut, _, _, _, _, rfl, -, ⟨⟨d, -, rfl⟩, -⟩, b, _, _, _, rfl, -, ⟨blank, -⟩,
    ⟨e, feed, rfl⟩, -⟩
  obtain rfl := eq_of_beq feed
  have tail : run ++ after = b ++ ['\n'] ++ rest := (List.cons.inj cut).2
  rw [List.append_assoc] at tail
  exact flat (mem_run_of_blanks blank ended tail.symm)

theorem prefers_blankLines (blank : ∀ c ∈ run, isBlank c = true) {b last : Text}
    (cut : run = b ++ '\n' :: last)
    (flat : '\n' ∉ last) (pos : Nat) (before : Option Char) :
    blankLines.Prefers before pos ('\n' :: (b ++ ['\n'])) (last ++ after) [] := by
  have early : ∀ c ∈ b, isBlank c = true := fun c member =>
    blank c (by rw [cut]; exact List.mem_append_left _ member)
  have tail (before : Option Char) (pos : Nat) :
      (Pattern.seq (.many isBlank) (.one (· == '\n'))).Prefers before pos (b ++ ['\n'])
      (last ++ after) [] := by
    refine .many_seq early (.one rfl) ?_
    rintro z rest present blanks whole ⟨u, v, caps, rfl, ⟨e, feed, rfl⟩, -⟩
    obtain ⟨d, z, rfl⟩ := List.exists_cons_of_ne_nil present
    obtain rfl := eq_of_beq feed
    have inner : ∀ c ∈ z, isBlank c = true := fun c member =>
      blanks c (List.mem_cons_of_mem d member)
    exact flat (mem_run_of_blanks inner ended (List.cons.inj whole).2.symm)
  exact (Pattern.Prefers.one rfl).seq (tail _ _)

end

theorem withoutBlankLines_replace (x : Text) :
    WithoutBlankLines x (blankLines.replace (fun _ => "\n") x) := by
  have all (x : Text) (pos : Nat) (before : Option Char) : WithoutBlankLines x
      ((blankLines.piecesAfter 0 pos before x).flatMap (Pattern.replaced fun _ => "\n")) := by
    induction size : x.length using Nat.strongRecOn generalizing x pos before with
    | ind n ih =>
        subst size
        cases x with
        | nil => exact .nil
        | cons c s =>
            by_cases other : c = '\n'
            · subst other
              obtain ⟨run, after, rfl, blank, ended⟩ := exists_longest_run isBlank s
              by_cases feed : '\n' ∈ run
              · obtain ⟨b, last, cut, flat⟩ := exists_last feed
                obtain ⟨m, step⟩ := (prefers_blankLines ended blank cut flat pos before).piecesAfter
                  (List.cons_ne_nil _ _)
                have early : ∀ c ∈ b ++ ['\n'], isBlank c = true := fun c member =>
                  blank c (by rw [cut]; grind)
                have inner : ∀ c ∈ last, isBlank c = true := fun c member =>
                  blank c (by rw [cut]; simp [member])
                have whole : '\n' :: (run ++ after) = '\n' :: (b ++ ['\n']) ++ (last ++ after) := by
                  simp [cut]
                rw [whole, step, List.flatMap_cons, piecesAfter_blankLines_append flat]
                refine .feed early inner flat ended (ih _ ?_ _ _ _ rfl)
                simp only [cut, List.length_append, List.length_cons]
                omega
              · have step := Pattern.piecesAfter_of_none
                  (matchAt?_blankLines_eq_none ended feed pos before)
                rw [step, List.flatMap_cons, piecesAfter_blankLines_append feed]
                have none : ∀ c ∈ ([] : Text), isBlank c = true := by simp
                exact .feed none blank feed ended
                  (ih _ (by simp only [List.length_append, List.length_cons]; omega) _ _ _ rfl)
            · have step := piecesAfter_blankLines_append (x := [c])
                (by simpa using Ne.symm other) pos before s
              rw [List.singleton_append] at step
              rw [step]
              exact .keep other (ih s.length (by simp) s _ _ rfl)
  exact all x 0 none

namespace WithoutBlankLines

variable {x y : Text} (without : WithoutBlankLines x y)

include without

theorem head?_eq : y.head? = x.head? := by
  cases without with
  | nil => rfl
  | keep _ _ => rfl
  | feed => rfl

theorem mem_of_mem {c : Char} (member : c ∈ y) : c ∈ x := by
  induction without with
  | nil => exact member
  | keep _ _ ih =>
      rcases List.mem_cons.mp member with rfl | later
      · exact List.mem_cons_self
      · exact List.mem_cons_of_mem _ (ih later)
  | feed _ _ _ _ _ ih =>
      simp only [List.mem_cons, List.mem_append] at member ⊢
      rcases member with here | last | later
      · exact .inl here
      · exact .inr (.inr (.inl last))
      · exact .inr (.inr (.inr (ih later)))

theorem isChain (chain : x.IsChain fun c d => c = ' ' → d ≠ ' ' ∧ d ≠ '\n') :
    y.IsChain fun c d => c = ' ' → d ≠ ' ' ∧ d ≠ '\n' := by
  induction without with
  | nil => exact chain
  | keep _ later ih =>
      obtain ⟨next, others⟩ := List.isChain_cons.mp chain
      rw [List.isChain_cons, later.head?_eq]
      exact ⟨next, ih others⟩
  | @feed deleted last x y _ _ _ _ later ih =>
      have behind := (List.isChain_cons.mp chain).2.suffix (List.suffix_append _ _)
      obtain ⟨inner, rest, seam⟩ := List.isChain_append.mp behind
      rw [List.isChain_cons, List.isChain_append, later.head?_eq]
      refine ⟨?_, inner, ih rest, seam⟩
      rintro d - impossible
      cases impossible

theorem not_infix {b : Text} (blank : ∀ c ∈ b, isBlank c = true) :
    ¬ '\n' :: (b ++ ['\n']) <:+: y := by
  induction without with
  | nil => simp
  | keep other _ ih =>
      rw [List.infix_cons_iff]
      rintro (⟨rest, cut⟩ | later)
      · exact other (List.cons.inj cut).1.symm
      · exact ih later
  | @feed deleted last x y _ _ flat ended without ih =>
      have stopped : y.head?.any isBlank = false := by rwa [without.head?_eq]
      rw [List.infix_cons_iff]
      rintro (⟨rest, cut⟩ | later)
      · have tail : b ++ ['\n'] ++ rest = last ++ y := (List.cons.inj cut).2
        rw [List.append_assoc] at tail
        exact flat (mem_run_of_blanks blank stopped tail)
      · rcases List.infix_append_iff_ne_nil.mp later
          with inner | outer | ⟨front, back, filled, -, cut, suffix, -⟩
        · exact flat (inner.subset List.mem_cons_self)
        · exact ih outer
        · obtain ⟨c, front, rfl⟩ := List.exists_cons_of_ne_nil filled
          obtain ⟨rfl, -⟩ := List.cons.inj cut
          exact flat (suffix.subset List.mem_cons_self)

end WithoutBlankLines

/-! ### The normal form -/

/-- Code with its blanks in normal form: it has no tab, no two spaces together, no space before a
line feed, and no two line feeds with only blanks between them. -/
structure Tidy (x : Text) : Prop where
  tabless : '\t' ∉ x
  single : ¬ [' ', ' '] <:+: x
  ended : ¬ [' ', '\n'] <:+: x
  closed : ∀ b : Text, (∀ c ∈ b, isBlank c = true) → ¬ '\n' :: (b ++ ['\n']) <:+: x

theorem Tidy.of_isInfix {x y : Text} (tidy : Tidy y) (part : x <:+: y) : Tidy x where
  tabless member := tidy.tabless (part.subset member)
  single spaces := tidy.single (spaces.trans part)
  ended space := tidy.ended (space.trans part)
  closed b blank feeds := tidy.closed b blank (feeds.trans part)

theorem tidy_passes (x : Text) : Tidy (blankLines.replace (fun _ => "\n")
    (spacesAtLineEnd.replace (fun _ => []) (spacesAndTabs.replace (fun _ => " ") x))) := by
  rw [replace_spacesAtLineEnd, spacesAndTabs, Pattern.replace_someOf]
  have without := withoutBlankLines_replace
    (dropLineEnds (squeezeRuns (fun c => c == ' ' || c == '\t') x))
  have chain := without.isChain (isChain_dropLineEnds (isChain_squeezeRuns rfl x))
  refine ⟨?_, ?_, ?_, fun b blank => without.not_infix blank⟩
  · intro tab
    rcases mem_squeezeRuns (mem_dropLineEnds (without.mem_of_mem tab)) with space | other
    · cases space
    · cases other
  · intro spaces
    have pair := chain.infix spaces
    exact absurd rfl (List.isChain_pair.mp pair rfl).1
  · intro space
    have pair := chain.infix space
    exact absurd rfl (List.isChain_pair.mp pair rfl).2

theorem codeSegments_passes (s : Text) :
    codeSegments (blankLines.replaceCode (fun _ => "\n") (spacesAtLineEnd.replaceCode (fun _ => [])
      (spacesAndTabs.replaceCode (fun _ => " ") s))) = (codeSegments s).map fun x =>
        blankLines.replace (fun _ => "\n")
          (spacesAtLineEnd.replace (fun _ => []) (spacesAndTabs.replace (fun _ => " ") x)) := by
  rw [Pattern.codeSegments_replaceCode_of_mild _ mild_blankLines,
    Pattern.codeSegments_replaceCode_of_mild _ mild_spacesAtLineEnd,
    Pattern.codeSegments_replaceCode_of_mild _ mild_spacesAndTabs, List.map_map, List.map_map]
  · rfl
  · intro x present
    rw [spacesAndTabs, Pattern.replace_someOf]
    intro empty
    have head := head?_squeezeRuns (q := fun c => c == ' ' || c == '\t') x
    rw [empty] at head
    exact present (List.head?_eq_none_iff.mp (Option.map_eq_none_iff.mp head.symm))
  · intro x present
    rw [replace_spacesAtLineEnd]
    exact dropLineEnds_ne_nil present
  · intro x present empty
    have head := (withoutBlankLines_replace x).head?_eq
    rw [empty] at head
    exact present (List.head?_eq_none_iff.mp head.symm)

theorem tidy_codeSegments_clean (s : Text) : ∀ x ∈ codeSegments (clean s), Tidy x := by
  intro x member
  obtain ⟨y, among, part⟩ := exists_mem_codeSegments_of_trim member
  rw [codeSegments_passes, List.mem_map] at among
  obtain ⟨z, -, rfl⟩ := among
  exact (tidy_passes z).of_isInfix part

section

variable {x : Text} (tidy : Tidy x)

include tidy

theorem Tidy.head?_of_space {y : Text} (cut : x = ' ' :: y) :
    y.head? ≠ some ' ' ∧ y.head? ≠ some '\n' := by
  constructor
  · intro space
    obtain ⟨z, rfl⟩ := List.head?_eq_some_iff.mp space
    exact tidy.single ⟨[], z, cut.symm⟩
  · intro feed
    obtain ⟨z, rfl⟩ := List.head?_eq_some_iff.mp feed
    exact tidy.ended ⟨[], z, cut.symm⟩

theorem Tidy.replace_spacesAndTabs : spacesAndTabs.replace (fun _ => " ") x = x := by
  rw [spacesAndTabs, Pattern.replace_someOf]
  induction x with
  | nil => rfl
  | cons c x ih =>
      have later := ih (tidy.of_isInfix (List.infix_cons List.infix_rfl))
      have tabless : ∀ d ∈ c :: x, d ≠ '\t' := fun d member same => tidy.tabless (same ▸ member)
      rw [squeezeRuns, later]
      split
      · next blank =>
        obtain rfl : c = ' ' := by
          simpa [tabless c List.mem_cons_self] using blank
        have apart : x.head?.any (fun c => c == ' ' || c == '\t') = false := by
          cases x with
          | nil => rfl
          | cons d x =>
              have other := (tidy.head?_of_space rfl).1
              have plain := tabless d (List.mem_cons_of_mem _ List.mem_cons_self)
              simp_all
        rw [apart]
        rfl
      · rfl

theorem Tidy.dropLineEnds_eq : dropLineEnds x = x := by
  induction x with
  | nil => rfl
  | cons c x ih =>
      have later := ih (tidy.of_isInfix (List.infix_cons List.infix_rfl))
      rw [dropLineEnds, later, if_neg]
      rintro ⟨rfl, ends⟩
      obtain ⟨space, feed⟩ := tidy.head?_of_space rfl
      cases x with
      | nil => cases ends
      | cons d x =>
          rw [endsLine, List.dropWhile_cons_of_neg (by simpa using space)] at ends
          exact feed (eq_of_beq ends)

theorem Tidy.hits_blankLines : blankLines.hits x = [] := by
  rw [List.eq_nil_iff_forall_not_mem]
  intro m member
  obtain ⟨front, after, caps, cut, -, -, taken⟩ := Pattern.takes_of_mem_hits member
  obtain ⟨_, _, _, _, text, -, ⟨⟨c, first, rfl⟩, -⟩, b, _, _, _, rfl, -, ⟨blank, -⟩, ⟨d, last, rfl⟩,
      -⟩ := taken.spans
  rw [eq_of_beq first, eq_of_beq last] at text
  refine tidy.closed b blank ⟨front, after, ?_⟩
  rw [cut, text, List.append_assoc]
  rfl

end

theorem clean_eq_self {t : Text} (none : option.codeHits t = [])
    (tidy : ∀ x ∈ codeSegments t, Tidy x)
    (trimmed : trim t = t) : clean t = t := by
  have options : option.replaceCode (fun _ => []) t = t :=
    Pattern.replaceCode_of_codeHits_eq_nil none _
  have spaces : spacesAndTabs.replaceCode (fun _ => " ") t = t :=
    mapCode_eq_self fun x member => (tidy x member).replace_spacesAndTabs
  have ends : spacesAtLineEnd.replaceCode (fun _ => []) t = t := by
    apply mapCode_eq_self
    intro x member
    rw [replace_spacesAtLineEnd, (tidy x member).dropLineEnds_eq]
  have lines : blankLines.replaceCode (fun _ => "\n") t = t :=
    mapCode_eq_self fun x member => Pattern.replace_of_hits_eq_nil (tidy x member).hits_blankLines _
  rw [clean, options, spaces, ends, lines, trimmed]

/-- Cleanup brings the blanks of code to their normal form and leaves none at the ends. A result
without options is found again by a second cleanup; where there were none to begin with, the
literals and all code but blanks stay, up to blanks at the end of a last literal. -/
theorem clean_normalForm (s : Text) :
    ((clean s).head?.any isBlank = false ∧ (clean s).getLast?.any isBlank = false) ∧
      (∀ x ∈ codeSegments (clean s), Tidy x) ∧ (option.codeHits (clean s) = [] →
        clean (clean s) = clean s) ∧
      (option.codeHits s = [] → settledLiterals (lexemes (clean s)) = settledLiterals (lexemes s) ∧
        solidCode (lexemes (clean s)) = solidCode (lexemes s)) := by
  have tidy := tidy_codeSegments_clean s
  refine ⟨⟨head?_trim _, getLast?_trim _⟩, tidy, ?_, ?_⟩
  · intro none
    exact clean_eq_self none tidy (trim_trim _)
  · intro none
    have same := sameContent_clean (Pattern.replaceCode_of_codeHits_eq_nil none _)
    exact ⟨same.literals, same.code⟩

theorem clean_normalForm_commented :
    let s : Text := "\tSELECT  'a  b' \t\n \n\n -- c \t\n  FROM t; "
    clean s = "SELECT 'a  b'\n -- c \t\n FROM t;" ∧ clean (clean s) = clean s ∧
      settledLiterals (lexemes (clean s)) = ["'a  b'".toList, "-- c \t".toList] := by
  intro s
  obtain ⟨-, -, stable, kept⟩ := clean_normalForm s
  have literals := (kept (by decide +kernel)).1
  exact ⟨by decide +kernel, stable (by decide +kernel), literals.trans (by decide +kernel)⟩

end Cleanup

end LiteSql
