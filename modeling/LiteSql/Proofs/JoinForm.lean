import Mathlib.Data.List.Infix
import LiteSql.Proofs.KeyClause
import LiteSql.Proofs.RuleSeam
import LiteSql.Proofs.WordStep

/-! The normal form of joins. The two rules for joins are read together as one relation between a
text and what they write for it, word by word; every join of the result has a word in front of it
that tells its kind, and what is in normal form is left as it is. -/

namespace LiteSql

/-! ### Words and their upper forms -/

theorem mem_wideUpperForms_of_lookup {n : Nat} {form : Text}
    (found : wideUpperForms.lookup n = some form) :
    (n, form) ∈ wideUpperForms := by
  obtain ⟨before, after, cut, -⟩ := List.lookup_eq_some_iff.mp found
  rw [cut]
  simp

theorem sameIgnoringCase_of_upperForm {c d : Char} (ascii : d.toNat < 0x80)
    (upper : upperForm c = [d]) :
    sameIgnoringCase d c = true := by
  have single : ∀ row ∈ wideUpperForms, ∀ e ∈ [row.2.headD ' '], row.2.length = 1 →
      sameIgnoringCase e (Char.ofNat row.1) = true := by decide +kernel
  rw [upperForm] at upper
  split at upper
  · next narrow =>
      obtain rfl := List.singleton_inj.mp upper
      exact forall_ascii (fun c => sameIgnoringCase c.toUpper c) (by decide) c narrow
  · next wide =>
      cases found : wideUpperForms.lookup c.toNat with
      | none =>
          rw [found] at upper
          obtain rfl := List.singleton_inj.mp upper
          exact absurd ascii wide
      | some form =>
          rw [found] at upper
          obtain rfl : form = [d] := upper
          have same := single _ (mem_wideUpperForms_of_lookup found) d (by simp) rfl
          rwa [Char.ofNat_toNat] at same

theorem upperForm_cases (c : Char) : (∃ d, upperForm c = [d]) ∨
    (c.toNat, upperForm c) ∈ wideUpperForms := by
  rw [upperForm]
  split
  · exact .inl ⟨_, rfl⟩
  · cases found : wideUpperForms.lookup c.toNat with
    | none => exact .inl ⟨c, rfl⟩
    | some form => exact .inr (mem_wideUpperForms_of_lookup found)

theorem spelled_of_upperText {k v : Text} (ascii : ∀ c ∈ k, c.toNat < 0x80)
    (single : ∀ row ∈ wideUpperForms, row.2.length = 1 ∨ ∀ tail ∈ k.tails, ¬ row.2 <+: tail)
    (same : upperText v = k) : spelled k v = true := by
  induction v generalizing k with
  | nil =>
      subst same
      rfl
  | cons c v ih =>
      have first {d : Char} (upper : upperForm c = [d]) : spelled k (c :: v) = true := by
        rw [upperText, List.flatMap_cons, upper] at same
        subst same
        obtain ⟨narrow, others⟩ := List.forall_mem_cons.mp ascii
        refine (spelled_cons _ _ _ _).mpr ⟨sameIgnoringCase_of_upperForm narrow upper,
          ih others ?_ rfl⟩
        intro row member
        refine (single row member).imp_right fun apart tail inside => apart tail ?_
        exact (List.mem_tails _ _).mpr (((List.mem_tails _ _).mp inside).trans
          (List.suffix_cons _ _))
      rcases upperForm_cases c with ⟨d, upper⟩ | listed
      · exact first upper
      · rcases single _ listed with one | apart
        · obtain ⟨d, upper⟩ := List.length_eq_one_iff.mp one
          exact first upper
        · refine absurd ?_ (apart k ((List.mem_tails _ _).mpr List.suffix_rfl))
          exact ⟨upperText v, same⟩

theorem head?_upperText {d : Char} {k w : Text} (named : spelled (d :: k) w = true)
    (ascii : d.toNat < 0x80)
    (checked : (List.range 0x80).all (fun n => !sameIgnoringCase d (Char.ofNat n) || upperForm
      (Char.ofNat n) == [d]) = true)
    (others : ∀ e ∈ ['İ', 'ı', 'ſ', '\u212a'], sameIgnoringCase d e = true →
      (upperForm e == [d]) = true) :
    (upperText w).head? = some d := by
  cases w with
  | nil => cases named
  | cons c w =>
      have upper := forall_sameIgnoringCase (fun c => upperForm c == [d]) ascii checked others
        ((spelled_cons _ _ _ _).mp named).1
      rw [upperText, List.flatMap_cons, eq_of_beq upper]
      rfl

namespace Join

open Pattern

/-! ### What the two patterns match -/

def sides : List Text := ["LEFT", "RIGHT", "FULL"]

def isAny (ks : List Text) (v : Text) : Bool := ks.any (spelled · v)

def sided (ks : List Text) : Pattern :=
  all [boundary, anyOf (ks.map keyword), gap, optional (all ["OUTER", gap]), "JOIN", boundary]

inductive Sided (ks : List Text) : Text → Prop
  | short {v b w : Text} : isAny ks v = true → IsGap b → spelled "JOIN" w = true →
      Sided ks (v ++ (b ++ w))
  | long {v b o d w : Text} : isAny ks v = true → IsGap b → spelled "OUTER" o = true → IsGap d →
      spelled "JOIN" w = true → Sided ks (v ++ (b ++ (o ++ (d ++ w))))

theorem spans_anyOf_iff (ks : List Text) (before : Option Char) (pos : Nat) (x after : Text)
    (caps : List Capture) :
    (anyOf (ks.map keyword)).Spans before pos x after caps ↔ isAny ks x = true ∧ caps = [] := by
  induction ks with
  | nil =>
      refine ⟨?_, fun ⟨named, _⟩ => nomatch named⟩
      rintro ⟨-, -, none⟩
      exact absurd ⟨[], after, [], rfl, rfl, rfl⟩ none
  | cons k ks ih =>
      have first : (keyword k).Spans before pos x after caps ↔ spelled k x = true ∧ caps = [] := by
        rw [spans_keyword_iff, spelled_iff]
      cases ks with
      | nil => simpa [isAny, anyOf] using first
      | cons l ks =>
          have both : (anyOf ((k :: l :: ks).map keyword)).Spans before pos x after caps ↔
              (keyword k).Spans before pos x after caps ∨
                (anyOf ((l :: ks).map keyword)).Spans before pos x after caps := Iff.rfl
          rw [both, first, ih, ← or_and_right]
          simp [isAny]

theorem letters_of_isAny {ks : List Text} (ascii : ∀ k ∈ ks, IsAsciiWord k) {v : Text}
    (named : isAny ks v = true) :
    v ≠ [] ∧ ∀ c ∈ v, isWordChar c = true := by
  obtain ⟨k, member, same⟩ := List.any_eq_true.mp named
  exact isWordChar_of_spelled (ascii k member) same

theorem whole_of_isAny {ks : List Text} (ascii : ∀ k ∈ ks, IsAsciiWord k) {v : Text}
    (named : isAny ks v = true)
    {rest : Text} (stop : rest.head?.any isWordChar = false) : Whole v rest :=
  ⟨(letters_of_isAny ascii named).1, (letters_of_isAny ascii named).2, stop⟩

theorem whole_join {w rest : Text} (named : spelled "JOIN" w = true)
    (stop : rest.head?.any isWordChar = false) :
    Whole w rest := whole_of_spelled (by decide) named stop

theorem whole_outer {o rest : Text} (named : spelled "OUTER" o = true)
    (stop : rest.head?.any isWordChar = false) :
    Whole o rest := whole_of_spelled (by decide) named stop

theorem spans_gap_iff (before : Option Char) (pos : Nat) (x after : Text) (caps : List Capture) :
    gap.Spans before pos x after caps ↔ IsGap x ∧ caps = [] := by
  rw [gap, spans_someOf_iff]
  constructor
  · rintro ⟨⟨present, blank⟩, none⟩
    exact ⟨⟨present, blank⟩, none⟩
  · rintro ⟨⟨present, blank⟩, none⟩
    exact ⟨⟨present, blank⟩, none⟩

theorem spans_sided_iff {ks : List Text} (ascii : ∀ k ∈ ks, IsAsciiWord k) (before : Option Char)
    (pos : Nat)
    (x after : Text) (caps : List Capture) : (sided ks).Spans before pos x after caps ↔
      Sided ks x ∧ before.any isWordChar = false ∧ after.head?.any isWordChar = false ∧
        caps = [] := by
  have outerWord (before : Option Char) (pos : Nat) (x after : Text) (caps : List Capture) :
      (keyword "OUTER").Spans before pos x after caps ↔ spelled "OUTER" x = true ∧ caps = [] := by
    rw [spans_keyword_iff, spelled_iff]
  constructor
  · rintro ⟨_, _, _, _, rfl, rfl, ⟨rfl, rfl, start⟩, v, _, _, _, rfl, rfl, side, b, _, _, _, rfl,
      rfl, space, between, w, _, _, rfl, rfl, kind, joined⟩
    obtain ⟨named, rfl⟩ := (spans_anyOf_iff _ _ _ _ _ _).mp side
    obtain ⟨gap, rfl⟩ := (spans_gap_iff _ _ _ _ _).mp space
    obtain ⟨last, stop, rfl⟩ := (spans_wordEnd_iff (k := "JOIN") (by decide) _ _ _ _ _).mp joined
    rw [List.append_assoc, (whole_of_isAny ascii named (gap.stop [])).head] at start
    have outside : before.any isWordChar = false := by simpa using start
    rcases kind with ⟨o, d, _, _, rfl, rfl, middle, space'⟩ | ⟨rfl, rfl⟩
    · obtain ⟨kind, rfl⟩ := (outerWord _ _ _ _ _).mp middle
      obtain ⟨gap', rfl⟩ := (spans_gap_iff _ _ _ _ _).mp space'
      rw [List.append_assoc o]
      have words : Sided ks (v ++ (b ++ (o ++ (d ++ w)))) := .long named gap kind gap' last
      exact ⟨words, outside, stop, rfl⟩
    · have words : Sided ks (v ++ (b ++ w)) := .short named gap last
      exact ⟨words, outside, stop, rfl⟩
  · rintro ⟨words, outside, stop, rfl⟩
    -- both rows start with the side and a gap, and end with the join
    have build {v b between w : Text} (named : isAny ks v = true) (gap : IsGap b)
        (last : spelled "JOIN" w = true)
        (kind : ∀ before pos after, (optional (all ["OUTER", Pattern.gap])).Spans before pos between
          after []) :
        (sided ks).Spans before pos (v ++ (b ++ (between ++ w))) after [] := by
      refine ⟨[], v ++ (b ++ (between ++ w)), [], [], rfl, rfl, ⟨rfl, rfl, ?_⟩, v, _, [], [], rfl,
        rfl, ?_, b, _, [], [], rfl, rfl, ?_, between, w, [], [], rfl, rfl, kind _ _ _, ?_⟩
      · rw [outside, List.append_assoc, (whole_of_isAny ascii named (gap.stop [])).head]
        exact Bool.noConfusion
      · exact (spans_anyOf_iff _ _ _ _ _ _).mpr ⟨named, rfl⟩
      · exact (spans_gap_iff _ _ _ _ _).mpr ⟨gap, rfl⟩
      · exact (spans_wordEnd_iff (k := "JOIN") (by decide) _ _ _ _ _).mpr ⟨last, stop, rfl⟩
    cases words with
    | short named gap last => exact build named gap last fun _ _ _ => .inr ⟨rfl, rfl⟩
    | @long v b o d w named gap kind gap' last =>
        rw [← List.append_assoc o d w]
        refine build named gap last fun before pos after => .inl ?_
        exact ⟨o, d, [], [], rfl, rfl, (outerWord _ _ _ _ _).mpr ⟨kind, rfl⟩,
          (spans_gap_iff _ _ _ _ _).mpr ⟨gap', rfl⟩⟩

inductive Joins : Text → Prop
  | bare {w : Text} : spelled "JOIN" w = true → Joins w
  | led {v b w : Text} : Whole v b → IsGap b → spelled "JOIN" w = true → Joins (v ++ (b ++ w))

theorem exists_spans_join_iff (before : Option Char) (pos : Nat) (x after : Text) :
    (∃ caps, join.Spans before pos x after caps) ↔
      Joins x ∧ before.any isWordChar = false ∧ after.head?.any isWordChar = false := by
  constructor
  · rintro ⟨_, front, w, _, _, rfl, -, named, joined⟩
    obtain ⟨⟨same, outside, stop⟩, -⟩ := (spans_wholeWord_iff (by decide) _ _ _ _ _).mp joined
    rcases named with named | ⟨rfl, -⟩
    · obtain ⟨_, _, _, _, rfl, -, ⟨rfl, -, start⟩, v, b, _, _, rfl, -, ⟨_, -, word⟩, _, -,
          space⟩ := named
      obtain ⟨⟨present, letters⟩, -⟩ := (spans_someOf_iff _ _ _ _ _ _).mp word
      obtain ⟨gap, -⟩ := (spans_gap_iff _ _ _ _ _).mp space
      have whole : Whole v b := ⟨present, letters, by simpa using gap.stop []⟩
      rw [List.append_assoc, whole.head] at start
      have words : Joins (v ++ (b ++ w)) := .led whole gap same
      rw [← List.append_assoc] at words
      exact ⟨words, by simpa using start, stop⟩
    · exact ⟨.bare same, outside, stop⟩
  · rintro ⟨words, outside, stop⟩
    cases words with
    | bare named =>
        exact ⟨_, [], x, [], [], rfl, rfl, .inr ⟨rfl, rfl⟩,
          (spans_wholeWord_iff (by decide) _ _ _ _ _).mpr ⟨⟨named, outside, stop⟩, rfl⟩⟩
    | @led v b w whole gap named =>
        have front : ∃ caps, (all [boundary, capture "word" word, capture "gap" Pattern.gap]).Spans
            before pos (v ++ b)
            (w ++ after) caps := by
          refine ⟨_, [], v ++ b, [], _, rfl, rfl, ⟨rfl, rfl, ?_⟩, v, b, _, _, rfl, rfl,
            ⟨[], rfl, ?_⟩, [], rfl, ?_⟩
          · rw [outside, List.append_assoc, whole.head]
            exact Bool.noConfusion
          · exact (spans_someOf_iff _ _ _ _ _ _).mpr ⟨⟨whole.present, whole.letters⟩, rfl⟩
          · exact (spans_gap_iff _ _ _ _ _).mpr ⟨gap, rfl⟩
        obtain ⟨caps, front⟩ := front
        refine ⟨[] ++ caps, v ++ b, w, caps, [], (List.append_assoc v b w).symm, rfl, .inl front,
          (spans_wholeWord_iff (by decide) _ _ _ _ _).mpr ⟨⟨named, ?_, stop⟩, rfl⟩⟩
        rw [List.getLast?_append_of_ne_nil _ gap.present, List.getLast?_eq_some_getLast gap.present]
        exact isWordChar_of_isBlank (gap.blank _ (List.getLast_mem gap.present))

theorem aligned_join : join.Aligned := by
  intro before pos x after caps taken
  obtain ⟨words, outside, stop⟩ := (exists_spans_join_iff _ _ _ _).mp ⟨caps, taken⟩
  refine ⟨outside, ?_, stop⟩
  cases words with
  | bare named => simpa using (whole_join named stop).head []
  | led whole _ _ => exact whole.head _

theorem Sided.head {ks : List Text} (ascii : ∀ k ∈ ks, IsAsciiWord k) {h : Text}
    (words : Sided ks h) (x : Text) :
    (h ++ x).head?.any isWordChar = true := by
  cases words with
  | short named gap _ => rw [List.append_assoc, (whole_of_isAny ascii named (gap.stop [])).head]
  | long named gap _ _ _ => rw [List.append_assoc, (whole_of_isAny ascii named (gap.stop [])).head]

theorem ascii_sides : ∀ k ∈ sides, IsAsciiWord k := by decide

theorem aligned_outer : outer.Aligned := by
  intro before pos x after caps taken
  obtain ⟨words, outside, stop, -⟩ := (spans_sided_iff ascii_sides _ _ _ _ _).mp taken
  exact ⟨outside, by simpa using words.head ascii_sides [], stop⟩

/-! ### One step of each pass -/

theorem tokens_led {v b w rest : Text} (first : Whole v b) (gap : IsGap b) (second : Whole w rest) :
    tokens (v ++ (b ++ (w ++ rest))) = .word v :: .word w :: tokens rest := by
  rw [tokens_word_append first.present first.letters (gap.stop _), tokens_gap_word gap second]

theorem Sided.unique {ks : List Text} (ascii : ∀ k ∈ ks, IsAsciiWord k) {h x g y : Text}
    (words : Sided ks h)
    (stop : x.head?.any isWordChar = false) (others : Sided ks g)
    (ended : y.head?.any isWordChar = false)
    (same : h ++ x = g ++ y) : h = g := by
  have apart {o : Text} (named : spelled "JOIN" o = true) : spelled "OUTER" o ≠ true := by
    rw [spelled_congr named]
    decide
  -- the side and the gap behind it
  have start {v b w x v' b' w' y : Text} (named : isAny ks v = true) (gap : IsGap b)
      (whole : Whole w x)
      (named' : isAny ks v' = true) (gap' : IsGap b') (whole' : Whole w' y)
      (same : v ++ (b ++ (w ++ x)) = v' ++ (b' ++ (w' ++ y))) : v = v' ∧ b = b' ∧ w = w' ∧
        x = y := by
    obtain ⟨rfl, rest⟩ := (whole_of_isAny ascii named (gap.stop _)).unique
      (whole_of_isAny ascii named' (gap'.stop _)) same
    exact ⟨rfl, gap.unique whole gap' whole' rest⟩
  cases words with
  | short named gap last =>
      cases others with
      | short named' gap' last' =>
          simp only [List.append_assoc] at same
          obtain ⟨rfl, rfl, rfl, -⟩ := start named gap (whole_join last stop) named' gap'
            (whole_join last' ended) same
          rfl
      | long named' gap' kind' between' last' =>
          simp only [List.append_assoc] at same
          obtain ⟨-, -, rfl, -⟩ := start named gap (whole_join last stop) named' gap'
            (whole_outer kind' (between'.stop _)) same
          exact absurd kind' (apart last)
  | long named gap kind between last =>
      cases others with
      | short named' gap' last' =>
          simp only [List.append_assoc] at same
          obtain ⟨-, -, rfl, -⟩ := start named gap (whole_outer kind (between.stop _)) named' gap'
            (whole_join last' ended) same
          exact absurd kind (apart last')
      | long named' gap' kind' between' last' =>
          simp only [List.append_assoc] at same
          obtain ⟨rfl, rfl, rfl, rest⟩ :=
            start named gap (whole_outer kind (between.stop _)) named' gap'
              (whole_outer kind' (between'.stop _)) same
          obtain ⟨rfl, rfl, -⟩ := between.unique (whole_join last stop) between'
            (whole_join last' ended) rest
          rfl

theorem Sided.ne_nil {ks : List Text} {h : Text} (words : Sided ks h) : h ≠ [] := by
  rintro empty
  cases words with
  | short _ gap _ =>
      exact gap.present (List.append_eq_nil_iff.mp (List.append_eq_nil_iff.mp empty).2).1
  | long _ gap _ _ _ =>
      exact gap.present (List.append_eq_nil_iff.mp (List.append_eq_nil_iff.mp empty).2).1

theorem replaceFrom_outer {h x : Text} (words : Sided sides h)
    (stop : x.head?.any isWordChar = false) {pos : Nat}
    {before : Option Char} (outside : before.any isWordChar = false) (written : Text) :
    outer.replaceFrom (fun _ => written) pos before (h ++ x) =
      written ++ outer.replaceFrom (fun _ => written) (pos + h.length)
        (h.getLast?.or before) x := by
  have taken : outer.Spans before pos h x [] :=
    (spans_sided_iff ascii_sides _ _ _ _ _).mpr ⟨words, outside, stop, rfl⟩
  obtain ⟨m, behind, caps, found, cut, taken⟩ := exists_matchAt? taken
  obtain ⟨others, -, ended, -⟩ := (spans_sided_iff ascii_sides _ _ _ _ _).mp taken.spans
  have text := words.unique ascii_sides stop others ended cut
  exact replaceFrom_hit _ found text.symm words.ne_nil

def written (v b w : Text) : Text :=
  if upperText v = "INNER" then "INNER JOIN"
  else if qualifiers.contains (upperText v) then v ++ (b ++ w)
  else v ++ (b ++ "INNER JOIN")

section

variable {v b w y : Text} {pos : Nat} {before : Option Char} (whole : Whole w y)
  (named : spelled "JOIN" w = true)
  (outside : before.any isWordChar = false)

include whole named outside

theorem replaceFrom_bare (next : opens ["JOIN"] (tokens y) = false) :
    join.replaceFrom convert pos before (w ++ y) =
      "INNER JOIN" ++ join.replaceFrom convert (pos + w.length) (w.getLast?.or before) y := by
  obtain ⟨caps, taken⟩ := (exists_spans_join_iff before pos w y).mpr
    ⟨.bare named, outside, whole.stop⟩
  obtain ⟨m, behind, caps, found, cut, taken⟩ := exists_matchAt? taken
  obtain ⟨front, j, text, same, -, stop, ⟨rfl, none⟩ | ⟨v, b, rfl, -, -, ⟨present, letters⟩,
      blank⟩⟩ := exists_of_takes taken
  · rw [text, List.nil_append] at cut
    obtain ⟨rfl, -⟩ := whole.unique (whole_join same stop) cut
    rw [replaceFrom_hit convert found text whole.present, convert, none]
  · have gap : IsGap b := ⟨blank.1, blank.2⟩
    have first : Whole v b := ⟨present, letters, by simpa using gap.stop []⟩
    have read := congrArg tokens cut
    rw [text, List.append_assoc, List.append_assoc, whole.tokens_eq,
      tokens_led first gap (whole_join same stop)] at read
    rw [(List.cons.inj read).2, opens_word, same] at next
    cases next

theorem replaceFrom_led (first : Whole v b) (gap : IsGap b) (other : spelled "JOIN" v = false) :
    join.replaceFrom convert pos before (v ++ (b ++ (w ++ y))) =
      written v b w ++ join.replaceFrom convert (pos + (v ++ (b ++ w)).length)
        ((v ++ (b ++ w)).getLast?.or before) y := by
  obtain ⟨caps, taken⟩ := (exists_spans_join_iff before pos (v ++ (b ++ w)) y).mpr
    ⟨.led first gap named, outside, whole.stop⟩
  obtain ⟨m, behind, caps, found, cut, taken⟩ := exists_matchAt? taken
  rw [List.append_assoc, List.append_assoc] at cut
  obtain ⟨front, j, text, same, -, stop, ⟨rfl, none⟩ | ⟨v', b', rfl, word, space,
      ⟨present, letters⟩, blank⟩⟩ :=
    exists_of_takes taken
  · rw [text, List.nil_append] at cut
    obtain ⟨rfl, -⟩ := Whole.unique ⟨first.present, first.letters, gap.stop _⟩
      (whole_join same stop) cut
    rw [same] at other
    cases other
  · have gap' : IsGap b' := ⟨blank.1, blank.2⟩
    rw [text, List.append_assoc, List.append_assoc] at cut
    obtain ⟨rfl, rest⟩ := Whole.unique ⟨first.present, first.letters, gap.stop _⟩
      ⟨present, letters, gap'.stop _⟩ cut
    obtain ⟨rfl, rfl, -⟩ := gap.unique whole gap' (whole_join same stop) rest
    have cut' : v ++ (b ++ (w ++ y)) = (v ++ (b ++ w)) ++ y := by simp
    rw [List.append_assoc] at text
    rw [cut', replaceFrom_hit convert found text
      (List.append_ne_nil_of_left_ne_nil first.present _), convert, word, space, text]
    simp only [written, Option.getD_some, List.append_assoc, List.contains_iff_mem]

end

/-! ### Kinds of joins -/

def keptKinds : List Text := ["OUTER", "CROSS", "NATURAL"]

theorem not_spelled_of_kind {q : Text} (kind : upperText q ∈ "INNER".toList :: keptKinds) :
    ∀ k ∈ "JOIN".toList :: sides, spelled k q = false := by
  intro k member
  rw [← Bool.not_eq_true]
  intro named
  have heads : ∀ k ∈ "JOIN".toList :: sides, spelled k q = true →
      (upperText q).head? = k.head? := by
    simp only [sides, List.forall_mem_cons]
    refine ⟨?_, ?_, ?_, ?_, nofun⟩
    all_goals
      exact fun named => head?_upperText named (by decide) (by decide +kernel) (by decide +kernel)
  have apart : ∀ u ∈ "INNER".toList :: keptKinds, ∀ k ∈ "JOIN".toList :: sides,
      u.head? ≠ k.head? := by decide
  exact apart _ kind k member (heads k member named)

theorem isAny_of_upperText {v : Text} (upper : upperText v ∈ sides) : isAny sides v = true := by
  refine List.any_eq_true.mpr ⟨_, upper, ?_⟩
  have ascii : ∀ k ∈ sides, ∀ c ∈ k, c.toNat < 0x80 := by decide
  have single : ∀ k ∈ sides, ∀ row ∈ wideUpperForms, row.2.length = 1 ∨ ∀ tail ∈ k.tails,
      ¬ row.2 <+: tail := by
    decide +kernel
  exact spelled_of_upperText (ascii _ upper) (single _ upper) rfl

/-! ### Both passes together -/

/-- What the rule for outer joins writes for the first text, and what the rule for other joins
writes then. -/
inductive Rewrites : Text → Text → Text → Prop
  | nil : Rewrites [] [] []
  | other {c : Char} {x y z : Text} : isWordChar c = false → Rewrites x y z →
      Rewrites (c :: x) (c :: y) (c :: z)
  | word {v x y z : Text} : Whole v x → spelled "JOIN" v = false →
      opens ["JOIN"] (tokens x) = false →
      (isAny sides v = true → opens ["OUTER", "JOIN"] (tokens x) = false) → Rewrites x y z →
      Rewrites (v ++ x) (v ++ y) (v ++ z)
  | bare {w x y z : Text} : Whole w x → spelled "JOIN" w = true →
      opens ["JOIN"] (tokens x) = false → Rewrites x y z →
      Rewrites (w ++ x) (w ++ y) ("INNER JOIN" ++ z)
  | led {v b w x y z : Text} : Whole v b → IsGap b → Whole w x → spelled "JOIN" w = true →
      spelled "JOIN" v = false →
      isAny sides v = false → opens ["JOIN"] (tokens x) = false → Rewrites x y z →
      Rewrites (v ++ (b ++ (w ++ x))) (v ++ (b ++ (w ++ y))) (written v b w ++ z)
  | sided {h x y z : Text} : Sided sides h → x.head?.any isWordChar = false →
      opens ["JOIN"] (tokens x) = false →
      Rewrites x y z → Rewrites (h ++ x) ("LEFT JOIN" ++ y) ("LEFT JOIN" ++ z)

theorem whole_literal (k : Text) (ascii : IsAsciiWord k) {rest : Text}
    (stop : rest.head?.any isWordChar = false) :
    Whole k rest := whole_of_spelled ascii (by rw [spelled_iff_foldCase]) stop

/-- Every text in which no join directly follows another is rewritten. -/
theorem exists_rewrites (x : Text) (apart : follows "JOIN" "JOIN" (tokens x) = 0) :
    ∃ y z, Rewrites x y z := by
  induction size : x.length using Nat.strongRecOn generalizing x with
  | _ n ih =>
      have smaller {front y : Text} (cut : x = front ++ y) (present : front ≠ [])
          (apart : follows "JOIN" "JOIN" (tokens y) = 0) : ∃ z u, Rewrites y z u := by
        refine ih y.length ?_ y apart rfl
        have longer := List.length_pos_of_ne_nil present
        rw [← size, cut, List.length_append]
        omega
      obtain ⟨v, y, cut, letters, stop⟩ := exists_wordRun x
      cases v with
      | nil =>
          cases x with
          | nil => exact ⟨[], [], .nil⟩
          | cons c x =>
              obtain rfl : c :: x = y := cut
              have rest : follows "JOIN" "JOIN" (tokens x) = 0 := by
                rw [tokens_other stop] at apart
                split at apart
                · exact apart
                · exact (follows_cons_eq_zero apart).1
              obtain ⟨y, z, rewrites⟩ := smaller (show c :: x = [c] ++ x from rfl)
                (List.cons_ne_nil _ _) rest
              exact ⟨c :: y, c :: z, .other stop rewrites⟩
      | cons c v => 
          generalize first : c :: v = v at cut letters
          have whole : Whole v y := ⟨first ▸ List.cons_ne_nil _ _, letters, stop⟩
          subst cut
          rw [whole.tokens_eq] at apart
          obtain ⟨rest, next⟩ := follows_cons_eq_zero apart
          by_cases join : spelled "JOIN" v = true
          · obtain ⟨z, u, rewrites⟩ := smaller rfl whole.present rest
            exact ⟨_, _, .bare whole join (next join) rewrites⟩
          rw [Bool.not_eq_true] at join
          by_cases joined : opens ["JOIN"] (tokens y) = true
          · obtain ⟨b, w, x, rfl, gap, named, last, -⟩ :=
              exists_gap_of_opens (by decide) stop joined
            have cut : v ++ (b ++ (w ++ x)) = (v ++ (b ++ w)) ++ x := by simp
            rw [tokens_gap_word gap last] at rest
            obtain ⟨rest, next⟩ := follows_cons_eq_zero rest
            obtain ⟨z, u, rewrites⟩ :=
              smaller cut (List.append_ne_nil_of_left_ne_nil whole.present _) rest
            by_cases side : isAny sides v = true
            · rw [cut]
              exact ⟨_, _, .sided (.short side gap named) last.stop (next named) rewrites⟩
            · have first : Whole v b := ⟨whole.present, whole.letters, by simpa using gap.stop []⟩
              exact ⟨_, _, .led first gap last named join (Bool.not_eq_true _ ▸ side)
                (next named) rewrites⟩
          rw [Bool.not_eq_true] at joined
          by_cases long : isAny sides v = true ∧ opens ["OUTER", "JOIN"] (tokens y) = true
          · obtain ⟨side, opened⟩ := long
            obtain ⟨b, o, x, rfl, gap, kind, middle, opened⟩ :=
              exists_gap_of_opens (by decide) stop opened
            obtain ⟨d, w, x, rfl, between, named, last, -⟩ :=
              exists_gap_of_opens (by decide) middle.stop opened
            have cut : v ++ (b ++ (o ++ (d ++ (w ++ x)))) = (v ++ (b ++ (o ++ (d ++ w)))) ++
                x := by simp
            rw [tokens_gap_word gap middle, tokens_gap_word between last] at rest
            obtain ⟨rest, next⟩ := follows_cons_eq_zero (follows_cons_eq_zero rest).1
            obtain ⟨z, u, rewrites⟩ :=
              smaller cut (List.append_ne_nil_of_left_ne_nil whole.present _) rest
            rw [cut]
            exact ⟨_, _, .sided (.long side gap kind between named) last.stop (next named) rewrites⟩
          · obtain ⟨z, u, rewrites⟩ := smaller rfl whole.present rest
            refine ⟨_, _, .word whole join joined (fun side => ?_) rewrites⟩
            rw [← Bool.not_eq_true]
            exact fun opened => long ⟨side, opened⟩

theorem tokens_inner {z : Text} (stop : z.head?.any isWordChar = false) :
    tokens ("INNER JOIN" ++ z) = .word "INNER" :: .word "JOIN" :: tokens z :=
  tokens_led (v := "INNER") (b := " ") (whole_literal _ (by decide) rfl) ⟨by decide, by decide⟩
    (whole_literal "JOIN" (by decide) stop)

theorem tokens_left {z : Text} (stop : z.head?.any isWordChar = false) :
    tokens ("LEFT JOIN" ++ z) = .word "LEFT" :: .word "JOIN" :: tokens z :=
  tokens_led (v := "LEFT") (b := " ") (whole_literal _ (by decide) rfl) ⟨by decide, by decide⟩
    (whole_literal "JOIN" (by decide) stop)

theorem Sided.tokens_append {ks : List Text} (ascii : ∀ k ∈ ks, IsAsciiWord k) {h x : Text}
    (words : Sided ks h)
    (stop : x.head?.any isWordChar = false) : ∃ v w, isAny ks v = true ∧ spelled "JOIN" w = true ∧
      (tokens (h ++ x) = .word v :: .word w :: tokens x ∨
        ∃ o, spelled "OUTER" o = true ∧ tokens (h ++ x) =
          .word v :: .word o :: .word w :: tokens x) := by
  cases words with
  | @short v b w named gap last =>
      refine ⟨v, w, named, last, .inl ?_⟩
      rw [List.append_assoc, List.append_assoc,
        tokens_led (whole_of_isAny ascii named (by simpa using gap.stop [])) gap
          (whole_join last stop)]
  | @long v b o d w named gap kind between last =>
      refine ⟨v, w, named, last, .inr ⟨o, kind, ?_⟩⟩
      simp only [List.append_assoc]
      rw [tokens_led (whole_of_isAny ascii named (by simpa using gap.stop [])) gap
        (whole_outer kind (between.stop _)), tokens_gap_word between (whole_join last stop)]

theorem spelled_of_isAny {ks : List Text} {v k : Text} (named : isAny ks v = true)
    (apart : ∀ l ∈ ks, spelled k l = false) :
    spelled k v = false := by
  obtain ⟨l, member, same⟩ := List.any_eq_true.mp named
  rw [spelled_congr same]
  exact apart l member

theorem written_cases {v b w : Text} (other : isAny sides v = false) :
    written v b w = "INNER JOIN".toList ∨ written v b w = v ++ (b ++ w) ∧ upperText v ∈ keptKinds ∨
      written v b w = v ++ (b ++ "INNER JOIN") := by
  rw [written]
  split
  · exact .inl rfl
  · split
    · next member =>
        refine .inr (.inl ⟨rfl, ?_⟩)
        rcases List.mem_append.mp (show upperText v ∈ sides ++ keptKinds
          from List.contains_iff_mem.mp member) with side | kept
        · rw [isAny_of_upperText side] at other
          cases other
        · exact kept
    · exact .inr (.inr rfl)

theorem head_written {v b w : Text} (whole : Whole v b) (rest : Text) :
    (written v b w ++ rest).head?.any isWordChar = true := by
  rw [written]
  split
  · rfl
  · split
    · rw [List.append_assoc]
      exact whole.head _
    · rw [List.append_assoc]
      exact whole.head _

namespace Rewrites

variable {x y z : Text} (rewrites : Rewrites x y z)

include rewrites

theorem heads : y.head?.any isWordChar = x.head?.any isWordChar ∧
    z.head?.any isWordChar = x.head?.any isWordChar := by
  cases rewrites with
  | nil => exact ⟨rfl, rfl⟩
  | other _ _ => exact ⟨rfl, rfl⟩
  | word whole _ _ _ _ => simp only [whole.head, and_self]
  | bare whole _ _ _ =>
      simp only [whole.head, true_and]
      rfl
  | led whole _ _ _ _ _ _ _ => simp only [whole.head, head_written whole, and_self]
  | sided words _ _ _ =>
      simp only [words.head ascii_sides]
      exact ⟨rfl, rfl⟩

theorem opens_eq : opens ["JOIN"] (tokens y) = opens ["JOIN"] (tokens x) ∧
    (opens ["JOIN"] (tokens z) = true → opens ["JOIN"] (tokens x) = true) ∧
    (opens ["OUTER", "JOIN"] (tokens z) = true → opens ["OUTER", "JOIN"] (tokens x) = true) := by
  induction rewrites with
  | nil => exact ⟨rfl, id, id⟩
  | other nonword _ ih =>
      simp only [tokens_other nonword]
      split
      · exact ih
      · exact ⟨rfl, id, id⟩
  | word whole join next _ rewrites ih =>
      have later := whole.move rewrites.heads.1
      have last := whole.move rewrites.heads.2
      simp only [whole.tokens_eq, later.tokens_eq, last.tokens_eq, opens_word, join, Bool.false_and,
        Bool.and_eq_true]
      exact ⟨trivial, id, fun ⟨named, opened⟩ => ⟨named, ih.2.1 opened⟩⟩
  | bare whole join _ rewrites _ =>
      have stop := rewrites.heads.2.trans whole.stop
      have later := whole.move rewrites.heads.1
      simp only [whole.tokens_eq, later.tokens_eq, tokens_inner stop, opens_word, join]
      exact ⟨rfl, nofun, nofun⟩
  | @led v b w x y z whole gap second join other side _ rewrites _ =>
      have stop := rewrites.heads.2.trans second.stop
      have read : opens ["JOIN"] (tokens (v ++ (b ++ (w ++ x)))) = false := by
        rw [tokens_led whole gap second, opens_word, other, Bool.false_and]
      have later : opens ["JOIN"] (tokens (v ++ (b ++ (w ++ y)))) = false := by
        rw [tokens_led whole gap (second.move rewrites.heads.1), opens_word, other, Bool.false_and]
      rw [read, later]
      refine ⟨rfl, ?_⟩
      rcases written_cases (b := b) (w := w) side with text | ⟨text, -⟩ | text
      · rw [text, tokens_inner stop]
        exact ⟨nofun, nofun⟩
      · rw [text, List.append_assoc, List.append_assoc,
          tokens_led whole gap (second.move rewrites.heads.2), tokens_led whole gap second]
        simp only [opens_word, other, join]
        exact ⟨nofun, id⟩
      · rw [text, List.append_assoc, List.append_assoc,
          tokens_word_append whole.present whole.letters (gap.stop _),
          tokens_blanks_append gap.blank, tokens_inner stop]
        simp only [opens_word, other, show spelled "JOIN" "INNER" =
          false by decide, Bool.false_and, Bool.and_false]
        exact ⟨nofun, nofun⟩
  | @sided h x y z words stop _ rewrites _ =>
      have read : opens ["JOIN"] (tokens (h ++ x)) = false := by
        obtain ⟨v, w, named, -, read | ⟨o, -, read⟩⟩ := words.tokens_append ascii_sides stop
        all_goals rw [read, opens_word, spelled_of_isAny named (by decide), Bool.false_and]
      rw [read, tokens_left (rewrites.heads.1.trans stop),
        tokens_left (rewrites.heads.2.trans stop)]
      exact ⟨rfl, nofun, nofun⟩

theorem countP_eq : (tokens z).countP (Token.names "JOIN") = (tokens x).countP
    (Token.names "JOIN") := by
  have hit {w : Text} (named : spelled "JOIN" w = true) (ts : List Token) :
      (Token.word w :: ts).countP (Token.names "JOIN") = ts.countP (Token.names "JOIN") + 1 :=
        List.countP_cons_of_pos named
  have miss {w : Text} (other : spelled "JOIN" w = false) (ts : List Token) :
      (Token.word w :: ts).countP (Token.names "JOIN") = ts.countP (Token.names "JOIN") :=
    List.countP_cons_of_neg (Bool.not_eq_true _ ▸ other)
  have inner {z : Text} (stop : z.head?.any isWordChar = false) :
      (tokens ("INNER JOIN" ++ z)).countP (Token.names "JOIN") = (tokens z).countP
      (Token.names "JOIN") + 1 := by
    rw [tokens_inner stop, miss (by decide), hit (by decide)]
  induction rewrites with
  | nil => rfl
  | other nonword _ ih =>
      rw [tokens_other nonword, tokens_other nonword]
      split
      · exact ih
      · rw [List.countP_cons, List.countP_cons, ih]
  | word whole _ _ _ rewrites ih =>
      rw [whole.tokens_eq, (whole.move rewrites.heads.2).tokens_eq, List.countP_cons,
        List.countP_cons, ih]
  | bare whole named _ rewrites ih =>
      rw [whole.tokens_eq, inner (rewrites.heads.2.trans whole.stop), hit named, ih]
  | @led v b w x y z whole gap second named other side _ rewrites ih =>
      have stop := rewrites.heads.2.trans second.stop
      rw [tokens_led whole gap second, miss other, hit named, ← ih]
      rcases written_cases (b := b) (w := w) side with text | ⟨text, -⟩ | text
      · rw [text, inner stop]
      · rw [text, List.append_assoc, List.append_assoc,
          tokens_led whole gap (second.move rewrites.heads.2), miss other, hit named]
      · rw [text, List.append_assoc, List.append_assoc,
          tokens_word_append whole.present whole.letters (gap.stop _),
          tokens_blanks_append gap.blank, miss other, inner stop]
  | sided words stop _ rewrites ih =>
      rw [tokens_left (rewrites.heads.2.trans stop), miss (by decide), hit (by decide), ih]
      obtain ⟨v, w, named, last, read | ⟨o, kind, read⟩⟩ := words.tokens_append ascii_sides stop
      · rw [read, miss (spelled_of_isAny named (by decide)), hit last]
      · have middle : spelled "JOIN" o = false := by
          rw [spelled_congr kind]
          decide
        rw [read, miss (spelled_of_isAny named (by decide)), miss middle, hit last]

theorem later {v : Text} (whole : Whole v x) : Whole v y ∧ Whole v z :=
  ⟨whole.move rewrites.heads.1, whole.move rewrites.heads.2⟩

theorem replaceFrom_outer_eq (pos : Nat) (before : Option Char)
    (apart : before.any isWordChar = false ∨ x.head?.any isWordChar = false) :
    outer.replaceFrom (fun _ => "LEFT JOIN") pos before x = y := by
  -- a word that is no side of an outer join starts none
  have passed {v x : Text} {pos : Nat} {before : Option Char} (whole : Whole v x)
      (free : isAny sides v = true → opens ["JOIN"] (tokens x) = false ∧
        opens ["OUTER", "JOIN"] (tokens x) = false) :
      outer.replaceFrom (fun _ => "LEFT JOIN") pos before (v ++ x) =
        v ++ outer.replaceFrom (fun _ => "LEFT JOIN") (pos + v.length)
          (v.getLast?.or before) x := by
    refine aligned_outer.replaceFrom_word _ whole fun h after caps cut taken => ?_
    obtain ⟨words, -, stop, -⟩ := (spans_sided_iff ascii_sides _ _ _ _ _).mp taken
    have read := congrArg tokens cut
    obtain ⟨v', w, named, last, same | ⟨o, kind, same⟩⟩ := words.tokens_append ascii_sides stop
    · rw [whole.tokens_eq, same] at read
      obtain ⟨first, rest⟩ := List.cons.inj read
      obtain ⟨next, -⟩ := free (Token.word.inj first ▸ named)
      rw [rest, opens_word, last] at next
      cases next
    · rw [whole.tokens_eq, same] at read
      obtain ⟨first, rest⟩ := List.cons.inj read
      obtain ⟨-, next⟩ := free (Token.word.inj first ▸ named)
      rw [rest, opens_word, kind, opens_word, last] at next
      cases next
  have notSide {w : Text} (named : spelled "JOIN" w = true) : isAny sides w ≠ true := fun side => by
    rw [spelled_of_isAny side (by decide)] at named
    cases named
  induction rewrites generalizing pos before with
  | nil => rfl
  | @other c _ _ _ nonword _ ih =>
      rw [aligned_outer.replaceFrom_other _ nonword,
        ih _ _ (.inl (show (some c).any isWordChar = false from nonword))]
  | word whole _ next long _ ih =>
      rw [passed whole fun side => ⟨next, long side⟩, ih _ _ (.inr whole.stop)]
  | bare whole named _ _ ih =>
      rw [passed whole fun side => absurd side (notSide named), ih _ _ (.inr whole.stop)]
  | led whole gap second named _ side _ _ ih =>
      rw [passed ⟨whole.present, whole.letters, gap.stop _⟩ fun other =>
        absurd other (by rw [side]; exact Bool.noConfusion),
        aligned_outer.replaceFrom_blanks _ gap.blank, passed second fun side =>
          absurd side (notSide named),
        ih _ _ (.inr second.stop)]
  | sided words stop _ _ ih =>
      rw [words.head ascii_sides] at apart
      rw [replaceFrom_outer words stop (apart.resolve_right Bool.noConfusion), ih _ _ (.inr stop)]

theorem replaceFrom_join_eq (pos : Nat) (before : Option Char)
    (apart : before.any isWordChar = false ∨ x.head?.any isWordChar = false) :
    join.replaceFrom convert pos before y = z := by
  -- what stands before a word
  have outside {v x : Text} {before : Option Char} (whole : Whole v x) {more : Text}
      (apart : before.any isWordChar = false ∨ (v ++ more).head?.any isWordChar = false) :
        before.any isWordChar = false := by
    rw [whole.head] at apart
    exact apart.resolve_right Bool.noConfusion
  induction rewrites generalizing pos before with
  | nil => rfl
  | @other c _ _ _ nonword _ ih =>
      rw [aligned_join.replaceFrom_other _ nonword,
        ih _ _ (.inl (show (some c).any isWordChar = false from nonword))]
  | @word v x y z whole join next _ rewrites ih =>
      have second := (rewrites.later whole).1
      rw [aligned_join.replaceFrom_word _ second, ih _ _ (.inr whole.stop)]
      intro h after caps cut taken
      obtain ⟨words, -, stop⟩ := (exists_spans_join_iff _ _ _ _).mp ⟨caps, taken⟩
      cases words with
      | bare named =>
          obtain ⟨rfl, -⟩ := second.unique (whole_join named stop) cut
          rw [named] at join
          cases join
      | led first gap named =>
          have read := congrArg tokens cut
          rw [List.append_assoc, List.append_assoc, tokens_led first gap (whole_join named stop),
            second.tokens_eq] at read
          rw [← rewrites.opens_eq.1, (List.cons.inj read).2, opens_word, named] at next
          cases next
  | bare whole named next rewrites ih =>
      rw [replaceFrom_bare (rewrites.later whole).1 named (outside whole apart)
        (rewrites.opens_eq.1.trans next), ih _ _ (.inr whole.stop)]
  | led whole gap second named other _ _ rewrites ih =>
      rw [replaceFrom_led (rewrites.later second).1 named (outside whole apart) whole gap other,
        ih _ _ (.inr second.stop)]
  | @sided h x y z words stop _ rewrites ih =>
      rw [words.head ascii_sides] at apart
      refine (replaceFrom_led (v := "LEFT") (b := " ") (w := "JOIN")
        (whole_literal _ (by decide) (rewrites.heads.1.trans stop)) (by decide)
        (apart.resolve_right Bool.noConfusion)
        (whole_literal _ (by decide) rfl) ⟨by decide, by decide⟩ (by decide)).trans ?_
      rw [ih _ _ (.inr stop)]
      rfl

end Rewrites

/-! ### The normal form -/

def Kind (q b w : Text) : Prop :=
  (q = "INNER".toList ∨ q = "LEFT".toList) ∧ b = " ".toList ∧ w = "JOIN".toList ∨
    upperText q ∈ keptKinds

/-- Every join has a word before it that tells its kind, and no side is left before a join but LEFT.
-/
inductive Formed : Text → Prop
  | nil : Formed []
  | other {c : Char} {z : Text} : isWordChar c = false → Formed z → Formed (c :: z)
  | word {v z : Text} : Whole v z → spelled "JOIN" v = false → opens ["JOIN"] (tokens z) = false →
      (isAny sides v = true → opens ["OUTER", "JOIN"] (tokens z) = false) → Formed z →
        Formed (v ++ z)
  | led {q b w z : Text} : Whole q b → IsGap b → Whole w z → spelled "JOIN" w = true → Kind q b w →
      opens ["JOIN"] (tokens z) = false → Formed z → Formed (q ++ (b ++ (w ++ z)))

theorem Formed.blanks {b z : Text} (gap : IsGap b) (formed : Formed z) : Formed (b ++ z) := by
  obtain ⟨-, blank⟩ := gap
  induction b with
  | nil => exact formed
  | cons c b ih =>
      obtain ⟨first, others⟩ := List.forall_mem_cons.mp blank
      exact .other (isWordChar_of_isBlank first) (ih others)

theorem Formed.inner {z : Text} (stop : z.head?.any isWordChar = false)
    (next : opens ["JOIN"] (tokens z) = false)
    (formed : Formed z) : Formed ("INNER JOIN" ++ z) :=
  .led (q := "INNER") (b := " ") (whole_literal _ (by decide) rfl) ⟨by decide, by decide⟩
    (whole_literal "JOIN" (by decide) stop) (by decide) (.inl ⟨.inl rfl, rfl, rfl⟩) next formed

/-- What the two rules write is in normal form. -/
theorem Rewrites.formed {x y z : Text} (rewrites : Rewrites x y z) : Formed z := by
  have kept {x y z : Text} (rewrites : Rewrites x y z) (next : opens ["JOIN"] (tokens x) = false) :
      opens ["JOIN"] (tokens z) = false := by
    rw [← Bool.not_eq_true] at next ⊢
    exact fun opened => next (rewrites.opens_eq.2.1 opened)
  induction rewrites with
  | nil => exact .nil
  | other nonword _ ih => exact .other nonword ih
  | word whole join next long rewrites ih =>
      refine .word (rewrites.later whole).2 join (kept rewrites next) (fun side => ?_) ih
      have free := long side
      rw [← Bool.not_eq_true] at free ⊢
      exact fun opened => free (rewrites.opens_eq.2.2 opened)
  | bare whole _ next rewrites ih =>
      exact .inner (rewrites.later whole).2.stop (kept rewrites next) ih
  | @led v b w x y z whole gap second named other side next rewrites ih =>
      have last := (rewrites.later second).2
      rcases written_cases (b := b) (w := w) side with text | ⟨text, kind⟩ | text
      · rw [text]
        exact .inner last.stop (kept rewrites next) ih
      · rw [text, List.append_assoc, List.append_assoc]
        exact .led whole gap last named (.inr kind) (kept rewrites next) ih
      · rw [text, List.append_assoc, List.append_assoc]
        refine .word ⟨whole.present, whole.letters, gap.stop _⟩ other ?_ ?_
          (.blanks gap (.inner last.stop (kept rewrites next) ih))
        · rw [tokens_blanks_append gap.blank, tokens_inner last.stop]
          rfl
        · rw [side]
          exact nofun
  | sided words stop next rewrites ih =>
      exact .led (q := "LEFT") (b := " ") (whole_literal _ (by decide) rfl) ⟨by decide, by decide⟩
        (whole_literal "JOIN" (by decide) (rewrites.heads.2.trans stop)) (by decide)
        (.inl ⟨.inr rfl, rfl, rfl⟩)
        (kept rewrites next) ih

/-- The two rules leave what is in normal form. -/
theorem Formed.rewrites {z : Text} (formed : Formed z) : Rewrites z z z := by
  induction formed with
  | nil => exact .nil
  | other nonword _ ih => exact .other nonword ih
  | word whole join next long _ ih => exact .word whole join next long ih
  | @led q b w z whole gap second named kind next _ ih =>
      rcases kind with ⟨rfl | rfl, rfl, rfl⟩ | kind
      · exact .led whole gap second named (by decide) (by decide) next ih
      · have words : Sided sides ("LEFT" ++ (" " ++ "JOIN")) := .short (by decide) gap named
        have step := Rewrites.sided words second.stop next ih
        exact step
      · have free := not_spelled_of_kind (List.mem_cons_of_mem _ kind)
        have step : Rewrites (q ++ (b ++ (w ++ z))) (q ++ (b ++ (w ++ z)))
            (written q b w ++ z) := by
          refine .led whole gap second named (free _ List.mem_cons_self) ?_ next ih
          exact List.any_eq_false.mpr fun k member => by
            rw [free k (List.mem_cons_of_mem _ member)]; exact Bool.noConfusion
        have same : written q b w = q ++ (b ++ w) := by
          have apart : ∀ u ∈ keptKinds, u ≠ "INNER".toList ∧ qualifiers.contains u =
              true := by decide
          rw [written, if_neg (apart _ kind).1, if_pos (apart _ kind).2]
        rwa [same, List.append_assoc, List.append_assoc] at step

def kinds : List Text := ["INNER", "LEFT", "OUTER", "CROSS", "NATURAL"]

def EndsInKind (front : Text) : Prop :=
  ∃ early q b, front = early ++ (q ++ b) ∧ early.getLast?.any isWordChar = false ∧ Whole q b ∧
    IsGap b ∧ upperText q ∈ kinds

theorem EndsInKind.append {front more : Text} (ends : EndsInKind more)
    (apart : front.getLast?.any isWordChar = false ∨ more.head?.any isWordChar = false) :
      EndsInKind (front ++ more) := by
  obtain ⟨early, q, b, rfl, outside, whole, gap, kind⟩ := ends
  refine ⟨front ++ early, q, b, (List.append_assoc _ _ _).symm, ?_, whole, gap, kind⟩
  cases early with
  | nil =>
      rw [List.nil_append, whole.head] at apart
      rw [List.append_nil]
      exact apart.resolve_right Bool.noConfusion
  | cons c early => rwa [List.getLast?_append_of_ne_nil _ (List.cons_ne_nil _ _)]

theorem Kind.mem_kinds {q b w : Text} (kind : Kind q b w) : upperText q ∈ kinds := by
  rcases kind with ⟨rfl | rfl, -, -⟩ | kept
  · decide
  · decide
  · exact List.mem_cons_of_mem _ (List.mem_cons_of_mem _ kept)

theorem Kind.not_join {q b w : Text} (kind : Kind q b w) : spelled "JOIN" q = false := by
  rcases kind with ⟨rfl | rfl, -, -⟩ | kept
  · decide
  · decide
  · exact not_spelled_of_kind (List.mem_cons_of_mem _ kept) _ List.mem_cons_self

theorem Formed.endsInKind {z : Text} (formed : Formed z) {front w rest : Text}
    (cut : z = front ++ (w ++ rest))
    (outside : front.getLast?.any isWordChar = false) (whole : Whole w rest)
    (join : spelled "JOIN" w = true) :
    EndsInKind front := by
  have more_end {u more : Text} (present : more ≠ [])
      (outside : (u ++ more).getLast?.any isWordChar = false) :
      more.getLast?.any isWordChar = false := by rwa [List.getLast?_append_of_ne_nil _ present]
        at outside
  have stops {v z more rest : Text} (first : Whole v z) (present : more ≠ [])
      (cut : z = more ++ rest) :
      more.head?.any isWordChar = false := by
    obtain ⟨c, more, rfl⟩ := List.exists_cons_of_ne_nil present
    have stop := first.stop
    rwa [cut] at stop
  induction formed generalizing front with
  | nil =>
      have none := (List.append_eq_nil_iff.mp (List.append_eq_nil_iff.mp cut.symm).2).1
      exact absurd none whole.present
  | @other c z nonword _ ih =>
      obtain ⟨more, rfl, rest⟩ :=
        exists_append_of_nonword (b := [c]) (by simpa using nonword) cut (whole.head _)
      refine EndsInKind.append (ih rest ?_) (.inl nonword)
      cases more with
      | nil => rfl
      | cons d more => exact more_end (List.cons_ne_nil _ _) outside
  | word first other _ _ _ ih =>
      rcases first.cut cut outside (whole.head _) with rfl | ⟨more, present, rfl, rest⟩
      · obtain ⟨rfl, -⟩ := first.unique whole cut
        rw [join] at other
        cases other
      · exact (ih rest (more_end present outside)).append (.inr (stops first present rest))
  | @led q b u z first gap second named kind _ _ ih =>
      have lead : Whole q (b ++ (u ++ z)) := ⟨first.present, first.letters, gap.stop _⟩
      rcases lead.cut cut outside (whole.head _) with rfl | ⟨more, present, rfl, rest⟩
      · obtain ⟨rfl, -⟩ := lead.unique whole cut
        rw [kind.not_join] at join
        cases join
      · obtain ⟨later, rfl, behind⟩ := exists_append_of_nonword
          (fun c member => isWordChar_of_isBlank (gap.blank c member)) rest (whole.head _)
        have before : later.getLast?.any isWordChar = false := by
          cases later with
          | nil => rfl
          | cons d later => exact more_end (List.cons_ne_nil _ _) (more_end present outside)
        rcases second.cut behind before (whole.head _) with rfl | ⟨last, filled, rfl, tail⟩
        · rw [List.append_nil]
          exact ⟨[], q, b, rfl, rfl, first, gap, kind.mem_kinds⟩
        · rw [← List.append_assoc b, ← List.append_assoc q]
          exact (ih tail (more_end filled before)).append (.inr (stops second filled tail))

def SideFree : List Token → Prop
  | [] => True
  | t :: ts => (t.word?.any (isAny ["RIGHT", "FULL"]) = true →
      opens ["JOIN"] ts = false ∧ opens ["OUTER", "JOIN"] ts = false) ∧ SideFree ts

theorem SideFree.of_append {ts us : List Token} (free : SideFree (ts ++ us)) : SideFree us := by
  induction ts with
  | nil => exact free
  | cons t ts ih => exact ih free.2

theorem Kind.isAny_eq {q b w : Text} (kind : Kind q b w) : isAny ["RIGHT", "FULL"] q = false := by
  rcases kind with ⟨rfl | rfl, -, -⟩ | kept
  · decide
  · decide
  · have free := not_spelled_of_kind (List.mem_cons_of_mem _ kept)
    refine List.any_eq_false.mpr fun k member => ?_
    rw [free k (List.mem_cons_of_mem _ (List.mem_cons_of_mem _ member))]
    exact Bool.noConfusion

theorem Formed.sideFree {z : Text} (formed : Formed z) : SideFree (tokens z) := by
  induction formed with
  | nil => trivial
  | other nonword _ ih =>
      rw [tokens_other nonword]
      split
      · exact ih
      · exact ⟨nofun, ih⟩
  | word whole _ next long _ ih =>
      rw [whole.tokens_eq]
      refine ⟨fun side => ⟨next, long ?_⟩, ih⟩
      exact Bool.or_eq_true_iff.mpr (.inr side)
  | led whole gap second named kind _ _ ih =>
      have join {w : Text} (named : spelled "JOIN" w = true) : isAny ["RIGHT", "FULL"] w ≠ true :=
        fun side => by
        rw [spelled_of_isAny side (by decide)] at named
        cases named
      rw [tokens_led whole gap second]
      exact ⟨fun side => absurd (kind.isAny_eq.symm.trans side) Bool.noConfusion,
        fun side => absurd side (join named), ih⟩

theorem Formed.hits_eq_nil {z : Text} (formed : Formed z) :
    (sided ["RIGHT", "FULL"]).hits z = [] := by
  refine List.eq_nil_iff_forall_not_mem.mpr fun m member => ?_
  obtain ⟨front, after, caps, rfl, -, -, taken⟩ := takes_of_mem_hits member
  obtain ⟨words, outside, stop, -⟩ := (spans_sided_iff (by decide) _ _ _ _ _).mp taken.spans
  have free := formed.sideFree
  rw [tokens_append _ _ (.inl outside)] at free
  obtain ⟨v, w, named, last, read | ⟨o, kind, read⟩⟩ := words.tokens_append (by decide) stop
  · rw [read] at free
    have next := (free.of_append.1 named).1
    rw [opens_word, last] at next
    cases next
  · rw [read] at free
    have next := (free.of_append.1 named).2
    rw [opens_word, kind, opens_word, last] at next
    cases next

def rewritten (x : Text) : Text := join.replace convert (outer.replace (fun _ => "LEFT JOIN") x)

theorem exists_rewrites_of_hits {x : Text} (apart : (wordPair "JOIN" "JOIN").hits x = []) :
    ∃ y, Rewrites x y (rewritten x) := by
  obtain ⟨y, z, rewrites⟩ := exists_rewrites x
    (follows_eq_zero_of_hits (by decide) (by decide) apart)
  have first : outer.replace (fun _ => "LEFT JOIN") x = y :=
    rewrites.replaceFrom_outer_eq 0 none (.inl rfl)
  have second : join.replace convert y = z := rewrites.replaceFrom_join_eq 0 none (.inl rfl)
  refine ⟨y, ?_⟩
  rwa [rewritten, first, second]

theorem rewritten_of_formed {z : Text} (formed : Formed z) :
    outer.replace (fun _ => "LEFT JOIN") z = z ∧ join.replace convert z = z :=
  ⟨formed.rewrites.replaceFrom_outer_eq 0 none (.inl rfl),
    formed.rewrites.replaceFrom_join_eq 0 none (.inl rfl)⟩

theorem codeSegments_rewritten (s : Text) :
    codeSegments (join.replaceCode convert (outer.replaceCode (fun _ => "LEFT JOIN") s)) =
      (codeSegments s).map rewritten := by
  have left : Neutral "LEFT JOIN" := by decide
  have first := codeSegments_replaceCode (p := outer)
    (mild_of_neutral (by decide) fun _ => .inr left)
    (fun x => replace_ne_nil fun _ _ _ _ _ _ => left.1) s
  have second := codeSegments_replaceCode (p := join) (mild_of_neutral (by decide) convert_eq)
    (fun x => replace_ne_nil fun before m after caps present taken => ?_)
    (outer.replaceCode (fun _ => "LEFT JOIN") s)
  · rw [second, first, List.map_map]
    rfl
  · rcases convert_eq taken with same | neutral
    · rwa [same]
    · exact neutral.1

/-- The normal form of joins. Where no join directly follows another, the two rules keep the number
of joins, put a word of some kind before each of them, leave no side but LEFT, and have nothing to
do a second time. -/
theorem exists_run_joinRules {s : Text} (apart : (wordPair "JOIN" "JOIN").codeHits s = []) :
    ∃ steps t, Rule.run Rule.joinRules s = .ok (steps, t) ∧
      (codeWords t).countP (spelled "JOIN") = (codeWords s).countP (spelled "JOIN") ∧
      (∀ x ∈ codeSegments t, ∀ front w rest, x = front ++ (w ++ rest) →
        front.getLast?.any isWordChar = false →
        Whole w rest → spelled "JOIN" w = true → EndsInKind front) ∧
      (sided ["RIGHT", "FULL"]).codeHits t = [] ∧
      Rule.run Rule.joinRules t = .ok ([], t) := by
  have segments := codeSegments_rewritten s
  generalize result : join.replaceCode convert (outer.replaceCode (fun _ => "LEFT JOIN") s) = t
    at segments
  have each : ∀ x ∈ codeSegments s, ∃ y, Rewrites x y (rewritten x) := fun x member =>
    exists_rewrites_of_hits (List.flatMap_eq_nil_iff.mp apart x member)
  have formed : ∀ z ∈ codeSegments t, Formed z := by
    intro z member
    rw [segments] at member
    obtain ⟨x, inside, rfl⟩ := List.mem_map.mp member
    obtain ⟨y, rewrites⟩ := each x inside
    exact rewrites.formed
  refine ⟨_, t, by rw [← result]; rfl, ?_, ?_, ?_, ?_⟩
  · rw [countP_codeWords, countP_codeWords, segments]
    refine total_map fun x member => ?_
    obtain ⟨y, rewrites⟩ := each x member
    exact rewrites.countP_eq
  · exact fun x member front w rest cut outside whole named =>
      (formed x member).endsInKind cut outside whole named
  · exact List.flatMap_eq_nil_iff.mpr fun z member => (formed z member).hits_eq_nil
  · refine Rule.run_eq_self ?_
    simp only [Rule.joinRules, List.forall_mem_cons]
    refine ⟨congrArg Except.ok (mapCode_eq_self fun z member =>
      (rewritten_of_formed (formed z member)).1), congrArg Except.ok
        (mapCode_eq_self fun z member => (rewritten_of_formed (formed z member)).2),
      List.forall_mem_nil _⟩

theorem exists_run_joinRules_outer :
    let s : Text :=
      "SELECT 'JOIN JOIN' FROM a right outer join b full Join c JOIN d natural left join e"
    (wordPair "JOIN" "JOIN").codeHits s = [] ∧
      (Rule.run Rule.joinRules s).toOption.map (·.2) =
        some "SELECT 'JOIN JOIN' FROM a LEFT JOIN b LEFT JOIN c INNER JOIN d natural LEFT JOIN e".toList ∧
      ∃ steps t, Rule.run Rule.joinRules s = .ok (steps, t) ∧
        (codeWords t).countP (spelled "JOIN") = 4 ∧
        (sided ["RIGHT", "FULL"]).codeHits t = [] ∧ Rule.run Rule.joinRules t = .ok ([], t) := by
  intro s
  have apart : (wordPair "JOIN" "JOIN").codeHits s = [] := by decide
  obtain ⟨steps, t, run, count, -, free, again⟩ := exists_run_joinRules apart
  refine ⟨apart, by decide, steps, t, run, ?_, free, again⟩
  rw [count]
  decide

end Join

end LiteSql
