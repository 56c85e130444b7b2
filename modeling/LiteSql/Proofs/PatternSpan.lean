import LiteSql.Pattern.Match

/-! What a pattern means: which pieces of a text it can take, given what stands before and after
them. Reading from a place ends exactly where such a piece ends. -/

namespace LiteSql

namespace Pattern

/-- A pattern can take `x` from position `pos` on, between the character before it and the text
after it, and captures the places `caps` on the way, the last one first. -/
def Spans : Pattern → (before : Option Char) → (pos : Nat) → (x after : Text) →
    (caps : List Capture) → Prop
  | empty, _, _, x, _, caps => x = [] ∧ caps = []
  | one p, _, _, x, _, caps => (∃ c, p c = true ∧ x = [c]) ∧ caps = []
  | many p, _, _, x, _, caps => (∀ c ∈ x, p c = true) ∧ caps = []
  | few p, _, _, x, _, caps => (∀ c ∈ x, p c = true) ∧ caps = []
  | seq first second, before, pos, x, after, caps =>
    ∃ y z early late, x = y ++ z ∧ caps = late ++ early ∧
      first.Spans before pos y (z ++ after) early ∧
      second.Spans (y.getLast?.or before) (pos + y.length) z after late
  | either first second, before, pos, x, after, caps =>
    first.Spans before pos x after caps ∨ second.Spans before pos x after caps
  | capture label inner, before, pos, x, after, caps =>
    ∃ early, caps = ⟨label, pos, pos + x.length⟩ :: early ∧ inner.Spans before pos x after early
  | boundary, before, _, x, after, caps =>
    x = [] ∧ caps = [] ∧ before.any isWordChar ≠ after.head?.any isWordChar
  | atEnd, _, _, x, after, caps => x = [] ∧ caps = [] ∧ (after = [] ∨ after = ['\n'])
  | ahead inner, before, pos, x, after, caps =>
    x = [] ∧ caps = [] ∧ ∃ y rest early, after = y ++ rest ∧ inner.Spans before pos y rest early
  | notAhead inner, before, pos, x, after, caps =>
    x = [] ∧ caps = [] ∧ ¬ ∃ y rest early, after = y ++ rest ∧ inner.Spans before pos y rest early

end Pattern

namespace Reading

def past (r : Reading) (x after : Text) (caps : List Capture) : Reading :=
  ⟨r.pos + x.length, x.getLast?.or r.before, after, caps ++ r.captures⟩

theorem past_past (r : Reading) (x y middle after : Text) (early late : List Capture) :
    (r.past x middle early).past y after late = r.past (x ++ y) after (late ++ early) := by
  simp [past, List.getLast?_append, Option.or_assoc, Nat.add_assoc]

theorem past_nil (r : Reading) : r.past [] r.rest [] = r := by
  simp [past]

theorem mem_runs_iff (p : Char → Bool) (r last : Reading) :
    last ∈ runs p r.captures r.pos r.before r.rest ↔
      ∃ x after, r.rest = x ++ after ∧ (∀ c ∈ x, p c = true) ∧ last = r.past x after [] := by
  obtain ⟨pos, before, rest, captures⟩ := r
  induction rest generalizing pos before with
  | nil =>
      rw [runs, List.mem_singleton]
      constructor
      · rintro rfl
        exact ⟨[], [], rfl, by simp, (past_nil _).symm⟩
      · rintro ⟨x, after, cut, -, rfl⟩
        obtain ⟨rfl, rfl⟩ := List.append_eq_nil_iff.mp cut.symm
        exact past_nil _
  | cons c rest ih =>
      have next (x after : Text) : past ⟨pos + 1, some c, rest, captures⟩ x after [] =
          past ⟨pos, before, c :: rest, captures⟩ (c :: x) after [] :=
        past_past ⟨pos, before, c :: rest, captures⟩ [c] x rest after [] []
      rw [runs, List.mem_cons]
      constructor
      · rintro (rfl | later)
        · exact ⟨[], c :: rest, rfl, by simp, (past_nil _).symm⟩
        · split at later
          · next member =>
              obtain ⟨x, after, cut, members, rfl⟩ := (ih (pos + 1) (some c)).mp later
              exact ⟨c :: x, after,
                congrArg (c :: ·) cut, by simpa [member] using members, next x after⟩
          · cases later
      · rintro ⟨x, after, cut, members, rfl⟩
        cases x with
        | nil =>
            left
            rw [List.nil_append] at cut
            rw [← cut]
            exact past_nil _
        | cons d x =>
            right
            obtain ⟨rfl, tail⟩ := List.cons.inj cut
            rw [if_pos (members c List.mem_cons_self)]
            exact (ih (pos + 1) (some c)).mpr
              ⟨x, after, tail, fun d member => members d (List.mem_cons_of_mem c member),
                (next x after).symm⟩

theorem exists_past_nil_iff (r last : Reading) (holds : Text → Prop) :
    (∃ x after caps, r.rest = x ++ after ∧ (x = [] ∧ caps = [] ∧ holds after) ∧
      last = r.past x after caps) ↔ holds r.rest ∧ last = r := by
  constructor
  · rintro ⟨x, after, caps, cut, ⟨rfl, rfl, held⟩, rfl⟩
    rw [List.nil_append] at cut
    exact ⟨cut ▸ held, by rw [← cut, past_nil]⟩
  · rintro ⟨held, rfl⟩
    exact ⟨[], last.rest, [], rfl, ⟨rfl, rfl, held⟩, (past_nil last).symm⟩

end Reading

namespace Pattern

theorem ends_ne_nil_iff (p : Pattern) (r : Reading)
    (ends_iff : ∀ last, last ∈ p.ends r ↔ ∃ x after caps, r.rest = x ++ after ∧
      p.Spans r.before r.pos x after caps ∧ last = r.past x after caps) :
    p.ends r ≠ [] ↔ ∃ x after caps, r.rest = x ++ after ∧ p.Spans r.before r.pos x after caps := by
  constructor
  · intro present
    obtain ⟨last, member⟩ := List.exists_mem_of_ne_nil _ present
    obtain ⟨x, after, caps, cut, taken, -⟩ := (ends_iff last).mp member
    exact ⟨x, after, caps, cut, taken⟩
  · rintro ⟨x, after, caps, cut, taken⟩
    exact List.ne_nil_of_mem ((ends_iff _).mpr ⟨x, after, caps, cut, taken, rfl⟩)

/-- Reading a pattern from a place ends exactly behind the texts that it can take there. -/
theorem mem_ends_iff (p : Pattern) (r last : Reading) :
    last ∈ p.ends r ↔ ∃ x after caps, r.rest = x ++ after ∧ p.Spans r.before r.pos x after caps ∧
      last = r.past x after caps := by
  induction p generalizing r last with
  | empty =>
      have stays := Reading.exists_past_nil_iff r last fun _ => True
      simp only [and_true, true_and] at stays
      simp only [Spans, ends, List.mem_singleton, stays]
  | one p =>
      simp only [Spans, ends]
      constructor
      · intro member
        split at member
        · cases member
        · next c rest here =>
            split at member
            · next taken =>
                refine ⟨[c], rest, [], here, ⟨⟨c, taken, rfl⟩, rfl⟩, ?_⟩
                simpa [Reading.past] using member
            · cases member
      · rintro ⟨_, after, _, cut, ⟨⟨c, taken, rfl⟩, rfl⟩, rfl⟩
        rw [cut, List.singleton_append]
        simp [taken, Reading.past]
  | many p =>
      simp only [Spans, ends, List.mem_reverse, Reading.mem_runs_iff]
      constructor
      · rintro ⟨x, after, cut, members, rfl⟩
        exact ⟨x, after, [], cut, ⟨members, rfl⟩, rfl⟩
      · rintro ⟨x, after, _, cut, ⟨members, rfl⟩, rfl⟩
        exact ⟨x, after, cut, members, rfl⟩
  | few p =>
      simp only [Spans, ends, Reading.mem_runs_iff]
      constructor
      · rintro ⟨x, after, cut, members, rfl⟩
        exact ⟨x, after, [], cut, ⟨members, rfl⟩, rfl⟩
      · rintro ⟨x, after, _, cut, ⟨members, rfl⟩, rfl⟩
        exact ⟨x, after, cut, members, rfl⟩
  | seq first second ihFirst ihSecond =>
      simp only [Spans, ends, List.mem_flatMap, ihFirst, ihSecond]
      constructor
      · rintro ⟨_, ⟨x, middle, early, cut, taken, rfl⟩, y, after, late, rest, others, rfl⟩
        refine ⟨x ++ y, after, late ++ early, ?_, ⟨x, y, early, late, rfl, rfl, ?_, others⟩,
          Reading.past_past r x y middle after early late⟩
        · rw [cut, List.append_assoc]
          exact congrArg (x ++ ·) rest
        · rwa [← show middle = y ++ after from rest]
      · rintro ⟨_, after, _, cut, ⟨x, y, early, late, rfl, rfl, taken, others⟩, rfl⟩
        exact ⟨r.past x (y ++ after) early,
          ⟨x, y ++ after, early, by rw [cut, List.append_assoc], taken, rfl⟩,
          y, after, late, rfl, others, (Reading.past_past r x y (y ++ after) after early late).symm⟩
  | either first second ihFirst ihSecond =>
      simp only [Spans, ends, List.mem_append, ihFirst, ihSecond, or_and_right, and_or_left,
        exists_or]
  | capture label inner ih =>
      simp only [Spans, ends, List.mem_map, ih]
      constructor
      · rintro ⟨_, ⟨x, after, early, cut, taken, rfl⟩, rfl⟩
        exact ⟨x, after, _, cut, ⟨early, rfl, taken⟩, rfl⟩
      · rintro ⟨x, after, _, cut, ⟨early, rfl, taken⟩, rfl⟩
        exact ⟨r.past x after early, ⟨x, after, early, cut, taken, rfl⟩, rfl⟩
  | boundary =>
      simp only [Spans, ends]
      rw [Reading.exists_past_nil_iff r last fun after =>
        r.before.any isWordChar ≠ after.head?.any isWordChar]
      simp only [Reading.atBoundary, bne_iff_ne]
      split <;> simp_all
  | atEnd =>
      simp only [Spans, ends]
      rw [Reading.exists_past_nil_iff r last fun after => after = [] ∨ after = ['\n']]
      simp only [Reading.atEnd, Bool.or_eq_true, List.isEmpty_iff, beq_iff_eq]
      split <;> simp_all
  | ahead inner ih =>
      simp only [Spans, ends]
      rw [Reading.exists_past_nil_iff r last fun after => ∃ y rest early, after = y ++ rest ∧
        inner.Spans r.before r.pos y rest early, ← ends_ne_nil_iff inner r (ih r)]
      cases inner.ends r <;> simp
  | notAhead inner ih =>
      simp only [Spans, ends]
      rw [Reading.exists_past_nil_iff r last fun after => ¬ ∃ y rest early, after = y ++ rest ∧
        inner.Spans r.before r.pos y rest early, ← ends_ne_nil_iff inner r (ih r)]
      cases inner.ends r <;> simp

theorem spans_keyword_iff (k : Text) (before : Option Char) (pos : Nat) (x after : Text)
    (caps : List Capture) :
    (keyword k).Spans before pos x after caps ↔
      (startsIgnoringCase k x = true ∧ x.length = k.length) ∧ caps = [] := by
  fun_induction keyword k generalizing before pos x caps with
  | case1 => simp [Spans, startsIgnoringCase]
  | case2 c =>
      simp only [Spans]
      constructor
      · rintro ⟨⟨d, same, rfl⟩, rfl⟩
        simp [startsIgnoringCase, same]
      · rintro ⟨⟨starts, length⟩, rfl⟩
        obtain ⟨d, rfl⟩ := List.length_eq_one_iff.mp length
        exact ⟨⟨d, by simpa [startsIgnoringCase] using starts, rfl⟩, rfl⟩
  | case3 c k _ ih =>
      simp only [Spans, ih]
      constructor
      · rintro ⟨_, y, _, _, rfl, rfl, ⟨⟨d, same, rfl⟩, rfl⟩, ⟨starts, length⟩, rfl⟩
        simp [startsIgnoringCase, same, starts, length]
      · rintro ⟨⟨starts, length⟩, rfl⟩
        cases x with
        | nil => simp at length
        | cons d x =>
            simp only [startsIgnoringCase, Bool.and_eq_true] at starts
            exact ⟨[d], x, [], [], rfl, rfl, ⟨⟨d, starts.1, rfl⟩, rfl⟩,
              ⟨starts.2, by simpa using length⟩, rfl⟩

theorem spans_someOf_iff (p : Char → Bool) (before : Option Char) (pos : Nat) (x after : Text)
    (caps : List Capture) :
    (someOf p).Spans before pos x after caps ↔ (x ≠ [] ∧ ∀ c ∈ x, p c = true) ∧ caps = [] := by
  simp only [someOf, Spans]
  constructor
  · rintro ⟨_, y, _, _, rfl, rfl, ⟨⟨c, taken, rfl⟩, rfl⟩, members, rfl⟩
    exact ⟨⟨by simp, by simpa [taken] using members⟩, rfl⟩
  · rintro ⟨⟨present, members⟩, rfl⟩
    cases x with
    | nil => exact absurd rfl present
    | cons c x =>
        exact ⟨[c], x, [], [], rfl, rfl, ⟨⟨c, members c List.mem_cons_self, rfl⟩, rfl⟩,
          fun d member => members d (List.mem_cons_of_mem c member), rfl⟩

structure Takes (p : Pattern) (before : Option Char) (m : Match) (after : Text)
    (caps : List Capture) : Prop where
  spans : p.Spans before m.start m.text after caps
  captures : m.captures = caps.map fun c =>
    (c.label, ((m.text ++ after).drop (c.start - m.start)).take (c.stop - c.start))

theorem takes_of_matchAt? {p : Pattern} {r : Reading} {m : Match} (found : p.matchAt? r = some m)
    (fresh : r.captures = []) :
    ∃ after caps, r.rest = m.text ++ after ∧ m.start = r.pos ∧ p.Takes r.before m after caps := by
  obtain ⟨last, first, rfl⟩ := Option.map_eq_some_iff.mp found
  rw [first?_some] at first
  obtain ⟨x, after, caps, cut, taken, rfl⟩ := (mem_ends_iff p r last).mp (List.mem_of_head? first)
  have text : (Match.between r (r.past x after caps)).text = x := by
    simp [Match.between, Reading.past, cut]
  refine ⟨after, caps, by rw [text, cut], rfl, by rwa [text], ?_⟩
  rw [text, ← cut]
  simp [Match.between, Reading.past, fresh]

theorem matchAt?_eq_none_iff (p : Pattern) (r : Reading) :
    p.matchAt? r = none ↔
      ¬ ∃ x after caps, r.rest = x ++ after ∧ p.Spans r.before r.pos x after caps := by
  rw [← ends_ne_nil_iff p r (mem_ends_iff p r), matchAt?, first?_some]
  simp

theorem getLast?_cons_or (c : Char) (x : Text) (before : Option Char) :
    (c :: x).getLast?.or before = x.getLast?.or (some c) := by
  rw [← List.singleton_append, List.getLast?_append, Option.or_assoc]
  rfl

theorem takes_of_piecesAfter {p : Pattern} {covered pos : Nat} {before : Option Char} {s : Text}
    {first rest : List Piece} {m : Match}
    (cut : p.piecesAfter covered pos before s = first ++ .hit m :: rest) :
    m.text ≠ [] ∧ m.start = pos + (s.take covered ++ first.flatMap Piece.text).length ∧
      ∃ caps, p.Takes ((s.take covered ++ first.flatMap Piece.text).getLast?.or before) m
        (rest.flatMap Piece.text) caps := by
  induction s generalizing covered pos before first with
  | nil => simp [piecesAfter] at cut
  | cons c s ih =>
      -- the place one character on is the same place
      have next (x : Text) : x.getLast?.or (some c) = (c :: x).getLast?.or before ∧
          pos + 1 + x.length = pos + (c :: x).length := by
        refine ⟨(getLast?_cons_or c x before).symm, ?_⟩
        rw [List.length_cons]
        omega
      cases covered with
      | succ covered =>
          rw [piecesAfter] at cut
          have later := ih cut
          rwa [(next _).1, (next _).2] at later
      | zero =>
          rw [piecesAfter] at cut
          split at cut
          · cases first with
            | nil => simp at cut
            | cons piece first =>
                obtain ⟨rfl, tail⟩ := List.cons.inj cut
                have later := ih tail
                rwa [(next _).1, (next _).2] at later
          · next hit filled =>
              obtain ⟨found, filled⟩ := Option.filter_eq_some_iff.mp filled
              have present : hit.text ≠ [] := by simpa using filled
              obtain ⟨after, caps, text, place, taken⟩ := takes_of_matchAt? found rfl
              obtain ⟨front, back⟩ : c :: s.take (hit.text.length - 1) = hit.text ∧
                  s.drop (hit.text.length - 1) = after := by
                cases content : hit.text with
                | nil => exact absurd content present
                | cons d y =>
                    rw [content] at text
                    obtain ⟨rfl, rfl⟩ := List.cons.inj text
                    simp
              cases first with
              | nil =>
                  obtain ⟨same, rfl⟩ := List.cons.inj cut
                  cases same
                  rw [flatMap_text_piecesAfter, back]
                  exact ⟨present, place, caps, taken⟩
              | cons piece first =>
                  obtain ⟨rfl, tail⟩ := List.cons.inj cut
                  have later := ih tail
                  rw [(next _).1, (next _).2, ← List.cons_append, front] at later
                  exact later

theorem takes_of_mem_hits {p : Pattern} {s : Text} {m : Match} (member : m ∈ p.hits s) :
    ∃ front after caps, s = front ++ (m.text ++ after) ∧ m.start = front.length ∧ m.text ≠ [] ∧
      p.Takes front.getLast? m after caps := by
  obtain ⟨piece, present, hit⟩ := List.mem_filterMap.mp member
  cases piece with
  | plain c => cases hit
  | hit other =>
      cases hit
      obtain ⟨first, rest, cut⟩ := List.append_of_mem present
      obtain ⟨filled, place, caps, taken⟩ := takes_of_piecesAfter cut
      rw [List.take_zero, List.nil_append, Nat.zero_add] at place
      rw [List.take_zero, List.nil_append, Option.or_none] at taken
      refine ⟨first.flatMap Piece.text, rest.flatMap Piece.text, caps, ?_, place, filled, taken⟩
      rw [← flatMap_text_pieces p s, cut, List.flatMap_append, List.flatMap_cons]
      rfl

def replaced (replacement : Match → Text) : Piece → Text
  | .plain c => [c]
  | .hit m => replacement m

theorem replace_eq (p : Pattern) (replacement : Match → Text) (s : Text) :
    p.replace replacement s = (p.pieces s).flatMap (replaced replacement) := rfl

theorem replace_of_hits_eq_nil {p : Pattern} {s : Text} (none : p.hits s = [])
    (replacement : Match → Text) : p.replace replacement s = s := by
  rw [hits, List.filterMap_eq_nil_iff] at none
  refine Eq.trans ?_ (flatMap_text_pieces p s)
  rw [replace]
  generalize p.pieces s = pieces at none
  induction pieces with
  | nil => rfl
  | cons piece pieces ih =>
      have first := none piece List.mem_cons_self
      rw [List.flatMap_cons, List.flatMap_cons, ih fun other member =>
        none other (List.mem_cons_of_mem piece member)]
      cases piece with
      | plain c => rfl
      | hit m => cases first

def mayBeEmpty : Pattern → Bool
  | one _ => false
  | seq first second => first.mayBeEmpty && second.mayBeEmpty
  | either first second => first.mayBeEmpty || second.mayBeEmpty
  | capture _ inner => inner.mayBeEmpty
  | empty | many _ | few _ | boundary | atEnd | ahead _ | notAhead _ => true

def refuses (c : Char) : Pattern → Bool
  | one p | many p | few p => !p c
  | seq first second => first.refuses c && (!first.mayBeEmpty || second.refuses c)
  | either first second => first.refuses c && second.refuses c
  | capture _ inner => inner.refuses c
  | empty | boundary | atEnd | ahead _ | notAhead _ => true

theorem mayBeEmpty_of_spans {p : Pattern} {before : Option Char} {pos : Nat} {after : Text}
    {caps : List Capture} (taken : p.Spans before pos [] after caps) : p.mayBeEmpty = true := by
  induction p generalizing before pos after caps with
  | one p =>
      obtain ⟨⟨c, -, impossible⟩, -⟩ := taken
      cases impossible
  | seq first second ihFirst ihSecond =>
      obtain ⟨y, z, early, late, cut, -, one, other⟩ := taken
      obtain ⟨rfl, rfl⟩ := List.append_eq_nil_iff.mp cut.symm
      rw [mayBeEmpty, ihFirst one, ihSecond other, Bool.and_self]
  | either first second ihFirst ihSecond =>
      rw [mayBeEmpty, Bool.or_eq_true]
      exact taken.imp ihFirst ihSecond
  | capture label inner ih =>
      obtain ⟨early, -, inside⟩ := taken
      exact ih inside
  | empty | many | few | boundary | atEnd | ahead | notAhead => rfl

theorem not_spans_of_hits_eq_nil {p : Pattern} (filled : p.mayBeEmpty = false)
    {front x after : Text}
    (none : p.hits (front ++ (x ++ after)) = []) {caps : List Capture} :
    ¬ p.Spans front.getLast? front.length x after caps := by
  intro taken
  -- the search passes the place, whatever stands before it
  suffices passed : ∀ pos before, (p.piecesAfter 0 pos before (front ++ (x ++ after))).filterMap
      Piece.hit? = [] → ¬ p.Spans (front.getLast?.or before) (pos + front.length) x after caps by
    refine passed 0 .none none ?_
    rwa [Option.or_none, Nat.zero_add]
  clear none taken
  induction front with
  | nil =>
      intro pos before none taken
      cases x with
      | nil =>
          rw [mayBeEmpty_of_spans taken] at filled
          cases filled
      | cons c x =>
          rw [List.nil_append, List.cons_append, piecesAfter] at none
          split at none
          · next missed =>
              cases found : p.matchAt? ⟨pos, before, c :: (x ++ after), []⟩ with
              | none => exact (matchAt?_eq_none_iff _ _).mp found ⟨c :: x, after, caps, rfl, taken⟩
              | some m =>
                  obtain ⟨_, _, -, -, here⟩ := takes_of_matchAt? found rfl
                  rw [found, Option.filter_some_eq_none] at missed
                  have empty : m.text = [] := by simpa using missed
                  have spans := here.spans
                  rw [empty] at spans
                  rw [mayBeEmpty_of_spans spans] at filled
                  cases filled
          · cases none
  | cons c front ih =>
      intro pos before none taken
      rw [List.cons_append, piecesAfter] at none
      split at none
      · refine ih (pos + 1) (some c) none ?_
        rwa [← getLast?_cons_or, Nat.add_assoc, Nat.add_comm 1]
      · cases none

theorem head?_ne_of_spans {p : Pattern} {c : Char} (refused : p.refuses c = true)
    {before : Option Char} {pos : Nat} {x after : Text} {caps : List Capture}
    (taken : p.Spans before pos x after caps) : x.head? ≠ some c := by
  -- a run of characters of one kind starts with one of them
  have run {q : Char → Bool} (out : (!q c) = true) {y : Text} (members : ∀ d ∈ y, q d = true) :
      y.head? ≠ some c := by
    intro head
    have inside := members c (List.mem_of_head? head)
    rw [inside] at out
    cases out
  induction p generalizing before pos x after caps with
  | empty | boundary | atEnd | ahead | notAhead =>
      rw [taken.1]
      nofun
  | one q =>
      obtain ⟨⟨d, inside, rfl⟩, -⟩ := taken
      exact run refused (by simpa using inside)
  | many q | few q => exact run refused taken.1
  | seq first second ihFirst ihSecond =>
      rw [refuses, Bool.and_eq_true, Bool.or_eq_true] at refused
      obtain ⟨y, z, early, late, rfl, -, front, back⟩ := taken
      cases y with
      | nil =>
          rcases refused.2 with filled | behind
          · rw [mayBeEmpty_of_spans front] at filled
            cases filled
          · exact ihSecond behind back
      | cons d y => exact fun head => ihFirst refused.1 front (by simpa using head)
  | either first second ihFirst ihSecond =>
      rw [refuses, Bool.and_eq_true] at refused
      rcases taken with front | back
      · exact ihFirst refused.1 front
      · exact ihSecond refused.2 back
  | capture label inner ih =>
      obtain ⟨early, -, inside⟩ := taken
      exact ih refused inside

end Pattern

theorem mapCode_eq_self {change : Text → Text} {s : Text}
    (same : ∀ x ∈ codeSegments s, change x = x) :
    mapCode change s = s := by
  refine Eq.trans ?_ (flatMap_text_segments s)
  rw [mapCode]
  rw [codeSegments] at same
  generalize segments s = segs at same
  induction segs with
  | nil => rfl
  | cons segment segs ih =>
      rw [List.flatMap_cons, List.flatMap_cons]
      cases segment with
      | literal text => exact congrArg (text ++ ·) (ih same)
      | code x =>
          rw [ih fun y member => same y (List.mem_cons_of_mem x member)]
          exact congrArg (· ++ _) (same x List.mem_cons_self)

theorem Pattern.replaceCode_of_codeHits_eq_nil {p : Pattern} {s : Text} (none : p.codeHits s = [])
    (replacement : Match → Text) : p.replaceCode replacement s = s := by
  rw [codeHits, List.flatMap_eq_nil_iff] at none
  exact mapCode_eq_self fun x member => replace_of_hits_eq_nil (none x member) replacement

end LiteSql
