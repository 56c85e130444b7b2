import LiteSql.Proofs.Token

/-! Reading a text word by word. A pattern whose matches start and end where words do passes over
everything else, so what it replaces can be told from the words and the gaps between them. -/

namespace LiteSql

/-! ### Words and gaps at the start of a text -/

/-- Letters that are a whole word before `rest`. -/
structure Whole (w rest : Text) : Prop where
  present : w ≠ []
  letters : ∀ c ∈ w, isWordChar c = true
  stop : rest.head?.any isWordChar = false

structure IsGap (b : Text) : Prop where
  present : b ≠ []
  blank : ∀ c ∈ b, isBlank c = true

theorem IsGap.stop {b : Text} (gap : IsGap b) (rest : Text) :
    (b ++ rest).head?.any isWordChar = false := by
  obtain ⟨c, b, rfl⟩ := List.exists_cons_of_ne_nil gap.present
  exact isWordChar_of_isBlank (gap.blank c List.mem_cons_self)

namespace Whole

variable {w rest : Text} (whole : Whole w rest)

include whole

theorem tokens_eq : tokens (w ++ rest) = .word w :: tokens rest :=
  tokens_word_append whole.present whole.letters whole.stop

theorem head (more : Text) : (w ++ more).head?.any isWordChar = true := by
  obtain ⟨c, w, rfl⟩ := List.exists_cons_of_ne_nil whole.present
  exact whole.letters c List.mem_cons_self

theorem last (before : Option Char) : (w.getLast?.or before).any isWordChar = true := by
  rw [List.getLast?_eq_some_getLast whole.present]
  exact whole.letters _ (List.getLast_mem whole.present)

theorem move {other : Text} (same : other.head?.any isWordChar = rest.head?.any isWordChar) :
    Whole w other :=
  ⟨whole.present, whole.letters, same.trans whole.stop⟩

theorem unique {v other : Text} (second : Whole v other) (same : w ++ rest = v ++ other) :
    w = v ∧ rest = other := by
  have read := congrArg tokens same
  rw [whole.tokens_eq, second.tokens_eq] at read
  obtain rfl : w = v := Token.word.inj (List.cons.inj read).1
  exact ⟨rfl, List.append_cancel_left same⟩

/-- Where a word starts in a text that starts with one: at the start, or behind the first one. -/
theorem cut {front tail : Text} (same : w ++ rest = front ++ tail)
    (outside : front.getLast?.any isWordChar = false)
    (starts : tail.head?.any isWordChar = true) :
    front = [] ∨ ∃ more, more ≠ [] ∧ front = w ++ more ∧ rest = more ++ tail := by
  rcases List.append_eq_append_iff.mp same with ⟨more, split, behind⟩ | ⟨more, split, -⟩
  · refine .inr ⟨more, ?_, split, behind⟩
    rintro rfl
    have stop := whole.stop
    rw [behind, List.nil_append, starts] at stop
    cases stop
  · cases front with
    | nil => exact .inl rfl
    | cons c front =>
        have letter := whole.letters _ (split ▸ List.mem_append_left more
          (List.getLast_mem (List.cons_ne_nil c front)))
        rw [List.getLast?_eq_some_getLast (List.cons_ne_nil c front), Option.any_some, letter]
          at outside
        cases outside

end Whole

theorem exists_append_of_nonword {b rest front tail : Text} (none : ∀ c ∈ b, isWordChar c = false)
    (same : b ++ rest = front ++ tail) (starts : tail.head?.any isWordChar = true) :
    ∃ more, front = b ++ more ∧ rest = more ++ tail := by
  rcases List.append_eq_append_iff.mp same with ⟨more, split, behind⟩ | ⟨more, split, rfl⟩
  · exact ⟨more, split, behind⟩
  · cases more with
    | nil => exact ⟨[], by rw [split, List.append_nil, List.append_nil], rfl⟩
    | cons c more =>
        have other := none c (split ▸ List.mem_append_right front List.mem_cons_self)
        rw [List.cons_append, List.head?_cons, Option.any_some, other] at starts
        cases starts

theorem IsGap.unique {b w x d v y : Text} (gap : IsGap b) (whole : Whole w x) (second : IsGap d)
    (other : Whole v y)
    (same : b ++ (w ++ x) = d ++ (v ++ y)) : b = d ∧ w = v ∧ x = y := by
  have nonword {b : Text} (gap : IsGap b) : ∀ c ∈ b, isWordChar c = false := fun c member =>
    isWordChar_of_isBlank (gap.blank c member)
  obtain ⟨more, rfl, rest⟩ := exists_append_of_nonword (nonword gap) same (other.head _)
  cases more with
  | nil =>
      obtain ⟨rfl, rfl⟩ := whole.unique other rest
      exact ⟨(List.append_nil b).symm, rfl, rfl⟩
  | cons c more =>
      have head := whole.head x
      rw [rest, List.cons_append, List.head?_cons, Option.any_some,
        nonword second c (List.mem_append_right b List.mem_cons_self)] at head
      cases head

theorem whole_of_spelled {k w : Text} (ascii : IsAsciiWord k) (named : spelled k w = true)
    {rest : Text}
    (stop : rest.head?.any isWordChar = false) : Whole w rest :=
  ⟨(isWordChar_of_spelled ascii named).1, (isWordChar_of_spelled ascii named).2, stop⟩

theorem spelled_congr {k w : Text} (named : spelled k w = true) (l : Text) :
    spelled l w = spelled l k :=
  names_eq_of_names (t := .word w) named l

theorem tokens_gap_word {b w rest : Text} (gap : IsGap b) (whole : Whole w rest) :
    tokens (b ++ (w ++ rest)) = .word w :: tokens rest := by
  rw [tokens_blanks_append gap.blank, whole.tokens_eq]

theorem exists_gap_of_tokens {x w : Text} {ts : List Token} (stop : x.head?.any isWordChar = false)
    (read : tokens x = .word w :: ts) (letters : ∀ c ∈ w, isWordChar c = true) :
    ∃ b rest, x = b ++ (w ++ rest) ∧ IsGap b ∧ Whole w rest ∧ tokens rest = ts := by
  obtain ⟨b, rest, rfl, blank, present, ended⟩ := exists_word_of_tokens read
  have whole : Whole w rest := ⟨present, letters, ended⟩
  refine ⟨b, rest, rfl, ⟨?_, blank⟩, whole, ?_⟩
  · rintro rfl
    rw [List.nil_append, whole.head] at stop
    cases stop
  · rw [tokens_blanks_append blank, whole.tokens_eq] at read
    exact (List.cons.inj read).2

theorem tokens_other {c : Char} (other : isWordChar c = false) (x : Text) :
    tokens (c :: x) = if isBlank c then tokens x else .sign c :: tokens x := by
  simp [tokens, other]

def opens : List Text → List Token → Bool
  | [], _ => true
  | k :: ks, t :: ts => t.names k && opens ks ts
  | _ :: _, [] => false

theorem exists_of_opens {k : Text} {ks : List Text} {ts : List Token}
    (opened : opens (k :: ks) ts = true) :
    ∃ w us, ts = .word w :: us ∧ spelled k w = true ∧ opens ks us = true := by
  cases ts with
  | nil => cases opened
  | cons t us =>
      obtain ⟨named, rest⟩ := (Bool.and_eq_true _ _).mp opened
      cases t with
      | word w => exact ⟨w, us, rfl, named, rest⟩
      | sign c => cases named

theorem opens_word (k : Text) (ks : List Text) (w : Text) (ts : List Token) :
    opens (k :: ks) (.word w :: ts) = (spelled k w && opens ks ts) := rfl

theorem opens_singleton (k : Text) (ts : List Token) :
    opens [k] ts = ts.head?.any (Token.names k) := by
  cases ts with
  | nil => rfl
  | cons t ts => exact Bool.and_true _

theorem exists_gap_of_opens {x k : Text} {ks : List Text} (ascii : IsAsciiWord k)
    (stop : x.head?.any isWordChar = false) (opened : opens (k :: ks) (tokens x) = true) :
    ∃ b w rest, x = b ++ (w ++ rest) ∧ IsGap b ∧ spelled k w = true ∧ Whole w rest ∧
      opens ks (tokens rest) = true := by
  obtain ⟨w, us, read, named, others⟩ := exists_of_opens opened
  obtain ⟨b, rest, rfl, gap, whole, rfl⟩ :=
    exists_gap_of_tokens stop read (isWordChar_of_spelled ascii named).2
  exact ⟨b, w, rest, rfl, gap, named, whole, others⟩

/-- Where a word never follows another, it does not follow the first token if that one is the other
word. -/
theorem follows_cons_eq_zero {k l : Text} {t : Token} {ts : List Token}
    (none : follows k l (t :: ts) = 0) :
    follows k l ts = 0 ∧ (t.names k = true → opens [l] ts = false) := by
  cases ts with
  | nil => exact ⟨rfl, fun _ => rfl⟩
  | cons u us =>
      rw [follows] at none
      obtain ⟨apart, rest⟩ := Nat.add_eq_zero_iff.mp none
      refine ⟨rest, fun named => ?_⟩
      rw [opens_singleton, List.head?_cons, Option.any_some]
      by_contra next
      rw [Bool.not_eq_false] at next
      simp [named, next] at apart

/-! ### Patterns that start and end with words -/

namespace Pattern

theorem exists_matchAt? {p : Pattern} {before : Option Char} {pos : Nat} {h after : Text}
    {caps : List Capture}
    (taken : p.Spans before pos h after caps) :
    ∃ m behind caps, p.matchAt? ⟨pos, before, h ++ after, []⟩ = some m ∧
      h ++ after = m.text ++ behind ∧
      p.Takes before m behind caps := by
  cases found : p.matchAt? ⟨pos, before, h ++ after, []⟩ with
  | none => exact absurd ⟨h, after, caps, rfl, taken⟩ ((matchAt?_eq_none_iff _ _).mp found)
  | some m =>
      obtain ⟨behind, caps, cut, -, taken⟩ := takes_of_matchAt? found rfl
      exact ⟨m, behind, caps, rfl, cut, taken⟩

theorem spans_wordEnd_iff {k : Text} (ascii : IsAsciiWord k) (before : Option Char) (pos : Nat)
    (x after : Text)
    (caps : List Capture) : (all [keyword k, boundary]).Spans before pos x after caps ↔
      spelled k x = true ∧ after.head?.any isWordChar = false ∧ caps = [] := by
  constructor
  · rintro ⟨w, _, _, _, rfl, rfl, named, rfl, rfl, stop⟩
    obtain ⟨same, rfl⟩ := (spans_keyword_iff _ _ _ _ _ _).mp named
    have whole := whole_of_spelled ascii ((spelled_iff _ _).mpr same)
      (show ([] : Text).head?.any isWordChar = false from rfl)
    rw [whole.last] at stop
    rw [List.append_nil]
    exact ⟨(spelled_iff _ _).mpr same, by simpa using stop, rfl⟩
  · rintro ⟨named, stop, rfl⟩
    refine ⟨x, [], [], [], (List.append_nil x).symm, rfl, ?_, rfl, rfl, ?_⟩
    · exact (spans_keyword_iff _ _ _ _ _ _).mpr ⟨(spelled_iff _ _).mp named, rfl⟩
    · rw [(whole_of_spelled ascii named stop).last, stop]
      exact Bool.noConfusion

def Aligned (p : Pattern) : Prop :=
  ∀ ⦃before pos x after caps⦄, p.Spans before pos x after caps →
    before.any isWordChar = false ∧ x.head?.any isWordChar = true ∧
      after.head?.any isWordChar = false

def replaceFrom (p : Pattern) (replacement : Match → Text) (pos : Nat) (before : Option Char)
    (x : Text) : Text :=
  (p.piecesAfter 0 pos before x).flatMap (replaced replacement)

section

variable {p : Pattern} (replacement : Match → Text) {pos : Nat} {before : Option Char} {x : Text}

theorem replaceFrom_missed {c : Char} (missed : p.matchAt? ⟨pos, before, c :: x, []⟩ = none) :
    p.replaceFrom replacement pos before (c :: x) = c :: p.replaceFrom replacement (pos + 1)
      (some c) x := by
  rw [replaceFrom, piecesAfter, missed]
  rfl

theorem replaceFrom_hit {m : Match} {h : Text}
    (found : p.matchAt? ⟨pos, before, h ++ x, []⟩ = some m)
    (text : m.text = h) (present : h ≠ []) : p.replaceFrom replacement pos before (h ++ x) =
      replacement m ++ p.replaceFrom replacement (pos + h.length) (h.getLast?.or before) x := by
  subst text
  obtain ⟨c, y, head⟩ := List.exists_cons_of_ne_nil present
  rw [head] at found ⊢
  rw [replaceFrom, List.cons_append, piecesAfter]
  rw [List.cons_append] at found
  rw [found, Option.filter_some_pos (by rw [head]; rfl), List.flatMap_cons, head, List.length_cons,
    Nat.add_sub_cancel, piecesAfter_length, getLast?_cons_or, Nat.add_assoc, Nat.add_comm 1]
  rfl

variable (aligned : p.Aligned)

include aligned

theorem Aligned.replaceFrom_other {c : Char} (other : isWordChar c = false) :
    p.replaceFrom replacement pos before (c :: x) = c :: p.replaceFrom replacement (pos + 1)
      (some c) x := by
  refine replaceFrom_missed replacement ((matchAt?_eq_none_iff _ _).mpr ?_)
  rintro ⟨y, after, caps, cut, taken⟩
  obtain ⟨-, head, -⟩ := aligned taken
  cases y with
  | nil => cases head
  | cons d y =>
      obtain ⟨rfl, -⟩ := List.cons.inj (show c :: x = d :: (y ++ after) from cut)
      rw [List.head?_cons, Option.any_some, other] at head
      cases head

theorem Aligned.replaceFrom_blanks {b : Text} (blank : ∀ c ∈ b, isBlank c = true) :
    p.replaceFrom replacement pos before (b ++ x) =
      b ++ p.replaceFrom replacement (pos + b.length) (b.getLast?.or before) x := by
  induction b generalizing pos before with
  | nil => rfl
  | cons c b ih =>
      obtain ⟨first, others⟩ := List.forall_mem_cons.mp blank
      rw [List.cons_append, aligned.replaceFrom_other replacement (isWordChar_of_isBlank first),
        ih others, getLast?_cons_or, List.length_cons, Nat.add_assoc, Nat.add_comm 1]
      rfl

theorem Aligned.replaceFrom_word {w : Text} (whole : Whole w x)
    (free : ∀ h after caps, w ++ x = h ++ after → ¬ p.Spans before pos h after caps) :
    p.replaceFrom replacement pos before (w ++ x) =
      w ++ p.replaceFrom replacement (pos + w.length) (w.getLast?.or before) x := by
  -- inside the word no match starts
  have inside (v : Text) (letters : ∀ c ∈ v, isWordChar c = true) (pos : Nat) (before : Option Char)
      (word : before.any isWordChar = true) : p.replaceFrom replacement pos before (v ++ x) =
        v ++ p.replaceFrom replacement (pos + v.length) (v.getLast?.or before) x := by
    induction v generalizing pos before with
    | nil => rfl
    | cons c v ih =>
        obtain ⟨letter, others⟩ := List.forall_mem_cons.mp letters
        have missed : p.matchAt? ⟨pos, before, c :: (v ++ x), []⟩ = none := by
          rw [matchAt?_eq_none_iff]
          rintro ⟨y, after, caps, -, taken⟩
          rw [(aligned taken).1] at word
          cases word
        rw [List.cons_append, replaceFrom_missed replacement missed,
          ih others (pos + 1) (some c) letter, getLast?_cons_or, List.length_cons, Nat.add_assoc,
          Nat.add_comm 1]
        rfl
  obtain ⟨c, w, rfl⟩ := List.exists_cons_of_ne_nil whole.present
  obtain ⟨letter, others⟩ := List.forall_mem_cons.mp whole.letters
  have missed : p.matchAt? ⟨pos, before, c :: (w ++ x), []⟩ = none := by
    rw [matchAt?_eq_none_iff]
    rintro ⟨h, after, caps, cut, taken⟩
    exact free h after caps cut taken
  rw [List.cons_append, replaceFrom_missed replacement missed,
    inside w others (pos + 1) (some c) letter, getLast?_cons_or, List.length_cons, Nat.add_assoc,
    Nat.add_comm 1]
  rfl

end

end Pattern

/-- Where a pair of words is not found, the second word never follows the first. -/
theorem follows_eq_zero_of_hits {k l : Text} (first : IsAsciiWord k) (second : IsAsciiWord l)
    {x : Text}
    (none : (Pattern.wordPair k l).hits x = []) : follows k l (tokens x) = 0 := by
  have filled : (Pattern.wordPair k l).mayBeEmpty = false := by
    simp [Pattern.wordPair, Pattern.all, Pattern.mayBeEmpty, Pattern.gap, Pattern.someOf]
  suffices each : ∀ n front y, y.length = n → x = front ++ y →
      (front.getLast?.any isWordChar = false ∨ y.head?.any isWordChar = false) →
        follows k l (tokens y) = 0 from
    each _ [] x rfl rfl (.inl rfl)
  intro n
  induction n using Nat.strongRecOn with
  | _ n ih =>
      intro front y size cut apart
      obtain ⟨v, z, rfl, letters, stop⟩ := exists_wordRun y
      cases v with
      | nil =>
          cases z with
          | nil => rfl
          | cons c z =>
              have rest := ih z.length (by rw [← size]; simp) (front ++ [c]) z rfl
                (by simpa using cut)
                (.inl (by simpa using stop))
              rw [List.nil_append, tokens_other stop]
              split
              · exact rest
              · rw [follows_cons (.inl rfl), rest]
      | cons c v =>
          generalize start : c :: v = v at *
          have whole : Whole v z := ⟨start ▸ List.cons_ne_nil _ _, letters, stop⟩
          rw [whole.head] at apart
          have shorter : z.length < n := by
            rw [← size, ← start, List.length_append, List.length_cons]
            omega
          have rest := ih z.length shorter (front ++ v) z rfl (by simpa using cut) (.inr stop)
          rw [whole.tokens_eq, follows_cons, rest]
          by_cases named : spelled k v = true
          · have missed : (Pattern.wordPair k l).matchAt? ⟨front.length, front.getLast?, v ++ z,
                []⟩ = Option.none := by
              rw [Pattern.matchAt?_eq_none_iff]
              rintro ⟨h, after, caps, same, taken⟩
              rw [cut, show v ++ z = h ++ after from same] at none
              exact Pattern.not_spans_of_hits_eq_nil filled none taken
            exact .inr (any_head?_tokens_of_missed first second named stop
              (apart.resolve_right Bool.noConfusion) missed)
          · exact .inl (Bool.not_eq_true _ ▸ named)

end LiteSql
