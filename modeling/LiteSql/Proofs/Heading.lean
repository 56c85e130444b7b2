import LiteSql.Proofs.CodeWord

/-! The words that a pattern starts with. -/

namespace LiteSql

inductive Head
  | whole (k : Text)
  | start (k : Text)
  deriving DecidableEq, Repr

namespace Head

def reads : Head → Text → Bool
  | whole k, w => spelled k w
  | start k, w => startsIgnoringCase k w

def behind (k : Text) : Head → Head
  | whole l => whole (k ++ l)
  | start l => start (k ++ l)

theorem startsIgnoringCase_behind {k l x w : Text} (first : spelled k x = true)
    (second : startsIgnoringCase l w = true) : startsIgnoringCase (k ++ l) (x ++ w) = true := by
  induction k generalizing x with
  | nil =>
      rw [spelled, Bool.and_eq_true, beq_iff_eq] at first
      rwa [List.eq_nil_of_length_eq_zero first.2]
  | cons c k ih =>
      cases x with
      | nil => cases first
      | cons d x =>
          simp only [spelled, startsIgnoringCase, List.length_cons, Bool.and_eq_true, beq_iff_eq,
            Nat.add_right_cancel_iff] at first
          have rest : spelled k x = true := by
            rw [spelled, first.1.2, first.2]
            simp
          simp only [List.cons_append, startsIgnoringCase, first.1.1, ih rest, Bool.and_self]

theorem reads_behind {k x w : Text} {head : Head} (first : spelled k x = true)
    (second : head.reads w = true) : (head.behind k).reads (x ++ w) = true := by
  cases head with
  | start l => exact startsIgnoringCase_behind first second
  | whole l =>
      rw [reads, spelled, Bool.and_eq_true] at second
      have length : x.length = k.length := by
        rw [spelled, Bool.and_eq_true] at first
        exact eq_of_beq first.2
      rw [behind, reads, spelled, startsIgnoringCase_behind first second.1]
      simp [length, eq_of_beq second.2]

end Head

namespace Pattern

/-- Whether the word that stands where a match of a pattern starts has one of the heads. `inside`
tells whether a word character stands before it. -/
def Heads (inside : Bool) (p : Pattern) (heads : List Head) : Prop :=
  ∀ ⦃before pos x after caps⦄, before.any isWordChar = inside → p.Spans before pos x after caps →
    ∃ head ∈ heads, head.reads ((x ++ after).takeWhile isWordChar) = true

namespace Heads

variable {inside : Bool} {p q : Pattern} {heads others : List Head}

theorem of_head {p : Pattern} (refused : ∀ ⦃before pos x after caps⦄,
    before.any isWordChar = inside →
    p.Spans before pos x after caps → (x ++ after).head?.any isWordChar = false) :
    Heads inside p [.whole []] := by
  intro before pos x after caps sides taken
  refine ⟨_, List.mem_singleton_self _, ?_⟩
  have ended := refused sides taken
  cases rest : x ++ after with
  | nil => rfl
  | cons c rest =>
      rw [rest] at ended
      rw [List.takeWhile_cons_of_neg (by simpa using ended)]
      rfl

theorem boundary : Heads true .boundary [.whole []] := by
  apply of_head
  intro before pos x after caps sides taken
  obtain ⟨rfl, -, other⟩ := taken
  rw [sides] at other
  exact Bool.eq_false_iff.mpr (Ne.symm other)

theorem one {class_ : Char → Bool} (refused : ∀ c, class_ c = true → isWordChar c = false) :
    Heads inside (.one class_) [.whole []] := by
  apply of_head
  intro before pos x after caps _ taken
  obtain ⟨⟨c, member, rfl⟩, -⟩ := taken
  exact refused c member

theorem seq (first : Heads inside p heads) : Heads inside (.seq p q) heads := by
  intro before pos x after caps sides taken
  obtain ⟨y, z, _, _, rfl, -, front, -⟩ := taken
  rw [List.append_assoc]
  exact first sides front

theorem blanks (next : Heads inside q [.whole []]) :
    Heads inside (.seq Pattern.blanks q) [.whole []] := by
  intro before pos x after caps sides taken
  obtain ⟨y, z, _, _, rfl, -, ⟨blank, -⟩, back⟩ := taken
  cases y with
  | nil => exact next sides back
  | cons c y =>
      refine ⟨_, List.mem_singleton_self _, ?_⟩
      rw [List.cons_append, List.cons_append, List.takeWhile_cons_of_neg ?_]
      · rfl
      · rw [isWordChar_of_isBlank (blank c List.mem_cons_self)]
        nofun

theorem keyword {k : Text} (ascii : IsAsciiWord k) (next : Heads true q heads) :
    Heads inside (.seq (keyword k) q) (heads.map (Head.behind k)) := by
  intro before pos x after caps _ taken
  obtain ⟨y, z, _, _, rfl, -, front, back⟩ := taken
  obtain ⟨read, -⟩ := (spans_keyword_iff _ _ _ _ _ _).mp front
  have same : spelled k y = true := by
    rw [spelled, read.1, read.2]
    simp
  obtain ⟨filled, letters⟩ := isWordChar_of_spelled ascii same
  have sides : (y.getLast?.or before).any isWordChar = true := by
    rw [List.getLast?_eq_some_getLast filled]
    exact letters _ (List.getLast_mem filled)
  obtain ⟨head, member, reads⟩ := next sides back
  refine ⟨head.behind k, List.mem_map_of_mem member, ?_⟩
  rw [List.append_assoc, List.takeWhile_append_of_pos letters]
  exact Head.reads_behind same reads

theorem start {k : Text} (ascii : IsAsciiWord k) : Heads inside (Pattern.keyword k) [.start k] := by
  intro before pos x after caps _ taken
  obtain ⟨read, -⟩ := (spans_keyword_iff _ _ _ _ _ _).mp taken
  have same : spelled k x = true := by
    rw [spelled, read.1, read.2]
    simp
  obtain ⟨-, letters⟩ := isWordChar_of_spelled ascii same
  refine ⟨_, List.mem_singleton_self _, ?_⟩
  rw [List.takeWhile_append_of_pos letters, ← List.append_nil k]
  exact Head.startsIgnoringCase_behind same rfl

theorem sign {k : Text}
    (ascii : k.head?.any (fun c => decide (c.toNat < 0x80) && !isWordChar c) = true) :
    Heads inside (Pattern.keyword k) [.whole []] := by
  apply of_head
  intro before pos x after caps _ taken
  obtain ⟨read, -⟩ := (spans_keyword_iff _ _ _ _ _ _).mp taken
  cases k with
  | nil => cases ascii
  | cons c k =>
      cases x with
      | nil => simp at read
      | cons d x =>
          rw [List.head?_cons, Option.any_some, Bool.and_eq_true, decide_eq_true_eq,
            Bool.not_eq_true'] at ascii
          simp only [startsIgnoringCase, Bool.and_eq_true] at read
          rw [List.cons_append, List.head?_cons, Option.any_some, ← ascii.2]
          exact (isWordChar_congr read.1.1 (.inl ascii.1)).symm

theorem gap : Heads inside Pattern.gap [.whole []] := seq (one fun _ => isWordChar_of_isBlank)

theorem either (first : Heads inside p heads) (second : Heads inside q others) :
    Heads inside (.either p q) (heads ++ others) := by
  intro before pos x after caps sides taken
  rcases taken with front | back
  · obtain ⟨head, member, reads⟩ := first sides front
    exact ⟨head, List.mem_append_left _ member, reads⟩
  · obtain ⟨head, member, reads⟩ := second sides back
    exact ⟨head, List.mem_append_right _ member, reads⟩

theorem congr (same : ∀ ⦃before pos x after caps⦄, p.Spans before pos x after caps →
    q.Spans before pos x after caps) (headed : Heads inside q heads) : Heads inside p heads :=
  fun _ _ _ _ _ sides taken => headed sides (same taken)

theorem seq_either {r : Pattern} (first : Heads inside (.seq p r) heads)
    (second : Heads inside (.seq q r) others) :
    Heads inside (.seq (.either p q) r) (heads ++ others) := by
  refine congr ?_ (first.either second)
  rintro before pos x after caps ⟨y, z, early, late, cut, all, front | back, rest⟩
  · exact .inl ⟨y, z, early, late, cut, all, front, rest⟩
  · exact .inr ⟨y, z, early, late, cut, all, back, rest⟩

theorem seq_seq {r : Pattern} (headed : Heads inside (.seq p (.seq q r)) heads) :
    Heads inside (.seq (.seq p q) r) heads := by
  refine congr ?_ headed
  rintro before pos _ after _ ⟨_, z, _, late, rfl, rfl,
    ⟨y, w, early, middle, rfl, rfl, front, back⟩, rest⟩
  rw [← List.append_assoc] at front
  rw [List.getLast?_append, Option.or_assoc, List.length_append, ← Nat.add_assoc] at rest
  exact ⟨y, w ++ z, early, late ++ middle, List.append_assoc .., (List.append_assoc ..).symm, front,
    w, z, middle, late, rfl, rfl, back, rest⟩

theorem optional {r : Pattern} (first : Heads inside (.seq p r) heads)
    (second : Heads inside r others) :
    Heads inside (.seq (Pattern.optional p) r) (heads ++ others) := by
  refine seq_either first (congr ?_ second)
  rintro before pos _ after _ ⟨_, z, _, late, rfl, rfl, ⟨rfl, rfl⟩, rest⟩
  rwa [List.append_nil]

theorem anyOf (ks : List Text) (ascii : ∀ k ∈ ks, IsAsciiWord k) (next : Heads true q heads) :
    Heads inside (.seq (Pattern.anyOf (ks.map Pattern.keyword)) q)
      (ks.flatMap fun k => heads.map (Head.behind k)) := by
  match ks with
  | [] =>
      rintro before pos x after caps - ⟨_, _, _, _, -, -, ⟨-, -, none⟩, -⟩
      exact absurd ⟨[], _, [], rfl, rfl, rfl⟩ none
  | [k] =>
      have single : Heads inside (.seq (Pattern.keyword k) q) _ := keyword (ascii k (by simp)) next
      rwa [← List.append_nil (heads.map _)] at single
  | k :: l :: ks =>
      exact seq_either (keyword (ascii k (by simp)) next)
        (anyOf (l :: ks) (fun j member => ascii j (List.mem_cons_of_mem k member)) next)

end Heads

def Begins (p : Pattern) (heads : List Head) : Prop :=
  ∀ ⦃before pos x after caps⦄, p.Spans before pos x after caps →
    before.any isWordChar = false ∧ (x ++ after).head?.any isWordChar = true ∧
      ∃ head ∈ heads, head.reads ((x ++ after).takeWhile isWordChar) = true

namespace Begins

variable {p q : Pattern} {heads others : List Head}

theorem boundary (headed : ∀ inside, Heads inside q heads)
    (filled : ∀ head ∈ heads, head.reads [] = false) : Begins (.seq .boundary q) heads := by
  intro before pos x after caps taken
  obtain ⟨_, z, _, _, rfl, -, ⟨rfl, -, other⟩, back⟩ := taken
  obtain ⟨head, member, reads⟩ := headed _ rfl back
  have letter : (z ++ after).head?.any isWordChar = true := by
    cases rest : z ++ after with
    | nil =>
        rw [rest, List.takeWhile_nil, filled head member] at reads
        cases reads
    | cons c rest' =>
        rw [rest, List.takeWhile_cons] at reads
        split at reads
        · assumption
        · rw [filled head member] at reads
          cases reads
  refine ⟨?_, letter, head, member, reads⟩
  rw [letter] at other
  simpa using other

theorem keyword {k : Text} (ascii : IsAsciiWord k) (next : Heads true q [.whole []]) :
    Begins (.seq .boundary (.seq (Pattern.keyword k) q)) [.whole k] := by
  have heads : [Head.whole []].map (Head.behind k) = [.whole k] := by simp [Head.behind]
  rw [← heads]
  refine boundary (fun _ => .keyword ascii next) ?_
  rw [heads, List.forall_mem_singleton, Head.reads, spelled, beq_eq_false_iff_ne.mpr,
    Bool.and_false]
  exact fun none => ascii.1 (List.eq_nil_of_length_eq_zero none.symm)

theorem mono (begun : Begins p heads) (more : ∀ head ∈ heads, head ∈ others) : Begins p others := by
  intro before pos x after caps taken
  obtain ⟨apart, letter, head, member, reads⟩ := begun taken
  exact ⟨apart, letter, head, more head member, reads⟩

theorem either (first : Begins p heads) (second : Begins q others) :
    Begins (.either p q) (heads ++ others) := by
  intro before pos x after caps taken
  rcases taken with front | back
  · exact first.mono (fun _ => List.mem_append_left others) front
  · exact second.mono (fun _ => List.mem_append_right heads) back

theorem capture {label : String} (inner : Begins p heads) : Begins (.capture label p) heads := by
  intro before pos x after caps taken
  obtain ⟨_, -, inside⟩ := taken
  exact inner inside

theorem optional (first : Begins p heads) (second : Begins q others) :
    Begins (.seq (Pattern.optional p) q) (heads ++ others) := by
  intro before pos x after caps taken
  obtain ⟨y, z, _, _, rfl, -, front | ⟨rfl, -⟩, back⟩ := taken
  · rw [List.append_assoc]
    exact first.mono (fun _ => List.mem_append_left others) front
  · exact second.mono (fun _ => List.mem_append_right heads) back

end Begins

def Announces (p : Pattern) (heads : List Head) : Prop :=
  ∀ ⦃before pos x after caps⦄, p.Spans before pos x after caps →
    ∃ y z, x = y ++ z ∧ (y.getLast?.or before).any isWordChar = false ∧
      (z ++ after).head?.any isWordChar = true ∧
      ∃ head ∈ heads, head.reads ((z ++ after).takeWhile isWordChar) = true

theorem Begins.announces {p : Pattern} {heads : List Head} (begun : Begins p heads) :
    Announces p heads :=
  fun _ _ x _ _ taken => ⟨[], x, rfl, begun taken⟩

namespace Announces

variable {p q : Pattern} {heads others : List Head}

theorem right (second : Announces q heads) : Announces (.seq p q) heads := by
  intro before pos x after caps taken
  obtain ⟨y, z, _, _, rfl, -, -, back⟩ := taken
  obtain ⟨u, v, rfl, apart, letter, read⟩ := second back
  rw [← Option.or_assoc, ← List.getLast?_append] at apart
  exact ⟨y ++ u, v, (List.append_assoc ..).symm, apart, letter, read⟩

theorem exists_mem_codeWords (announced : Announces p heads) {s : Text} {m : Match}
    (member : m ∈ p.codeHits s) :
    ∃ w ∈ codeWords s, ∃ head ∈ heads, head.reads w = true := by
  obtain ⟨x, segment, hit⟩ := List.mem_flatMap.mp member
  obtain ⟨front, after, caps, cut, -, -, taken⟩ := takes_of_mem_hits hit
  obtain ⟨y, z, text, apart, letter, read⟩ := announced taken.spans
  have word : (z ++ after).takeWhile isWordChar ∈ words x := by
    refine (mem_words_iff _ _).mpr ⟨front ++ y, z ++ after, ?_, ?_, letter, rfl⟩
    · rw [cut, text]
      simp only [List.append_assoc]
    · rwa [List.getLast?_append]
  rw [codeWords_eq]
  exact ⟨_, List.mem_flatMap.mpr ⟨x, segment, word⟩, read⟩

theorem codeHits_eq_nil (announced : Announces p heads) {s : Text}
    (free : ∀ w ∈ codeWords s, ∀ head ∈ heads, head.reads w = false) : p.codeHits s = [] := by
  rw [List.eq_nil_iff_forall_not_mem]
  intro m hit
  obtain ⟨w, inside, head, listed, reads⟩ := announced.exists_mem_codeWords hit
  rw [free w inside head listed] at reads
  cases reads

end Announces

end Pattern

end LiteSql
