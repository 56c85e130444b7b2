import LiteSql.Proofs.Token

/-! Key clauses against the rules for numbered columns. Each rule leaves a known number of key
clauses for every place that it rewrites, so a second key clause comes from one place only: a
numbered column that does not stand beside the key clause of the statement. -/

namespace LiteSql

open Pattern

namespace Pattern

def rowEnd : List Text → Pattern
  | [] => boundary
  | k :: ks => seq gap (seq (keyword k) (rowEnd ks))

def row (k : Text) (ks : List Text) : Pattern := seq boundary (seq (keyword k) (rowEnd ks))

theorem any_getLast?_of_spelled {k w : Text} (ascii : IsAsciiWord k) (named : spelled k w = true)
    (before : Option Char) : (w.getLast?.or before).any isWordChar = true := by
  obtain ⟨present, letters⟩ := isWordChar_of_spelled ascii named
  rw [List.getLast?_eq_some_getLast present]
  exact letters _ (List.getLast_mem present)

theorem any_head?_of_append {y after : Text} (stop : (y ++ after).head?.any isWordChar = false) :
    y.head?.any isWordChar = false := by
  cases y with
  | nil => rfl
  | cons c y => exact stop

theorem worded_of_spans_rowEnd {ks : List Text} (ascii : ∀ k ∈ ks, IsAsciiWord k)
    {before : Option Char}
    (inside : before.any isWordChar = true) {pos : Nat} {x after : Text} {caps : List Capture}
    (taken : (rowEnd ks).Spans before pos x after caps) :
    Worded ks (tokens x) ∧ (x ++ after).head?.any isWordChar = false ∧
      after.head?.any isWordChar = false := by
  induction ks generalizing before pos x caps with
  | nil =>
      obtain ⟨rfl, -, ended⟩ := taken
      rw [inside] at ended
      have stop : after.head?.any isWordChar = false := by simpa using ended
      exact ⟨.nil, stop, stop⟩
  | cons k ks ih =>
      obtain ⟨first, others⟩ := List.forall_mem_cons.mp ascii
      obtain ⟨blanks, _, _, _, rfl, -, gapped, w, y, _, _, rfl, -, word, rest⟩ := taken
      obtain ⟨⟨present, blank⟩, -⟩ := (spans_someOf_iff _ _ _ _ _ _).mp gapped
      obtain ⟨named, -⟩ := (spans_keyword_iff _ _ _ _ _ _).mp word
      rw [← spelled_iff] at named
      obtain ⟨worded, stop, ended⟩ := ih others (any_getLast?_of_spelled first named _) rest
      obtain ⟨filled, letters⟩ := isWordChar_of_spelled first named
      obtain ⟨c, blanks, rfl⟩ := List.exists_cons_of_ne_nil present
      refine ⟨?_, isWordChar_of_isBlank (blank c List.mem_cons_self), ended⟩
      rw [tokens_blanks_append blank, tokens_word_append filled letters (any_head?_of_append stop)]
      exact .cons named worded

theorem phrase_row (k : Text) (ks : List Text) (ascii : ∀ l ∈ k :: ks, IsAsciiWord l) :
    (row k ks).Phrase (k :: ks) := by
  intro before m after caps taken
  obtain ⟨first, others⟩ := List.forall_mem_cons.mp ascii
  obtain ⟨_, _, _, _, text, -, ⟨rfl, -, start⟩, w, y, _, _, rfl, -, word, rest⟩ := taken.spans
  obtain ⟨named, -⟩ := (spans_keyword_iff _ _ _ _ _ _).mp word
  rw [← spelled_iff] at named
  obtain ⟨worded, stop, ended⟩ := worded_of_spans_rowEnd others
    (any_getLast?_of_spelled first named _) rest
  obtain ⟨filled, letters⟩ := isWordChar_of_spelled first named
  have head (rest : Text) : (w ++ rest).head?.any isWordChar = true := by
    obtain ⟨c, w, rfl⟩ := List.exists_cons_of_ne_nil filled
    exact letters c List.mem_cons_self
  rw [List.append_assoc, head] at start
  rw [List.nil_append] at text
  refine ⟨by simpa using start, text ▸ head y, ended, ?_⟩
  rw [text, tokens_word_append filled letters (any_head?_of_append stop)]
  exact .cons named worded

end Pattern

namespace AutoIncrement

theorem phrase_beforeKey : beforeKey.Phrase ["AUTO_INCREMENT", "PRIMARY", "KEY"] :=
  phrase_row "AUTO_INCREMENT" ["PRIMARY", "KEY"] (by decide)

theorem phrase_afterKey : afterKey.Phrase ["PRIMARY", "KEY", "AUTO_INCREMENT"] :=
  phrase_row "PRIMARY" ["KEY", "AUTO_INCREMENT"] (by decide)

theorem phrase_alone : alone.Phrase ["AUTO_INCREMENT"] := by
  intro before m after caps taken
  obtain ⟨x, y, early, late, text, rfl, start, w, z, _, _, rfl, rfl, word, u, v, _, _, rfl, rfl,
      stop, last⟩ :=
    taken.spans
  -- what is looked at behind the word is not taken
  obtain ⟨rfl, rfl, -⟩ := last
  have whole : (wholeWord "AUTO_INCREMENT").Spans before m.start m.text after _ :=
    ⟨x, _, early, _, text, rfl, start, w, u, _, _, by rw [List.append_nil], rfl, word, stop⟩
  obtain ⟨⟨named, outside, ended⟩, -⟩ := (spans_wholeWord_iff (by decide) _ _ _ _ _).mp whole
  obtain ⟨filled, letters⟩ := isWordChar_of_spelled (by decide) named
  have word : tokens (m.text ++ []) = .word m.text :: tokens [] :=
    tokens_word_append filled letters rfl
  rw [List.append_nil] at word
  refine ⟨outside, ?_, ended, ?_⟩
  · obtain ⟨c, w, text⟩ := List.exists_cons_of_ne_nil filled
    rw [text]
    exact letters c (by rw [text]; exact List.mem_cons_self)
  · rw [word]
    exact .cons named .nil

/-! ### Counting key clauses -/

def primaryKey : Pattern := wordPair "PRIMARY" "KEY"

end AutoIncrement

theorem length_codeHits (p : Pattern) (s : Text) :
    (p.codeHits s).length = total (fun x => (p.hits x).length) (codeSegments s) :=
      length_flatMap_eq_total _ _

theorem countP_codeWords (k s : Text) : (codeWords s).countP (spelled k) =
    total (fun x => (tokens x).countP (Token.names k)) (codeSegments s) := by
  rw [codeWords_eq, countP_flatMap_eq_total]
  refine total_congr fun x => ?_
  rw [words_eq, List.countP_filterMap]
  refine List.countP_congr fun t _ => ?_
  cases t <;> rfl

theorem total_map {count : Text → Nat} {f : Text → Text} {pieces : List Text}
    (same : ∀ x ∈ pieces, count (f x) = count x) : total count (pieces.map f) =
      total count pieces := by
  induction pieces with
  | nil => rfl
  | cons x pieces ih =>
      obtain ⟨first, others⟩ := List.forall_mem_cons.mp same
      rw [List.map_cons, total, total, first, ih others]

theorem total_account (change : Text → Text) (count hits : Text → Nat) {less more : Nat}
    (each : ∀ x, count (change x) + hits x * less = count x + hits x * more) (pieces : List Text) :
    total count (pieces.map change) + total hits pieces * less =
      total count pieces + total hits pieces * more := by
  induction pieces with
  | nil => simp [total]
  | cons x pieces ih =>
      have here := each x
      simp only [List.map_cons, total, Nat.add_mul]
      omega

theorem Pattern.replace_ne_nil {p : Pattern} {replacement : Match → Text}
    (filled : ∀ before m after caps, m.text ≠ [] → p.Takes before m after caps → replacement m ≠ [])
    {x : Text}
    (present : x ≠ []) : p.replace replacement x ≠ [] := by
  have whole := flatMap_text_pieces p x
  rw [replace_eq]
  cases cut : p.pieces x with
  | nil =>
      rw [cut] at whole
      exact absurd whole.symm present
  | cons piece pieces =>
      rw [List.flatMap_cons]
      refine List.append_ne_nil_of_left_ne_nil ?_ _
      cases piece with
      | plain c => exact List.cons_ne_nil c []
      | hit m =>
          obtain ⟨taken, -, caps, takes⟩ := takes_of_piecesAfter
            (show p.piecesAfter 0 0 none x = [] ++ .hit m :: pieces from cut)
          exact filled _ m _ caps taken takes

namespace AutoIncrement

section

variable {p : Pattern} {ks : List Text} (phrase : p.Phrase ks) (s : Text)

include phrase

theorem codeSegments_written : codeSegments (p.replaceCode (fun _ => keyAttribute) s) =
    (codeSegments s).map (p.replace fun _ => keyAttribute) := by
  have neutral : Neutral keyAttribute := by decide
  refine codeSegments_replaceCode ?_ (fun x => replace_ne_nil fun _ _ _ _ _ _ => neutral.1) s
  intro before m after caps filled taken
  refine .inr ⟨⟨filled, neutral.2, fun feed => ?_, fun none => absurd none neutral.1⟩, trivial⟩
  have letter := (phrase taken).2.1
  rw [feed] at letter
  exact absurd letter (by decide)

theorem length_primaryKey_add (present : ks ≠ [])
    (head : (ks.map Token.word).head?.any (Token.names "KEY") = false)
    (last : (ks.map Token.word).getLast?.any (Token.names "PRIMARY") = false) :
    (primaryKey.codeHits (p.replaceCode (fun _ => keyAttribute) s)).length +
        (p.codeHits s).length * follows "PRIMARY" "KEY" (ks.map Token.word) =
      (primaryKey.codeHits s).length + (p.codeHits s).length := by
  have pairs (x : Text) : (primaryKey.hits x).length = follows "PRIMARY" "KEY" (tokens x) :=
    length_hits_wordPair (by decide) (by decide) (by decide) x
  have each (x : Text) : (primaryKey.hits (p.replace (fun _ => keyAttribute) x)).length +
      (p.hits x).length * follows "PRIMARY" "KEY" (ks.map Token.word) =
        (primaryKey.hits x).length + (p.hits x).length * 1 := by
    rw [pairs, pairs]
    exact (phrase.rewritten keyAttribute x).follows_add present (by decide) ⟨head, by decide⟩
      ⟨last, by decide⟩
  have total := total_account (p.replace fun _ => keyAttribute)
    (fun x => (primaryKey.hits x).length)
    (fun x => (p.hits x).length) each (codeSegments s)
  rwa [← codeSegments_written phrase, ← length_codeHits, ← length_codeHits, ← length_codeHits,
    Nat.mul_one] at total

theorem countP_increment_add : (codeWords (p.replaceCode (fun _ => keyAttribute) s)).countP
    (spelled "AUTO_INCREMENT") +
      (p.codeHits s).length * (ks.map Token.word).countP (Token.names "AUTO_INCREMENT") =
    (codeWords s).countP (spelled "AUTO_INCREMENT") := by
  have each (x : Text) : (tokens (p.replace (fun _ => keyAttribute) x)).countP
      (Token.names "AUTO_INCREMENT") +
      (p.hits x).length * (ks.map Token.word).countP (Token.names "AUTO_INCREMENT") =
        (tokens x).countP (Token.names "AUTO_INCREMENT") + (p.hits x).length * 0 :=
    (phrase.rewritten keyAttribute x).countP_add "AUTO_INCREMENT"
  have total := total_account (p.replace fun _ => keyAttribute)
    (fun x => (tokens x).countP (Token.names "AUTO_INCREMENT")) (fun x => (p.hits x).length) each
    (codeSegments s)
  rwa [← codeSegments_written phrase, ← length_codeHits, ← countP_codeWords, ← countP_codeWords,
    Nat.mul_zero, Nat.add_zero] at total

end

theorem codeHits_eq_nil_of_increments {p : Pattern} {ks : List Text} (phrase : p.Phrase ks)
    (named : (ks.map Token.word).countP (Token.names "AUTO_INCREMENT") = 1) {s : Text}
    (none : (codeWords s).countP (spelled "AUTO_INCREMENT") = 0) : p.codeHits s = [] := by
  have account := countP_increment_add phrase s
  rw [named, none, Nat.mul_one] at account
  exact List.length_eq_zero_iff.mp (by omega)

theorem countP_increment_eq_zero {p : Pattern} {ks : List Text} (phrase : p.Phrase ks)
    (named : (ks.map Token.word).countP (Token.names "AUTO_INCREMENT") = 1) {s : Text}
    (found : p.codeHits s ≠ [])
    (increments : (codeWords s).countP (spelled "AUTO_INCREMENT") ≤ 1) :
    (codeWords (p.replaceCode (fun _ => keyAttribute) s)).countP
    (spelled "AUTO_INCREMENT") = 0 := by
  have account := countP_increment_add phrase s
  have some := List.length_pos_of_ne_nil found
  rw [named, Nat.mul_one] at account
  omega

theorem exists_run_keyRules {s : Text}
    (increments : (codeWords s).countP (spelled "AUTO_INCREMENT") ≤ 1) :
    ∃ steps t, Rule.run Rule.keyRules s = .ok (steps, t) ∧
      (primaryKey.codeHits t).length = (primaryKey.codeHits s).length +
        if beforeKey.codeHits s = [] ∧ afterKey.codeHits s = [] then (alone.codeHits s).length
          else 0 := by
  generalize first : beforeKey.replaceCode (fun _ => keyAttribute) s = t₁
  generalize second : afterKey.replaceCode (fun _ => keyAttribute) t₁ = t₂
  refine ⟨_, alone.replaceCode (fun _ => keyAttribute) t₂, by rw [← second, ← first]; rfl, ?_⟩
  have one := length_primaryKey_add phrase_beforeKey s (by decide) (by decide) (by decide)
  have two := length_primaryKey_add phrase_afterKey t₁ (by decide) (by decide) (by decide)
  have three := length_primaryKey_add phrase_alone t₂ (by decide) (by decide) (by decide)
  rw [first, show follows "PRIMARY" "KEY" _ = 1 by decide] at one
  rw [second, show follows "PRIMARY" "KEY" _ = 1 by decide] at two
  rw [show follows "PRIMARY" "KEY" _ = 0 by decide] at three
  by_cases before : beforeKey.codeHits s = []
  · rw [replaceCode_of_codeHits_eq_nil before] at first
    subst first
    by_cases after : afterKey.codeHits s = []
    · rw [replaceCode_of_codeHits_eq_nil after] at second
      subst second
      rw [if_pos ⟨before, after⟩]
      omega
    · have gone := countP_increment_eq_zero phrase_afterKey (by decide) after increments
      rw [second] at gone
      rw [if_neg fun both => after both.2]
      rw [codeHits_eq_nil_of_increments phrase_alone (by decide) gone, List.length_nil] at three
      omega
  · have gone := countP_increment_eq_zero phrase_beforeKey (by decide) before increments
    rw [first] at gone
    rw [if_neg fun both => before both.1]
    rw [replaceCode_of_codeHits_eq_nil (codeHits_eq_nil_of_increments phrase_afterKey
      (by decide) gone)] at second
    subst second
    rw [codeHits_eq_nil_of_increments phrase_alone (by decide) gone, List.length_nil] at three
    omega

/-- A statement with at most one key clause and at most one word for numbered columns has at most
one key clause after the key rules, unless it has one of each and the two do not stand side by side.
-/
theorem length_primaryKey_run_iff {s : Text} (keys : (primaryKey.codeHits s).length ≤ 1)
    (increments : (codeWords s).countP (spelled "AUTO_INCREMENT") ≤ 1) :
    ∃ steps t, Rule.run Rule.keyRules s = .ok (steps, t) ∧
      ((primaryKey.codeHits t).length ≤ 1 ↔ ¬ (primaryKey.codeHits s ≠ [] ∧ alone.codeHits s ≠ [] ∧
        beforeKey.codeHits s = [] ∧ afterKey.codeHits s = [])) := by
  obtain ⟨steps, t, run, count⟩ := exists_run_keyRules increments
  have account := countP_increment_add phrase_alone s
  rw [show (List.map Token.word ["AUTO_INCREMENT".toList]).countP
    (Token.names "AUTO_INCREMENT") = 1 by decide, Nat.mul_one] at account
  refine ⟨steps, t, run, ?_⟩
  rw [count, ← List.length_pos_iff, ← List.length_pos_iff]
  split
  · next apart =>
      simp only [apart, and_self, and_true]
      omega
  · next beside =>
      have none : ¬ (0 < (primaryKey.codeHits s).length ∧ 0 < (alone.codeHits s).length ∧
          beforeKey.codeHits s = [] ∧ afterKey.codeHits s = []) := fun both => beside both.2.2
      exact iff_of_true keys none

theorem length_primaryKey_run_iff_beside :
    let s : Text := "id INT auto_increment\nprimary key, b TEXT DEFAULT 'PRIMARY KEY'"
    (primaryKey.codeHits s).length ≤ 1 ∧ (codeWords s).countP (spelled "AUTO_INCREMENT") ≤ 1 ∧
      ∃ steps t, Rule.run Rule.keyRules s = .ok (steps, t) ∧
        (primaryKey.codeHits t).length ≤ 1 := by
  intro s
  have keys : (primaryKey.codeHits s).length ≤ 1 := by decide
  have increments : (codeWords s).countP (spelled "AUTO_INCREMENT") ≤ 1 := by decide
  obtain ⟨steps, t, run, exact⟩ := length_primaryKey_run_iff keys increments
  exact ⟨keys, increments, steps, t, run, exact.mpr (by decide)⟩

/-- A numbered column gets a key clause of its own where the statement names its key in a later
item. -/
theorem not_forall_length_primaryKey_run :
    ¬ ∀ s steps t, (primaryKey.codeHits s).length ≤ 1 →
      (codeWords s).countP (spelled "AUTO_INCREMENT") ≤ 1 →
      (Rule.run Rule.keyRules s).toOption = some (steps, t) →
      (primaryKey.codeHits t).length ≤ 1 := by
  intro once
  have twice := once "id INT AUTO_INCREMENT, PRIMARY KEY (id)"
    [⟨"auto_increment", "id INT PRIMARY KEY AUTOINCREMENT, PRIMARY KEY (id)"⟩]
    "id INT PRIMARY KEY AUTOINCREMENT, PRIMARY KEY (id)" (by decide) (by decide) (by decide)
  revert twice
  decide

end AutoIncrement

end LiteSql
