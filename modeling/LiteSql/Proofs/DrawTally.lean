import LiteSql.Proofs.DrawnAnswers

/-! Draws counted over lexemes, where literals are read at once. Rules that replace the matches of
patterns add none: they write words that complete no draw. -/

namespace LiteSql

namespace Trail

def pass (t : Trail) : Lexeme → Trail
  | .code c => t.next c
  | .literal _ _ => ready

def along (t : Trail) (ls : List Lexeme) : Trail := ls.foldl pass t

def tally : Trail → List Lexeme → Nat
  | _, [] => 0
  | t, l :: ls => (l == .code '(' && t.isDraw).toNat + tally (t.pass l) ls

theorem along_append (t : Trail) (x y : List Lexeme) : along t (x ++ y) = along (along t x) y :=
  List.foldl_append

theorem along_cons (t : Trail) (l : Lexeme) (ls : List Lexeme) :
    along t (l :: ls) = along (t.pass l) ls := rfl

theorem tally_append (t : Trail) (x y : List Lexeme) :
    tally t (x ++ y) = tally t x + tally (along t x) y := by
  induction x generalizing t with
  | nil => exact (Nat.zero_add _).symm
  | cons l x ih => rw [List.cons_append, tally, tally, ih, along_cons, Nat.add_assoc]

theorem Below.pass {t u : Trail} (below : Below t u) (l : Lexeme) :
    Below (t.pass l) (u.pass l) := by
  cases l with
  | code c => exact below.next c
  | literal kind text => exact .refl ready

theorem Below.tally_le {t u : Trail} (below : Below t u) (ls : List Lexeme) :
    tally t ls ≤ tally u ls := by
  induction ls generalizing t u with
  | nil => exact le_rfl
  | cons l ls ih =>
      rw [tally, tally]
      refine Nat.add_le_add ?_ (ih (below.pass l))
      cases l == Lexeme.code '(' with
      | false => exact le_rfl
      | true =>
          cases draw : t.isDraw with
          | false => exact Nat.zero_le _
          | true => exact Nat.le_of_eq (by rw [below.isDraw_le draw])

/-! ### Literals -/

theorem step_of_marks {q : ScanState} {c : Char} {next : Option Char}
    (marked : q.marks c next = true) (t : Trail) :
    t.step q c = ready ∧ t.completes q c = false := by
  cases opened : q.isOpen with
  | false => exact ⟨step_of_closed opened t c, by rw [completes, opened]; rfl⟩
  | true =>
      have sign : c ∈ ScanState.signs := by
        by_contra other
        have neutral : ScanState.isNeutral c = true := by simpa [ScanState.isNeutral] using other
        rw [ScanState.marks_of_isOpen opened neutral] at marked
        cases marked
      have facts : ∀ d ∈ ScanState.signs, isWordChar d = false ∧ isBlank d = false ∧
          d ≠ '(' := by decide
      obtain ⟨letter, blank, paren⟩ := facts c sign
      rw [step_of_isOpen opened, next_other t letter, blank, completes_eq_false paren]
      exact ⟨rfl, rfl⟩

theorem read_inLiteral {s pre x post : Text} (cut : s = pre ++ (x ++ post))
    (literal : ∀ i, pre.length ≤ i → i < pre.length + x.length → InLiteral s i) (t : Trail) :
    count (scan pre) t x = 0 ∧ (x ≠ [] → after (scan pre) t x = ready) := by
  induction x generalizing pre t with
  | nil => exact ⟨rfl, fun filled => absurd rfl filled⟩
  | cons c x ih =>
      obtain ⟨d, found, marked⟩ := (inLiteral_iff_marks s pre.length).mp
        (literal pre.length le_rfl (by simp))
      have first : s.take pre.length = pre := by rw [cut, List.take_left]
      obtain rfl : c = d := by simpa [cut] using found
      rw [first] at marked
      obtain ⟨trail, silent⟩ := step_of_marks marked t
      have cut' : s = (pre ++ [c]) ++ (x ++ post) := by rw [cut]; simp
      have later := ih cut' (fun i low high => literal i (by simp at low; omega)
        (by simp at high ⊢; omega)) ready
      rw [scan_append] at later
      rw [count, after, trail, silent]
      refine ⟨by rw [show (scan pre).step c = (scan pre).after [c] from rfl, later.1]; rfl,
        fun _ => ?_⟩
      by_cases empty : x = []
      · rw [empty]
        rfl
      · exact later.2 empty

theorem read_lexeme {x : Text} {done ls : List Lexeme} {l : Lexeme}
    (lexed : lexemes x = done ++ l :: ls) :
    let q := scan (done.flatMap Lexeme.text)
    let t := after .code ready (done.flatMap Lexeme.text)
    count q t l.text = (l == .code '(' && t.isDraw).toNat ∧ after q t l.text = t.pass l := by
  intro q t
  cases l with
  | literal kind text =>
      have whole := (lexemes_of_append lexed).1
      rw [List.flatMap_cons] at whole
      obtain ⟨silent, ended⟩ := read_inLiteral whole (fun i low high =>
        inLiteral_of_lexemes lexed low high) t
      exact ⟨silent, ended (text_ne_nil_of_mem_lexemes x (.literal kind text) (by simp [lexed]))⟩
  | code c =>
      have counted : count q t [c] = (t.completes q c).toNat := rfl
      have trail : after q t [c] = t.step q c := rfl
      rw [Lexeme.text, counted, trail]
      have same : (Lexeme.code c == .code '(') = (c == '(') := by rw [Bool.eq_iff_iff]; simp
      rw [same]
      cases opened : q.isOpen with
      | true =>
          rw [step_of_isOpen opened, completes, opened, Bool.true_and]
          exact ⟨rfl, rfl⟩
      | false =>
          -- only the line feed behind a comment is code that is read in a literal's state
          obtain rfl : c = '\n' := by
            by_contra other
            have reached : q.isOpen = true := isOpen_scan_of_lexemes lexed other
            rw [opened] at reached
            cases reached
          have idle : t = ready := closed_after _ opened
          rw [step_of_closed opened, completes, opened, idle]
          exact ⟨rfl, rfl⟩

theorem read_lexemes {x : Text} {done ls more : List Lexeme}
    (lexed : lexemes x = done ++ (ls ++ more)) :
    let q := scan (done.flatMap Lexeme.text)
    let t := after .code ready (done.flatMap Lexeme.text)
    count q t (ls.flatMap Lexeme.text) = tally t ls ∧ after q t (ls.flatMap Lexeme.text) =
      along t ls := by
  intro q t
  induction ls generalizing done with
  | nil => exact ⟨rfl, rfl⟩
  | cons l ls ih =>
      have lexed' : lexemes x = (done ++ [l]) ++ (ls ++ more) := by
        rw [lexed, List.append_assoc]; rfl
      obtain ⟨here, trail⟩ := read_lexeme lexed
      have later := ih lexed'
      rw [List.flatMap_append, List.flatMap_singleton, scan_append, after_append] at later
      have state : ScanState.code.after (done.flatMap Lexeme.text) = q := rfl
      rw [state, trail] at later
      rw [List.flatMap_cons, count_append, after_append, here, trail, tally, along_cons]
      exact ⟨congrArg (_ + ·) later.1, later.2⟩

end Trail

open Trail

theorem draws_eq_tally (s : Text) : draws s = tally ready (lexemes s) := by
  have lexed : lexemes s = [] ++ (lexemes s ++ []) := by rw [List.nil_append, List.append_nil]
  have counted := (read_lexemes lexed).1
  rw [flatMap_text_lexemes] at counted
  rw [draws_eq_count]
  exact counted

/-! ### Matches of patterns -/

/-- A text that completes no draw and ends in another word, whatever comes before it. -/
structure Subdued (y : Text) : Prop where
  plain : ∀ c ∈ y, c ≠ '('
  spent : ∀ t, after .code t y = .spent

instance (y : Text) : Decidable (Subdued y) :=
  decidable_of_iff ((∀ c ∈ y, c ≠ '(') ∧ ∀ t ∈ trails, after .code t y = spent)
    ⟨fun ⟨plain, checked⟩ => ⟨plain, fun t => by
        have filled : y ≠ [] := by
          rintro rfl
          cases checked .ready (by decide)
        obtain ⟨u, among, like⟩ := exists_like t
        rw [(like.read filled .code).2, checked u among]⟩,
      fun subdued => ⟨subdued.plain, fun t _ => subdued.spent t⟩⟩

theorem Subdued.append {x y : Text} (plain : ∀ c ∈ x, c ≠ '(') (neutral : Neutral x)
    (subdued : Subdued y) :
    Subdued (x ++ y) where
  plain c member := (List.mem_append.mp member).elim (plain c) (subdued.plain c)
  spent t := by
    rw [after_append, (ScanState.after_of_isNeutral (by simp) neutral.1 neutral.2).2]
    exact subdued.spent _

theorem tally_code (t : Trail) {y : Text} (neutral : ∀ c ∈ y, ScanState.isNeutral c = true) :
    tally t (y.map .code) = count .code t y ∧ along t (y.map .code) = after .code t y := by
  induction y generalizing t with
  | nil => exact ⟨rfl, rfl⟩
  | cons c y ih =>
      obtain ⟨first, others⟩ := List.forall_mem_cons.mp neutral
      have same : (Lexeme.code c == .code '(') = (c == '(') := by rw [Bool.eq_iff_iff]; simp
      have opened : ScanState.code.isOpen = true := rfl
      obtain ⟨counted, trail⟩ := ih (t.next c) others
      rw [List.map_cons, tally, along_cons, count, after, step_of_isOpen opened, completes, opened,
        Bool.true_and, ScanState.step_of_isOpen opened first, same]
      exact ⟨congrArg (_ + ·) counted, trail⟩

theorem Exchanged.tally_le {ls ms : List Lexeme}
    (exchanged : Exchanged (fun _ y => Subdued y) ls ms) {t u : Trail}
    (below : Below t u) : tally t ms ≤ tally u ls := by
  induction exchanged generalizing t u with
  | nil => exact le_rfl
  | keep l _ ih =>
      have first := below.tally_le [l]
      rw [tally, tally, tally, tally] at first
      rw [tally, tally]
      have later := ih (below.pass l)
      omega
  | @swap x y ls ms swap subdued _ ih =>
      obtain ⟨counted, trail⟩ := tally_code t swap.neutral
      have later := ih (t := .spent) (u := along u (x.map .code)) (.inr (.inl rfl))
      rw [tally_append, tally_append, counted, trail, subdued.spent, count_eq_zero subdued.plain]
      omega

theorem Pattern.Mild.imp {p : Pattern} {allowed : Text → Text → Prop} {replacement : Match → Text}
    (mild : p.Mild allowed replacement) (other : Text → Text → Prop)
    (written : ∀ {before m after caps}, p.Takes before m after caps →
      replacement m = m.text ∨ other m.text (replacement m)) : p.Mild other replacement := by
  intro before m after caps filled taken
  rcases mild filled taken with same | ⟨swap, -⟩
  · exact .inl same
  · exact (written taken).imp_right fun permitted => ⟨swap, permitted⟩

namespace Rule

/-- A rule that writes only texts that complete no draw, if it replaces the matches of a pattern. -/
def Subduing (rule : Rule) : Prop :=
  ∀ name wanted replacement, rule = pattern name wanted replacement →
    wanted.Mild (fun _ y => Subdued y) replacement

theorem subduing_pattern {name : Text} {wanted : Pattern} {replacement : Match → Text}
    (mild : wanted.Mild (fun _ y => Subdued y) replacement) :
    (pattern name wanted replacement).Subduing := by
  intro _ _ _ same
  cases same
  exact mild

theorem subduing_call {rule : Rule} (named : rule.function?.isSome = true) : rule.Subduing := by
  rintro _ _ _ rfl
  cases named

theorem subduing_constant {name : Text} {wanted : Pattern} {replacement : Text}
    (refused : wanted.refuses '\n' = true)
    (neutral : Neutral replacement) (subdued : Subdued replacement) :
    (constant name wanted replacement).Subduing := by
  have mild : wanted.Mild (fun _ _ => True) fun _ => replacement :=
    Pattern.mild_of_neutral refused fun _ => .inr neutral
  exact subduing_pattern (mild.imp (fun _ y => Subdued y) fun _ => .inr subdued)

theorem subduing_typeRules : ∀ rule ∈ typeRules, rule.Subduing := by
  simp only [typeRules, List.forall_mem_cons]
  refine ⟨?_, ?_, ?_, subduing_call rfl, ?_, ?_, ?_, List.forall_mem_nil _⟩
  · exact subduing_constant (by decide) (by decide) (by decide)
  · exact subduing_constant (by decide) (by decide) (by decide)
  · exact subduing_constant (by decide) (by decide) (by decide)
  · exact subduing_constant (by decide) (by decide) (by decide)
  · exact subduing_constant (by decide) (by decide) (by decide)
  · have mild : ColumnType.binary.Mild (fun _ _ => True) ColumnType.convertBinary :=
      Pattern.mild_of_neutral (by decide) fun _ => ColumnType.convertBinary_eq _
    refine subduing_pattern (mild.imp (fun _ y => Subdued y) fun _ => ?_)
    rw [ColumnType.convertBinary]
    split
    · exact .inl rfl
    · exact .inr (by decide)

theorem subduing_joinRules : ∀ rule ∈ joinRules, rule.Subduing := by
  simp only [joinRules, List.forall_mem_cons]
  refine ⟨subduing_constant (by decide) (by decide) (by decide), ?_, List.forall_mem_nil _⟩
  have mild : Join.join.Mild (fun _ _ => True) Join.convert :=
    Pattern.mild_of_neutral (by decide) Join.convert_eq
  refine subduing_pattern (mild.imp (fun _ y => Subdued y) fun taken => ?_)
  have inner : Subdued "INNER JOIN" := by decide
  rw [Join.convert]
  rcases Join.captured?_join taken with none | ⟨name, blanks, word, gap, named, spaced⟩
  · rw [none]
    exact .inr inner
  · rw [word, gap]
    dsimp only
    split
    · exact .inr inner
    · split
      · exact .inl rfl
      · refine .inr (Subdued.append ?_
          ((neutral_of_isWordChar named.1 named.2).append
            (neutral_of_isBlank spaced.1 spaced.2)) inner)
        intro c member
        rcases List.mem_append.mp member with letter | blank
        · exact ne_paren_of_isWordChar (named.2 c letter)
        · exact ne_paren_of_isBlank (spaced.2 c blank)

theorem subduing_keyRules : ∀ rule ∈ keyRules, rule.Subduing := by
  have neutral : Neutral AutoIncrement.keyAttribute := by decide
  have subdued : Subdued AutoIncrement.keyAttribute := by decide
  simp only [keyRules, List.forall_mem_cons]
  refine ⟨?_, ?_, ?_, List.forall_mem_nil _⟩
  · exact subduing_constant (by decide) neutral subdued
  · exact subduing_constant (by decide) neutral subdued
  · exact subduing_constant (by decide) neutral subdued

theorem subduing_table : ∀ rule ∈ table, rule.Subduing := by
  have calls : ∀ rule ∈ stringRules ++ dateRules ++ numericRules ++ conditionalRules,
      rule.function?.isSome = true := by decide
  simp only [table, List.forall_mem_append]
  refine ⟨⟨⟨?_, subduing_typeRules⟩, subduing_joinRules⟩, subduing_keyRules⟩
  simp only [← List.forall_mem_append]
  exact fun rule member => subduing_call (calls rule member)

theorem draws_replaceCode_le {name : Text} {wanted : Pattern} {replacement : Match → Text}
    (member : pattern name wanted replacement ∈ table) (s : Text) :
      draws (wanted.replaceCode replacement s) ≤ draws s := by
  have mild : wanted.Mild (fun _ y => Subdued y) replacement := subduing_table _ member _ _ _ rfl
  rw [draws_eq_tally, draws_eq_tally]
  exact (mild.exchanged_replaceCode s).tally_le (.refl ready)

end Rule

end LiteSql
