import LiteSql.Proofs.Balance

/-! Whole words as patterns. No two whole words overlap, so the search finds each of them, and the
first one outside literals and parentheses is where the lexemes say. -/

namespace LiteSql

namespace Pattern

def wholeWord (k : Text) : Pattern := .all [.boundary, keyword k, .boundary]

theorem spans_wholeWord_iff {k : Text} (ascii : IsAsciiWord k) (before : Option Char) (pos : Nat)
    (x after : Text) (caps : List Capture) :
    (wholeWord k).Spans before pos x after caps ↔
      (spelled k x = true ∧ before.any isWordChar = false ∧ after.head?.any isWordChar = false) ∧
        caps = [] := by
  have ends {x : Text} (named : spelled k x = true) (rest : Text) (between : Option Char) :
      (x ++ rest).head?.any isWordChar = true ∧ (x.getLast?.or between).any isWordChar = true := by
    obtain ⟨present, letters⟩ := isWordChar_of_spelled ascii named
    constructor
    · obtain ⟨c, x, rfl⟩ := List.exists_cons_of_ne_nil present
      exact letters c List.mem_cons_self
    · rw [List.getLast?_eq_some_getLast present]
      exact letters _ (List.getLast_mem present)
  simp only [wholeWord, all, Spans, spans_keyword_iff, ← spelled_iff]
  constructor
  · rintro ⟨_, _, _, _, rfl, rfl, ⟨rfl, rfl, start⟩, word, _, _, _, rfl, rfl, ⟨named, rfl⟩, rfl,
      rfl, stop⟩
    rw [List.nil_append, List.append_nil]
    rw [List.append_nil, (ends named _ none).1] at start
    rw [(ends named [] _).2] at stop
    refine ⟨⟨named, ?_, ?_⟩, rfl⟩
    · simpa using start
    · simpa using stop
  · rintro ⟨⟨named, start, stop⟩, rfl⟩
    refine ⟨[], x, [], [], rfl, rfl, ⟨rfl, rfl, ?_⟩, x, [], [],
      [], by simp, rfl, ⟨named, rfl⟩, rfl, rfl, ?_⟩
    · rw [start, (ends named after none).1]
      simp
    · rw [(ends named [] _).2, stop]
      simp

theorem piecesAfter_length (p : Pattern) (x : Text) (pos : Nat) (before : Option Char) (s : Text) :
    p.piecesAfter x.length pos before (x ++ s) =
      p.piecesAfter 0 (pos + x.length) (x.getLast?.or before) s := by
  induction x generalizing pos before with
  | nil => rfl
  | cons c x ih =>
      rw [List.length_cons, List.cons_append, piecesAfter, ih, getLast?_cons_or, Nat.add_assoc,
        Nat.add_comm 1]

theorem pairwise_piecesAfter (p : Pattern) (covered pos : Nat) (before : Option Char) (s : Text) :
    (∀ m ∈ (p.piecesAfter covered pos before s).filterMap Piece.hit?, pos + covered ≤ m.start) ∧
      ((p.piecesAfter covered pos before s).filterMap Piece.hit?).Pairwise fun m n =>
        m.start < n.start := by
  induction s generalizing covered pos before with
  | nil => simp [piecesAfter]
  | cons c s ih =>
      cases covered with
      | succ covered =>
          rw [piecesAfter, show pos + (covered + 1) = pos + 1 + covered by omega]
          exact ih covered (pos + 1) (some c)
      | zero =>
          rw [piecesAfter]
          split
          · obtain ⟨low, ordered⟩ := ih 0 (pos + 1) (some c)
            exact ⟨fun m member => by have bound := low m member; omega, ordered⟩
          · next hit found =>
              obtain ⟨found, -⟩ := Option.filter_eq_some_iff.mp found
              obtain ⟨-, -, -, place, -⟩ := takes_of_matchAt? found rfl
              obtain ⟨low, ordered⟩ := ih (hit.text.length - 1) (pos + 1) (some c)
              have start : hit.start = pos := place
              simp only [List.filterMap_cons, Piece.hit?, List.forall_mem_cons, List.pairwise_cons]
              refine ⟨⟨by omega, fun m member => ?_⟩, fun m member => ?_, ordered⟩
              · have bound := low m member
                omega
              · have bound := low m member
                omega

theorem pairwise_hits (p : Pattern) (s : Text) : (p.hits s).Pairwise fun m n => m.start < n.start :=
  (p.pairwise_piecesAfter 0 0 none s).2

theorem takeWhile_append_of_ended {x a : Text} (letters : ∀ c ∈ x, isWordChar c = true)
    (ended : a.head?.any isWordChar = false) : (x ++ a).takeWhile isWordChar = x := by
  rw [List.takeWhile_append_of_pos letters]
  cases a with
  | nil => simp
  | cons d a =>
      have stop : ¬ isWordChar d = true := by simpa using ended
      rw [List.takeWhile_cons_of_neg stop, List.append_nil]

theorem eq_of_words {x y a b : Text} (same : x ++ a = y ++ b) (left : ∀ c ∈ x, isWordChar c = true)
    (right : ∀ c ∈ y, isWordChar c = true) (one : a.head?.any isWordChar = false)
    (other : b.head?.any isWordChar = false) : x = y := by
  rw [← takeWhile_append_of_ended left one, same, takeWhile_append_of_ended right other]

theorem exists_mem_hits {k : Text} (ascii : IsAsciiWord k) {front w rest : Text}
    (named : spelled k w = true) (start : front.getLast?.any isWordChar = false)
    (stop : rest.head?.any isWordChar = false) :
    ∃ m ∈ (wholeWord k).hits (front ++ (w ++ rest)), m.start = front.length ∧ m.text = w := by
  obtain ⟨present, letters⟩ := isWordChar_of_spelled ascii named
  suffices found : ∀ pos before, (front.getLast?.or before).any isWordChar = false →
      ∃ m ∈ ((wholeWord k).piecesAfter 0 pos before (front ++ (w ++ rest))).filterMap Piece.hit?,
        m.start = pos + front.length ∧ m.text = w by
    obtain ⟨m, member, place, text⟩ := found 0 none (by rwa [Option.or_none])
    exact ⟨m, member, by rw [place, Nat.zero_add], text⟩
  clear start
  induction size : front.length using Nat.strongRecOn generalizing front with
  | ind n ih =>
      subst size
      intro pos before start
      cases front with
      | nil =>
          obtain ⟨c, w', rfl⟩ := List.exists_cons_of_ne_nil present
          rw [List.nil_append, List.cons_append, piecesAfter]
          have spans : (wholeWord k).Spans before pos (c :: w') rest [] :=
            (spans_wholeWord_iff ascii _ _ _ _ _).mpr ⟨⟨named, start, stop⟩, rfl⟩
          cases found : (wholeWord k).matchAt? ⟨pos, before, c :: (w' ++ rest), []⟩ with
          | none =>
              exact absurd ⟨c :: w', rest, [], rfl, spans⟩ ((matchAt?_eq_none_iff _ _).mp found)
          | some m =>
              obtain ⟨after, caps, cut, place, taken⟩ := takes_of_matchAt? found rfl
              obtain ⟨⟨named', -, stop'⟩, -⟩ := (spans_wholeWord_iff ascii _ _ _ _ _).mp taken.spans
              have whole : c :: w' ++ rest = m.text ++ after := cut
              have text := eq_of_words whole letters (isWordChar_of_spelled ascii named').2
                stop stop'
              have filled : (some m).filter (!·.text.isEmpty) = some m := by simp [← text]
              rw [filled]
              exact ⟨m, by simp [Piece.hit?], by rw [place]; rfl, text.symm⟩
      | cons c front =>
          rw [List.cons_append, piecesAfter]
          split
          · obtain ⟨m, member, place, text⟩ := ih front.length (by simp) rfl (pos + 1) (some c)
              (by rwa [← getLast?_cons_or c front before])
            refine ⟨m, by simpa [Piece.hit?] using member, ?_, text⟩
            rw [place, List.length_cons]
            omega
          · next hit found =>
              -- a word that starts here ends before the one that is looked for
              obtain ⟨found, -⟩ := Option.filter_eq_some_iff.mp found
              obtain ⟨after, caps, cut, -, taken⟩ := takes_of_matchAt? found rfl
              obtain ⟨⟨named', -, -⟩, -⟩ := (spans_wholeWord_iff ascii _ _ _ _ _).mp taken.spans
              obtain ⟨present', letters'⟩ := isWordChar_of_spelled ascii named'
              have whole : c :: front ++ (w ++ rest) = hit.text ++ after := cut
              obtain ⟨more, cut, behind⟩ : ∃ more, c :: front = hit.text ++ more ∧
                  after = more ++ (w ++ rest) := by
                rcases List.append_eq_append_iff.mp whole with ⟨extra, longer, -⟩ | inside
                · have last := List.getLast?_eq_some_getLast (List.cons_ne_nil c front)
                  rw [last, Option.some_or, Option.any_some, letters' _ (by
                    rw [longer]
                    exact List.mem_append_left _ (List.getLast_mem _))] at start
                  cases start
                · exact inside
              obtain ⟨d, tail, text⟩ := List.exists_cons_of_ne_nil present'
              rw [text, List.cons_append] at cut
              obtain ⟨rfl, rfl⟩ := List.cons.inj cut
              rw [text, List.length_cons, Nat.add_sub_cancel, List.append_assoc, piecesAfter_length]
              obtain ⟨m, member, place, same⟩ := ih more.length
                (by simp only [List.length_cons, List.length_append]; omega) rfl
                (pos + 1 + tail.length)
                (tail.getLast?.or (some c)) (by
                  rw [getLast?_cons_or, List.getLast?_append, Option.or_assoc] at start
                  exact start)
              refine ⟨m, ?_, ?_, same⟩
              · exact List.mem_cons_of_mem hit member
              · rw [place, List.length_cons, List.length_append]
                omega

end Pattern

/-! ### Words outside literals and parentheses -/

theorem foldr_markedTurn (l : Lexeme) (depth : Int) :
    l.marked.foldr (fun c depth => markedTurn c + depth) depth = l.turn + depth := by
  cases l with
  | code c =>
      have turn : markedTurn (c, false) = (Lexeme.code c).turn := by
        unfold markedTurn Lexeme.turn
        split <;> split <;> simp_all
      simp [Lexeme.marked, turn]
  | literal kind text =>
      change (text.map (·, true)).foldr (fun c depth => markedTurn c + depth) depth = 0 + depth
      rw [Int.zero_add]
      induction text with
      | nil => rfl
      | cons c text ih =>
          rw [List.map_cons, List.foldr_cons, ih]
          simp [markedTurn]

theorem foldr_marked (ls : List Lexeme) :
    (ls.flatMap Lexeme.marked).foldr (fun c depth => markedTurn c + depth) 0 =
      ls.foldr (fun l depth => l.turn + depth) 0 := by
  induction ls with
  | nil => rfl
  | cons l ls ih => rw [List.flatMap_cons, List.foldr_append, ih, foldr_markedTurn, List.foldr_cons]

theorem foldr_turn_of_levelAfter {depth last : Nat} {ls : List Lexeme}
    (level : levelAfter depth ls = some last) :
    (depth : Int) + ls.foldr (fun l depth => l.turn + depth) 0 = last := by
  induction ls generalizing depth with
  | nil =>
      cases level
      simp
  | cons l ls ih =>
      rw [levelAfter] at level
      split at level
      · cases level
      · next later =>
          rw [List.foldr_cons, ← Int.add_assoc, add_turn later]
          exact ih level

theorem depthAt_of_lexemes {s : Text} {front rest : List Lexeme} (read : lexemes s = front ++ rest)
    {depth : Nat} (level : levelAfter 0 front = some depth) :
    depthAt s (front.flatMap Lexeme.text).length = depth := by
  have marks : (marked s).take (front.flatMap Lexeme.text).length =
      front.flatMap Lexeme.marked := by
    rw [marked, read, List.flatMap_append, ← length_flatMap_marked, List.take_left]
  rw [depthAt, marks, foldr_marked, ← foldr_turn_of_levelAfter level]
  simp

def endsIn (p : Char → Bool) (ls : List Lexeme) : Bool := ls.getLast?.any fun l =>
    l.text.getLast?.any p

def startsIn (p : Char → Bool) (ls : List Lexeme) : Bool := ls.head?.any fun l => l.text.head?.any p

theorem endsIn_eq (p : Char → Bool) {ls : List Lexeme} (present : ∀ l ∈ ls, l.text ≠ []) :
    endsIn p ls = (ls.flatMap Lexeme.text).getLast?.any p := by
  rcases List.eq_nil_or_concat ls with rfl | ⟨front, l, rfl⟩
  · rfl
  · have here := present l (by simp)
    rw [endsIn, List.concat_eq_append, List.getLast?_concat, Option.any_some, List.flatMap_append,
      List.flatMap_singleton, List.getLast?_append_of_ne_nil _ here]

theorem startsIn_eq (p : Char → Bool) {ls : List Lexeme} (present : ∀ l ∈ ls, l.text ≠ []) :
    startsIn p ls = (ls.flatMap Lexeme.text).head?.any p := by
  cases ls with
  | nil => rfl
  | cons l ls =>
      rw [startsIn, List.head?_cons, Option.any_some, List.flatMap_cons,
        List.head?_append_of_ne_nil _ (present l List.mem_cons_self)]

theorem any_head?_outline {ls : List Lexeme} (apart : startsIn isWordChar ls = false) :
    (ls.map Lexeme.outline).head?.any isWordChar = false := by
  cases ls with
  | nil => rfl
  | cons l ls =>
      cases l with
      | code c => exact apart
      | literal kind text => rfl

/-- Whether a word stands outside parentheses between other lexemes, and is not part of a longer
word. -/
structure Standing (k : Text) (front : List Lexeme) (w : Text) (behind : List Lexeme) : Prop where
  named : spelled k w = true
  before : endsIn isWordChar front = false
  after : startsIn isWordChar behind = false
  level : levelAfter 0 front = some 0

namespace Pattern

variable {k : Text} (ascii : IsAsciiWord k) {s : Text}

include ascii

theorem standing_of_mem_hits (balanced : Balanced (lexemes s)) {m : Match}
    (member : m ∈ (wholeWord k).hits s) (outside : inSpans (literalSpans s) m.start = false)
    (shallow : depthAt s m.start = 0) :
    ∃ front behind, lexemes s = front ++ (m.text.map .code ++ behind) ∧
      (front.flatMap Lexeme.text).length = m.start ∧ Standing k front m.text behind := by
  obtain ⟨front, after, caps, rfl, place, present, taken⟩ := takes_of_mem_hits member
  obtain ⟨⟨named, start, stop⟩, -⟩ := (spans_wholeWord_iff ascii _ _ _ _ _).mp taken.spans
  have letters := (isWordChar_of_spelled ascii named).2
  have code : ¬ InLiteral (front ++ (m.text ++ after)) front.length := by
    rw [← inSpans_literalSpans_iff, ← place, outside]
    simp
  have bound : front.length < (front ++ (m.text ++ after)).length := by
    have filled := List.length_pos_of_ne_nil present
    simp only [List.length_append]
    omega
  obtain ⟨first, read, text⟩ := exists_cut_of_not_inLiteral _ _ bound code
  rw [List.take_left] at text
  rw [List.drop_left, lexemes_append_of_isPlain _ _ fun c inside => isPlain_of_isNeutral
    ((neutral_of_isWordChar present letters).2 c inside)] at read
  have filled := text_ne_nil_of_mem_lexemes (front ++ (m.text ++ after))
  rw [read, List.forall_mem_append] at filled
  refine ⟨first, lexemes after, read, by rw [text, place], named, ?_, ?_, ?_⟩
  · rw [endsIn_eq _ filled.1, text, start]
  · rw [startsIn_eq _ (text_ne_nil_of_mem_lexemes after), flatMap_text_lexemes, stop]
  · rw [read, Balanced, levelAfter_append, Option.bind_eq_some_iff] at balanced
    obtain ⟨depth, level, -⟩ := balanced
    have deep := depthAt_of_lexemes read level
    rw [text, ← place, shallow] at deep
    obtain rfl : depth = 0 := by omega
    exact level

/-- A word outside literals and parentheses is found, unless an earlier one is. -/
theorem topLevel?_of_standing {front behind : List Lexeme} {w : Text}
    (read : lexemes s = front ++ (w.map .code ++ behind)) (standing : Standing k front w behind) :
    ∃ m, (wholeWord k).topLevel? s = some m ∧ m.start ≤ (front.flatMap Lexeme.text).length := by
  obtain ⟨whole, -⟩ := lexemes_of_append read
  rw [List.flatMap_append, flatMap_text_map_code] at whole
  have filled := text_ne_nil_of_mem_lexemes s
  simp only [read, List.forall_mem_append] at filled
  have start := standing.before
  have stop := standing.after
  rw [endsIn_eq _ filled.1] at start
  rw [startsIn_eq _ filled.2.2] at stop
  obtain ⟨m, member, place, text⟩ := exists_mem_hits ascii standing.named start stop
  rw [← whole] at member
  have code : inSpans (literalSpans s) m.start = false := by
    rw [← Bool.not_eq_true, inSpans_literalSpans_iff, place, inLiteral_iff_marked, marked, read,
      List.flatMap_append, ← length_flatMap_marked, List.getElem?_append_right (Nat.le_refl _),
      Nat.sub_self]
    obtain ⟨c, w', rfl⟩ := List.exists_cons_of_ne_nil (isWordChar_of_spelled ascii standing.named).1
    simp [Lexeme.marked]
  have shallow : depthAt s m.start = 0 := by
    rw [place]
    exact depthAt_of_lexemes read standing.level
  have right : (!inSpans (literalSpans s) m.start && depthAt s m.start == 0) = true := by
    rw [code, shallow]
    rfl
  cases found : (wholeWord k).topLevel? s with
  | none =>
      have missed := List.find?_eq_none.mp found m member
      exact absurd right missed
  | some first =>
      refine ⟨first, rfl, ?_⟩
      obtain ⟨-, early, late, cut, before⟩ := List.find?_eq_some_iff_append.mp found
      rw [cut] at member
      have ordered := (wholeWord k).pairwise_hits s
      rw [cut, List.pairwise_append] at ordered
      rcases List.mem_append.mp member with earlier | later
      · have missed := before m earlier
        rw [right] at missed
        cases missed
      · rcases List.mem_cons.mp later with rfl | behind
        · exact Nat.le_of_eq place
        · rw [← place]
          exact Nat.le_of_lt (List.rel_of_pairwise_cons ordered.2.1 behind)

theorem topLevel?_eq_some {m : Match} (balanced : Balanced (lexemes s))
    (found : (wholeWord k).topLevel? s = some m) :
    ∃ front behind, lexemes s = front ++ (m.text.map .code ++ behind) ∧
      (front.flatMap Lexeme.text).length = m.start ∧ Standing k front m.text behind ∧
      ∀ front' w' behind', lexemes s = front' ++ (w'.map .code ++ behind') →
        Standing k front' w' behind' →
        m.start ≤ (front'.flatMap Lexeme.text).length := by
  have right := List.find?_some found
  rw [Bool.and_eq_true, Bool.not_eq_true', beq_iff_eq] at right
  obtain ⟨front, behind, read, place, standing⟩ :=
    standing_of_mem_hits ascii balanced (List.mem_of_find?_eq_some found) right.1 right.2
  refine ⟨front, behind, read, place, standing, fun front' w' behind' read' other => ?_⟩
  obtain ⟨first, again, early⟩ := topLevel?_of_standing ascii read' other
  rw [found] at again
  cases again
  exact early

end Pattern

end LiteSql
