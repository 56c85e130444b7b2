import Mathlib.Data.List.Find
import LiteSql.Proofs.ArgumentSeam
import LiteSql.Proofs.WholeWord

/-! Clauses of a call. Where closed texts stand one behind another with words between them, the
first match outside parentheses is the first of each in turn, and the commas of all of them divide
the whole. -/

namespace LiteSql

/-! ### The first match outside parentheses -/

namespace Pattern

variable {p : Pattern}

/-- What is left of a pattern does not go on where a text starts that blocks it. -/
theorem local_of_blocked (plain : p.looksAhead = false) {t : Text}
    (ended : t.head?.any isWordChar = false)
    (present : t ≠ []) (stuck : blocked p.rests t = true) (x rest : Text) :
      p.Local none 0 x (t ++ rest) := by
  refine local_of_spans_stop plain ?_ fun w z _ filled u after caps cut taken => ?_
  · rwa [List.head?_append_of_ne_nil _ present]
  · obtain ⟨q, left, late, goes⟩ := exists_rests taken filled
    exact eq_nil_of_blocked stuck left cut.symm goes

theorem local_of_refuses {x : Text} (refused : ∀ c ∈ x, p.refuses c = true) (y : Text) :
    p.Local none 0 x y := by
  refine local_of_spans_eq_nil fun w z cut filled u after caps there taken => ?_
  obtain ⟨c, z, rfl⟩ := List.exists_cons_of_ne_nil filled
  cases u with
  | nil => rfl
  | cons d u =>
      have same : d = c := by
        rcases there with there | there
        · exact (List.cons.inj there).1.symm
        · exact (List.cons.inj there).1.symm
      subst same
      have member : d ∈ x := cut ▸ List.mem_append_right w List.mem_cons_self
      exact absurd rfl (head?_ne_of_spans (refused d member) taken)

theorem inLiteral_append_right {x y : Text} (read : lexemes (x ++ y) = lexemes x ++ lexemes y)
    (pos : Nat) :
    InLiteral (x ++ y) (pos + x.length) ↔ InLiteral y pos := by
  rw [inLiteral_iff_marked, inLiteral_iff_marked, marked_append read,
    List.getElem?_append_right (by rw [length_marked]; omega), length_marked, Nat.add_sub_cancel]

theorem foldr_markedTurns (ls : List (Char × Bool)) (depth : Int) :
    ls.foldr (fun c depth => markedTurn c + depth) depth =
      ls.foldr (fun c depth => markedTurn c + depth) 0 + depth := by
  induction ls with
  | nil => simp
  | cons c ls ih => rw [List.foldr_cons, List.foldr_cons, ih, Int.add_assoc]

theorem depthAt_append_left {x y : Text} (read : lexemes (x ++ y) = lexemes x ++ lexemes y)
    {pos : Nat}
    (inside : pos ≤ x.length) : depthAt (x ++ y) pos = depthAt x pos := by
  rw [depthAt, depthAt, marked_append read, List.take_append_of_le_length (by rwa [length_marked])]

theorem depthAt_append_right {x y : Text} (read : lexemes (x ++ y) = lexemes x ++ lexemes y)
    (balanced : Balanced (lexemes x)) (pos : Nat) : depthAt (x ++ y) (pos + x.length) =
      depthAt y pos := by
  have level (depth : Int) : (marked x).foldr (fun c depth => markedTurn c + depth)
      depth = depth := by
    have zero := foldr_turn_of_levelAfter balanced
    rw [marked, foldr_markedTurns, foldr_marked]
    omega
  rw [depthAt, depthAt, marked_append read, List.take_append,
    List.take_of_length_le (by rw [length_marked]; omega), length_marked, Nat.add_sub_cancel,
    List.foldr_append, level]

theorem start_lt_of_mem_hits {s : Text} {m : Match} (member : m ∈ p.hits s) :
    m.start < s.length := by
  obtain ⟨front, after, caps, rfl, start, present, -⟩ := takes_of_mem_hits member
  have filled := List.length_pos_of_ne_nil present
  simp only [List.length_append]
  omega

theorem topLevel?_append {x y : Text} (read : lexemes (x ++ y) = lexemes x ++ lexemes y)
    (balanced : Balanced (lexemes x)) (same : p.Local none 0 x y)
    (fresh : x.getLast?.any isWordChar = false ∨ y.head?.all (fun c => p.refuses c) = true) :
    p.topLevel? (x ++ y) = (p.topLevel? x).or ((p.topLevel? y).map (Match.moved x.length)) := by
  have cut : p.hits (x ++ y) = p.hits x ++ (p.hits y).map (Match.moved x.length) := by
    rw [hits, pieces_append same fresh, List.filterMap_append, List.filterMap_map, hits, hits,
      List.map_filterMap]
    congr 2
    funext piece
    cases piece <;> rfl
  have left : ∀ m ∈ p.hits x, (!inSpans (literalSpans (x ++ y)) m.start && depthAt
      (x ++ y) m.start == 0) =
      (!inSpans (literalSpans x) m.start && depthAt x m.start == 0) := by
    intro m member
    have inside := start_lt_of_mem_hits member
    rw [depthAt_append_left read (Nat.le_of_lt inside)]
    congr 2
    rw [Bool.eq_iff_iff, inSpans_literalSpans_iff, inSpans_literalSpans_iff,
      inLiteral_append_left read inside]
  have right (m : Match) : (!inSpans (literalSpans (x ++ y)) (m.moved x.length).start &&
      depthAt (x ++ y) (m.moved x.length).start == 0) =
        (!inSpans (literalSpans y) m.start && depthAt y m.start == 0) := by
    rw [show (m.moved x.length).start = m.start + x.length from rfl,
      depthAt_append_right read balanced]
    congr 2
    rw [Bool.eq_iff_iff, inSpans_literalSpans_iff, inSpans_literalSpans_iff,
      inLiteral_append_right read]
  simp only [topLevel?]
  rw [cut, List.find?_append, List.find?_map]
  congr 1
  · exact List.find?_congr left
  · exact congrArg (Option.map _) (List.find?_congr fun m _ => right m)

theorem topLevel?_start {w rest : Text} {m : Match} (present : w ≠ [])
    (plain : ∀ c ∈ w, isPlain c = true)
    (found : p.matchAt? ⟨0, none, w ++ rest, []⟩ = some m) (text : m.text = w) :
      p.topLevel? (w ++ rest) = some m := by
  obtain ⟨c, w, rfl⟩ := List.exists_cons_of_ne_nil present
  have start : m.start = 0 := by
    obtain ⟨-, -, -, place, -⟩ := takes_of_matchAt? found rfl
    exact place
  have outside : inSpans (literalSpans (c :: w ++ rest)) m.start = false := by
    rw [← Bool.not_eq_true, inSpans_literalSpans_iff, inLiteral_iff_marked, start, marked,
      lexemes_append_of_isPlain _ _ plain]
    simp [Lexeme.marked]
  rw [topLevel?, hits, pieces, List.cons_append, piecesAfter]
  rw [List.cons_append] at found outside
  rw [found, Option.filter_some_pos (by rw [text]; rfl), List.filterMap_cons, Piece.hit?]
  rw [List.find?_cons_of_pos]
  rw [outside, start]
  rfl

theorem topLevel?_space {w rest : Text} {m : Match} (refused : p.refuses ' ' = true)
    (present : w ≠ [])
    (plain : ∀ c ∈ w, isPlain c = true) (found : p.matchAt? ⟨0, none, w ++ rest, []⟩ = some m)
    (text : m.text = w) :
    p.topLevel? (' ' :: (w ++ rest)) = some (m.moved 1) := by
  have alone : p.hits [' '] = [] := by
    rw [hits, pieces, piecesAfter_of_refuses refused]
    rfl
  have read : lexemes ([' '] ++ (w ++ rest)) = lexemes [' '] ++ lexemes (w ++ rest) :=
    lexemes_append_of_isPlain [' '] (w ++ rest) (by decide)
  have whole := topLevel?_append (p := p) read rfl (local_of_refuses (by simpa using refused) _)
    (.inl rfl)
  rw [topLevel?_start present plain found text, show p.topLevel? [' '] =
    none by rw [topLevel?, alone]; rfl] at whole
  exact whole

end Pattern

/-! ### Arguments that are divided by the commas of several texts -/

theorem extendFirst_nil {pieces : List Text} (present : pieces ≠ []) :
    extendFirst [] pieces = pieces := by
  obtain ⟨x, pieces, rfl⟩ := List.exists_cons_of_ne_nil present
  rfl

theorem exists_piecesAt_append {depth : Nat} {ls : List Lexeme}
    (level : levelAfter depth ls = some 0) :
    ∃ init last front, piecesAt depth ls = init ++ [last] ∧ ls.flatMap Lexeme.text = front ++ last ∧
      (init = [] → front = []) ∧ ∀ ms, piecesAt depth (ls ++ ms) = init ++ extendFirst last
      (piecesAt 0 ms) := by
  induction ls generalizing depth with
  | nil =>
      obtain rfl : depth = 0 := Option.some.inj level
      exact ⟨[], [], [], rfl, rfl, fun _ => rfl, fun ms =>
        (extendFirst_nil (piecesAt_ne_nil 0 ms)).symm⟩
  | cons l ls ih =>
      rw [levelAfter] at level
      split at level
      · cases level
      · next later =>
          have turn := add_turn later
          obtain ⟨init, last, front, own, text, alone, glued⟩ := ih level
          by_cases comma : l = .code ',' ∧ depth = 0
          · obtain ⟨rfl, rfl⟩ := comma
            refine ⟨[] :: init, last, ',' :: front, ?_, ?_, fun none =>
              absurd none (List.cons_ne_nil _ _), fun ms => ?_⟩
            · rw [piecesAt, if_pos ⟨rfl, rfl⟩]
              exact congrArg _ own
            · rw [List.flatMap_cons, text]
              rfl
            · rw [List.cons_append, piecesAt, if_pos ⟨rfl, rfl⟩]
              exact congrArg _ (glued ms)
          · have other : ¬ (l = .code ',' ∧ (depth : Int) = 0) := by
              rintro ⟨same, zero⟩
              exact comma ⟨same, by omega⟩
            cases init with
            | nil =>
                obtain rfl := alone rfl
                refine ⟨[], l.text ++ last, [], ?_, ?_, fun _ => rfl, fun ms => ?_⟩
                · rw [piecesAt, if_neg other, turn, own]
                  rfl
                · rw [List.flatMap_cons, text]
                  rfl
                · obtain ⟨x, pieces, start⟩ := List.exists_cons_of_ne_nil (piecesAt_ne_nil 0 ms)
                  rw [List.cons_append, piecesAt, if_neg other, turn, glued, start]
                  simp [extendFirst]
            | cons first init =>
                refine ⟨(l.text ++ first) :: init, last, l.text ++ front, ?_, ?_,
                  fun none => absurd none (List.cons_ne_nil _ _), fun ms => ?_⟩
                · rw [piecesAt, if_neg other, turn, own]
                  rfl
                · rw [List.flatMap_cons, text, List.append_assoc]
                · rw [List.cons_append, piecesAt, if_neg other, turn, glued]
                  rfl

theorem piecesAt_code {x : Text} (flat : ∀ c ∈ x, c ≠ '(' ∧ c ≠ ')' ∧ c ≠ ',') (ls : List Lexeme) :
    piecesAt 0 (x.map .code ++ ls) = extendFirst x (piecesAt 0 ls) := by
  induction x with
  | nil => exact (extendFirst_nil (piecesAt_ne_nil 0 ls)).symm
  | cons c x ih =>
      obtain ⟨⟨opened, closed, comma⟩, others⟩ := List.forall_mem_cons.mp flat
      have turn : (Lexeme.code c).turn = 0 := by simp [Lexeme.turn, opened, closed]
      rw [List.map_cons, List.cons_append, piecesAt, if_neg (by simp [comma]), turn, Int.add_zero,
        ih others]
      obtain ⟨y, pieces, start⟩ := List.exists_cons_of_ne_nil (piecesAt_ne_nil 0 ls)
      rw [start]
      rfl

theorem head?_of_piecesAt {v y : Text} {ys : List Text} (present : v ≠ [])
    (first : piecesAt 0 (lexemes v) = y :: ys) :
    if v.head? = some ',' then y = [] else y.head? = v.head? := by
  split
  · next comma =>
      obtain ⟨c, v, rfl⟩ := List.exists_cons_of_ne_nil present
      obtain rfl : c = ',' := Option.some.inj comma
      have read : lexemes (',' :: v) = .code ',' :: lexemes v :=
        lexemes_append_of_isPlain [','] v (by decide)
      rw [read, piecesAt, if_pos ⟨rfl, rfl⟩] at first
      exact (List.cons.inj first).1.symm
  · next other =>
      cases read : lexemes v with
      | nil =>
          rw [← flatMap_text_lexemes v, read] at present
          exact absurd rfl present
      | cons l ls =>
          obtain ⟨rest, rfl, leads, -⟩ := exists_leads_of_lexemes_eq_cons read
          have filled := Lexeme.text_ne_nil_of_leads leads
          have comma : ¬ (l = .code ',' ∧ (0 : Int) = 0) := by
            rintro ⟨rfl, -⟩
            exact other rfl
          obtain ⟨x, pieces, start⟩ := List.exists_cons_of_ne_nil (piecesAt_ne_nil (0 + l.turn) ls)
          rw [read, piecesAt, if_neg comma, start] at first
          obtain rfl := (List.cons.inj first).1
          rw [List.head?_append_of_ne_nil _ filled, List.head?_append_of_ne_nil _ filled]

theorem joinWith_append_cons (separator : Text) (init : List Text) (a b : Text) (ys : List Text) :
    joinWith separator (init ++ (a ++ b) :: ys) = joinWith separator
      (init ++ [a]) ++ joinWith separator (b :: ys) := by
  induction init with
  | nil =>
      rw [List.nil_append, List.nil_append, ← joinWith_extendFirst _ _ _ (List.cons_ne_nil b ys)]
      rfl
  | cons x init ih =>
      rw [List.cons_append, joinWith_cons (by simp), List.cons_append, joinWith_cons (by simp), ih]
      simp only [List.append_assoc]

/-- A text that can stand in a call before others: trimmed and not blank, with its literals and
parentheses closed, and without a line comment. -/
structure IsClosedText (s : Text) : Prop where
  filled : s ≠ []
  trimmed : trim s = s
  closed : ¬ InLiteral (s ++ [' ']) s.length
  uncommented : ∀ l ∈ lexemes s, l.isLineComment = false
  balanced : Balanced (lexemes s)

/-- A text whose commas outside parentheses are written with one space behind them. -/
structure IsListText (s : Text) : Prop extends IsClosedText s where
  spaced : joinArguments (splitArguments s) = s

namespace IsClosedText

variable {s : Text} (text : IsClosedText s)

include text

theorem first : s.head?.any isBlank = false := by
  have first := head?_trim s
  rwa [text.trimmed] at first

theorem last : s.getLast?.any isBlank = false := by
  have last := getLast?_trim s
  rwa [text.trimmed] at last

theorem sealed : Sealed (lexemes s) := sealed_of_not_inLiteral text.closed text.uncommented

theorem lexemes_append {v : Text} (neutral : StartsNeutral v) :
    lexemes (s ++ v) = lexemes s ++ lexemes v := by
  have read := text.sealed.read v neutral
  rwa [flatMap_text_lexemes] at read

theorem splitArguments_eq : splitArguments s = (piecesAt 0 (lexemes s)).map trim := by
  rw [splitArguments, if_neg]
  intro blank
  obtain ⟨c, rest, rfl⟩ := List.exists_cons_of_ne_nil text.filled
  have first := text.first
  rw [List.head?_cons, Option.any_some, List.all_eq_true.mp blank c List.mem_cons_self] at first
  cases first

end IsClosedText

/-- A pattern that is not found in a closed text is found behind it, if it cannot go on from one
into the other. -/
theorem IsClosedText.topLevel?_append {x : Text} (text : IsClosedText x) {p : Pattern}
    (plain : p.looksAhead = false)
    (refused : p.refuses ' ' = true) {t : Text} (stuck : Pattern.blocked p.rests (' ' :: t) = true)
    (rest : Text)
    (free : p.topLevel? x = none) :
    p.topLevel? (x ++ (' ' :: t ++ rest)) = (p.topLevel? (' ' :: t ++ rest)).map
      (Match.moved x.length) := by
  have neutral : StartsNeutral (' ' :: t ++ rest) := rfl
  rw [Pattern.topLevel?_append (text.lexemes_append neutral) text.balanced
    (Pattern.local_of_blocked plain rfl (List.cons_ne_nil _ _) stuck x rest) (.inr refused), free,
    Option.none_or]

structure IsWords (k : Text) : Prop where
  present : k ≠ []
  last : k.getLast?.any isBlank = false
  neutral : ∀ c ∈ k, ScanState.isNeutral c = true ∧ c ≠ '(' ∧ c ≠ ')' ∧ c ≠ ','

/-- What stands between a word and a text behind it, when the arguments of a call are written again.
-/
def space (t : Text) : Text := if t.head? = some ',' then [] else [' ']

theorem space_append {t : Text} (present : t ≠ []) (rest : Text) : space (t ++ rest) = space t := by
  rw [space, space, List.head?_append_of_ne_nil _ present]

theorem trim_append_words {x k y : Text} (present : trim x ≠ [])
    (ended : x.getLast?.any isBlank = false)
    (words : IsWords k) (first : y.head?.any isBlank = false) :
    trim (x ++ (' ' :: (k ++ ' ' :: y))) = trim x ++
      (' ' :: (k ++ if y = [] then [] else ' ' :: trim y)) := by
  have solid : x.dropWhile isBlank ≠ [] := by
    intro none
    rw [trim, none] at present
    exact present rfl
  have core : trim x = x.dropWhile isBlank := by
    refine trimEnd_eq_self ?_
    obtain ⟨front, cut⟩ := List.dropWhile_suffix (l := x) isBlank
    rwa [← cut, List.getLast?_append_of_ne_nil _ solid] at ended
  have start : (x ++ (' ' :: (k ++ ' ' :: y))).dropWhile isBlank =
      x.dropWhile isBlank ++ (' ' :: (k ++ ' ' :: y)) := by
    rw [List.dropWhile_append, if_neg (by simpa using solid)]
  rw [trim, start, core]
  split
  · next none =>
      subst none
      have blank : trimEnd ((x.dropWhile isBlank ++ ' ' :: k) ++ [' ']) =
          trimEnd (x.dropWhile isBlank ++ ' ' :: k) :=
        dropEndWhile_append isBlank _ (by decide)
      have last : (x.dropWhile isBlank ++ ' ' :: k).getLast?.any isBlank = false := by
        rw [List.getLast?_append_of_ne_nil _ (List.cons_ne_nil _ _), ← List.singleton_append,
          List.getLast?_append_of_ne_nil _ words.present]
        exact words.last
      rw [trimEnd_eq_self last] at blank
      simpa using blank
  · next filled =>
      have solid : trimEnd y ≠ [] := by
        obtain ⟨c, y, rfl⟩ := List.exists_cons_of_ne_nil filled
        rw [List.head?_cons, Option.any_some] at first
        simp [trimEnd, dropEndWhile, first]
      have whole := trimEnd_append (x.dropWhile isBlank ++ (' ' :: (k ++ [' ']))) y
      rw [if_neg solid] at whole
      rw [trim, dropWhile_of_head? first]
      simpa using whole

section

variable {u v : Text} (first : IsClosedText u)

include first

theorem IsClosedText.lexemes_append_middle {middle : Text} (present : middle ≠ [])
    (neutral : ∀ c ∈ middle, ScanState.isNeutral c = true) :
    lexemes (u ++ (middle ++ v)) = lexemes u ++ (middle.map .code ++ lexemes v) := by
  obtain ⟨c, middle, rfl⟩ := List.exists_cons_of_ne_nil present
  rw [first.lexemes_append (show StartsNeutral (c :: middle ++ v)
    from neutral c List.mem_cons_self), lexemes_append_of_isPlain _ _ fun d member =>
      isPlain_of_isNeutral (neutral d member)]

theorem IsClosedText.append {middle : Text} (second : IsClosedText v) (present : middle ≠ [])
    (neutral : ∀ c ∈ middle, ScanState.isNeutral c = true ∧ c ≠ '(' ∧ c ≠ ')') :
      IsClosedText (u ++ (middle ++ v)) := by
  have read := first.lexemes_append_middle (v := v) present fun c member => (neutral c member).1
  have closed : Sealed (lexemes (u ++ (middle ++ v))) := by
    rw [read]
    obtain ⟨c, middle, rfl⟩ := List.exists_cons_of_ne_nil present
    obtain ⟨head, others⟩ := List.forall_mem_cons.mp neutral
    exact first.sealed.append head.1 (.code_append (fun d member => (others d member).1)
      second.sealed)
  refine ⟨by simp [first.filled], trim_eq_self ?_ ?_, closed.not_inLiteral, closed.plain, ?_⟩
  · rw [List.head?_append_of_ne_nil _ first.filled]
    exact first.first
  · rw [← List.append_assoc, List.getLast?_append_of_ne_nil _ second.filled]
    exact second.last
  · rw [read]
    exact first.balanced.append ((balanced_map_code fun c member => (neutral c member).2).append
      second.balanced)

end

theorem joinArguments_splitArguments_words {u v k : Text} (first : IsListText u)
    (second : IsClosedText v)
    (words : IsWords k) : joinArguments (splitArguments (u ++ (' ' :: (k ++ [' ']) ++ v))) =
      u ++ (' ' :: (k ++ (space v ++ joinArguments (splitArguments v)))) := by
  have flat : ∀ c ∈ ' ' :: (k ++ [' ']), ScanState.isNeutral c = true ∧ c ≠ '(' ∧ c ≠ ')' ∧
      c ≠ ',' := by
    simp only [List.forall_mem_cons, List.forall_mem_append]
    exact ⟨by decide, words.neutral, by decide, nofun⟩
  have whole := first.toIsClosedText.append second (List.cons_ne_nil ' ' (k ++ [' ']))
    fun c member =>
    ⟨(flat c member).1, (flat c member).2.1, (flat c member).2.2.1⟩
  obtain ⟨init, x, front, own, text, -, glued⟩ := exists_piecesAt_append first.balanced
  rw [show ((0 : Nat) : Int) = 0 from rfl] at own
  obtain ⟨y, ys, start⟩ := List.exists_cons_of_ne_nil (piecesAt_ne_nil 0 (lexemes v))
  have joined := first.spaced
  rw [first.toIsClosedText.splitArguments_eq, own, List.map_append, joinArguments,
    List.map_singleton] at joined
  -- the last piece of the first text is not blank, or the text would end in a blank
  have solid : trim x ≠ [] := by
    intro none
    rw [none] at joined
    cases init with
    | nil => exact first.filled joined.symm
    | cons z init =>
        have last := first.toIsClosedText.last
        rw [← joined, joinWith_append_one (by simp), List.append_nil,
          List.getLast?_append_of_ne_nil _ (show ", ".toList ≠ [] by decide)] at last
        cases last
  have ended : x.getLast?.any isBlank = false := by
    have present : x ≠ [] := by
      rintro rfl
      exact solid rfl
    have last := first.toIsClosedText.last
    rwa [← flatMap_text_lexemes u, text, List.getLast?_append_of_ne_nil _ present] at last
  have head := head?_of_piecesAt second.filled start
  have solid' : y.head?.any isBlank = false := by
    split at head
    · rw [head]
      rfl
    · rw [head]
      exact second.first
  have empty : y = [] ↔ v.head? = some ',' := by
    split at head
    · next comma => exact ⟨fun _ => comma, fun _ => head⟩
    · next other =>
        refine ⟨?_, fun comma => absurd comma other⟩
        rintro rfl
        obtain ⟨c, v, rfl⟩ := List.exists_cons_of_ne_nil second.filled
        cases head
  rw [whole.splitArguments_eq, first.toIsClosedText.lexemes_append_middle
    (List.cons_ne_nil _ _) fun c member => (flat c member).1, ← show ((0 : Nat) : Int) = 0 from rfl,
    glued, piecesAt_code fun c member => (flat c member).2, start,
    second.splitArguments_eq, start]
  simp only [extendFirst, List.map_append, List.map_cons, joinArguments]
  rw [show x ++ (' ' :: (k ++ [' ']) ++ y) = x ++ (' ' :: (k ++ ' ' :: y)) by simp,
    trim_append_words solid ended words solid', joinWith_append_cons, joined]
  congr 1
  have behind := joinWith_extendFirst ", " (' ' :: (k ++ space v)) (trim y :: ys.map trim)
    (List.cons_ne_nil _ _)
  rw [extendFirst] at behind
  have tail : k ++ (if y = [] then [] else ' ' :: trim y) = k ++ (space v ++ trim y) := by
    rw [space, ← if_congr empty rfl rfl]
    split
    · next none =>
        subst none
        rfl
    · rfl
  rw [tail]
  simpa using behind

/-! ### Calls -/

section

variable {name : Text}

theorem uncalling_of_not_mem {k : Text} (none : '(' ∉ k) : Uncalling name k :=
  fun _ _ _ opened => absurd (List.mem_of_getElem? opened) none

variable (word : ∀ c ∈ name, isWordChar c = true) {m : Type → Type} [Monad m] [LawfulMonad m]
  (action : List Text → m (Option Text))

include word

theorem IsClosedText.replaceCallsM_append {u v : Text} (text : IsClosedText u)
    (neutral : StartsNeutral v)
    (sign : v.head?.all (fun c => isSign c && c != '(') = true)
    (first : replaceCallsM name action u = pure u)
    (second : replaceCallsM name action v = pure v) : replaceCallsM name action (u ++ v) =
      pure (u ++ v) := by
  have read := text.lexemes_append neutral
  have apart : CallsApart name u v := fun _ inside close =>
    isCall_append_iff word read text.balanced sign inside close
  rw [apart.replaceCallsM_append word action read (.inr sign), first, second, pure_bind, pure_bind]

theorem replaceCallsM_words {t v : Text} (lead : IsLead t) (flat : '(' ∉ t)
    (behind : replaceCallsM name action v = pure v) :
    replaceCallsM name action (t ++ v) = pure (t ++ v) := by
  rw [replaceCallsM_lead word action lead (uncalling_of_not_mem flat), behind, pure_bind]

end

end LiteSql
