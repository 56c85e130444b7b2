import LiteSql.Proofs.Answers
import LiteSql.Proofs.ArgumentSeam
import LiteSql.Proofs.Keyword
import LiteSql.Proofs.WholeWord

/-! Rules around arguments. A rule that leaves an argument as it is, and the texts before and behind
it, also leaves them as they are when they stand together. -/

namespace LiteSql

def lacks (ks ws : List Text) : Bool := ws.all fun w => ks.all fun k => !spelled k w

theorem spelled_eq_false {ks ws : List Text} (free : lacks ks ws = true) {k w : Text}
    (known : k ∈ ks)
    (member : w ∈ ws) : spelled k w = false := by
  simpa using List.all_eq_true.mp (List.all_eq_true.mp free w member) k known

namespace Rule

def keeps : Rule → Text → Bool
  | undefined _, _ => false
  | template _ function _ _, t | call _ function _, t => lacks [function] (codeWords t)
  | pattern _ wanted replacement, t => decide (wanted.replaceCode replacement t = t)

def keepsBefore : Rule → Text → Bool
  | undefined _, _ => false
  | template _ function _ _, t | call _ function _, t => lacks [function] (words t)
  | pattern _ _ _, t => lacks patternWords (codeWords t)

def keepsBehind : Rule → Text → Bool
  | undefined _, _ => false
  | template _ _ _ _, _ | call _ _ _, _ => true
  | pattern _ wanted _, t => wanted.stopsBefore t

/-- A rule that does leave texts around arguments as they are where it is seen to. -/
structure Handles (rule : Rule) : Prop where
  alone : ∀ t, rule.keeps t = true → rule.apply t = .ok t
  before : ∀ t v, IsLead t → rule.keepsBefore t = true → v.head?.any isBlank = false →
    rule.apply v = .ok v →
    rule.apply (t ++ v) = .ok (t ++ v)
  behind : ∀ a t rest, IsArgument a → IsFollow t → rule.keepsBehind t = true →
    rule.apply a = .ok a →
    rule.apply (t ++ rest) = .ok (t ++ rest) → rule.apply (a ++ (t ++ rest)) =
      .ok (a ++ (t ++ rest))

end Rule

/-! ### Rules that replace calls -/

theorem uncalling_of_lacks {name t : Text} (ascii : IsAsciiWord name)
    (free : lacks [name] (words t) = true) :
    Uncalling name t := by
  intro pos _ named opened
  rw [← Bool.not_eq_false]
  intro apart
  have bound := (List.getElem?_eq_some_iff.mp opened).1
  have same : spelled name ((t.drop pos).take name.length) = true := by
    rw [spelled_iff, startsIgnoringCase_take _ _ _ (Nat.le_refl _), List.length_take,
      List.length_drop]
    exact ⟨named, by omega⟩
  have here : (t.drop pos)[name.length]? = some '(' := by rw [List.getElem?_drop, opened]
  have cut := take_append_cons_drop _ _ _ here
  generalize (t.drop pos).take name.length = w at same cut
  obtain ⟨filled, letters⟩ := isWordChar_of_spelled ascii same
  have member : w ∈ words t := by
    refine (mem_words_iff _ _).mpr ⟨t.take pos, t.drop pos, (List.take_append_drop pos t).symm,
      ?_, ?_, ?_⟩
    · cases last : (t.take pos).getLast? with
      | none => rfl
      | some c =>
          rw [last, Option.any_some] at apart
          exact Bool.eq_false_iff.mpr fun letter => by
            simp [continuesName_of_isWordChar c letter] at apart
    · obtain ⟨c, w, rfl⟩ := List.exists_cons_of_ne_nil filled
      rw [← cut]
      exact letters c List.mem_cons_self
    · have sign : isWordChar '(' = false := by decide
      rw [← cut, Pattern.takeWhile_append_of_ended letters (by simpa using sign)]
  rw [spelled_eq_false free (List.mem_singleton_self name) member] at same
  cases same

theorem Rule.handles_call {rule : Rule} (member : rule ∈ table) {function : Text}
    (named : rule.function? = some function) : rule.Handles := by
  have ascii := isAsciiWord_function? member named
  have word : ∀ c ∈ function, isWordChar c = true := fun c inside => (ascii.2 c inside).2
  have keeps : rule.keeps = fun t => lacks [function] (codeWords t) := by
    cases rule <;> cases named <;> rfl
  have keepsBefore : rule.keepsBefore = fun t => lacks [function] (words t) := by
    cases rule <;> cases named <;> rfl
  obtain ⟨action, -, apply⟩ := exists_action? named
  refine ⟨?_, ?_, ?_⟩
  · intro t free
    rw [keeps] at free
    rw [apply]
    refine replaceCallsM_uncalled word action fun pos close call => ?_
    obtain ⟨w, inside, same⟩ := call.exists_mem_codeWords ascii
    rw [spelled_eq_false free (List.mem_singleton_self function) inside] at same
    cases same
  · intro t v lead free _ kept
    rw [keepsBefore] at free
    rw [apply] at kept ⊢
    rw [replaceCallsM_lead word action lead (uncalling_of_lacks ascii free), kept]
    rfl
  · intro a t rest argument follow _ first second
    rw [apply] at first second ⊢
    rw [replaceCallsM_argument word action argument follow, first, second]
    rfl

/-! ### Rules that replace matches -/

namespace Pattern

variable {p : Pattern} {replacement : Match → Text}

theorem reads_eq_false {ws : List Text} (free : lacks patternWords ws = true) {w : Text}
    (member : w ∈ ws)
    {head : Head} (listed : head ∈ wholeHeads) : head.reads w = false := by
  obtain ⟨k, known, rfl⟩ := List.mem_map.mp listed
  exact spelled_eq_false free known member

theorem replaceCode_of_lacks (announced : p.Announces wholeHeads) {t : Text}
    (free : lacks patternWords (codeWords t) = true) : p.replaceCode replacement t = t :=
  replaceCode_of_codeHits_eq_nil
    (announced.codeHits_eq_nil fun _ member _ listed => reads_eq_false free member listed)
      replacement

theorem lacks_words {ks : List Text} {t x : Text} (free : lacks ks (codeWords t) = true)
    (member : x ∈ codeSegments t) :
    lacks ks (words x) = true := by
  rw [lacks, List.all_eq_true] at free ⊢
  intro w word
  exact free w (codeWords_eq t ▸ List.mem_flatMap.mpr ⟨x, member, word⟩)

/-- A rule that finds the same in a text as in the text and an argument behind it, and the same in
an argument as in the argument and a text behind it, leaves both as they are. -/
theorem handles_of_local {name : Text} (placeless : Placeless replacement)
    (announced : p.Announces wholeHeads)
    (before : ∀ t v, IsLead t → lacks patternWords (codeWords t) = true →
      v.head?.any isBlank = false →
      p.replaceCode replacement v = v →
      ∀ front x y behind, lexemes t = front ++ x.map .code → lexemes v = y.map .code ++ behind →
        (∀ c rest, behind ≠ .code c :: rest) → x ∈ codeSegments t → p.Local none 0 x y)
    (behind : ∀ a t rest, IsArgument a → IsFollow t → p.stopsBefore t = true →
      p.replaceCode replacement a = a →
      ∀ front x y behind, lexemes a = front ++ x.map .code →
        lexemes (t ++ rest) = y.map .code ++ behind →
        (∀ c rest, behind ≠ .code c :: rest) → x ∈ codeSegments a → p.Local none 0 x y) :
    (Rule.pattern name p replacement).Handles := by
  have kept {s : Text} (same : (Rule.pattern name p replacement).apply s = .ok s) :
      p.replaceCode replacement s = s := Except.ok.inj same
  refine ⟨fun t same => congrArg Except.ok (of_decide_eq_true same), ?_, ?_⟩
  · intro t v lead free filled second
    have both := replaceCode_lead placeless lead (before t v lead free filled (kept second))
    rw [replaceCode_of_lacks announced free, kept second] at both
    exact congrArg Except.ok both
  · intro a t rest argument follow stops first second
    have refused : t.head?.all (fun c => p.refuses c) = true := (Bool.and_eq_true _ _ ▸ stops).1
    have both := replaceCode_argument placeless argument follow refused
      (behind a t rest argument follow stops (kept first))
    rw [kept first, kept second] at both
    exact congrArg Except.ok both

theorem local_of_begins (begun : p.Begins wholeHeads) {x : Text}
    (free : lacks patternWords (words x) = true)
    (last : x.getLast?.any isWordChar = false) (y : Text) : p.Local none 0 x y := by
  refine local_of_spans_eq_nil fun w z cut present u after caps here taken =>
    absurd taken fun taken => ?_
  obtain ⟨apart, letter, head, listed, reads⟩ := begun taken
  rw [Option.or_none] at apart
  have same : (u ++ after).takeWhile isWordChar = z.takeWhile isWordChar := by
    rcases here with here | here
    · rw [← here, List.takeWhile_append, if_neg]
      intro full
      have letters := List.takeWhile_eq_self_iff.mp
        ((List.takeWhile_prefix isWordChar).eq_of_length full)
      rw [cut, List.getLast?_append, List.getLast?_eq_some_getLast present, Option.some_or,
        Option.any_some, letters _ (List.getLast_mem present)] at last
      cases last
    · rw [← here]
  have start : z.head?.any isWordChar = true := by
    obtain ⟨c, z, rfl⟩ := List.exists_cons_of_ne_nil present
    rcases here with here | here
    · rwa [← here] at letter
    · rwa [← here] at letter
  have member : z.takeWhile isWordChar ∈ words x :=
    (mem_words_iff _ _).mpr ⟨w, z, cut, apart, start, rfl⟩
  rw [same, reads_eq_false free member listed] at reads
  cases reads

/-- A pattern that starts with a word missing before an argument, and stops behind it, leaves both
as they are. -/
theorem handles {name : Text} (placeless : Placeless replacement) (begun : p.Begins wholeHeads)
    (plain : p.looksAhead = false) (tidy : p.Tidy) : (Rule.pattern name p replacement).Handles := by
  refine handles_of_local placeless begun.announces ?_ ?_
  · intro t v lead free _ _ front x y behind cut _ _ member
    exact local_of_begins begun (lacks_words free member) (lead.any_getLast?_run cut) y
  · intro a t rest argument follow stops _ front x y behind cut read ended _
    exact local_argument plain tidy argument follow stops cut read ended

/-! ### Rules that always change what they match -/

def Differs (p : Pattern) (replacement : Match → Text) : Prop :=
  ∀ ⦃before m after caps⦄, p.Takes before m after caps →
    ∃ c y, replacement m = c :: y ∧ m.text.head? ≠ some c

theorem filterMap_hit?_eq_nil {pieces : List Piece} {A B : Text}
    (differs : ∀ m, .hit m ∈ pieces → m.text ≠ [] ∧ ∃ c y, replacement m = c :: y ∧
      m.text.head? ≠ some c)
    (same : pieces.flatMap (replaced replacement) ++ A = pieces.flatMap Piece.text ++ B) :
    pieces.filterMap Piece.hit? = [] ∧ A = B := by
  induction pieces with
  | nil => exact ⟨rfl, same⟩
  | cons piece pieces ih =>
      cases piece with
      | plain c =>
          exact ih (fun m member => differs m (List.mem_cons_of_mem _ member))
            (List.cons.inj same).2
      | hit m =>
          obtain ⟨filled, c, y, text, other⟩ := differs m List.mem_cons_self
          obtain ⟨d, z, content⟩ := List.exists_cons_of_ne_nil filled
          rw [List.flatMap_cons, List.flatMap_cons, replaced, text, Piece.text, content] at same
          rw [content, ← (List.cons.inj same).1] at other
          exact absurd rfl other

theorem codeHits_eq_nil_of_kept (differs : p.Differs replacement) {s : Text}
    (kept : p.replaceCode replacement s = s) : p.codeHits s = [] := by
  have changed {x A B : Text} (same : p.replace replacement x ++ A = x ++ B) : p.hits x = [] ∧
      A = B := by
    rw [replace_eq] at same
    refine filterMap_hit?_eq_nil (fun m member => ?_) (same.trans (by rw [flatMap_text_pieces]))
    obtain ⟨_, _, _, -, -, filled, taken⟩ :=
      takes_of_mem_hits (List.mem_filterMap.mpr ⟨_, member, rfl⟩)
    exact ⟨filled, differs taken⟩
  rw [replaceCode, mapCode] at kept
  have whole := kept.trans (flatMap_text_segments s).symm
  rw [codeHits, List.flatMap_eq_nil_iff, codeSegments]
  generalize segments s = segs at whole
  clear kept
  induction segs with
  | nil => exact List.forall_mem_nil _
  | cons segment segs ih =>
      cases segment with
      | literal text => exact ih (List.append_cancel_left whole)
      | code x =>
          obtain ⟨none, others⟩ := changed whole
          exact List.forall_mem_cons.mpr ⟨none, ih others⟩

theorem exists_takes {before : Option Char} {pos : Nat} {x after : Text} {caps : List Capture}
    (taken : p.Spans before pos x after caps) : ∃ m : Match, m.text = x ∧
      p.Takes before m after caps :=
  ⟨⟨pos, x, caps.map fun c => (c.label, ((x ++ after).drop (c.start - pos)).take
    (c.stop - c.start))⟩, rfl, taken, rfl⟩

theorem exists_replaceCode_of_matchAt? (replacement : Match → Text) {v y : Text}
    {behind : List Lexeme}
    (read : lexemes v = y.map .code ++ behind) (ended : ∀ c rest, behind ≠ .code c :: rest)
    {m : Match}
    (found : p.matchAt? ⟨0, none, y, []⟩ = some m) (filled : m.text ≠ []) :
    ∃ A, p.replaceCode replacement v = replacement m ++ A := by
  have apart : ∀ z rest, behind.foldr Segment.cons [] ≠ .code z :: rest := by
    match behind with
    | [] => exact nofun
    | .literal kind text :: ls => exact nofun
    | .code c :: ls => exact absurd rfl (ended c ls)
  have runs := Segment.flatMap_mapCode_apart (show p.replace replacement [] = [] from rfl) y apart
  obtain ⟨after, -, text, -⟩ := takes_of_matchAt? found rfl
  obtain ⟨c, x, content⟩ := List.exists_cons_of_ne_nil filled
  have start : y = c :: (x ++ after) := by
    rw [show y = _ from text, content, List.cons_append]
  rw [start] at found
  rw [replaceCode, mapCode, segments, read, List.foldr_append, runs, replace_eq, pieces, start,
    piecesAfter, found, Option.filter_some_pos (by simp [content])]
  exact ⟨_, List.append_assoc ..⟩

theorem spans_append_iff (plain : p.looksAhead = false) {y : Text}
    (ended : y.head?.any isWordChar = false)
    {before : Option Char} {pos : Nat} {x rest : Text} {caps : List Capture} :
    p.Spans before pos x (rest ++ y) caps ↔ p.Spans before pos x rest caps := by
  induction p generalizing before pos x rest caps with
  | empty | one | many | few => exact Iff.rfl
  | seq first second ihFirst ihSecond =>
      rw [looksAhead, Bool.or_eq_false_iff] at plain
      simp only [Spans, ← List.append_assoc, ihFirst plain.1, ihSecond plain.2]
  | either first second ihFirst ihSecond =>
      rw [looksAhead, Bool.or_eq_false_iff] at plain
      exact or_congr (ihFirst plain.1) (ihSecond plain.2)
  | capture label inner ih => simp only [Spans, ih plain]
  | boundary =>
      have head : (rest ++ y).head?.any isWordChar = rest.head?.any isWordChar := by
        cases rest with
        | nil => exact ended
        | cons c rest => rfl
      simp only [Spans, head]
  | atEnd | ahead | notAhead => cases plain

end Pattern

namespace AutoIncrement

open Pattern

theorem differs_alone : alone.Differs fun _ => keyAttribute := by
  intro before m after caps taken
  refine ⟨'P', _, rfl, ?_⟩
  exact head?_ne_of_spans (by decide) taken.spans

theorem spans_alone_of_append {y : Text} (ended : y.head?.any isWordChar = false)
    {before : Option Char}
    {pos : Nat} {x rest : Text} {caps : List Capture}
    (taken : alone.Spans before pos x (rest ++ y) caps) :
    alone.Spans before pos x rest caps := by
  obtain ⟨a, _, early, _, rfl, rfl, first, b, _, middle, _, rfl, rfl, second, c, d, late, last, rfl,
      rfl, third, rfl, rfl, free⟩ := taken
  simp only [← List.append_assoc] at first second third
  rw [spans_append_iff rfl ended] at first second third
  refine ⟨a, _, early, _, rfl, rfl, ?_, b, _, middle, _, rfl, rfl, ?_, c, [], late, [], rfl, rfl,
    third, rfl, rfl, ?_⟩
  · simpa using first
  · simpa using second
  · rintro ⟨u, v, caps, rfl, equals⟩
    refine free ⟨u, v ++ y, caps, List.append_assoc .., ?_⟩
    exact (spans_append_iff rfl ended).mpr equals

theorem isWordChar_of_spans_alone {before : Option Char} {pos : Nat} {x after : Text}
    {caps : List Capture}
    (taken : alone.Spans before pos x after caps) : ∀ c ∈ x, isWordChar c = true := by
  obtain ⟨_, _, _, _, rfl, -, ⟨rfl, -⟩, w, _, _, _, rfl, -, named, _, _, _, _, rfl, -, ⟨rfl, -⟩,
      rfl, -⟩ := taken
  have same := (spelled_iff _ _).mpr ((spans_keyword_iff _ _ _ _ _ _).mp named).1
  simpa using (isWordChar_of_spelled (by decide) same).2

theorem local_alone {x y : Text} (free : alone.hits x = []) (sign : y.head?.all isSign = true) :
    alone.Local none 0 x y := by
  have ended : y.head?.any isWordChar = false := by
    cases y with
    | nil => rfl
    | cons c y => exact ((isSign_iff c).mp sign).2
  refine local_of_spans_eq_nil fun w z cut _ u after caps here taken => ?_
  suffices alone : ∃ rest, z = u ++ rest ∧ alone.Spans (w.getLast?.or none)
      (0 + w.length) u rest caps by
    obtain ⟨rest, rfl, again⟩ := alone
    rw [cut] at free
    rw [Option.or_none, Nat.zero_add] at again
    exact absurd again (not_spans_of_hits_eq_nil (by decide) free)
  rcases here with here | here
  · rcases List.append_eq_append_iff.mp here with ⟨v, rfl, rfl⟩ | ⟨v, rfl, rfl⟩
    · cases v with
      | nil =>
          rw [List.append_nil] at taken ⊢
          exact ⟨[], (List.append_nil z).symm, spans_alone_of_append ended taken⟩
      | cons c v =>
          -- a sign is no part of the word
          have letter := isWordChar_of_spans_alone taken c (by simp)
          rw [((isSign_iff c).mp sign).2] at letter
          cases letter
    · exact ⟨v, rfl, spans_alone_of_append ended taken⟩
  · exact ⟨after, here, taken⟩

theorem handles_alone {name : Text} : (Rule.constant name alone keyAttribute).Handles := by
  refine handles_of_local (fun _ _ => rfl) begins_alone.announces ?_ ?_
  · intro t v lead free _ _ front x y behind cut _ _ member
    exact local_of_begins begins_alone (lacks_words free member) (lead.any_getLast?_run cut) y
  · intro a t rest argument follow _ kept front x y behind cut read ended member
    obtain ⟨c, s, start, -, sign⟩ := follow.exists_cons rest
    have free := codeHits_eq_nil_of_kept differs_alone kept
    rw [codeHits, List.flatMap_eq_nil_iff] at free
    refine local_alone (free x member) ?_
    rcases head?_of_run read with head | head
    · rw [head]
      rfl
    · rw [head, start, List.head?_cons, Option.all_some]
      rcases sign with rfl | rfl | rfl <;> decide

end AutoIncrement

namespace Join

open Pattern

theorem exists_of_takes {before : Option Char} {m : Match} {after : Text} {caps : List Capture}
    (taken : join.Takes before m after caps) :
    ∃ front j, m.text = front ++ j ∧ spelled "JOIN" j = true ∧
      (front.getLast?.or before).any isWordChar = false ∧ after.head?.any isWordChar = false ∧
      (front = [] ∧ m.captured? "word" = none ∨
        ∃ name blanks, front = name ++ blanks ∧ m.captured? "word" = some name ∧
          m.captured? "gap" = some blanks ∧
          (name ≠ [] ∧ ∀ c ∈ name, isWordChar c = true) ∧ blanks ≠ [] ∧ ∀ c ∈ blanks,
          isBlank c = true) := by
  obtain ⟨spans, captures⟩ := taken
  obtain ⟨front, j, early, _, text, rfl, named, joined⟩ := spans
  obtain ⟨⟨same, start, ended⟩, rfl⟩ := (spans_wholeWord_iff (by decide) _ _ _ _ _).mp joined
  refine ⟨front, j, text, same, start, ended, ?_⟩
  rcases named with named | ⟨rfl, rfl⟩
  · obtain ⟨_, _, _, _, rfl, rfl, ⟨rfl, rfl, -⟩, name, blanks, _, _, rfl, rfl, ⟨_, rfl, word⟩, _,
        rfl, gap⟩ := named
    obtain ⟨letters, rfl⟩ := (spans_someOf_iff _ _ _ _ _ _).mp word
    obtain ⟨spaces, rfl⟩ := (spans_someOf_iff _ _ _ _ _ _).mp gap
    refine .inr ⟨name, blanks, rfl, ?_, ?_, letters, spaces⟩
    · simp [Match.captured?, captures, text, List.lookup_cons]
    · simp [Match.captured?, captures, text]
  · exact .inl ⟨rfl, by simp [Match.captured?, captures]⟩

theorem upperForm_of_same {c : Char} (same : sameIgnoringCase 'J' c = true) :
    upperForm c = ['J'] ∧ c ≠ 'I' := by
  have checked := forall_sameIgnoringCase (c := 'J') (fun c => upperForm c == ['J'] && c != 'I')
    (by decide)
    (by decide) (by decide) same
  simpa using checked

theorem head_of_spelled {j : Text} (same : spelled "JOIN" j = true) :
    ∃ c rest, j = c :: rest ∧ sameIgnoringCase 'J' c = true := by
  obtain ⟨starts, -⟩ := (spelled_iff _ _).mp same
  cases j with
  | nil => cases starts
  | cons c rest => exact ⟨c, rest, rfl, (Bool.and_eq_true _ _ ▸ starts).1⟩

theorem not_spelled_of_kept {v y : Text} {behind : List Lexeme}
    (kept : join.replaceCode convert v = v)
    (read : lexemes v = y.map .code ++ behind) (ended : ∀ c rest, behind ≠ .code c :: rest) :
    spelled "JOIN" (y.takeWhile isWordChar) = false := by
  rw [Bool.eq_false_iff]
  intro same
  have free : (y.dropWhile isWordChar).head?.any isWordChar = false := by
    have stop := List.head?_dropWhile_not isWordChar y
    cases rest : y.dropWhile isWordChar with
    | nil => rfl
    | cons d r => simpa [rest] using stop
  have whole := List.takeWhile_append_dropWhile (p := isWordChar) (l := y)
  generalize y.takeWhile isWordChar = j, y.dropWhile isWordChar = r at same free whole
  obtain ⟨-, letters⟩ := isWordChar_of_spelled (by decide) same
  obtain ⟨c, k, rfl, first⟩ := head_of_spelled same
  obtain ⟨upper, other⟩ := upperForm_of_same first
  -- the word is matched, alone or with a second one
  have spans : join.Spans none 0 (c :: k) r [] :=
    ⟨[], _, [], [], rfl, rfl, .inr ⟨rfl, rfl⟩, (spans_wholeWord_iff (by decide) _ _ _ _ _).mpr
      ⟨⟨same, rfl, free⟩, rfl⟩⟩
  obtain ⟨m, found⟩ : ∃ m, join.matchAt? ⟨0, none, y, []⟩ = some m := by
    cases missed : join.matchAt? ⟨0, none, y, []⟩ with
    | some m => exact ⟨m, rfl⟩
    | none => exact absurd ⟨_, r, [], whole.symm, spans⟩ ((matchAt?_eq_none_iff _ _).mp missed)
  obtain ⟨after, caps, text, -, taken⟩ := takes_of_matchAt? found rfl
  have filled : m.text ≠ [] := by
    intro empty
    have spans := taken.spans
    rw [empty] at spans
    exact absurd (mayBeEmpty_of_spans spans) (by decide)
  obtain ⟨A, result⟩ := exists_replaceCode_of_matchAt? convert read ended found filled
  rw [kept, ← flatMap_text_lexemes v, read, List.flatMap_append, flatMap_text_map_code] at result
  obtain ⟨front, j, content, named, -, -, ⟨-, none⟩ | ⟨name, blanks, rfl, word, gap, ⟨-, inName⟩,
      filled, spaces⟩⟩ :=
    exists_of_takes taken
  · rw [← whole, convert, none] at result
    exact other (List.cons.inj result).1
  · obtain ⟨b, blanks, rfl⟩ := List.exists_cons_of_ne_nil filled
    have cut : y = name ++ (b :: blanks ++ (j ++ after)) := by
      rw [show y = _ from text, content]
      simp
    have alike : c :: k = name := by
      refine eq_of_words (whole.trans cut) letters inName free ?_
      rw [List.cons_append, List.head?_cons, Option.any_some]
      exact isWordChar_of_isBlank (spaces b List.mem_cons_self)
    have shouted : ∃ rest, upperText name = 'J' :: rest :=
      ⟨_, by rw [← alike, upperText, List.flatMap_cons, upper]; rfl⟩
    obtain ⟨rest, shouted⟩ := shouted
    have changed : convert m = name ++ (b :: blanks) ++ "INNER JOIN".toList := by
      rw [convert, word, gap]
      simp [shouted, qualifiers]
    rw [changed, cut] at result
    simp only [List.append_assoc] at result
    -- behind the word and the blanks, one text has the word and the other its new kind
    have tail := List.append_cancel_left (List.append_cancel_left result)
    obtain ⟨d, l, rfl, letter⟩ := head_of_spelled named
    exact (upperForm_of_same letter).2 (List.cons.inj tail).1

theorem isBlank_behind_sign {name blanks z r : Text} {c d : Char} (sign : isWordChar c = false)
    (cut : name ++ blanks = z ++ c :: d :: r) (letters : ∀ c ∈ name, isWordChar c = true)
    (spaces : ∀ c ∈ blanks, isBlank c = true) : isBlank d = true := by
  rcases List.append_eq_append_iff.mp cut with ⟨s, rfl, rfl⟩ | ⟨s, rfl, rest⟩
  · exact spaces d (by simp)
  · cases s with
    | nil =>
        rw [List.nil_append] at rest
        exact spaces d (by simp [← rest])
    | cons e s =>
        obtain ⟨rfl, -⟩ := List.cons.inj rest
        rw [letters c (by simp)] at sign
        cases sign

/-- No match goes from a text without the word into one that does not start with it. -/
theorem local_join {x y : Text} (free : ∀ w ∈ words x, spelled "JOIN" w = false)
    (last : x.getLast?.any isWordChar = false) (filled : y.head?.any isBlank = false)
    (missing : spelled "JOIN" (y.takeWhile isWordChar) = false) :
    join.Local none 0 x y := by
  refine local_of_spans_eq_nil fun w z cut present u after caps here taken =>
    absurd taken fun taken => ?_
  obtain ⟨m, rfl, takes⟩ := exists_takes taken
  obtain ⟨front, j, text, same, start, ended, shape⟩ := exists_of_takes takes
  obtain ⟨nonempty, letters⟩ := isWordChar_of_spelled (by decide) same
  obtain rfl | ⟨z, c, rfl⟩ := List.eq_nil_or_concat' z
  · exact present rfl
  have sign : isWordChar c = false := by simpa [cut] using last
  have inside {r : Text} (deep : z ++ [c] = front ++ (j ++ r))
      (stop : r.head?.any isWordChar = false) : False := by
    have member : j ∈ words x := by
      refine (mem_words_iff _ _).mpr ⟨w ++ front, j ++ r, ?_, ?_, ?_, ?_⟩
      · rw [cut, deep, List.append_assoc]
      · rwa [List.getLast?_append, ← Option.or_none (o := w.getLast?)]
      · obtain ⟨d, j, rfl⟩ := List.exists_cons_of_ne_nil nonempty
        exact letters d List.mem_cons_self
      · rw [takeWhile_append_of_ended letters stop]
    rw [free j member] at same
    cases same
  have outside : c ∉ j := fun member => by
    rw [letters c member] at sign
    cases sign
  rw [text, List.append_assoc front] at here
  rcases here with here | here
  · rw [List.append_assoc, List.singleton_append] at here
    rcases List.append_eq_append_iff.mp here with ⟨r, begun, start⟩ | ⟨r, begun, next⟩
    · obtain ⟨rfl, -⟩ | ⟨r, rfl, rest⟩ := List.cons_eq_append_iff.mp start
      · obtain ⟨d, j, rfl⟩ := List.exists_cons_of_ne_nil nonempty
        exact outside (by simp [(List.cons.inj start).1])
      · cases r with
        | nil =>
            rw [rest, List.nil_append, takeWhile_append_of_ended letters ended, same] at missing
            cases missing
        | cons d r =>
            obtain ⟨rfl, -⟩ | ⟨name, blanks, rfl, -, -, ⟨-, inName⟩, -, spaces⟩ := shape
            · simp at begun
            · rw [rest, List.cons_append, List.head?_cons, Option.any_some,
                isBlank_behind_sign sign begun inName spaces] at filled
              cases filled
    · rcases List.append_eq_append_iff.mp next with ⟨k, rfl, rest⟩ | ⟨k, rfl, start⟩
      · refine inside (r := k ++ [c]) (by simp [begun]) ?_
        cases k with
        | nil => exact sign
        | cons d k => rwa [rest] at ended
      · obtain ⟨rfl, -⟩ | ⟨k, rfl, -⟩ := List.cons_eq_append_iff.mp start
        · exact inside (r := [c]) (by simp [begun]) sign
        · exact outside (by simp)
  · exact inside here ended

theorem handles_join {name : Text} : (Rule.pattern name join convert).Handles := by
  refine handles_of_local (fun _ _ => rfl) announces_join ?_ ?_
  · intro t v lead free filled kept front x y behind cut read ended member
    refine local_join ?_ (lead.any_getLast?_run cut) ?_ (not_spelled_of_kept kept read ended)
    · intro w word
      exact spelled_eq_false (lacks_words free member) (by decide +kernel) word
    · rcases head?_of_run read with head | head
      · rw [head]
        rfl
      · rwa [head]
  · intro a t rest argument follow stops _ front x y behind cut read ended _
    have tidy : join.Tidy := .of_omits (by decide)
    exact local_argument (by decide) tidy argument follow stops cut read ended

end Join

namespace ColumnType

open Pattern

theorem tidy_integer : integer.Tidy :=
  .seq (.of_omits rfl) (.seq (.of_omits (by decide))
    (.seq (.of_omits (by decide)) (.seq (.of_omits (by decide))
    (.seq (.of_omits rfl) (.seq tidy_width.optional
      (.seq (.of_omits (by decide)) (.of_omits (by decide))))))))

theorem tidy_characters : characters.Tidy :=
  .either (.seq (.of_omits rfl) (.seq (.of_omits (by decide)) (.seq (.of_omits (by decide))
      (.seq (.of_omits (by decide)) tidy_width))))
    (.seq (.of_omits rfl) (.seq (.of_omits (by decide))
      (.seq (.of_omits (by decide)) (.seq (.of_omits rfl)
      tidy_width.optional))))

theorem tidy_precision : precision.Tidy :=
  .seq (.of_omits (by decide)) (.parenthesis (.seq (by decide) (.seq (by decide) (.seq (by decide)
    (.seq (by decide) .parenthesis)))))

theorem tidy_real : real.Tidy :=
  .either (.seq (.of_omits rfl) (.seq (.of_omits (by decide)) tidy_precision))
    (.of_omits (by decide))

theorem tidy_timestamp : timestamp.Tidy :=
  .seq (.of_omits rfl) (.seq (.of_omits (by decide)) (.seq (.of_omits rfl) tidy_width.optional))

theorem tidy_binary : binary.Tidy :=
  .seq (.of_omits (by decide)) (.either (.seq (.of_omits rfl) (.seq (.of_omits (by decide))
    (.seq (.of_omits (by decide)) tidy_width))) (.of_omits (by decide)))

end ColumnType

namespace Rule

open Pattern

theorem handles_typeRules : ∀ rule ∈ typeRules, rule.function? = none → rule.Handles := by
  simp only [typeRules, List.forall_mem_cons]
  refine ⟨?_, ?_, ?_, fun named => absurd named (Option.some_ne_none _), ?_, ?_, ?_,
    List.forall_mem_nil _⟩
  · exact fun _ => handles (fun _ _ => rfl) begins_signedCast (by decide) (.of_omits (by decide))
  · exact fun _ => handles (fun _ _ => rfl) begins_integer (by decide) ColumnType.tidy_integer
  · exact fun _ => handles (fun _ _ => rfl) begins_characters (by decide) ColumnType.tidy_characters
  · exact fun _ => handles (fun _ _ => rfl) begins_real (by decide) ColumnType.tidy_real
  · exact fun _ => handles (fun _ _ => rfl) begins_timestamp (by decide) ColumnType.tidy_timestamp
  · exact fun _ => handles (fun _ _ => rfl) begins_binary (by decide) ColumnType.tidy_binary

theorem handles_joinRules_keyRules : ∀ rule ∈ joinRules ++ keyRules, rule.Handles := by
  simp only [joinRules, keyRules, List.forall_mem_append, List.forall_mem_cons]
  refine ⟨⟨?_, Join.handles_join, List.forall_mem_nil _⟩, ?_, ?_, AutoIncrement.handles_alone,
    List.forall_mem_nil _⟩
  · exact handles (fun _ _ => rfl) begins_outer (by decide) (.of_omits (by decide))
  · exact handles (fun _ _ => rfl) begins_beforeKey (by decide) (.of_omits (by decide))
  · exact handles (fun _ _ => rfl) begins_afterKey (by decide) (.of_omits (by decide))

theorem handles_table : ∀ rule ∈ table, rule.Handles := by
  intro rule member
  cases named : rule.function? with
  | some function => exact handles_call member named
  | none =>
      have calls : ∀ rule ∈ stringRules ++ dateRules ++ numericRules ++ conditionalRules,
          rule.function? ≠ none := by
        decide
      rw [table, List.append_assoc, List.append_assoc] at member
      rcases List.mem_append.mp member with early | late
      · exact absurd named (calls rule early)
      · rcases List.mem_append.mp late with type | rest
        · exact handles_typeRules rule type named
        · exact handles_joinRules_keyRules rule rest

end Rule

end LiteSql
