import LiteSql.Proofs.CodeWord
import LiteSql.Proofs.Substitution
import LiteSql.Proofs.WholeWord

/-! Words and signs of code, without the blanks between them. A pattern whose matches are whole
words in a row rewrites the row wherever it stands, and what is counted in the words and signs
changes by as much for every match. -/

namespace LiteSql

inductive Token
  | word (w : Text)
  | sign (c : Char)
  deriving DecidableEq, Repr

namespace Token

def extend (c : Char) : List Token → List Token
  | word w :: ts => word (c :: w) :: ts
  | ts => word [c] :: ts

def word? : Token → Option Text
  | word w => some w
  | sign _ => none

def names (k : Text) (t : Token) : Bool := t.word?.any (spelled k)

end Token

def tokens : Text → List Token
  | [] => []
  | c :: s =>
    if isWordChar c then
      if s.head?.any isWordChar then Token.extend c (tokens s) else .word [c] :: tokens s
    else if isBlank c then tokens s
    else .sign c :: tokens s

theorem tokens_of_head {s : Text} (head : s.head?.any isWordChar = true) :
    tokens s = .word (s.takeWhile isWordChar) :: tokens (s.dropWhile isWordChar) := by
  induction s with
  | nil => cases head
  | cons c s ih =>
      have letter : isWordChar c = true := head
      rw [tokens, if_pos letter, List.takeWhile_cons_of_pos letter,
        List.dropWhile_cons_of_pos letter]
      split
      · next next =>
          rw [ih next]
          rfl
      · next stop =>
          cases s with
          | nil => rfl
          | cons d s =>
              have other : ¬ isWordChar d = true := by simpa using stop
              rw [List.takeWhile_cons_of_neg other, List.dropWhile_cons_of_neg other]

theorem tokens_word_append {w : Text} (present : w ≠ []) (letters : ∀ c ∈ w, isWordChar c = true)
    {rest : Text}
    (stop : rest.head?.any isWordChar = false) : tokens (w ++ rest) = .word w :: tokens rest := by
  have head : (w ++ rest).head?.any isWordChar = true := by
    obtain ⟨c, w, rfl⟩ := List.exists_cons_of_ne_nil present
    exact letters c List.mem_cons_self
  have tail : (w ++ rest).dropWhile isWordChar = rest := by
    rw [List.dropWhile_append_of_pos letters]
    cases rest with
    | nil => rfl
    | cons c rest => exact List.dropWhile_cons_of_neg (by simpa using stop)
  rw [tokens_of_head head, tail, Pattern.takeWhile_append_of_ended letters stop]

theorem tokens_blanks_append {blanks : Text} (blank : ∀ c ∈ blanks, isBlank c = true)
    (rest : Text) :
    tokens (blanks ++ rest) = tokens rest := by
  induction blanks with
  | nil => rfl
  | cons c blanks ih =>
      obtain ⟨first, others⟩ := List.forall_mem_cons.mp blank
      rw [List.cons_append, tokens, isWordChar_of_isBlank first, first, ih others]
      rfl

theorem tokens_append (x rest : Text)
    (apart : x.getLast?.any isWordChar = false ∨ rest.head?.any isWordChar = false) :
    tokens (x ++ rest) = tokens x ++ tokens rest := by
  induction x with
  | nil => rfl
  | cons c x ih =>
      cases x with
      | nil =>
          rw [List.singleton_append, tokens, tokens]
          rcases apart with stop | stop
          · have other : isWordChar c = false := stop
            rw [other]
            cases isBlank c <;> rfl
          · rw [stop]
            cases isWordChar c <;> cases isBlank c <;> rfl
      | cons d x =>
          have later := ih (by rwa [List.getLast?_cons_cons] at apart)
          have whole : tokens (c :: (d :: x ++ rest)) = if isWordChar c then
              if isWordChar d then Token.extend c (tokens (d :: x ++ rest))
                else .word [c] :: tokens (d :: x ++ rest)
            else if isBlank c then tokens (d :: x ++ rest) else .sign c :: tokens
              (d :: x ++ rest) := rfl
          have front : tokens (c :: d :: x) = if isWordChar c then
              if isWordChar d then Token.extend c (tokens (d :: x))
                else .word [c] :: tokens (d :: x)
            else if isBlank c then tokens (d :: x) else .sign c :: tokens (d :: x) := rfl
          rw [List.cons_append, whole, front, later]
          cases isWordChar c with
          | false => cases isBlank c <;> rfl
          | true =>
              cases letter : isWordChar d with
              | false => rfl
              | true =>
                  rw [tokens_of_head (s := d :: x) letter]
                  rfl

theorem words_eq (s : Text) : words s = (tokens s).filterMap Token.word? := by
  induction s with
  | nil => rfl
  | cons c s ih =>
      rw [words, tokens, ih]
      cases isWordChar c with
      | false => cases isBlank c <;> rfl
      | true =>
          cases next : s.head?.any isWordChar with
          | false => rfl
          | true =>
              rw [tokens_of_head next]
              rfl

/-! ### Code segments -/

namespace Segment

def change (f : Text → Text) : Segment → Segment
  | code text => code (f text)
  | literal text => literal text

theorem Spell.foldr_cons {segs : List Segment} {ls : List Lexeme} (spell : Spell segs ls)
    (filled : ∀ x, Segment.code x ∈ segs → x ≠ []) : ls.foldr Segment.cons [] = segs := by
  induction spell with
  | nil => rfl
  | literal kind text _ ih =>
      rw [List.foldr_cons, ih fun x member => filled x (List.mem_cons_of_mem _ member)]
      rfl
  | code x apart _ ih =>
      rw [List.foldr_append, ih fun y member => filled y (List.mem_cons_of_mem _ member)]
      exact foldr_cons_apart (filled x List.mem_cons_self) apart

theorem ne_nil_of_mem_foldr_cons (ls : List Lexeme) : ∀ x, code x ∈ ls.foldr Segment.cons [] →
    x ≠ [] := by
  induction ls with
  | nil => simp
  | cons l ls ih =>
      rw [List.foldr_cons]
      generalize ls.foldr Segment.cons [] = segs at ih
      intro x member
      cases l with
      | literal kind text =>
          rcases List.mem_cons.mp member with impossible | later
          · cases impossible
          · exact ih x later
      | code c =>
          cases segs with
          | nil =>
              cases List.mem_singleton.mp member
              exact List.cons_ne_nil c []
          | cons segment segs =>
              cases segment with
              | literal text =>
                  rcases List.mem_cons.mp member with here | later
                  · cases here
                    exact List.cons_ne_nil c []
                  · exact ih x later
              | code y =>
                  rcases List.mem_cons.mp member with here | later
                  · cases here
                    exact List.cons_ne_nil c y
                  · exact ih x (List.mem_cons_of_mem _ later)

theorem exists_spell_change {allowed : Text → Text → Prop} {f : Text → Text}
    (step : ∀ x ls ms, Exchanged allowed ls ms → Exchanged allowed (x.map .code ++ ls)
      ((f x).map .code ++ ms))
    {segs : List Segment} {ls : List Lexeme} (spell : Spell segs ls) :
    ∃ ms, Exchanged allowed ls ms ∧ Spell (segs.map (change f)) ms ∧
      ms.flatMap Lexeme.text = segs.flatMap (Segment.mapCode f) := by
  induction spell with
  | nil => exact ⟨[], .nil, .nil, rfl⟩
  | literal kind text _ ih =>
      obtain ⟨ms, exchanged, spell, whole⟩ := ih
      exact ⟨.literal kind text :: ms, exchanged.keep _, .literal kind text spell,
        congrArg (text ++ ·) whole⟩
  | @code x segs ls apart _ ih =>
      obtain ⟨ms, exchanged, spell, whole⟩ := ih
      have apart' : ∀ y rest, segs.map (change f) ≠ Segment.code y :: rest := by
        intro y rest cut
        cases segs with
        | nil => cases cut
        | cons segment segs =>
            cases segment with
            | literal text => cases cut
            | code z => exact apart z segs rfl
      refine ⟨(f x).map Lexeme.code ++ ms, step x ls ms exchanged,
        Spell.code (f x) apart' spell, ?_⟩
      rw [List.flatMap_append, flatMap_text_map_code, whole]
      rfl

end Segment

theorem Pattern.codeSegments_replaceCode_of_mild (allowed : Text → Text → Prop) {p : Pattern}
    {replacement : Match → Text}
    (mild : p.Mild allowed replacement) (filled : ∀ x, x ≠ [] → p.replace replacement x ≠ [])
    (s : Text) :
    codeSegments (p.replaceCode replacement s) = (codeSegments s).map (p.replace replacement) := by
  obtain ⟨ms, exchanged, spell, text⟩ :=
    Segment.exists_spell_change (fun x _ _ => mild.exchanged_replace x) (spell_segments s)
  have read : lexemes ((lexemes s).flatMap Lexeme.text) = lexemes s := by rw [flatMap_text_lexemes]
  obtain ⟨same, -⟩ := exchanged.lexemes_flatMap_text read
  have cut : segments (p.replaceCode replacement s) = (segments s).map
      (.change (p.replace replacement)) := by
    rw [segments, replaceCode, mapCode, ← text, same]
    refine spell.foldr_cons fun x member => ?_
    obtain ⟨segment, inside, here⟩ := List.mem_map.mp member
    cases segment with
    | literal text => cases here
    | code y =>
        cases here
        exact filled y (Segment.ne_nil_of_mem_foldr_cons (lexemes s) y inside)
  rw [codeSegments, cut, codeSegments, List.filterMap_map, List.map_filterMap]
  refine List.filterMap_congr fun segment _ => ?_
  cases segment <;> rfl

theorem Pattern.codeSegments_replaceCode {p : Pattern} {replacement : Match → Text}
    (mild : p.Mild (fun _ _ => True) replacement)
    (filled : ∀ x, x ≠ [] → p.replace replacement x ≠ []) (s : Text) :
    codeSegments (p.replaceCode replacement s) = (codeSegments s).map (p.replace replacement) :=
  codeSegments_replaceCode_of_mild (fun _ _ => True) mild filled s

/-! ### Words in a row -/

def Worded (ks : List Text) (ts : List Token) : Prop :=
  List.Forall₂ (fun k t => t.names k = true) ks ts

theorem spelled_cons (d c : Char) (w v : Text) :
    spelled (d :: w) (c :: v) = true ↔ sameIgnoringCase d c = true ∧ spelled w v = true := by
  simp [spelled, startsIgnoringCase, and_assoc]

theorem spelled_iff_foldCase (k w : Text) : spelled k w = true ↔
    k.map foldCase = w.map foldCase := by
  induction k generalizing w with
  | nil => cases w <;> simp [spelled, startsIgnoringCase]
  | cons c k ih =>
      cases w with
      | nil => simp [spelled, startsIgnoringCase]
      | cons d w =>
          have later := ih w
          simp only [spelled, Bool.and_eq_true, beq_iff_eq] at later
          simp [spelled, startsIgnoringCase, sameIgnoringCase, and_assoc, later]

theorem names_eq_of_names {k : Text} {t : Token} (named : t.names k = true) (l : Text) :
    t.names l = (Token.word k).names l := by
  cases t with
  | sign c => cases named
  | word w =>
      have same := (spelled_iff_foldCase k w).mp named
      exact Bool.eq_iff_iff.mpr (by
        rw [show (Token.word w).names l = spelled l w from rfl,
          show (Token.word k).names l = spelled l k from rfl, spelled_iff_foldCase,
            spelled_iff_foldCase, same])

def follows (first second : Text) : List Token → Nat
  | t :: u :: ts =>
      (if t.names first && u.names second then 1 else 0) + follows first second (u :: ts)
  | _ => 0

theorem follows_append {first second : Text} {ts us : List Token}
    (apart : ts.getLast?.any (Token.names first) = false ∨
      us.head?.any (Token.names second) = false) :
    follows first second (ts ++ us) = follows first second ts + follows first second us := by
  induction ts with
  | nil => simp [follows]
  | cons t ts ih =>
      cases ts with
      | nil =>
          cases us with
          | nil => rfl
          | cons u us =>
              have none : (t.names first && u.names second) = false := by
                rcases apart with last | head
                · rw [show t.names first = false from last, Bool.false_and]
                · rw [show u.names second = false from head, Bool.and_false]
              rw [List.singleton_append, follows, none]
              rfl
      | cons u ts =>
          have later := ih (by rwa [List.getLast?_cons_cons] at apart)
          rw [List.cons_append, List.cons_append, follows, ← List.cons_append, later, follows,
            Nat.add_assoc]

theorem follows_cons {first second : Text} {t : Token} {ts : List Token}
    (apart : t.names first = false ∨ ts.head?.any (Token.names second) = false) :
    follows first second (t :: ts) = follows first second ts := by
  have single : follows first second ([t] ++ ts) = follows first second
      [t] + follows first second ts :=
    follows_append apart
  rwa [List.singleton_append, show follows first second [t] = 0 from rfl, Nat.zero_add] at single

namespace Worded

variable {ks : List Text} {row : List Token} (worded : Worded ks row) (l : Text)

include worded

theorem countP_eq : row.countP (Token.names l) = (ks.map Token.word).countP (Token.names l) := by
  induction worded with
  | nil => rfl
  | cons named _ ih =>
      rw [List.map_cons, List.countP_cons, List.countP_cons, ih, names_eq_of_names named]

theorem any_head? : row.head?.any (Token.names l) = (ks.map Token.word).head?.any
    (Token.names l) := by
  cases worded with
  | nil => rfl
  | cons named _ => exact names_eq_of_names named l

theorem any_getLast? : row.getLast?.any (Token.names l) = (ks.map Token.word).getLast?.any
    (Token.names l) := by
  induction worded with
  | nil => rfl
  | cons named others ih =>
      cases others with
      | nil => exact names_eq_of_names named l
      | cons next others =>
          rwa [List.getLast?_cons_cons, List.map_cons, List.map_cons, List.getLast?_cons_cons]

theorem follows_eq (first second : Text) :
    follows first second row = follows first second (ks.map Token.word) := by
  induction worded with
  | nil => rfl
  | cons named others ih =>
      cases others with
      | nil => rfl
      | cons next others =>
          rw [follows, ih, names_eq_of_names named, names_eq_of_names next]
          rfl

theorem ne_nil (present : ks ≠ []) : row ≠ [] := by
  cases worded with
  | nil => exact absurd rfl present
  | cons _ _ => exact List.cons_ne_nil _ _

end Worded

/-- Tokens become others where rows of the given words are rewritten, as often as the last index
says. -/
inductive Rewritten (ks : List Text) (new : List Token) : List Token → List Token → Nat → Prop
  | same (ts : List Token) : Rewritten ks new ts ts 0
  | hit (front : List Token) {row ts us : List Token} {n : Nat} : Worded ks row →
      Rewritten ks new ts us n →
      Rewritten ks new (front ++ (row ++ ts)) (front ++ (new ++ us)) (n + 1)

namespace Rewritten

variable {ks : List Text} {new ts us : List Token} {n : Nat} (rewritten : Rewritten ks new ts us n)

include rewritten

theorem countP_add (l : Text) : us.countP (Token.names l) + n * (ks.map Token.word).countP
    (Token.names l) =
    ts.countP (Token.names l) + n * new.countP (Token.names l) := by
  induction rewritten with
  | same ts => simp
  | hit front worded _ ih =>
      simp only [List.countP_append, worded.countP_eq l, Nat.add_mul, Nat.one_mul]
      omega

/-- Where neither the old row nor the new one starts or ends in the middle of a pair, only the pairs
in the rows make a difference. -/
theorem follows_add {first second : Text} (present : ks ≠ []) (filled : new ≠ [])
    (heads : (ks.map Token.word).head?.any (Token.names second) = false ∧
      new.head?.any (Token.names second) = false)
    (lasts : (ks.map Token.word).getLast?.any (Token.names first) = false ∧
      new.getLast?.any (Token.names first) = false) :
    follows first second us + n * follows first second (ks.map Token.word) =
      follows first second ts + n * follows first second new := by
  induction rewritten with
  | same ts => simp
  | @hit front row ts us n worded _ ih =>
      have old : (row ++ ts).head?.any (Token.names second) = false := by
        rw [List.head?_append_of_ne_nil _ (worded.ne_nil present), worded.any_head?, heads.1]
      have fresh : (new ++ us).head?.any (Token.names second) = false := by
        rw [List.head?_append_of_ne_nil _ filled, heads.2]
      rw [follows_append (.inr old), follows_append (.inr fresh),
        follows_append (.inl ((worded.any_getLast? first).trans lasts.1)),
        follows_append (.inl lasts.2),
        worded.follows_eq]
      simp only [Nat.add_mul, Nat.one_mul]
      omega

end Rewritten

/-! ### Patterns of words in a row -/

namespace Pattern

def Phrase (p : Pattern) (ks : List Text) : Prop :=
  ∀ ⦃before m after caps⦄, p.Takes before m after caps → before.any isWordChar = false ∧
    m.text.head?.any isWordChar = true ∧ after.head?.any isWordChar = false ∧
      Worded ks (tokens m.text)

theorem Phrase.rewritten {p : Pattern} {ks : List Text} (phrase : p.Phrase ks) (written x : Text) :
    Rewritten ks (tokens written) (tokens x) (tokens (p.replace (fun _ => written) x))
      (p.hits x).length := by
  have shift (first rest : List Piece) (whole : first ++ rest = p.pieces x) (front a : Text)
      (text : first.flatMap Piece.text = front ++ a) :
      Rewritten ks (tokens written) (tokens (a ++ rest.flatMap Piece.text))
        (tokens (a ++ rest.flatMap (replaced fun _ => written)))
        (rest.filterMap Piece.hit?).length := by
    induction rest generalizing first front a with
    | nil => exact .same _
    | cons piece rest ih =>
        cases piece with
        | plain c =>
            have later := ih (first ++ [.plain c]) (by simpa using whole) front (a ++ [c]) (by
              rw [List.flatMap_append, text, List.append_assoc]
              rfl)
            rw [List.append_assoc, List.append_assoc] at later
            exact later
        | hit m =>
            obtain ⟨filled, -, caps, taken⟩ := takes_of_piecesAfter whole.symm
            obtain ⟨before, head, after, worded⟩ := phrase taken
            have whole' : first ++ [Piece.hit m] ++ rest = p.pieces x := by simpa using whole
            have later := ih (first ++ [.hit m]) whole' _ [] (List.append_nil _).symm
            rw [List.take_zero, List.nil_append, Option.or_none, text] at before
            have apart : a.getLast?.any isWordChar = false := by
              cases a with
              | nil => rfl
              | cons c a => rwa [List.getLast?_append_of_ne_nil _ (List.cons_ne_nil c a)] at before
            have after' : (rest.flatMap (replaced fun _ => written)).head?.any
                isWordChar = false := by
              cases rest with
              | nil => rfl
              | cons next rest =>
                  cases next with
                  | plain d => exact after
                  | hit other =>
                      -- a match that follows would start with a word character
                      obtain ⟨-, -, _, taken'⟩ := takes_of_piecesAfter whole'.symm
                      have start := (phrase taken').2.1
                      rw [List.flatMap_cons, Piece.text] at after
                      cases text' : other.text with
                      | nil => simp [text'] at start
                      | cons c y =>
                          rw [text'] at start after
                          exact absurd start (by simpa using after)
            simp only [List.flatMap_cons, Piece.text, replaced]
            rw [tokens_append a _ (.inl apart), tokens_append a _ (.inl apart),
              tokens_append m.text _ (.inr after), tokens_append written _ (.inr after')]
            exact .hit _ worded later
  have whole := shift [] (p.pieces x) rfl [] [] rfl
  rwa [List.nil_append, List.nil_append, flatMap_text_pieces] at whole

theorem hitsAfter_word {p : Pattern}
    (starts : ∀ ⦃before pos x after caps⦄, p.Spans before pos x after caps →
      before.any isWordChar = false)
    {w : Text} (letters : ∀ c ∈ w, isWordChar c = true) (pos : Nat) (before : Option Char)
    (inside : before.any isWordChar = true) (rest : Text) :
    (p.piecesAfter 0 pos before (w ++ rest)).filterMap Piece.hit? =
      (p.piecesAfter 0 (pos + w.length) (w.getLast?.or before) rest).filterMap Piece.hit? := by
  induction w generalizing pos before with
  | nil => rfl
  | cons c w ih =>
      obtain ⟨letter, others⟩ := List.forall_mem_cons.mp letters
      have missed : p.matchAt? ⟨pos, before, c :: (w ++ rest), []⟩ = none := by
        rw [matchAt?_eq_none_iff]
        rintro ⟨x, after, caps, -, taken⟩
        rw [starts taken] at inside
        cases inside
      have later := ih others (pos + 1) (some c) letter
      rw [List.cons_append, piecesAfter, missed, getLast?_cons_or, List.length_cons,
        Nat.add_comm w.length, ← Nat.add_assoc]
      exact later

def wordPair (k l : Text) : Pattern := .all [.boundary, keyword k, .gap, keyword l, .boundary]

section

variable {k l : Text} (first : IsAsciiWord k) (second : IsAsciiWord l)

include first second

theorem spans_wordPair_iff (before : Option Char) (pos : Nat) (x after : Text)
    (caps : List Capture) :
    (wordPair k l).Spans before pos x after caps ↔
      (∃ v blanks w, x = v ++ (blanks ++ w) ∧ spelled k v = true ∧
        (blanks ≠ [] ∧ ∀ c ∈ blanks, isBlank c = true) ∧
        spelled l w = true) ∧ before.any isWordChar = false ∧ after.head?.any isWordChar = false ∧
          caps = [] := by
  have ends {k x : Text} (ascii : IsAsciiWord k) (named : spelled k x = true) (rest : Text)
      (between : Option Char) :
      (x ++ rest).head?.any isWordChar = true ∧ (x.getLast?.or between).any isWordChar = true := by
    obtain ⟨present, letters⟩ := isWordChar_of_spelled ascii named
    constructor
    · obtain ⟨c, x, rfl⟩ := List.exists_cons_of_ne_nil present
      exact letters c List.mem_cons_self
    · rw [List.getLast?_eq_some_getLast present]
      exact letters _ (List.getLast_mem present)
  simp only [wordPair, all, gap, Spans, spans_keyword_iff, spans_someOf_iff, ← spelled_iff]
  constructor
  · rintro ⟨_, _, _, _, rfl, rfl, ⟨rfl, rfl, start⟩, v, _, _, _, rfl, rfl, ⟨named, rfl⟩, blanks, _,
      _, _, rfl, rfl, ⟨blank, rfl⟩, w, _, _, _, rfl, rfl, ⟨last, rfl⟩, rfl, rfl, stop⟩
    rw [List.append_assoc, (ends first named _ none).1] at start
    rw [(ends second last [] _).2] at stop
    refine ⟨⟨v, blanks,
      w, by simp, named, blank, last⟩, by simpa using start, by simpa using stop, rfl⟩
  · rintro ⟨⟨v, blanks, w, rfl, named, blank, last⟩, start, stop, rfl⟩
    refine ⟨[], v ++ (blanks ++ w), [], [], rfl, rfl, ⟨rfl, rfl, ?_⟩, v, _, [], [], rfl, rfl,
      ⟨named, rfl⟩, blanks, w, [], [], rfl, rfl, ⟨blank, rfl⟩, w, [], [], [],
      (List.append_nil w).symm, rfl, ⟨last, rfl⟩, rfl, rfl, ?_⟩
    · rw [start, List.append_assoc, (ends first named _ none).1]
      simp
    · rw [(ends second last [] _).2, stop]
      simp

end

end Pattern

theorem exists_wordRun (s : Text) :
    ∃ w y, s = w ++ y ∧ (∀ c ∈ w, isWordChar c = true) ∧ y.head?.any isWordChar = false := by
  refine ⟨s.takeWhile isWordChar, s.dropWhile isWordChar, List.takeWhile_append_dropWhile.symm,
    fun c member => List.all_eq_true.mp List.all_takeWhile c member, ?_⟩
  have stopped := List.head?_dropWhile_not isWordChar s
  cases rest : s.dropWhile isWordChar with
  | nil => rfl
  | cons c y => simpa [rest] using stopped

theorem exists_word_of_tokens {s w : Text} {ts : List Token} (read : tokens s = .word w :: ts) :
    ∃ blanks rest, s = blanks ++ (w ++ rest) ∧ (∀ c ∈ blanks, isBlank c = true) ∧ w ≠ [] ∧
      rest.head?.any isWordChar = false := by
  induction s with
  | nil => cases read
  | cons c s ih =>
      cases letter : isWordChar c with
      | true =>
          obtain ⟨v, y, rfl, letters, stop⟩ := exists_wordRun s
          have whole : tokens (c :: (v ++ y)) = .word (c :: v) :: tokens y :=
            tokens_word_append (List.cons_ne_nil c v) (List.forall_mem_cons.mpr
              ⟨letter, letters⟩) stop
          rw [whole] at read
          obtain ⟨same, -⟩ := List.cons.inj read
          cases same
          exact ⟨[], y, rfl, by simp, List.cons_ne_nil c v, stop⟩
      | false =>
          rw [tokens, letter] at read
          cases blank : isBlank c with
          | false => simp [blank] at read
          | true =>
              obtain ⟨blanks, rest, rfl, members, others⟩ := ih (by simpa [blank] using read)
              exact ⟨c :: blanks, rest, rfl, List.forall_mem_cons.mpr ⟨blank, members⟩, others⟩

section

variable {k l : Text} (first : IsAsciiWord k) (second : IsAsciiWord l)
  (distinct : spelled k l = false)

include first second

theorem tokens_wordPair {v blanks w after : Text} (named : spelled k v = true)
    (present : blanks ≠ [])
    (blank : ∀ c ∈ blanks, isBlank c = true) (last : spelled l w = true)
    (stop : after.head?.any isWordChar = false) :
    tokens (v ++ (blanks ++ (w ++ after))) = .word v :: .word w :: tokens after := by
  obtain ⟨filled, letters⟩ := isWordChar_of_spelled first named
  obtain ⟨filled', letters'⟩ := isWordChar_of_spelled second last
  rw [tokens_word_append filled letters, tokens_blanks_append blank,
    tokens_word_append filled' letters' stop]
  obtain ⟨c, blanks, rfl⟩ := List.exists_cons_of_ne_nil present
  exact isWordChar_of_isBlank (blank c List.mem_cons_self)

theorem any_head?_tokens_of_missed {w y : Text} (named : spelled k w = true)
    (stop : y.head?.any isWordChar = false)
    {before : Option Char} (outside : before.any isWordChar = false) {pos : Nat}
    (missed : (Pattern.wordPair k l).matchAt? ⟨pos, before, w ++ y, []⟩ = none) :
    (tokens y).head?.any (Token.names l) = false := by
  rw [← Bool.not_eq_true]
  intro next
  cases read : tokens y with
  | nil => simp [read] at next
  | cons t ts =>
      rw [read, List.head?_cons, Option.any_some] at next
      cases t with
      | sign c => cases next
      | word u =>
          obtain ⟨blanks, rest, rfl, blank, filled, ended⟩ := exists_word_of_tokens read
          have present : blanks ≠ [] := by
            rintro rfl
            obtain ⟨c, u, rfl⟩ := List.exists_cons_of_ne_nil filled
            have letter := (isWordChar_of_spelled second next).2 c List.mem_cons_self
            exact absurd letter (by simpa using stop)
          refine (Pattern.matchAt?_eq_none_iff _ _).mp missed ⟨w ++ (blanks ++ u), rest,
            [], by simp, ?_⟩
          rw [Pattern.spans_wordPair_iff first second]
          exact ⟨⟨w, blanks, u, rfl, named, ⟨present, blank⟩, next⟩, outside, ended, rfl⟩

theorem matchAt?_wordPair_of_head {x : Text} (stop : x.head?.any isWordChar = false) (pos : Nat)
    (before : Option Char) : (Pattern.wordPair k l).matchAt? ⟨pos, before, x, []⟩ = none := by
  rw [Pattern.matchAt?_eq_none_iff]
  rintro ⟨_, after, caps, cut, taken⟩
  obtain ⟨⟨v, _, _, rfl, named, -⟩, -⟩ :=
    (Pattern.spans_wordPair_iff first second _ _ _ _ _).mp taken
  obtain ⟨present, letters⟩ := isWordChar_of_spelled first named
  obtain ⟨d, v, rfl⟩ := List.exists_cons_of_ne_nil present
  obtain rfl : x = d :: _ := cut
  exact absurd (letters d List.mem_cons_self) (by simpa using stop)

include distinct

theorem length_hits_wordPair (x : Text) : ((Pattern.wordPair k l).hits x).length =
    follows k l (tokens x) := by
  suffices found : ∀ pos before, before.any isWordChar = false ∨ x.head?.any isWordChar = false →
      (((Pattern.wordPair k l).piecesAfter 0 pos before x).filterMap Piece.hit?).length =
        follows k l (tokens x) from
    found 0 none (.inl rfl)
  induction size : x.length using Nat.strongRecOn generalizing x with
  | ind n ih =>
      subst size
      intro pos before outside
      cases x with
      | nil => rfl
      | cons c s =>
          rw [Pattern.piecesAfter]
          cases letter : isWordChar c with
          | false =>
              have later := ih s.length (by simp) s rfl (pos + 1) (some c) (.inl letter)
              rw [matchAt?_wordPair_of_head first second (x := c :: s) letter, Option.filter_none,
                tokens, letter]
              cases isBlank c with
              | true => exact later
              | false => exact later.trans (follows_cons (.inl rfl)).symm
          | true =>
              have free : before.any isWordChar = false := by
                refine outside.resolve_right fun head => ?_
                rw [List.head?_cons, Option.any_some, letter] at head
                cases head
              cases found : (Pattern.wordPair k l).matchAt? ⟨pos, before, c :: s, []⟩ with
              | some m =>
                  obtain ⟨after, caps, cut, -, taken⟩ := Pattern.takes_of_matchAt? found rfl
                  obtain ⟨⟨v, blanks, w, text, named, ⟨present, blank⟩, last⟩, -, stop, -⟩ :=
                    (Pattern.spans_wordPair_iff first second _ _ _ _ _).mp taken.spans
                  obtain ⟨d, y, split⟩ : ∃ d y, m.text = d :: y := by
                    obtain ⟨filled, -⟩ := isWordChar_of_spelled first named
                    obtain ⟨d, v, rfl⟩ := List.exists_cons_of_ne_nil filled
                    exact ⟨d, _, text⟩
                  have whole : c :: s = m.text ++ after := cut
                  rw [split, List.cons_append] at whole
                  obtain ⟨rfl, rfl⟩ := List.cons.inj whole
                  have later := ih after.length
                    (by simp only [List.length_cons, List.length_append]; omega) after rfl
                    (pos + 1 + y.length) (y.getLast?.or (some c)) (.inr stop)
                  have pair : tokens (c :: (y ++ after)) = .word v :: .word w :: tokens after := by
                    rw [← tokens_wordPair first second named present blank last stop,
                      ← List.cons_append, ← split, text]
                    simp only [List.append_assoc]
                  have other : (Token.word w).names k = false :=
                    (names_eq_of_names (t := .word w) last k).trans distinct
                  rw [Option.filter_some_pos (by rw [split]; rfl)]
                  change (((Pattern.wordPair k l).piecesAfter (m.text.length - 1) (pos + 1) (some c)
                    (y ++ after)).filterMap Piece.hit?).length + 1 = _
                  rw [split, List.length_cons, Nat.add_sub_cancel, Pattern.piecesAfter_length,
                    later, pair, follows, show (Token.word v).names k = true from named,
                    show (Token.word w).names l = true from last,
                    follows_cons (.inl other)]
                  exact Nat.add_comm _ 1
              | none =>
                  obtain ⟨w, y, rfl, letters, stop⟩ := exists_wordRun s
                  have later :=
                    ih y.length (by simp only [List.length_cons, List.length_append]; omega) y rfl
                    (pos + 1 + w.length) (w.getLast?.or (some c)) (.inr stop)
                  have word : tokens (c :: (w ++ y)) = .word (c :: w) :: tokens y :=
                    tokens_word_append (List.cons_ne_nil c w) (List.forall_mem_cons.mpr
                      ⟨letter, letters⟩) stop
                  have alone : (Token.word (c :: w)).names k = false ∨
                      (tokens y).head?.any (Token.names l) = false := by
                    cases named : (Token.word (c :: w)).names k with
                    | false => exact .inl rfl
                    | true =>
                        exact .inr (any_head?_tokens_of_missed first second named stop free found)
                  rw [Option.filter_none, word, follows_cons alone, ← later]
                  exact congrArg List.length (Pattern.hitsAfter_word (fun _ _ _ _ _ taken =>
                    ((Pattern.spans_wordPair_iff first second _ _ _ _ _).mp taken).2.1) letters
                      (pos + 1) (some c) letter y)

end

end LiteSql
