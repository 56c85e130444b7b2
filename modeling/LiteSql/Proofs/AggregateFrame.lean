import LiteSql.Proofs.AggregateLayout

/-! What the layout of aggregate queries leaves alone. Outside calls of a group concatenation every
character is copied. In them, only blanks, the spelling of the name and the ends of line comments
change. -/

namespace LiteSql

def placedFrom : (pos : Nat) → List Lexeme → List (Nat × Lexeme)
  | _, [] => []
  | pos, l :: ls => (pos, l) :: placedFrom (pos + l.text.length) ls

theorem placedFrom_append (pos : Nat) (first second : List Lexeme) :
    placedFrom pos (first ++ second) =
      placedFrom pos first ++ placedFrom (pos + (first.flatMap Lexeme.text).length) second := by
  induction first generalizing pos with
  | nil => rfl
  | cons l first ih =>
      rw [List.cons_append, placedFrom, ih, placedFrom, List.cons_append, List.flatMap_cons,
        List.length_append, Nat.add_assoc]

theorem placedFrom_eq_map (pos : Nat) (ls : List Lexeme) :
    placedFrom pos ls = (placedFrom 0 ls).map fun placed => (pos + placed.1, placed.2) := by
  suffices shift : ∀ more, placedFrom (pos + more) ls = (placedFrom more ls).map fun placed =>
      (pos + placed.1, placed.2)
    from shift 0
  induction ls with
  | nil => exact fun _ => rfl
  | cons l ls ih =>
      intro more
      rw [placedFrom, placedFrom, List.map_cons, Nat.add_assoc, ih]

theorem lt_of_mem_placedFrom {pos : Nat} {ls : List Lexeme} (present : ∀ l ∈ ls, l.text ≠ []) :
    ∀ placed ∈ placedFrom pos ls, placed.1 < pos + (ls.flatMap Lexeme.text).length := by
  induction ls generalizing pos with
  | nil => exact List.forall_mem_nil _
  | cons l ls ih =>
      obtain ⟨here, later⟩ := List.forall_mem_cons.mp present
      have some := List.length_pos_of_ne_nil here
      rw [placedFrom, List.forall_mem_cons, List.flatMap_cons, List.length_append]
      refine ⟨by omega, fun placed member => ?_⟩
      have bound := ih later placed member
      omega

namespace GroupConcat

theorem eq_of_names {s : Text} {pos i k j m : Nat} (one : IsCall function s i k)
    (other : IsCall function s j m)
    (low : i ≤ pos) (high : pos < i + function.length) (low' : j ≤ pos)
    (high' : pos < j + function.length) : i = j := by
  have apart {i k j m : Nat} (one : IsCall function s i k) (other : IsCall function s j m)
      (high : pos < i + function.length)
      (low : j ≤ pos) : ¬ i < j := by
    intro before
    have late := one.lt_close
    have nested := (one.nested isWordChar_function other before (by omega)).1
    omega
  have first := apart one other high low'
  have second := apart other one high' low
  omega

def inCall (s : Text) (pos : Nat) : Bool :=
  (callsOf function s).any fun call => call.1 ≤ pos ∧ pos ≤ call.2

def nameLetter? (s : Text) (pos : Nat) : Option Char :=
  ((callsOf function s).find? fun call => call.1 ≤ pos ∧ pos < call.1 + function.length).bind
    fun call =>
    function[pos - call.1]?

theorem inCall_iff {s : Text} {pos : Nat} :
    inCall s pos = true ↔ ∃ i k, IsCall function s i k ∧ i ≤ pos ∧ pos ≤ k := by
  simp only [inCall, List.any_eq_true, decide_eq_true_eq, Prod.exists,
    mem_callsOf_iff isWordChar_function]

theorem nameLetter?_eq_some_iff {s : Text} {pos : Nat} {c : Char} : nameLetter? s pos = some c ↔
    ∃ i k, IsCall function s i k ∧ i ≤ pos ∧ pos < i + function.length ∧
      function[pos - i]? = some c := by
  rw [nameLetter?, Option.bind_eq_some_iff]
  constructor
  · rintro ⟨⟨i, k⟩, found, letter⟩
    have inside := List.find?_some found
    have member := List.mem_of_find?_eq_some found
    rw [mem_callsOf_iff isWordChar_function] at member
    rw [decide_eq_true_eq] at inside
    exact ⟨i, k, member, inside.1, inside.2, letter⟩
  · rintro ⟨i, k, call, low, high, letter⟩
    have member := (mem_callsOf_iff isWordChar_function i k).mpr call
    cases found : (callsOf function s).find? fun call =>
      call.1 ≤ pos ∧ pos < call.1 + function.length with
    | none => exact absurd (List.find?_eq_none.mp found _ member) (by simp [low, high])
    | some other =>
        have inside := List.find?_some found
        have known := List.mem_of_find?_eq_some found
        rw [decide_eq_true_eq] at inside
        have same := eq_of_names call ((mem_callsOf_iff isWordChar_function _ _).mp known) low high
          inside.1 inside.2
        exact ⟨other, rfl, by rw [← same, letter]⟩

def relaid (s : Text) : Nat × Lexeme → Lexeme
  | (pos, .code c) => .code ((nameLetter? s pos).getD c)
  | (pos, .literal kind text) =>
      if inCall s pos then (Lexeme.literal kind text).closed else .literal kind text

def relaidFrom (s : Text) (pos : Nat) (ls : List Lexeme) : List Lexeme :=
  ((placedFrom pos ls).filter fun placed => !placed.2.isBlank).map (relaid s)

theorem nameLetter?_eq_none {s : Text} {pos : Nat}
    (outside : ∀ i k, IsCall function s i k → i ≤ pos → ¬ pos < i + function.length) :
      nameLetter? s pos = none := by
  rw [Option.eq_none_iff_forall_ne_some]
  intro c found
  obtain ⟨i, k, call, low, high, -⟩ := nameLetter?_eq_some_iff.mp found
  exact outside i k call low high

theorem relaid_of_between {s : Text} {pos : Nat} (between : Between function s pos)
    (outside : ∀ close, ¬ IsCall function s pos close) (l : Lexeme) : relaid s (pos, l) = l := by
  have apart (i k : Nat) (call : IsCall function s i k) (low : i ≤ pos) : k < pos := by
    rcases Nat.lt_or_eq_of_le low with before | rfl
    · exact between i k call before
    · exact absurd call (outside k)
  have free : inCall s pos = false := by
    rw [← Bool.not_eq_true, inCall_iff]
    rintro ⟨i, k, call, low, high⟩
    have before := apart i k call low
    omega
  have unnamed : nameLetter? s pos = none := nameLetter?_eq_none fun i k call low high => by
    have before := apart i k call low
    have late := call.lt_close
    omega
  cases l with
  | code c =>
      rw [relaid, unnamed]
      rfl
  | literal kind text =>
      rw [relaid, free]
      rfl

theorem relaidFrom_append (s : Text) (pos : Nat) (first second : List Lexeme) :
    relaidFrom s pos (first ++ second) =
    relaidFrom s pos first ++ relaidFrom s (pos + (first.flatMap Lexeme.text).length) second := by
  rw [relaidFrom, placedFrom_append, List.filter_append, List.map_append]
  rfl

theorem relaidFrom_singleton {l : Lexeme} (s : Text) (pos : Nat)
    (same : l.isBlank = false → relaid s (pos, l) = l) :
    relaidFrom s pos [l] = filled [l] := by
  rw [relaidFrom, placedFrom, placedFrom, filled]
  cases solid : l.isBlank with
  | true => simp [solid]
  | false => simp [solid, same solid]

section

variable {s : Text} {pos close : Nat} (between : Between function s pos)
  (call : IsCall function s pos close)

include between call

theorem eq_or_nested {x i k : Nat} (other : IsCall function s i k) (inside : pos ≤ x)
    (before : x ≤ close) (low : i ≤ x)
    (high : x < i + function.length) : i = pos ∨ pos + function.length < i ∧ k < close := by
  have late := other.lt_close
  rcases Nat.lt_trichotomy i pos with less | same | more
  · have ended := between i k other less
    omega
  · exact .inl same
  · exact .inr (call.nested isWordChar_function other more (by omega))

omit between in
theorem nameLetter?_name {x : Nat} (inside : x < function.length) :
    nameLetter? s (pos + x) = function[x]? := by
  rw [List.getElem?_eq_getElem inside, nameLetter?_eq_some_iff]
  exact ⟨pos, close,
    call, by omega, by omega, by rw [Nat.add_sub_cancel_left, List.getElem?_eq_getElem inside]⟩

theorem nameLetter?_sign {x : Nat} (sign : x = pos + function.length ∨ x = close) :
    nameLetter? s x = none := by
  have late := call.lt_close
  refine nameLetter?_eq_none fun i k other low high => ?_
  have last := other.lt_close
  rcases eq_or_nested between call other (by omega) (by omega) low high with rfl | nested
  · omega
  · omega

theorem nameLetter?_slice {x : Nat} (inside : pos + function.length + 1 + x < close) :
    nameLetter? s (pos + function.length + 1 + x) =
      nameLetter? (slice s (pos + function.length + 1) close) x := by
  refine Option.ext fun c => ?_
  simp only [nameLetter?_eq_some_iff]
  constructor
  · rintro ⟨i, k, other, low, high, letter⟩
    rcases eq_or_nested between call other (by omega) (by omega) low high with rfl | nested
    · omega
    · have last := other.lt_close
      refine ⟨i - (pos + function.length + 1), k - (pos + function.length + 1),
        (call.isCall_slice_iff isWordChar_function _ _).mpr ⟨by omega, ?_⟩, by omega, by omega, ?_⟩
      · rwa [Nat.add_sub_cancel' (by omega), Nat.add_sub_cancel' (by omega)]
      · rwa [show x - (i - (pos + function.length + 1)) =
          pos + function.length + 1 + x - i by omega]
  · rintro ⟨i, k, other, low, high, letter⟩
    obtain ⟨-, whole⟩ := (call.isCall_slice_iff isWordChar_function i k).mp other
    refine ⟨_, _, whole, by omega, by omega, ?_⟩
    rwa [Nat.add_sub_add_left]

omit between in
theorem relaidFrom_name {n : Nat} {w : Text} (letters : ∀ c ∈ w, isWordChar c = true)
    (length : n + w.length = function.length) :
    relaidFrom s (pos + n) (w.map .code) = (function.drop n).map .code := by
  induction w generalizing n with
  | nil =>
      have ended : function.drop n = [] := List.drop_of_length_le (Nat.le_of_eq length.symm)
      rw [ended]
      rfl
  | cons c w ih =>
      obtain ⟨letter, later⟩ := List.forall_mem_cons.mp letters
      rw [List.length_cons] at length
      have inside : n < function.length := by omega
      have solid : (Lexeme.code c).isBlank = false := isBlank_of_isWordChar letter
      have here : relaid s (pos + n, .code c) = .code function[n] := by
        rw [relaid, nameLetter?_name call inside, List.getElem?_eq_getElem inside]
        rfl
      have next := ih later (n := n + 1) (by omega)
      rw [List.drop_eq_getElem_cons inside, List.map_cons, List.map_cons, ← next, relaidFrom,
        placedFrom, List.filter_cons_of_pos (by simp [solid]), List.map_cons, here]
      rfl

theorem relaidFrom_sign {x : Nat} {c : Char} (solid : isBlank c = false)
    (sign : x = pos + function.length ∨ x = close) : relaidFrom s x [.code c] = [.code c] := by
  have same : relaid s (x, .code c) = .code c := by
    rw [relaid, nameLetter?_sign between call sign]
    rfl
  rw [relaidFrom_singleton s x fun _ => same]
  exact filled_cons (l := .code c) solid []

theorem relaid_slice {x : Nat} (inside : pos + function.length + 1 + x < close) (l : Lexeme) :
    relaid s (pos + function.length + 1 + x, l) =
      (relaid (slice s (pos + function.length + 1) close) (x, l)).closed := by
  have within : inCall s (pos + function.length + 1 + x) = true :=
    inCall_iff.mpr ⟨pos, close, call, by omega, by omega⟩
  cases l with
  | code c =>
      rw [relaid, relaid, nameLetter?_slice between call inside]
      rfl
  | literal kind text =>
      rw [relaid, relaid, within, if_pos rfl]
      split
      · rw [Lexeme.closed_of_plain (Lexeme.isLineComment_closed _)]
      · rfl

theorem relaidFrom_slice {inner : List Lexeme} (present : ∀ l ∈ inner, l.text ≠ [])
    (length : pos + function.length + 1 + (inner.flatMap Lexeme.text).length = close) :
    relaidFrom s (pos + function.length + 1) inner =
      (relaidFrom (slice s (pos + function.length + 1) close) 0 inner).map Lexeme.closed := by
  rw [relaidFrom, placedFrom_eq_map, List.filter_map, List.map_map, relaidFrom, List.map_map]
  refine List.map_congr_left fun placed member => ?_
  have bound := lt_of_mem_placedFrom present placed (List.mem_of_mem_filter member)
  exact relaid_slice between call (by omega) placed.2

end

end GroupConcat

theorem not_isCall_of_startsNoCall {name s : Text} (word : ∀ c ∈ name, isWordChar c = true)
    {front rest : List Lexeme}
    (read : lexemes s = front ++ rest) (uncalled : StartsNoCall name front rest) (close : Nat) :
    ¬ IsCall name s (front.flatMap Lexeme.text).length close := by
  intro call
  obtain ⟨text, later⟩ := lexemes_of_append read
  obtain ⟨balanced, cut⟩ := call.lexemes_drop word
  have drop : s.drop (front.flatMap Lexeme.text).length = rest.flatMap Lexeme.text := by
    rw [text, List.drop_left]
  have take : s.take (front.flatMap Lexeme.text).length = front.flatMap Lexeme.text := by
    rw [text, List.take_left]
  have separate := call.separate
  rw [take] at separate
  exact uncalled _ _ _ (by rw [← later, ← drop, cut]) ⟨call.spelled_slice, separate, balanced⟩

theorem Between.add {name s : Text} {pos : Nat} (between : Between name s pos) {n : Nat}
    (outside : ∀ i, pos ≤ i → i < pos + n → ∀ close, ¬ IsCall name s i close) :
      Between name s (pos + n) := by
  intro i k call before
  rcases Nat.lt_or_ge i pos with early | late
  · exact Nat.lt_add_right n (between i k call early)
  · exact absurd call (outside i late before k)

namespace GroupConcat

theorem relaidFrom_callLexemes {s : Text} {front inner behind : List Lexeme} {written : Text}
    (read : lexemes s = front ++ (callLexemes written inner ++ behind))
    (cut : CallCut function front written inner)
    (between : Between function s (front.flatMap Lexeme.text).length) :
    relaidFrom s (front.flatMap Lexeme.text).length (callLexemes written inner) =
      callLexemes function ((relaidFrom (inner.flatMap Lexeme.text) 0 inner).map
        Lexeme.closed) := by
  have call := cut.isCall read
  have arguments := slice_arguments read
  have length := ((spelled_iff _ _).mp cut.named).2
  have letters := (isWordChar_of_spelled isAsciiWord_groupConcat cut.named).2
  have present : ∀ l ∈ inner, l.text ≠ [] := fun l member =>
    text_ne_nil_of_mem_lexemes s l (by rw [read, callLexemes]; simp [member])
  rw [length] at arguments
  generalize (front.flatMap Lexeme.text).length = pos at *
  have name := relaidFrom_name call letters (n := 0) (by omega)
  have opened := relaidFrom_sign between call (c := '(') (by decide) (.inl rfl)
  have closed := relaidFrom_sign between call (c := ')') (by decide) (.inr rfl)
  have inside := relaidFrom_slice between call present rfl
  rw [arguments] at inside
  rw [Nat.add_zero, List.drop_zero] at name
  have text : ((written.map Lexeme.code).flatMap Lexeme.text).length = function.length := by
    rw [← length]
    simp [List.flatMap_map, Lexeme.text]
  rw [callLexemes, relaidFrom_append, name, text, show Lexeme.code '(' :: (inner ++ [.code ')']) =
    [.code '('] ++ (inner ++ [.code ')']) from rfl, relaidFrom_append, opened, relaidFrom_append,
    show (List.flatMap Lexeme.text [.code '(']).length = 1 from rfl, inside, closed]
  rfl

end GroupConcat

theorem filled_map_closed (ls : List Lexeme) : filled (ls.map Lexeme.closed) =
    (filled ls).map Lexeme.closed := by
  have same (l : Lexeme) : l.closed.isBlank = l.isBlank := by
    cases l with
    | code c => rfl
    | literal kind text => cases kind <;> rfl
  rw [filled, List.filter_map, filled]
  simp only [Function.comp_def, same]

theorem filled_callLexemes (arguments : List Lexeme) :
    filled (callLexemes GroupConcat.function arguments) =
    callLexemes GroupConcat.function (filled arguments) := by
  have letters : filled (GroupConcat.function.map .code) =
      GroupConcat.function.map .code := by decide
  rw [callLexemes, filled_append, letters, filled_cons (by decide), filled_append]
  rfl

open GroupConcat in
theorem LaidOut.filled_eq {front ls ms : List Lexeme} (laidOut : LaidOut front ls ms) {s : Text}
    (read : lexemes s = front ++ ls) (between : Between function s
      (front.flatMap Lexeme.text).length) :
    filled ms = relaidFrom s (front.flatMap Lexeme.text).length ls := by
  induction laidOut generalizing s with
  | done => rfl
  | @keep front l ls ms uncalled _ ih =>
      have outside := not_isCall_of_startsNoCall isWordChar_function read uncalled
      have next : Between function s ((front ++ [l]).flatMap Lexeme.text).length := by
        rw [List.flatMap_append, List.flatMap_singleton, List.length_append]
        refine between.add fun i low high close => ?_
        rcases Nat.eq_or_lt_of_le low with rfl | more
        · exact outside close
        · exact not_isCall_of_lexemes read more high close
      rw [show l :: ls = [l] ++ ls from rfl, relaidFrom_append,
        relaidFrom_singleton _ _ fun _ => relaid_of_between between outside l]
      rw [List.append_cons] at read
      have rest := ih read next
      rw [List.flatMap_append, List.length_append] at rest
      rw [← rest, ← filled_append]
      rfl
  | @call front inner others arguments ls ms written cut _ rejoined _ _ ihInner ih =>
      have call := cut.isCall read
      have alone : lexemes (inner.flatMap Lexeme.text) = inner :=
        lexemes_front (lexemes_arguments read)
      have nested := ihInner alone (fun _ _ _ before => absurd before (Nat.not_lt_zero _))
      have words : filled arguments = (relaidFrom (inner.flatMap Lexeme.text) 0 inner).map
          Lexeme.closed := by
        rw [rejoined.filled_eq, filled_neaten, filled_map_closed, nested]
        rfl
      have behind : Between function s ((front ++ callLexemes written inner).flatMap
          Lexeme.text).length := by
        have last := call.between isWordChar_function between
        have length := ((spelled_iff _ _).mp cut.named).2
        rw [List.flatMap_append, flatMap_text_callLexemes]
        simpa [length, Nat.add_assoc, Nat.add_comm 1] using last
      have block := relaidFrom_callLexemes read cut between
      rw [← List.append_assoc] at read
      have rest := ih read behind
      rw [List.flatMap_append, List.length_append] at rest
      rw [relaidFrom_append, block, filled_append, rest, ← words, filled_callLexemes]

theorem filled_aggregateQuery (s : Text) :
    filled (lexemes (Layout.aggregateQuery s)) = GroupConcat.relaidFrom s 0 (lexemes s) :=
  (laidOut_aggregateQuery s).filled_eq rfl fun _ _ _ before => absurd before (Nat.not_lt_zero _)

/-! ### Literals and code -/

namespace GroupConcat

theorem filterMap_filled {α : Type} {f : Lexeme → Option α}
    (blank : ∀ l, l.isBlank = true → f l = none)
    (ls : List Lexeme) : (filled ls).filterMap f = ls.filterMap f := by
  rw [filled, List.filterMap_filter]
  refine congrArg (List.filterMap · ls) (funext fun l => ?_)
  cases solid : l.isBlank with
  | true => exact (blank l solid).symm
  | false => rfl

theorem filterMap_aggregateQuery {α : Type} {f : Lexeme → Option α}
    (blank : ∀ l, l.isBlank = true → f l = none)
    (s : Text) : (lexemes (Layout.aggregateQuery s)).filterMap f =
      (placedFrom 0 (lexemes s)).filterMap fun placed => if placed.2.isBlank then none
        else f (relaid s placed) := by
  rw [← filterMap_filled blank, filled_aggregateQuery, relaidFrom, List.filterMap_map,
    List.filterMap_filter]
  refine congrArg (List.filterMap · (placedFrom 0 (lexemes s))) (funext fun placed => ?_)
  cases placed.2.isBlank with
  | true => rfl
  | false => rfl

theorem literals_aggregateQuery (s : Text) :
    (lexemes (Layout.aggregateQuery s)).filterMap Lexeme.literalText? =
    (placedFrom 0 (lexemes s)).filterMap fun placed => placed.2.literalText?.map fun text =>
      if inCall s placed.1 then placed.2.withoutLineComment else text := by
  have blank (l : Lexeme) (space : l.isBlank = true) : l.literalText? = none := by
    cases l with
    | code c => rfl
    | literal kind text => cases space
  rw [filterMap_aggregateQuery blank]
  refine congrArg (List.filterMap · (placedFrom 0 (lexemes s))) (funext fun placed => ?_)
  obtain ⟨pos, l⟩ := placed
  cases l with
  | code c => simp [relaid, Lexeme.literalText?]
  | literal kind text =>
      have closed : (Lexeme.literal kind text).closed.literalText? =
          some (Lexeme.literal kind text).withoutLineComment := by
        cases kind <;> rfl
      rw [relaid, if_neg (show ¬ (Lexeme.literal kind text).isBlank = true from nofun)]
      show _ = some _
      split
      · exact closed
      · rfl

theorem isBlank_getD_nameLetter? {s : Text} {pos : Nat} {c : Char} (solid : isBlank c = false) :
    isBlank ((nameLetter? s pos).getD c) = false := by
  have letters : ∀ d ∈ function, isBlank d = false := by decide
  cases found : nameLetter? s pos with
  | none => exact solid
  | some d =>
      obtain ⟨i, k, -, -, -, letter⟩ := nameLetter?_eq_some_iff.mp found
      exact letters d (List.mem_of_getElem? letter)

theorem solid_aggregateQuery (s : Text) :
    (lexemes (Layout.aggregateQuery s)).filterMap Lexeme.solid? =
    (placedFrom 0 (lexemes s)).filterMap fun placed =>
      placed.2.solid?.map (nameLetter? s placed.1).getD := by
  have blank (l : Lexeme) (space : l.isBlank = true) : l.solid? = none := by
    cases l with
    | code c => exact if_pos space
    | literal kind text => cases space
  rw [filterMap_aggregateQuery blank]
  refine congrArg (List.filterMap · (placedFrom 0 (lexemes s))) (funext fun placed => ?_)
  obtain ⟨pos, l⟩ := placed
  cases l with
  | code c =>
      rw [relaid]
      show (if isBlank c = true then none else if isBlank _ = true then none else some _) =
        Option.map _ (if isBlank c = true then none else some c)
      cases solid : isBlank c with
      | true => rfl
      | false =>
          rw [isBlank_getD_nameLetter? solid]
          rfl
  | literal kind text =>
      rw [relaid]
      split
      · rfl
      · split
        · cases kind <;> rfl
        · rfl

/-! ### Text outside calls -/

/-- Whether two texts are the same from two positions on outside calls. Where a call stands in one,
a call stands in the other that is spelled like the function. -/
inductive CopiedFrom (s t : Text) : Nat → Nat → Prop
  | done : CopiedFrom s t s.length t.length
  | copy {i j : Nat} {c : Char} : (∀ close, ¬ IsCall function s i close) → s[i]? = some c →
      t[j]? = some c →
    CopiedFrom s t (i + 1) (j + 1) → CopiedFrom s t i j
  | call {i j k m : Nat} : IsCall function s i k → IsCall function t j m →
      slice t j (j + function.length) = function →
    CopiedFrom s t (k + 1) (m + 1) → CopiedFrom s t i j

theorem CopiedFrom.append {s t x u v : Text} {i j : Nat} (first : s.drop i = x ++ u)
    (second : t.drop j = x ++ v)
    (outside : ∀ n, i ≤ n → n < i + x.length → ∀ close, ¬ IsCall function s n close)
    (rest : CopiedFrom s t (i + x.length) (j + x.length)) : CopiedFrom s t i j := by
  induction x generalizing i j with
  | nil => exact rest
  | cons c x ih =>
      rw [List.length_cons] at outside rest
      have next {s u : Text} {i : Nat} (cut : s.drop i = c :: x ++ u) : s[i]? = some c ∧
          s.drop (i + 1) = x ++ u := by
        rw [← List.head?_drop, ← List.tail_drop, cut]
        exact ⟨rfl, rfl⟩
      obtain ⟨here, later⟩ := next first
      obtain ⟨here', later'⟩ := next second
      refine .copy (outside i (Nat.le_refl i) (by omega)) here here' (ih later later' ?_ ?_)
      · exact fun n low high => outside n (by omega) (by omega)
      · rwa [Nat.add_right_comm, Nat.add_right_comm j]

end GroupConcat

theorem drop_of_lexemes {s : Text} {front rest : List Lexeme} (read : lexemes s = front ++ rest) :
    s.drop (front.flatMap Lexeme.text).length = rest.flatMap Lexeme.text := by
  rw [(lexemes_of_append read).1, List.drop_left]

open GroupConcat in
theorem LaidOut.copiedFrom {front ls ms : List Lexeme} (laidOut : LaidOut front ls ms) {s t : Text}
    {early : List Lexeme}
    (source : lexemes s = front ++ ls) (result : lexemes t = early ++ ms)
    (same : EndsSame front early) :
    CopiedFrom s t (front.flatMap Lexeme.text).length (early.flatMap Lexeme.text).length := by
  induction laidOut generalizing early with
  | done front =>
      have first := (lexemes_of_append source).1
      have second := (lexemes_of_append result).1
      simp only [List.flatMap_nil, List.append_nil] at first second
      rw [← first, ← second]
      exact .done
  | @keep front l ls ms uncalled _ ih =>
      have outside := not_isCall_of_startsNoCall isWordChar_function source uncalled
      refine .append (drop_of_lexemes source) (drop_of_lexemes result)
        (fun n low high close => ?_) ?_
      · rcases Nat.eq_or_lt_of_le low with rfl | more
        · exact outside close
        · exact not_isCall_of_lexemes source more high close
      · rw [List.append_cons] at source result
        have rest := ih source result (.append_singleton front early l)
        simpa using rest
  | @call front inner others arguments ls ms written cut _ rejoined tidy _ _ ih =>
      have alike : EndsSame early front := fun q signs remarks => (same q signs remarks).symm
      have separate := alike.separate (fun l member => text_ne_nil_of_mem_lexemes t l
        (by rw [result]; simp [member]))
        (fun l member => text_ne_nil_of_mem_lexemes s l (by rw [source]; simp [member]))
          cut.separate
      have other : CallCut function early function arguments :=
        ⟨spelled_groupConcat, separate, tidy.balanced⟩
      have length := ((spelled_iff _ _).mp cut.named).2
      refine .call (cut.isCall source) (other.isCall result) ?_ ?_
      · rw [slice, drop_of_lexemes result, Nat.add_sub_cancel_left, List.flatMap_append,
          flatMap_text_callLexemes, List.append_assoc, List.take_left]
      · rw [← List.append_assoc] at source result
        have rest := ih source result (.call front inner written early
          (getLast?_callLexemes _ arguments) (.inl rfl))
        simpa [flatMap_text_callLexemes, length, Nat.add_assoc, Nat.add_comm 1] using rest

namespace GroupConcat

/-- The layout of an aggregate query copies what stands outside calls of the group concatenation.
The literals are those of the source in their order, with the line comments in calls made block
comments; the code is that of the source up to blanks, with the names of all calls spelled alike;
and a second layout changes nothing. -/
theorem aggregateQuery_only_layout (s : Text) :
    let t := Layout.aggregateQuery s
    CopiedFrom s t 0 0 ∧
    (lexemes t).filterMap Lexeme.literalText? =
      ((placedFrom 0 (lexemes s)).filterMap fun placed => placed.2.literalText?.map fun text =>
        if inCall s placed.1 then placed.2.withoutLineComment else text) ∧
    (lexemes t).filterMap Lexeme.solid? =
      ((placedFrom 0 (lexemes s)).filterMap fun placed => placed.2.solid?.map
        (nameLetter? s placed.1).getD) ∧
    Layout.aggregateQuery t = t :=
  ⟨(laidOut_aggregateQuery s).copiedFrom rfl rfl fun _ _ _ => rfl, literals_aggregateQuery s,
    solid_aggregateQuery s, aggregateQuery_aggregateQuery s⟩

end GroupConcat

end LiteSql
