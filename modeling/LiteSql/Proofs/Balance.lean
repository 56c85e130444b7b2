import LiteSql.Proofs.CodeWord
import LiteSql.Proofs.Replacement

/-! Balanced lexemes, and calls as cuts of the lexemes of a text: a name in code, and balanced
lexemes between parentheses behind it. -/

namespace LiteSql

/-- The depth behind lexemes, if they close no parenthesis that stands before them. -/
def levelAfter : (depth : Nat) → List Lexeme → Option Nat
  | depth, [] => some depth
  | depth, l :: ls =>
    if l = .code ')' ∧ depth = 0 then none else levelAfter (depthAfter depth l) ls

def Balanced (ls : List Lexeme) : Prop := levelAfter 0 ls = some 0

theorem add_turn {depth : Nat} {l : Lexeme} (later : ¬ (l = .code ')' ∧ depth = 0)) :
    (depth : Int) + l.turn = depthAfter depth l := by
  by_cases close : l = .code ')'
  · have deep : depth ≠ 0 := fun shallow => later ⟨close, shallow⟩
    simp only [close, depthAfter, Lexeme.turn]
    omega
  · have nonneg := l.turn_nonneg close
    simp only [depthAfter]
    omega

theorem levelAfter_append (depth : Nat) (first second : List Lexeme) :
    levelAfter depth (first ++ second) = (levelAfter depth first).bind (levelAfter · second) := by
  induction first generalizing depth with
  | nil => rfl
  | cons l first ih =>
      rw [List.cons_append, levelAfter, levelAfter, ih]
      split <;> rfl

theorem depthAfter_add {depth : Nat} {l : Lexeme} (later : ¬ (l = .code ')' ∧ depth = 0))
    (more : Nat) :
    depthAfter (depth + more) l = depthAfter depth l + more := by
  have turned := add_turn later
  have deeper : ¬ (l = .code ')' ∧ depth + more = 0) := fun here => later ⟨here.1, by omega⟩
  have turnedMore := add_turn deeper
  omega

theorem levelAfter_add {depth last : Nat} {ls : List Lexeme}
    (ends : levelAfter depth ls = some last)
    (more : Nat) : levelAfter (depth + more) ls = some (last + more) := by
  induction ls generalizing depth with
  | nil =>
      cases ends
      rfl
  | cons l ls ih =>
      rw [levelAfter] at ends ⊢
      split at ends
      · cases ends
      · next later =>
          have deeper : ¬ (l = .code ')' ∧ depth + more = 0) := fun here => later ⟨here.1, by omega⟩
          rw [if_neg deeper, depthAfter_add later]
          exact ih ends

theorem Balanced.levelAfter_append {ls : List Lexeme} (balanced : Balanced ls) (depth : Nat)
    (rest : List Lexeme) : levelAfter depth (ls ++ rest) = levelAfter depth rest := by
  have level := levelAfter_add balanced depth
  rw [Nat.zero_add] at level
  rw [LiteSql.levelAfter_append, level, Option.bind_some]

theorem Balanced.append {first second : List Lexeme} (one : Balanced first)
    (other : Balanced second) :
    Balanced (first ++ second) := by
  rw [Balanced, one.levelAfter_append]
  exact other

theorem closingIn_append_of_level {depth last : Nat} {ls : List Lexeme}
    (ends : levelAfter depth ls = some last) (rest : List Lexeme) :
    closingIn depth (ls ++ rest) =
      (closingIn last rest).map (· + (ls.flatMap Lexeme.text).length) := by
  induction ls generalizing depth with
  | nil =>
      cases ends
      simp
  | cons l ls ih =>
      rw [levelAfter] at ends
      split at ends
      · cases ends
      · next later =>
          rw [List.cons_append, closingIn_cons, if_neg later, ih ends, Option.map_map,
            List.flatMap_cons, List.length_append]
          congr 1
          funext n
          simp only [Function.comp_apply]
          omega

theorem Balanced.closingIn_append {ls : List Lexeme} (balanced : Balanced ls) (rest : List Lexeme) :
    closingIn 0 (ls ++ .code ')' :: rest) = some (ls.flatMap Lexeme.text).length := by
  rw [closingIn_append_of_level balanced, closingIn, if_pos rfl, if_pos rfl]
  simp

theorem Balanced.isSome_closingIn_append {ls : List Lexeme} (balanced : Balanced ls) (depth : Nat)
    (rest : List Lexeme) : (closingIn depth (ls ++ rest)).isSome =
    (closingIn depth rest).isSome := by
  have level := levelAfter_add balanced depth
  rw [Nat.zero_add] at level
  rw [closingIn_append_of_level level, Option.isSome_map]

theorem Balanced.exists_append {front x y rest more : List Lexeme} (outer : Balanced (front ++ x))
    (inner : Balanced y) (same : x ++ .code ')' :: more = y ++ rest) :
    ∃ z, x = y ++ z ∧ rest = z ++ .code ')' :: more := by
  rcases List.append_eq_append_iff.mp same with ⟨z, rfl, cut⟩ | ⟨z, rfl, cut⟩
  · cases z with
    | nil => exact ⟨[], by simp, by simpa using cut.symm⟩
    | cons l z =>
        obtain ⟨rfl, -⟩ := List.cons.inj cut
        -- the piece is some levels up before the parenthesis, but what ends there is balanced
        rw [Balanced, LiteSql.levelAfter_append, Option.bind_eq_some_iff] at outer inner
        obtain ⟨depth, -, falls⟩ := outer
        obtain ⟨level, rises, closes⟩ := inner
        have deeper := levelAfter_add rises depth
        rw [Nat.zero_add, falls] at deeper
        obtain rfl : level = 0 := by
          have sum := Option.some.inj deeper
          omega
        cases closes
  · exact ⟨z, rfl, cut⟩

theorem Balanced.eq_of_append {x y rest more : List Lexeme} (one : Balanced x) (other : Balanced y)
    (same : x ++ .code ')' :: more = y ++ .code ')' :: rest) : x = y := by
  obtain ⟨z, rfl, cut⟩ := (show Balanced ([] ++ x) from one).exists_append other same
  cases z with
  | nil => exact List.append_nil y
  | cons l z =>
      obtain ⟨rfl, -⟩ := List.cons.inj cut
      rw [Balanced, other.levelAfter_append] at one
      cases one

theorem exists_level_of_closingIn {depth : Nat} {ls : List Lexeme} {n : Nat}
    (found : closingIn depth ls = some n) :
    ∃ inner behind, ls = inner ++ .code ')' :: behind ∧ levelAfter depth inner = some 0 ∧
      (inner.flatMap Lexeme.text).length = n := by
  induction ls generalizing depth n with
  | nil => simp [closingIn] at found
  | cons l ls ih =>
      rcases closingIn_cons_eq_some found with ⟨rfl, rfl, rfl⟩ | ⟨later, m, deeper, rfl⟩
      · exact ⟨[], ls, rfl, rfl, rfl⟩
      · obtain ⟨inner, behind, rfl, ends, length⟩ := ih deeper
        refine ⟨l :: inner, behind, rfl, ?_, ?_⟩
        · rw [levelAfter, if_neg later, ends]
        · rw [List.flatMap_cons, List.length_append, length, Nat.add_comm]

theorem text_ne_nil_of_mem_lexemes (s : Text) : ∀ l ∈ lexemes s, l.text ≠ [] := by
  intro l member
  obtain ⟨first, second, read⟩ := List.append_of_mem member
  obtain ⟨-, later⟩ := lexemes_of_append read
  obtain ⟨rest, -, leads, -⟩ := exists_leads_of_lexemes_eq_cons later
  exact Lexeme.text_ne_nil_of_leads leads

def callLexemes (written : Text) (inner : List Lexeme) : List Lexeme :=
  written.map .code ++ .code '(' :: (inner ++ [.code ')'])

theorem flatMap_text_callLexemes (written : Text) (inner : List Lexeme) :
    (callLexemes written inner).flatMap Lexeme.text =
      written ++ '(' :: (inner.flatMap Lexeme.text ++ [')']) := by
  rw [callLexemes, List.flatMap_append, flatMap_text_map_code]
  simp [Lexeme.text]

/-- Whether a call of a function with the arguments `inner` can stand behind other lexemes. -/
structure CallCut (name : Text) (front : List Lexeme) (written : Text)
    (inner : List Lexeme) : Prop where
  named : spelled name written = true
  separate : (front.flatMap Lexeme.text).getLast?.any continuesName = false
  balanced : Balanced inner

theorem spelled_iff (k w : Text) :
    spelled k w = true ↔ startsIgnoringCase k w = true ∧ w.length = k.length := by
  rw [spelled, Bool.and_eq_true, beq_iff_eq]

theorem callLexemes_inj {name written written' : Text} {inner inner' behind behind' : List Lexeme}
    (named : spelled name written = true) (named' : spelled name written' = true)
    (balanced : Balanced inner)
    (balanced' : Balanced inner')
    (same : callLexemes written inner ++ behind = callLexemes written' inner' ++ behind') :
    written = written' ∧ inner = inner' ∧ behind = behind' := by
  have length : (written.map Lexeme.code).length = (written'.map Lexeme.code).length := by
    rw [List.length_map, List.length_map, ((spelled_iff _ _).mp named).2,
      ((spelled_iff _ _).mp named').2]
  rw [callLexemes, callLexemes, List.append_assoc, List.append_assoc] at same
  obtain ⟨letters, tail⟩ := List.append_inj same length
  have rest : inner ++ .code ')' :: behind = inner' ++ .code ')' :: behind' := by simpa using tail
  obtain rfl := balanced.eq_of_append balanced' rest
  refine ⟨List.map_injective_iff.mpr (fun _ _ => Lexeme.code.inj) letters, rfl, ?_⟩
  exact (List.cons.inj (List.append_cancel_left rest)).2

theorem balanced_map_code {x : Text} (flat : ∀ c ∈ x, c ≠ '(' ∧ c ≠ ')') :
    Balanced (x.map .code) := by
  induction x with
  | nil => rfl
  | cons c x ih =>
      have here := flat c List.mem_cons_self
      have stays : depthAfter 0 (.code c) = 0 := by simp [depthAfter, Lexeme.turn, here]
      rw [Balanced, List.map_cons, levelAfter, if_neg (by simp [here]), stays]
      exact ih fun d member => flat d (List.mem_cons_of_mem c member)

theorem Balanced.between {inner : List Lexeme} (balanced : Balanced inner) :
    Balanced (.code '(' :: (inner ++ [.code ')'])) := by
  have deeper := levelAfter_add balanced 1
  have opened : depthAfter 0 (.code '(') = 1 := rfl
  rw [Balanced, levelAfter, if_neg (by simp), opened, LiteSql.levelAfter_append, deeper]
  rfl

theorem no_paren_of_spelled {k w : Text} (ascii : IsAsciiWord k) (same : spelled k w = true) :
    ∀ c ∈ w, c ≠ '(' ∧ c ≠ ')' := by
  intro c member
  have letter := (isWordChar_of_spelled ascii same).2 c member
  constructor
  · rintro rfl
    exact absurd letter (by decide)
  · rintro rfl
    exact absurd letter (by decide)

theorem balanced_callLexemes {name written : Text} (ascii : IsAsciiWord name)
    (named : spelled name written = true) {inner : List Lexeme} (balanced : Balanced inner) :
    Balanced (callLexemes written inner) :=
  (balanced_map_code (no_paren_of_spelled ascii named)).append balanced.between

section

variable {name s : Text} (word : ∀ c ∈ name, isWordChar c = true)

include word in
theorem IsCall.lexemes_drop {pos close : Nat} (call : IsCall name s pos close) :
    Balanced (lexemes (slice s (pos + name.length + 1) close)) ∧
      lexemes (s.drop pos) = callLexemes (slice s pos (pos + name.length))
        (lexemes (slice s (pos + name.length + 1) close)) ++ lexemes (s.drop (close + 1)) := by
  obtain ⟨n, found, rfl⟩ := call.closing?
  obtain ⟨inner, behind, cut, level, length⟩ := exists_level_of_closingIn found
  have own := lexemes_front cut
  have inside : inner.flatMap Lexeme.text =
      slice s (pos + name.length + 1) (pos + name.length + 1 + n) := by
    have whole := flatMap_text_lexemes (s.drop (pos + name.length + 1))
    rw [cut, List.flatMap_append] at whole
    rw [slice, ← whole, Nat.add_sub_cancel_left, ← length, List.take_left]
  have later : lexemes (s.drop (pos + name.length + 1 + n + 1)) = behind := by
    have closed : lexemes (s.drop (pos + name.length + 1)) = (inner ++ [.code ')']) ++ behind := by
      rw [cut, List.append_assoc, List.singleton_append]
    obtain ⟨whole, tail⟩ := lexemes_of_append closed
    have size : ((inner ++ [Lexeme.code ')']).flatMap Lexeme.text).length = n + 1 := by
      rw [List.flatMap_append, List.length_append, length]
      rfl
    rw [Nat.add_assoc, ← List.drop_drop, whole, ← size, List.drop_left, tail]
  have opened : (s.drop pos)[name.length]? = some '(' := by rw [List.getElem?_drop, call.opened]
  rw [inside] at own
  rw [own]
  refine ⟨level, ?_⟩
  rw [lexemes_of_opened word call.named opened, List.drop_drop, ← Nat.add_assoc, cut, later, slice,
    Nat.add_sub_cancel_left]
  simp [callLexemes]

theorem IsCall.spelled_slice {pos close : Nat} (call : IsCall name s pos close) :
    spelled name (slice s pos (pos + name.length)) = true := by
  have bound := (List.getElem?_eq_some_iff.mp call.opened).1
  rw [slice, Nat.add_sub_cancel_left, spelled_iff, startsIgnoringCase_take _ _ _ (Nat.le_refl _),
    List.length_take, List.length_drop]
  exact ⟨call.named, by omega⟩

include word in
theorem IsCall.exists_cut {pos close : Nat} (call : IsCall name s pos close) :
    ∃ front, CallCut name front (slice s pos (pos + name.length))
        (lexemes (slice s (pos + name.length + 1) close)) ∧
      lexemes s = front ++ (callLexemes (slice s pos (pos + name.length))
        (lexemes (slice s (pos + name.length + 1) close)) ++ lexemes (s.drop (close + 1))) := by
  have bound := (List.getElem?_eq_some_iff.mp call.opened).1
  obtain ⟨front, read, text⟩ := exists_cut_of_not_inLiteral s pos (by omega) call.outside
  obtain ⟨balanced, rest⟩ := call.lexemes_drop word
  refine ⟨front, ⟨call.spelled_slice, ?_, balanced⟩, by rw [read, rest]⟩
  rw [text]
  exact call.separate

theorem CallCut.isCall {front behind inner : List Lexeme} {written : Text}
    (cut : CallCut name front written inner)
    (read : lexemes s = front ++ (callLexemes written inner ++ behind)) :
    IsCall name s (front.flatMap Lexeme.text).length
      ((front.flatMap Lexeme.text).length + name.length + 1 +
        (inner.flatMap Lexeme.text).length) := by
  obtain ⟨starts, length⟩ := (spelled_iff name written).mp cut.named
  obtain ⟨whole, -⟩ := lexemes_of_append read
  have text : s = front.flatMap Lexeme.text ++ (written ++
      '(' :: (inner.flatMap Lexeme.text ++ ')' :: behind.flatMap Lexeme.text)) := by
    rw [whole, List.flatMap_append, flatMap_text_callLexemes]
    simp
  have regrouped : lexemes s = (front ++ (written.map .code ++ [.code '('])) ++
      (inner ++ .code ')' :: behind) := by
    rw [read, callLexemes]
    simp
  have dropped : lexemes (s.drop ((front.flatMap Lexeme.text).length + name.length + 1)) =
      inner ++ .code ')' :: behind := by
    obtain ⟨again, tail⟩ := lexemes_of_append regrouped
    have size : ((front ++ (written.map Lexeme.code ++ [Lexeme.code '('])).flatMap
        Lexeme.text).length =
        (front.flatMap Lexeme.text).length + name.length + 1 := by
      rw [List.flatMap_append, List.flatMap_append, flatMap_text_map_code]
      simp [Lexeme.text, length, Nat.add_assoc]
    rw [again, ← size, List.drop_left, tail]
  rw [isCall_iff_closing?]
  refine ⟨?_, ?_, ?_, ?_, _, ?_, rfl⟩
  · rw [text, List.drop_left, ← startsIgnoringCase_take name _ written.length
      (Nat.le_of_eq length.symm), List.take_left,
      starts]
  · rw [text, List.getElem?_append_right (by omega), Nat.add_sub_cancel_left,
      List.getElem?_append_right (by omega), length, Nat.sub_self, List.getElem?_cons_zero]
  · have marks : marked s = front.flatMap Lexeme.marked ++
        (callLexemes written inner ++ behind).flatMap Lexeme.marked := by
      rw [marked, read, List.flatMap_append]
    rw [inLiteral_iff_marked, marks, ← length_flatMap_marked,
      List.getElem?_append_right (Nat.le_refl _), Nat.sub_self]
    cases written <;> simp [callLexemes, Lexeme.marked]
  · rw [text, List.take_left]
    exact cut.separate
  · rw [LiteSql.closing?, dropped, cut.balanced.closingIn_append]

end

/-! ### The calls of a text as a tree over its lexemes -/

def Calls.copy (x : Text) (rest : Calls) : Calls := x.foldr .char rest

def Calls.replace (answer : List Text → Option Text) (calls : Calls) : Text :=
  Id.run (calls.replaceM fun arguments => pure (answer arguments))

theorem replaceCalls_eq (name : Text) (answer : List Text → Option Text) (s : Text) :
    replaceCalls name answer s = (Calls.ofText name s).replace answer := rfl

theorem Calls.replace_call (answer : List Text → Option Text) (name : Text) (inner rest : Calls) :
    (Calls.call name inner rest).replace answer =
      (answer (splitArguments (inner.replace answer))).getD
        (name ++ '(' :: (inner.replace answer ++ [')'])) ++ rest.replace answer := rfl

theorem Calls.replace_copy (answer : List Text → Option Text) (x : Text) (rest : Calls) :
    (Calls.copy x rest).replace answer = x ++ rest.replace answer := by
  induction x with
  | nil => rfl
  | cons c x ih => exact congrArg (c :: ·) ih

def StartsNoCall (name : Text) (front rest : List Lexeme) : Prop :=
  ∀ written inner behind, rest = callLexemes written inner ++ behind →
    ¬ CallCut name front written inner

/-- How lexemes behind others fall into calls of a function and what is copied. The arguments of a
call are taken on their own. -/
inductive Parsed (name : Text) : (front ls : List Lexeme) → Calls → Prop
  | done (front : List Lexeme) : Parsed name front [] .done
  | copy {front : List Lexeme} {l : Lexeme} {ls : List Lexeme} {rest : Calls} :
    StartsNoCall name front (l :: ls) → Parsed name (front ++ [l]) ls rest →
      Parsed name front (l :: ls) (.copy l.text rest)
  | call {front : List Lexeme} {written : Text} {inner ls : List Lexeme} {inside rest : Calls} :
    CallCut name front written inner → Parsed name [] inner inside →
      Parsed name (front ++ callLexemes written inner) ls rest →
      Parsed name front (callLexemes written inner ++ ls) (.call written inside rest)

theorem inLiteral_of_lexemes {s : Text} {front behind : List Lexeme} {kind : LiteralKind}
    {text : Text}
    (read : lexemes s = front ++ .literal kind text :: behind) {i : Nat}
    (low : (front.flatMap Lexeme.text).length ≤ i)
    (high : i < (front.flatMap Lexeme.text).length + text.length) : InLiteral s i := by
  have marks : marked s = front.flatMap Lexeme.marked ++
      (text.map (·, true) ++ behind.flatMap Lexeme.marked) := by
    rw [marked, read, List.flatMap_append, List.flatMap_cons]
    rfl
  rw [← length_flatMap_marked] at low high
  rw [inLiteral_iff_marked, marks, List.getElem?_append_right low,
    List.getElem?_append_left (by rw [List.length_map]; omega), List.getElem?_map,
    List.getElem?_eq_getElem (by omega)]
  rfl

section

variable {name s : Text}

theorem startsNoCall_of_not_isCall {front rest : List Lexeme} (read : lexemes s = front ++ rest)
    (none : ∀ close, ¬ IsCall name s (front.flatMap Lexeme.text).length close) :
    StartsNoCall name front rest := by
  intro written inner behind cut call
  rw [cut] at read
  exact none _ (call.isCall read)

theorem not_isCall_of_lexemes {front behind : List Lexeme} {l : Lexeme}
    (read : lexemes s = front ++ l :: behind) {i : Nat}
    (low : (front.flatMap Lexeme.text).length < i)
    (high : i < (front.flatMap Lexeme.text).length + l.text.length) (close : Nat) :
    ¬ IsCall name s i close := by
  intro call
  cases l with
  | code c =>
      rw [Lexeme.text, List.length_singleton] at high
      omega
  | literal kind text => exact call.outside (inLiteral_of_lexemes read (by omega) high)

variable (word : ∀ c ∈ name, isWordChar c = true)

include word

theorem callsFrom_eq_copy (pos n : Nat) (bound : pos + n ≤ s.length)
    (none : ∀ i, pos ≤ i → i < pos + n → ∀ close, ¬ IsCall name s i close) :
    callsFrom name s pos = .copy (slice s pos (pos + n)) (callsFrom name s (pos + n)) := by
  induction n generalizing pos with
  | zero => simp [slice, Calls.copy]
  | succ n ih =>
      have inside : pos < s.length := by omega
      have first : slice s pos (pos + (n + 1)) = s[pos] :: slice s (pos + 1) (pos + 1 + n) := by
        rw [slice, slice, List.drop_eq_getElem_cons inside, Nat.add_sub_cancel_left,
          Nat.add_sub_cancel_left, List.take_succ_cons]
      rw [callsFrom_of_not_isCall word pos inside (none pos (Nat.le_refl pos) (by omega)),
        ih (pos + 1) (by omega) fun i low high => none i (by omega) (by omega), first,
        show pos + 1 + n = pos + (n + 1) by omega]
      rfl

theorem parsed_callsFrom (pos : Nat) (front : List Lexeme)
    (read : lexemes s = front ++ lexemes (s.drop pos))
    (text : front.flatMap Lexeme.text = s.take pos) :
    Parsed name front (lexemes (s.drop pos)) (callsFrom name s pos) := by
  -- the rest gets shorter by a lexeme or by a whole call, whose arguments are shorter too
  induction size : s.length - pos using Nat.strongRecOn generalizing s pos front with
  | ind left ih =>
      subst size
      rcases Nat.lt_or_ge pos s.length with bound | ended
      · have place : (front.flatMap Lexeme.text).length = pos := by
          rw [text, List.length_take]
          omega
        by_cases present : ∃ close, IsCall name s pos close
        · obtain ⟨close, call⟩ := present
          have inner := call.lt_close
          have outer := call.close_lt
          obtain ⟨balanced, cut⟩ := call.lexemes_drop word
          have shorter : (slice s (pos + name.length + 1) close).length - 0 < s.length - pos := by
            rw [length_slice _ _ _ (Nat.le_of_lt outer)]
            omega
          have inside := ih _ shorter (s := slice s (pos + name.length + 1) close) 0 []
            (by rw [List.drop_zero]; rfl) rfl rfl
          rw [callsFrom_zero, List.drop_zero] at inside
          have next : (front ++ callLexemes (slice s pos (pos + name.length))
              (lexemes (slice s (pos + name.length + 1) close))).flatMap Lexeme.text =
                s.take (close + 1) := by
            have whole := flatMap_text_lexemes s
            rw [read, cut, ← List.append_assoc, List.flatMap_append, flatMap_text_lexemes] at whole
            exact List.append_cancel_right (whole.trans (List.take_append_drop (close + 1) s).symm)
          have rest := ih (s.length - (close + 1)) (by omega) (s := s) (close + 1) _
            (by rw [read, cut, List.append_assoc]) next rfl
          rw [cut, callsFrom_of_isCall call]
          exact .call ⟨call.spelled_slice, by rw [text]; exact call.separate, balanced⟩ inside rest
        · have outside : ∀ close, ¬ IsCall name s pos close := fun close call =>
            present ⟨close, call⟩
          cases first : lexemes (s.drop pos) with
          | nil =>
              have whole := flatMap_text_lexemes (s.drop pos)
              rw [first, List.flatMap_nil] at whole
              have length := congrArg List.length whole
              rw [List.length_nil, List.length_drop] at length
              omega
          | cons l ls =>
              obtain ⟨tail, cut, leads, later⟩ := exists_leads_of_lexemes_eq_cons first
              have filled := List.length_pos_of_ne_nil (Lexeme.text_ne_nil_of_leads leads)
              have length := congrArg List.length cut
              rw [List.length_drop, List.length_append] at length
              have dropped : s.drop (pos + l.text.length) = tail := by
                rw [← List.drop_drop, cut, List.drop_left]
              have taken : slice s pos (pos + l.text.length) = l.text := by
                rw [slice, Nat.add_sub_cancel_left, cut, List.take_left]
              rw [first] at read
              have copied := callsFrom_eq_copy word (s := s) pos l.text.length (by omega) (by
                intro i low high
                rcases Nat.lt_or_eq_of_le low with after | rfl
                · exact not_isCall_of_lexemes read (by omega) (by omega)
                · exact outside)
              have next : (front ++ [l]).flatMap Lexeme.text = s.take (pos + l.text.length) := by
                rw [List.flatMap_append, text, List.flatMap_singleton, ← taken,
                  take_append_slice s pos _ (by omega), taken]
              have rest := ih (s.length - (pos + l.text.length)) (by omega) (s := s)
                (pos + l.text.length) (front ++ [l])
                (by rw [read, dropped, later, List.append_assoc, List.singleton_append]) next rfl
              rw [dropped, later] at rest
              rw [copied, taken]
              exact .copy (startsNoCall_of_not_isCall read (by rwa [place])) rest
      · rw [List.drop_of_length_le ended, callsFrom_of_length_le pos ended]
        exact .done front

/-- The calls that are found in a text are a tree over its lexemes. -/
theorem parsed_ofText (s : Text) : Parsed name [] (lexemes s) (Calls.ofText name s) := by
  have parsed := parsed_callsFrom word (s := s) 0 [] (by rw [List.drop_zero]; rfl) rfl
  rwa [callsFrom_zero, List.drop_zero] at parsed

end

end LiteSql
