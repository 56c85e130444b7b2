import Mathlib.Data.List.Chain
import LiteSql.Proofs.Expression
import LiteSql.Proofs.TemplateCall

/-! Calls that are written with operators. The arguments of a remainder and of a concatenation are
put around the operator without parentheses, and the draw that is written for a random number ends
in a division. What the written text is read as depends on how tightly the operators in the
arguments and around the call bind. -/

namespace LiteSql

/-! ### The symbols of a text -/

def isOperandChar (c : Char) : Bool := isWordChar c || c == '.'

namespace Symbol

/-- The operand whose characters have been read, last character first. -/
def operands : Text → List Symbol
  | [] => []
  | c :: word => [operand (c :: word).reverse]

def ofSign? : Char → Option Symbol
  | '(' => some opening
  | ')' => some closing
  | '*' => some (operator .times)
  | '/' => some (operator .divide)
  | '%' => some (operator .modulo)
  | '+' => some (operator .plus)
  | '-' => some (operator .minus)
  | _ => none

end Symbol

/-- The symbols of a text behind the characters of an operand that has been read so far, last
character first. -/
def symbolsFrom : (word : Text) → Text → Option (List Symbol)
  | word, [] => some (Symbol.operands word)
  | word, c :: s =>
    if isOperandChar c then symbolsFrom (c :: word) s
    else if isBlank c then (symbolsFrom [] s).map (Symbol.operands word ++ ·)
    else if c = '|' then
      match s with
      | [] => none
      | d :: rest =>
        if d = '|' then (symbolsFrom [] rest).map (Symbol.operands word ++ .operator .concat :: ·)
          else none
    else (Symbol.ofSign? c).bind fun sign =>
      (symbolsFrom [] s).map (Symbol.operands word ++ sign :: ·)

def symbols (s : Text) : Option (List Symbol) := symbolsFrom [] s

def readText (s : Text) : Option Expression := (symbols s).bind Expression.read

theorem symbolsFrom_letters {w : Text} (letters : ∀ c ∈ w, isOperandChar c = true) (word s : Text) :
    symbolsFrom word (w ++ s) = symbolsFrom (w.reverse ++ word) s := by
  induction w generalizing word with
  | nil => rfl
  | cons c w ih =>
      obtain ⟨letter, others⟩ := List.forall_mem_cons.mp letters
      rw [List.reverse_cons, List.append_assoc, List.singleton_append, ← ih others,
        List.cons_append, symbolsFrom.eq_def]
      exact if_pos letter

/-! ### Texts of symbols -/

inductive Spells : Text → List Symbol → Prop
  | nil : Spells [] []
  | blank {c : Char} {s : Text} {ss : List Symbol} (blank : isBlank c = true) (rest : Spells s ss) :
      Spells (c :: s) ss
  | word {w s : Text} {ss : List Symbol} (present : w ≠ [])
      (letters : ∀ c ∈ w, isOperandChar c = true)
      (ends : s.head?.any isOperandChar = false) (rest : Spells s ss) :
        Spells (w ++ s) (.operand w :: ss)
  | concat {s : Text} {ss : List Symbol} (rest : Spells s ss) :
      Spells ('|' :: '|' :: s) (.operator .concat :: ss)
  | sign {c : Char} {sign : Symbol} {s : Text} {ss : List Symbol}
      (own : Symbol.ofSign? c = some sign)
      (rest : Spells s ss) : Spells (c :: s) (sign :: ss)

theorem Symbol.class_of_ofSign? {c : Char} {sign : Symbol} (own : ofSign? c = some sign) :
    isBlank c = false ∧ isOperandChar c = false ∧ c ≠ '|' := by
  rw [ofSign?.eq_def] at own
  split at own
  all_goals cases own
  all_goals decide

theorem Symbol.cases_of_ofSign? {c : Char} {sign : Symbol} (own : ofSign? c = some sign) :
    c = '(' ∧ sign = opening ∨ c = ')' ∧ sign = closing ∨ c ≠ '(' ∧ c ≠ ')' ∧ ∃ o,
    sign = operator o := by
  rw [ofSign?.eq_def] at own
  split at own
  all_goals cases own
  all_goals simp

theorem isOperandChar_of_isBlank {c : Char} (blank : isBlank c = true) :
    isOperandChar c = false := by
  have point : c ≠ '.' := by
    rintro rfl
    exact absurd blank (by decide)
  simp [isOperandChar, isWordChar_of_isBlank blank, point]

theorem spells_of_symbolsFrom {word x : Text} {ss : List Symbol}
    (letters : ∀ c ∈ word, isOperandChar c = true)
    (read : symbolsFrom word x = some ss) : Spells (word.reverse ++ x) ss := by
  have behind {word s : Text} {ss : List Symbol} (letters : ∀ c ∈ word, isOperandChar c = true)
      (ends : s.head?.any isOperandChar = false) (rest : Spells s ss) :
      Spells (word.reverse ++ s) (Symbol.operands word ++ ss) := by
    cases word with
    | nil => exact rest
    | cons c word =>
        refine .word (by simp) (fun d member => ?_) ends rest
        exact letters d (List.mem_reverse.mp member)
  fun_induction symbolsFrom word x generalizing ss with
  | case1 word =>
      cases read
      have alone := behind letters rfl .nil
      rwa [List.append_nil (Symbol.operands word)] at alone
  | case2 word c s letter ih =>
      have grown := ih (List.forall_mem_cons.mpr ⟨letter, letters⟩) read
      rwa [List.reverse_cons, List.append_assoc] at grown
  | case3 word c s foreign blank ih =>
      obtain ⟨tt, rest, rfl⟩ := Option.map_eq_some_iff.mp read
      exact behind letters (by simpa using foreign) (.blank blank (ih (by simp) rest))
  | case4 => cases read
  | case5 word rest foreign filled ih =>
      obtain ⟨tt, rest, rfl⟩ := Option.map_eq_some_iff.mp read
      exact behind letters (by simpa using foreign) (.concat (ih (by simp) rest))
  | case6 => cases read
  | case7 word c s foreign filled single ih =>
      obtain ⟨sign, own, others⟩ := Option.bind_eq_some_iff.mp read
      obtain ⟨tt, rest, rfl⟩ := Option.map_eq_some_iff.mp others
      exact behind letters (by simpa using foreign) (.sign own (ih (by simp) rest))

theorem spells_of_symbols {x : Text} {ss : List Symbol} (read : symbols x = some ss) :
    Spells x ss :=
  spells_of_symbolsFrom (List.forall_mem_nil _) read

namespace Spells

theorem symbolsFrom_eq {word x : Text} {ss : List Symbol} (spells : Spells x ss)
    (apart : word = [] ∨ x.head?.any isOperandChar = false) :
      symbolsFrom word x = some (Symbol.operands word ++ ss) := by
  induction spells generalizing word with
  | nil => exact congrArg some (List.append_nil _).symm
  | blank blank rest ih =>
      have foreign := isOperandChar_of_isBlank blank
      rw [symbolsFrom.eq_def]
      dsimp only
      rw [foreign, if_neg Bool.false_ne_true, if_pos blank, ih (.inl rfl)]
      rfl
  | @word w s ss present letters ends rest ih =>
      obtain ⟨c, w', rfl⟩ := List.exists_cons_of_ne_nil present
      obtain rfl : word = [] := apart.resolve_right fun foreign => by
        rw [List.cons_append, List.head?_cons, Option.any_some, letters c List.mem_cons_self]
          at foreign
        cases foreign
      have whole : Symbol.operands (c :: w').reverse = [.operand (c :: w')] := by
        obtain ⟨d, v, back⟩ := List.exists_cons_of_ne_nil (List.reverse_ne_nil_iff.mpr present)
        rw [back, Symbol.operands, ← back, List.reverse_reverse]
      rw [symbolsFrom_letters letters, List.append_nil, ih (.inr ends), whole]
      rfl
  | concat rest ih =>
      refine Eq.trans ?_ (congrArg (Option.map (Symbol.operands word ++ .operator .concat :: ·))
        (ih (.inl rfl)))
      rfl
  | sign own rest ih =>
      obtain ⟨filled, foreign, single⟩ := Symbol.class_of_ofSign? own
      rw [symbolsFrom.eq_def]
      dsimp only
      rw [foreign, filled, if_neg Bool.false_ne_true, if_neg Bool.false_ne_true, if_neg single, own,
        Option.bind_some, ih (.inl rfl)]
      rfl

theorem symbols_eq {x : Text} {ss : List Symbol} (spells : Spells x ss) : symbols x = some ss :=
  spells.symbolsFrom_eq (.inl rfl)

theorem append {x y : Text} {ss tt : List Symbol} (first : Spells x ss) (second : Spells y tt)
    (apart : x.getLast?.any isOperandChar = false ∨ y.head?.any isOperandChar = false) :
    Spells (x ++ y) (ss ++ tt) := by
  have later {c : Char} {s : Text} (apart : (c :: s).getLast?.any isOperandChar = false ∨
      y.head?.any isOperandChar = false) : s.getLast?.any isOperandChar = false ∨
        y.head?.any isOperandChar = false := by
    cases s with
    | nil => exact .inl rfl
    | cons d s => exact apart
  induction first with
  | nil => exact second
  | blank blank rest ih => exact .blank blank (ih (later apart))
  | @word w s ss present letters ends rest ih =>
      rw [List.append_assoc]
      cases s with
      | nil =>
          have last : (w ++ []).getLast?.any isOperandChar = true := by
            rw [List.append_nil, List.getLast?_eq_some_getLast present]
            exact letters _ (List.getLast_mem present)
          have foreign : y.head?.any isOperandChar = false :=
            apart.resolve_left fun none => Bool.false_ne_true (none.symm.trans last)
          exact .word present letters foreign (ih (.inr foreign))
      | cons d s =>
          rw [List.getLast?_append_of_ne_nil _ (List.cons_ne_nil d s)] at apart
          exact .word present letters ends (ih apart)
  | concat rest ih => exact .concat (ih (later (later apart)))
  | sign own rest ih => exact .sign own (ih (later apart))

theorem exists_sign {c : Char} {s : Text} {ss : List Symbol} (spells : Spells (c :: s) ss)
    {sign : Symbol}
    (own : Symbol.ofSign? c = some sign) : ∃ tt, ss = sign :: tt := by
  obtain ⟨filled, foreign, single⟩ := Symbol.class_of_ofSign? own
  generalize whole : c :: s = x at spells
  cases spells with
  | nil => cases whole
  | blank blank rest => cases whole; rw [filled] at blank; cases blank
  | word present letters ends rest =>
      obtain ⟨d, w, rfl⟩ := List.exists_cons_of_ne_nil present
      cases whole
      rw [letters c List.mem_cons_self] at foreign
      cases foreign
  | concat rest => cases whole; exact absurd rfl single
  | sign same rest =>
      cases whole
      rw [own] at same
      cases same
      exact ⟨_, rfl⟩

end Spells

/-! ### Symbols that follow one another -/

/-- The depth behind symbols, if they close no parenthesis that stands before them. -/
def Symbol.levelAfter : (depth : Nat) → List Symbol → Option Nat
  | depth, [] => some depth
  | depth, s :: ss => if s = closing ∧ depth = 0 then none else levelAfter (s.depthAfter depth) ss

def Symbol.precedes : Symbol → Symbol → Bool
  | operator _, operator _ => false
  | operand _, opening => false
  | _, _ => true

def fits (c d : Char) : Bool :=
  !(isOperandChar c && d == '(') && !(c == '-' && d == '-') && !(c == '/' && d == '*')

theorem fits_of_ne {c : Char} (foreign : isOperandChar c = false) (dash : c ≠ '-') (slash : c ≠ '/')
    (d : Char) :
    fits c d = true := by
  simp [fits, foreign, dash, slash]

theorem fits_of_isOperandChar {c d : Char} (letter : isOperandChar c = true) (other : d ≠ '(') :
    fits c d = true := by
  have dash : c ≠ '-' := by rintro rfl; exact absurd letter (by decide)
  have slash : c ≠ '/' := by rintro rfl; exact absurd letter (by decide)
  simp [fits, other, dash, slash]

namespace Spells

theorem isChain_fits {x : Text} {ss : List Symbol} (spells : Spells x ss)
    (chain : ss.IsChain (Symbol.precedes · · = true)) : x.IsChain (fits · · = true) := by
  induction spells with
  | nil => exact .nil
  | @blank c s ss blank rest ih =>
      refine List.isChain_cons.mpr ⟨fun d _ => fits_of_ne (isOperandChar_of_isBlank blank) ?_ ?_ d,
        ih chain⟩
      · rintro rfl
        exact absurd blank (by decide)
      · rintro rfl
        exact absurd blank (by decide)
  | @word w s ss present letters ends rest ih =>
      obtain ⟨first, others⟩ := List.isChain_cons.mp chain
      have inner : w.IsChain (fits · · = true) := by
        clear ih present first chain
        induction w with
        | nil => exact .nil
        | cons c w ih =>
            obtain ⟨letter, letters⟩ := List.forall_mem_cons.mp letters
            refine List.isChain_cons.mpr ⟨fun d head => fits_of_isOperandChar letter ?_, ih letters⟩
            rintro rfl
            exact absurd (letters '(' (List.mem_of_mem_head? head)) (by decide)
      refine .append inner (ih others) fun c last d head => fits_of_isOperandChar ?_ ?_
      · exact letters c (List.mem_of_mem_getLast? last)
      · rintro rfl
        obtain ⟨s, rfl⟩ := List.head?_eq_some_iff.mp head
        obtain ⟨tt, rfl⟩ := rest.exists_sign rfl
        exact absurd (first .opening rfl) (by simp [Symbol.precedes])
  | concat rest ih =>
      have pipe (d : Char) : fits '|' d = true := fits_of_ne (by decide) (by decide) (by decide) d
      exact List.isChain_cons.mpr ⟨fun d _ => pipe d, List.isChain_cons.mpr
        ⟨fun d _ => pipe d, ih (List.isChain_cons.mp chain).2⟩⟩
  | @sign c sign s ss own rest ih =>
      obtain ⟨first, others⟩ := List.isChain_cons.mp chain
      refine List.isChain_cons.mpr ⟨fun d head => ?_, ih others⟩
      have clash {o p : Operator} (here : sign = .operator o)
          (next : Symbol.ofSign? d = some (.operator p)) :
          False := by
        obtain ⟨s, rfl⟩ := List.head?_eq_some_iff.mp head
        obtain ⟨tt, rfl⟩ := rest.exists_sign next
        have apart := first (.operator p) rfl
        rw [here] at apart
        cases apart
      have dashes : ¬ (c = '-' ∧ d = '-') := by
        rintro ⟨rfl, rfl⟩
        exact clash (Option.some.inj own).symm rfl
      have stars : ¬ (c = '/' ∧ d = '*') := by
        rintro ⟨rfl, rfl⟩
        exact clash (Option.some.inj own).symm rfl
      rw [not_and_or] at dashes stars
      simpa [fits, (Symbol.class_of_ofSign? own).2.1] using And.intro dashes stars

theorem ne_of_mem {x : Text} {ss : List Symbol} (spells : Spells x ss) :
    ∀ c ∈ x, c ∉ ['\x27', '\x22', '\x60', ','] := by
  induction spells with
  | nil => simp
  | blank blank rest ih =>
      refine List.forall_mem_cons.mpr ⟨fun member => ?_, ih⟩
      rw [(by decide : ∀ c ∈ ['\x27', '\x22', '\x60', ','], isBlank c = false) _ member] at blank
      cases blank
  | word present letters ends rest ih =>
      refine List.forall_mem_append.mpr ⟨fun c inside member => ?_, ih⟩
      have letter := letters c inside
      rw [(by decide : ∀ c ∈ ['\x27', '\x22', '\x60', ','], isOperandChar c = false) c member]
        at letter
      cases letter
  | concat rest ih =>
      exact List.forall_mem_cons.mpr ⟨by decide, List.forall_mem_cons.mpr ⟨by decide, ih⟩⟩
  | sign own rest ih =>
      refine List.forall_mem_cons.mpr ⟨fun member => ?_, ih⟩
      rw [(by decide : ∀ c ∈ ['\x27', '\x22', '\x60', ','], Symbol.ofSign? c = none) _ member]
        at own
      cases own

theorem levelAfter_eq {x : Text} {ss : List Symbol} (spells : Spells x ss) (depth : Nat) :
    levelAfter depth (x.map .code) = Symbol.levelAfter depth ss := by
  have flat {c : Char} (opening : c ≠ '(') (closing : c ≠ ')') (depth : Nat) (ls : List Lexeme) :
      levelAfter depth (.code c :: ls) = levelAfter depth ls := by
    have stays : depthAfter depth (.code c) = depth := by
      simp [depthAfter, Lexeme.turn, opening, closing]
    rw [levelAfter, if_neg (by simp [closing]), stays]
  induction spells generalizing depth with
  | nil => rfl
  | blank blank rest ih =>
      rw [List.map_cons, flat, ih]
      · rintro rfl
        exact absurd blank (by decide)
      · rintro rfl
        exact absurd blank (by decide)
  | @word w s ss present letters ends rest ih =>
      have balanced : Balanced (w.map .code) := balanced_map_code fun c member => by
        constructor
        · rintro rfl
          exact absurd (letters _ member) (by decide)
        · rintro rfl
          exact absurd (letters _ member) (by decide)
      rw [List.map_append, balanced.levelAfter_append, ih]
      rfl
  | concat rest ih =>
      rw [List.map_cons, List.map_cons, flat (by decide) (by decide),
        flat (by decide) (by decide), ih]; rfl
  | @sign c sign s ss own rest ih =>
      rcases Symbol.cases_of_ofSign? own with ⟨rfl, rfl⟩ | ⟨rfl, rfl⟩ | ⟨opening, closing, o, rfl⟩
      · exact ih (depth + 1)
      · rw [List.map_cons, levelAfter, Symbol.levelAfter]
        simp only [true_and]
        split
        next => rfl
        next deep =>
          have turned : depthAfter depth (.code ')') = depth - 1 := by
            have sum := add_turn (l := .code ')') fun shallow => deep shallow.2
            simp only [Lexeme.turn] at sum
            omega
          rw [turned]
          exact ih (depth - 1)
      · rw [List.map_cons, flat opening closing, ih]
        rfl

end Spells

theorem lexemes_of_fits {x : Text} (unquoted : ∀ c ∈ x, c ∉ ['\x27', '\x22', '\x60', ','])
    (chain : x.IsChain (fits · · = true)) : lexemes x = x.map .code := by
  induction x with
  | nil => rfl
  | cons c s ih =>
      obtain ⟨first, others⟩ := List.isChain_cons.mp chain
      obtain ⟨here, behind⟩ := List.forall_mem_cons.mp unquoted
      have plain : LiteralKind.opening? (c :: s) = none := by
        rw [opening?_cons_eq_none]
        refine ⟨fun member => here (List.mem_append_left [','] member), ?_, ?_⟩
        · rintro ⟨rfl, next⟩
          exact absurd (first '-' next) (by decide)
        · rintro ⟨rfl, next⟩
          exact absurd (first '*' next) (by decide)
      rw [lexemes_code c s plain, ih behind others, List.map_cons]

theorem uncalling_of_fits {name x : Text} (ascii : IsAsciiWord name)
    (chain : x.IsChain (fits · · = true)) :
    Uncalling name x := by
  intro pos _ named opened
  have bound := (List.getElem?_eq_some_iff.mp opened).1
  have same : spelled name ((x.drop pos).take name.length) = true := by
    rw [spelled_iff, startsIgnoringCase_take _ _ _ (Nat.le_refl _), List.length_take,
      List.length_drop]
    exact ⟨named, by omega⟩
  obtain ⟨present, letters⟩ := isWordChar_of_spelled ascii same
  have here : (x.drop pos)[name.length]? = some '(' := by rw [List.getElem?_drop, opened]
  have cut := take_append_cons_drop _ _ _ here
  generalize (x.drop pos).take name.length = w at present letters cut
  obtain ⟨w, c, rfl⟩ := List.eq_nil_or_concat w |>.resolve_left present
  rw [← List.take_append_drop pos x, ← cut, List.concat_eq_append, List.append_assoc,
    ← List.append_assoc, List.singleton_append, List.isChain_append_cons_cons] at chain
  have letter : isOperandChar c = true := by
    rw [isOperandChar, letters c (by simp), Bool.true_or]
  have joined := chain.2.1
  rw [fits, letter] at joined
  exact absurd joined (by simp)

namespace Expression

def isArithmetic : Expression → Bool
  | operand _ => true
  | binary _ l r => l.isArithmetic && r.isArithmetic
  | draw _ | call _ _ => false

structure Written (e : Expression) (x : Text) : Prop where
  trimmed : trim x = x
  symbols : symbols x = some e.write

theorem levelAfter_writeAt_append (e : Expression) (least depth : Nat) (ss : List Symbol) :
    Symbol.levelAfter depth (e.writeAt least ++ ss) = Symbol.levelAfter depth ss := by
  induction e generalizing least depth ss with
  | operand w => rfl
  | draw f => rfl
  | call f a ih =>
      rw [writeAt, List.cons_append, List.cons_append, List.append_assoc]
      exact ih 0 (depth + 1) _
  | binary o l r left right =>
      have inner (depth : Nat) (ss : List Symbol) : Symbol.levelAfter depth
          (writeAt o.level l ++ .operator o :: writeAt (o.level + 1) r ++ ss) =
            Symbol.levelAfter depth ss := by
        rw [List.append_assoc, left]
        exact right _ _ _
      rw [writeAt]
      split
      · exact inner depth ss
      · rw [List.cons_append, List.append_assoc]
        exact inner (depth + 1) _

theorem isChain_writeAt {e : Expression} (arithmetic : e.isArithmetic = true) (least : Nat) :
    (e.writeAt least).IsChain (Symbol.precedes · · = true) ∧
      (∀ s ∈ (e.writeAt least).head?, ∀ o, Symbol.precedes (.operator o) s = true) ∧
      ∀ s ∈ (e.writeAt least).getLast?, ∀ t, t ≠ .opening → s.precedes t = true := by
  induction e generalizing least with
  | operand w =>
      refine ⟨.singleton _, ?_, ?_⟩
      · rintro s ⟨⟩ o
        rfl
      · rintro s ⟨⟩ t other
        cases t with
        | opening => exact absurd rfl other
        | _ => rfl
  | draw f => cases arithmetic
  | call f a => cases arithmetic
  | binary o l r left right =>
      rw [isArithmetic, Bool.and_eq_true] at arithmetic
      obtain ⟨chainl, firstl, lastl⟩ := left arithmetic.1 o.level
      obtain ⟨chainr, firstr, lastr⟩ := right arithmetic.2 (o.level + 1)
      have inner : (writeAt o.level l ++ .operator o :: writeAt (o.level + 1) r).IsChain
          (Symbol.precedes · · = true) :=
        .append chainl (List.isChain_cons.mpr ⟨fun s head => firstr s head o, chainr⟩)
          (by rintro s last t ⟨⟩; exact lastl s last _ (by simp))
      have ends : (writeAt o.level l ++ .operator o :: writeAt (o.level + 1) r).getLast? =
          (writeAt (o.level + 1) r).getLast? := by
        rw [List.append_cons, List.getLast?_append_of_ne_nil _ (r.writeAt_ne_nil _)]
      rw [writeAt]
      split
      · refine ⟨inner, ?_, ends ▸ lastr⟩
        rw [List.head?_append_of_ne_nil _ (l.writeAt_ne_nil _)]
        exact firstl
      · refine ⟨List.isChain_cons.mpr ⟨?_, .append inner (.singleton _) ?_⟩, ?_, ?_⟩
        · intro s _
          cases s <;> rfl
        · rintro s last t ⟨⟩
          exact lastr s (ends ▸ last) _ (by simp)
        · rintro s ⟨⟩ p
          rfl
        · rw [← List.cons_append, List.getLast?_concat]
          rintro s ⟨⟩ t _
          cases t <;> rfl

namespace Written

variable {e : Expression} {x : Text} (written : e.Written x)

include written

theorem isChain_fits (arithmetic : e.isArithmetic = true) : x.IsChain (fits · · = true) :=
  (spells_of_symbols written.symbols).isChain_fits (isChain_writeAt arithmetic 0).1

theorem isArgument (arithmetic : e.isArithmetic = true) : IsArgument x := by
  have spells := spells_of_symbols written.symbols
  have chain := written.isChain_fits arithmetic
  have read := lexemes_of_fits spells.ne_of_mem chain
  have padded : lexemes (x ++ [' ']) = (x ++ [' ']).map .code := by
    refine lexemes_of_fits (List.forall_mem_append.mpr ⟨spells.ne_of_mem, by decide⟩)
      (.append chain (.singleton ' ') ?_)
    rintro c _ d ⟨⟩
    simp [fits]
  refine ⟨?_, written.trimmed, ?_, ?_, ?_, ?_⟩
  · rintro rfl
    exact e.writeAt_ne_nil 0 (Option.some.inj written.symbols).symm
  · have marks (y : Text) : (y.map Lexeme.code).flatMap Lexeme.marked = y.map (·, false) := by
      rw [List.flatMap_map]
      exact List.map_eq_flatMap.symm
    rw [inLiteral_iff_marked, marked, padded, marks, List.getElem?_map, Option.map_map]
    simp
  · rw [read]
    simp [Lexeme.isLineComment]
  · rw [read, Balanced, spells.levelAfter_eq 0]
    have level := levelAfter_writeAt_append e 0 0 []
    rw [List.append_nil] at level
    exact level
  · rw [read]
    exact undivided_map_code (fun comma => spells.ne_of_mem ',' comma (by decide)) []

end Written

/-! ### Rules that write operators -/

def modRule : Rule := .template "mod" "MOD" 2 ["(", Template.arg 0, " % ", Template.arg 1, ")"]

def concatRule : Rule :=
  .total "concat" "CONCAT" fun arguments => if arguments.isEmpty then none
    else some (joinWith " || " arguments)

def randRule : Rule := .template "rand" "RAND" 0 ["(ABS(RANDOM()) % 1000000) / 1000000.0"]

theorem operatorRules_subset : [modRule, concatRule, randRule] ⊆ Rule.table := by
  have mod : modRule ∈ Rule.numericRules := .tail _ (.tail _ (.tail _ (.head _)))
  have concat : concatRule ∈ Rule.stringRules := .head _
  have rand : randRule ∈ Rule.numericRules := .tail _ (.tail _ (.tail _ (.tail _ (.head _))))
  simp only [List.cons_subset, List.nil_subset, Rule.table, List.mem_append, mod, concat, rand,
    true_or, or_true, and_self]

def remainder : Expression := binary .modulo (call "ABS" (draw "RANDOM")) (operand "1000000")

def million : Expression := operand "1000000.0"

def fraction : Expression := binary .divide remainder million

theorem readText_fraction : readText "(ABS(RANDOM()) % 1000000) / 1000000.0" = some fraction := by
  have symbols : LiteSql.symbols "(ABS(RANDOM()) % 1000000) / 1000000.0" =
      some (remainder.writeAt 2 ++ .operator .divide :: million.writeAt 2) := by decide +kernel
  have read := read_operator remainder million (show Operator.divide.level ≤ 2 by decide)
    (by decide)
  rwa [readText, symbols, Option.bind_some]

theorem attach_fraction_ne (e : Expression) :
    (e.attach .divide remainder).attach .divide million ≠ e.attach .divide fraction := by
  intro same
  have written := congrArg write same
  rw [write_attach, write_attach, write_attach, List.append_assoc] at written
  exact absurd (List.append_cancel_left written) (by decide)

theorem replaceCallsM_pair {name : Text} (ascii : IsAsciiWord name)
    (action : List Text → Except Fault (Option Text))
    {x y : Text} {l r : Expression} (first : l.Written x) (second : r.Written y)
    (left : l.isArithmetic = true)
    (right : r.isArithmetic = true) :
    replaceCallsM name action (joinArguments [x, y]) = .ok (joinArguments [x, y]) := by
  have word : ∀ c ∈ name, isWordChar c = true := fun c member => (ascii.2 c member).2
  have alone {x : Text} {e : Expression} (written : e.Written x)
      (arithmetic : e.isArithmetic = true) :
      replaceCallsM name action x = .ok x :=
    replaceCallsM_uncalled word action (uncalling_of_fits ascii
      (written.isChain_fits arithmetic)).not_isCall
  have comma : joinArguments [x, y] = x ++ ((", " : Text) ++ y) := List.append_assoc x _ y
  have free : Uncalling name ", " := uncalling_of_fits ascii (.cons_cons rfl (.singleton ' '))
  rw [comma, replaceCallsM_argument word action (first.isArgument left) (by decide),
    alone first left, replaceCallsM_lead word action (by decide) free, alone second right]
  rfl

section

variable {l r : Expression} {x y : Text} (first : l.Written x) (second : r.Written y)
  (left : l.isArithmetic = true) (right : r.isArithmetic = true)

include first second left right

theorem apply_mod : modRule.apply (callText "MOD" [x, y]) =
    .ok ("(" ++ (x ++ (" % " ++ (y ++ ")")))) := by
  refine replaceCallsM_callText ?_ (by decide)
    (replaceCallsM_pair (by decide) _ first second left right) rfl
  simpa using ⟨first.isArgument left, second.isArgument right⟩

theorem apply_concat : concatRule.apply (callText "CONCAT" [x, y]) = .ok (x ++ (" || " ++ y)) := by
  refine replaceCallsM_callText ?_ (by decide)
    (replaceCallsM_pair (by decide) _ first second left right) ?_
  · simpa using ⟨first.isArgument left, second.isArgument right⟩
  · exact congrArg (fun s => Except.ok (some s)) (List.append_assoc x _ y)

end

theorem Written.spells {e : Expression} {x : Text} (written : e.Written x) : Spells x e.write :=
  spells_of_symbols written.symbols

theorem Written.spells_operator {l r : Expression} {x y : Text} (first : l.Written x)
    (second : r.Written y)
    {t : Text} {o : Operator} (sign : LiteSql.symbols t = some [.operator o])
    (before : t.head? = some ' ')
    (behind : t.getLast? = some ' ') : Spells (x ++ (t ++ y))
    (l.write ++ .operator o :: r.write) := by
  have next : (t ++ y).head?.any isOperandChar = false := by
    obtain ⟨s, rfl⟩ := List.head?_eq_some_iff.mp before
    rfl
  have last : t.getLast?.any isOperandChar = false := by rw [behind]; rfl
  exact first.spells.append ((spells_of_symbols sign).append second.spells (.inl last)) (.inr next)

theorem readText_mod {l r : Expression} {x y : Text} (first : l.Written x) (second : r.Written y) :
    readText ("(" ++ (x ++ (" % " ++ (y ++ ")")))) = read
      (l.write ++ .operator .modulo :: r.write) := by
  have opened : Spells "(" [.opening] := spells_of_symbols (by decide)
  have closed : Spells ")" [.closing] := spells_of_symbols (by decide)
  have inner := first.spells_operator second (o := .modulo) (t := " % ") (by decide) rfl rfl
  have whole := opened.append (inner.append closed (.inr (by decide))) (.inl (by decide))
  rw [List.append_assoc, List.append_assoc] at whole
  rw [readText, whole.symbols_eq, Option.bind_some, ← read_parenthesized]
  rfl

theorem readText_concat {l r : Expression} {x y : Text} (first : l.Written x)
    (second : r.Written y) :
    readText (x ++ (" || " ++ y)) = read (l.write ++ .operator .concat :: r.write) := by
  have whole := first.spells_operator second (o := .concat) (t := " || ") (by decide) rfl rfl
  rw [readText, whole.symbols_eq, Option.bind_some]

theorem apply_rand : randRule.apply "RAND()" = .ok "(ABS(RANDOM()) % 1000000) / 1000000.0" := by
  have word : ∀ c ∈ ("RAND" : Text), isWordChar c = true := by decide
  have empty : Uncalling "RAND" (joinArguments []) := by decide
  have drawn : randRule.apply (callText "RAND" []) = .ok "(ABS(RANDOM()) % 1000000) / 1000000.0" :=
    replaceCallsM_callText (List.forall_mem_nil _) word
      (replaceCallsM_uncalled word _ empty.not_isCall) rfl
  exact drawn

theorem Written.apply_rand_behind {e : Expression} {x : Text} (written : e.Written x)
    (arithmetic : e.isArithmetic = true) :
    randRule.apply (x ++ " / RAND()") = .ok
      (x ++ (" / " ++ "(ABS(RANDOM()) % 1000000) / 1000000.0")) := by
  have ascii : IsAsciiWord "RAND" := by decide
  have word : ∀ c ∈ ("RAND" : Text), isWordChar c = true := by decide
  have drawn := apply_rand
  have cut : (" / RAND()" : Text) = " / " ++ "RAND()" := rfl
  rw [randRule, Rule.apply] at drawn ⊢
  rw [cut, replaceCallsM_argument word _ (written.isArgument arithmetic) (by decide),
    replaceCallsM_uncalled word _ (uncalling_of_fits ascii
      (written.isChain_fits arithmetic)).not_isCall,
    replaceCallsM_lead word _ (by decide) (by decide), drawn]
  rfl

theorem Written.readText_append {e u : Expression} {x t : Text} (written : e.Written x)
    {ss : List Symbol}
    (behind : LiteSql.symbols t = some ss) (ends : t.head?.any isOperandChar = false)
    (whole : e.write ++ ss = u.write) : readText (x ++ t) = some u := by
  have joined := written.spells.append (spells_of_symbols behind) (.inr ends)
  rw [readText, joined.symbols_eq, Option.bind_some, whole, read_write]

/-- The remainder and the concatenation of two expressions are read as such when the arguments bind
tightly enough, and only then. A random number that something is divided by is never read as one
operand. -/
theorem apply_operator_forms {l r : Expression} {x y : Text} (first : l.Written x)
    (second : r.Written y)
    (left : l.isArithmetic = true) (right : r.isArithmetic = true) :
    [modRule, concatRule, randRule] ⊆ Rule.table ∧
      (∃ t, modRule.apply (callText "MOD" [x, y]) = .ok t ∧
        (readText t = some (binary .modulo l r) ↔
          Operator.modulo.level ≤ l.level ∧ Operator.modulo.level < r.level)) ∧
      (∃ t, concatRule.apply (callText "CONCAT" [x, y]) = .ok t ∧
        (readText t = some (binary .concat l r) ↔
          Operator.concat.level ≤ l.level ∧ Operator.concat.level < r.level)) ∧
      ∃ drawn, randRule.apply "RAND()" = .ok drawn ∧ readText drawn = some fraction ∧
        randRule.apply (x ++ " / RAND()") = .ok (x ++ (" / " ++ drawn)) ∧
        readText (x ++ " / RAND()") = some (l.attach .divide (draw "RAND")) ∧
        readText (x ++ (" / " ++ drawn)) =
          some ((l.attach .divide remainder).attach .divide million) ∧
        readText (x ++ (" / " ++ drawn)) ≠ some (l.attach .divide fraction) := by
  refine ⟨operatorRules_subset, ⟨_, apply_mod first second left right, ?_⟩,
    ⟨_, apply_concat first second left right, ?_⟩, _, apply_rand, readText_fraction,
    first.apply_rand_behind left, ?_, ?_⟩
  · rw [readText_mod first second, read_operator_iff]
  · rw [readText_concat first second, read_operator_iff]
  · have symbols : LiteSql.symbols " / RAND()" =
        some (.operator .divide :: (draw "RAND").writeAt 2) := by decide +kernel
    exact first.readText_append symbols (by decide) (write_attach l .divide _).symm
  · have symbols : LiteSql.symbols (" / " ++ "(ABS(RANDOM()) % 1000000) / 1000000.0") =
        some (.operator .divide :: (remainder.writeAt 2 ++ .operator .divide :: million.writeAt
          2)) := by decide +kernel
    have whole : l.write ++ .operator .divide ::
        (remainder.writeAt 2 ++ .operator .divide :: million.writeAt 2) =
        ((l.attach .divide remainder).attach .divide million).write := by
      rw [write_attach, write_attach, List.append_assoc, List.cons_append]
      rfl
    have reads := first.readText_append symbols (by decide) whole
    exact ⟨reads, fun same => attach_fraction_ne l (Option.some.inj (reads.symm.trans same))⟩

theorem apply_operator_forms_product :
    let l := binary .times (operand "a") (operand "2")
    let r := binary .concat (operand "b") (operand "c")
    l.Written "a * 2" ∧ r.Written "b||c" ∧ ∃ t, modRule.apply
      (callText "MOD" ["a * 2", "b||c"]) = .ok t ∧
      readText t = some (binary .modulo l r) := by
  intro l r
  have first : l.Written "a * 2" := ⟨by decide, by decide⟩
  have second : r.Written "b||c" := ⟨by decide, by decide⟩
  obtain ⟨-, ⟨t, applied, exact⟩, -⟩ := apply_operator_forms first second rfl rfl
  exact ⟨first, second, t, applied, exact.mpr (by decide)⟩

/-- A sum in the first argument of a remainder is torn apart. -/
theorem not_forall_read_mod :
    ¬ ∀ (l r : Expression) (x y : Text), l.Written x → r.Written y → l.isArithmetic = true →
      r.isArithmetic = true → ∃ t, modRule.apply (callText "MOD" [x, y]) = .ok t ∧
        readText t = some (binary .modulo l r) := by
  intro reads
  have first : (binary .plus (operand "a") (operand "b")).Written "a + b" := ⟨by decide, by decide⟩
  have second : (operand "c").Written "c" := ⟨by decide, by decide⟩
  obtain ⟨t, applied, same⟩ := reads _ _ _ _ first second rfl rfl
  rw [apply_mod first second rfl rfl] at applied
  obtain rfl := Except.ok.inj applied
  rw [readText_mod first second, read_operator_iff] at same
  exact absurd same (by decide)

end Expression

end LiteSql
