import Mathlib.Data.List.Basic
import LiteSql.Text.Basic

/-! Expressions with operators. Concatenation binds tightest, then come multiplication, division and
remainder, then addition and subtraction; operators of one kind are read from the left. An
expression is written with only the parentheses that this requires, and what is written is read
back. -/

namespace LiteSql

inductive Operator
  | concat
  | times
  | divide
  | modulo
  | plus
  | minus
  deriving DecidableEq, Repr

def Operator.level : Operator → Nat
  | plus | minus => 0
  | times | divide | modulo => 1
  | concat => 2

theorem Operator.level_lt (o : Operator) : o.level < 3 := by
  cases o <;> decide

inductive Expression
  /-- A name or a number. -/
  | operand (w : Text)
  /-- A call without arguments. -/
  | draw (function : Text)
  | call (function : Text) (argument : Expression)
  | binary (o : Operator) (left right : Expression)
  deriving DecidableEq, Repr

inductive Symbol
  | operand (w : Text)
  | operator (o : Operator)
  | opening
  | closing
  deriving DecidableEq, Repr

namespace Expression

def level : Expression → Nat
  | binary o _ _ => o.level
  | _ => 3

/-- An expression with only the parentheses that precedence requires, where operators that bind less
tightly than `least` need them. -/
def writeAt (least : Nat) : Expression → List Symbol
  | operand w => [.operand w]
  | draw f => [.operand f, .opening, .closing]
  | call f a => .operand f :: .opening :: (writeAt 0 a ++ [.closing])
  | binary o l r =>
    let inner := writeAt o.level l ++ .operator o :: writeAt (o.level + 1) r
    if least ≤ o.level then inner else .opening :: (inner ++ [.closing])

def write (e : Expression) : List Symbol := e.writeAt 0

end Expression

namespace Symbol

def depthAfter (depth : Nat) : Symbol → Nat
  | opening => depth + 1
  | closing => depth - 1
  | operand _ | operator _ => depth

def operator? (level : Nat) : Symbol → Option Operator
  | operator o => if o.level = level then some o else none
  | _ => none

/-- Symbols cut at the last operator of a level that stands outside parentheses, with what stands
before it and behind it. -/
def splitLast (level : Nat) : (depth : Nat) → List Symbol →
    Option (List Symbol × Operator × List Symbol)
  | _, [] => none
  | depth, s :: ss =>
    ((splitLast level (s.depthAfter depth) ss).map fun cut => (s :: cut.1, cut.2)).or
      (if depth = 0 then (s.operator? level).map fun o => ([], o, ss) else none)

theorem eq_of_splitLast {level depth : Nat} {ss before after : List Symbol} {o : Operator}
    (found : splitLast level depth ss = some (before, o, after)) :
    ss = before ++ .operator o :: after ∧ o.level = level := by
  induction ss generalizing depth before with
  | nil => cases found
  | cons s ss ih =>
      rw [splitLast, Option.or_eq_some_iff] at found
      rcases found with later | ⟨-, here⟩
      · obtain ⟨⟨front, _⟩, inside, same⟩ := Option.map_eq_some_iff.mp later
        cases same
        obtain ⟨rfl, tight⟩ := ih inside
        exact ⟨rfl, tight⟩
      · split at here
        · obtain ⟨p, named, same⟩ := Option.map_eq_some_iff.mp here
          cases same
          cases s with
          | operator q =>
              rw [operator?, Option.ite_none_right_eq_some] at named
              obtain ⟨tight, same⟩ := named
              cases same
              exact ⟨rfl, tight⟩
          | operand w => cases named
          | opening => cases named
          | closing => cases named
        · cases here

theorem length_splitLast {level depth : Nat} {ss before after : List Symbol} {o : Operator}
    (found : splitLast level depth ss = some (before, o, after)) :
    before.length + 1 + after.length = ss.length := by
  rw [(eq_of_splitLast found).1, List.length_append, List.length_cons]
  omega

theorem splitLast_cons {level depth : Nat} {s : Symbol}
    (spared : 0 < depth ∨ s.operator? level = none)
    (ss : List Symbol) :
    splitLast level depth (s :: ss) =
      (splitLast level (s.depthAfter depth) ss).map fun cut => (s :: cut.1, cut.2) := by
  rw [splitLast]
  rcases spared with deep | none
  · rw [if_neg (Nat.pos_iff_ne_zero.mp deep), Option.or_none]
  · rw [none, Option.map_none, ite_self, Option.or_none]

theorem operator?_eq_none {level : Nat} {o : Operator} (other : level ≠ o.level) :
    (operator o).operator? level = none := if_neg other.symm

theorem splitLast_append {level depth : Nat} (xs : List Symbol) {ss before after : List Symbol}
    {o : Operator}
    (found : splitLast level (xs.foldl depthAfter depth) ss = some (before, o, after)) :
    splitLast level depth (xs ++ ss) = some (xs ++ before, o, after) := by
  induction xs generalizing depth with
  | nil => exact found
  | cons x xs ih =>
      rw [List.cons_append, splitLast, ih found, Option.map_some, Option.some_or, List.cons_append]

end Symbol

namespace Expression

open LiteSql.Symbol (splitLast)

/-- Reads an expression whose operators outside parentheses bind at least as tightly as `level`. -/
def readAt (level : Nat) (ss : List Symbol) : Option Expression :=
  if level < 3 then
    match found : splitLast level 0 ss with
    | some (before, o, after) =>
      (readAt level before).bind fun l => (readAt (level + 1) after).map fun r => binary o l r
    | none => readAt (level + 1) ss
  else
    match ss with
    | [.operand w] => some (operand w)
    | [.operand f, .opening, .closing] => some (draw f)
    | .operand f :: .opening :: rest =>
      if rest.getLast? = some .closing then (readAt 0 rest.dropLast).map (call f) else none
    | .opening :: rest => if rest.getLast? = some .closing then readAt 0 rest.dropLast else none
    | _ => none
termination_by (ss.length, 3 - level)
decreasing_by
  · have size := Symbol.length_splitLast found
    exact Prod.Lex.left _ _ (by omega)
  · have size := Symbol.length_splitLast found
    exact Prod.Lex.left _ _ (by omega)
  · exact Prod.Lex.right _ (by omega)
  · exact Prod.Lex.left _ _ (by simp only [List.length_dropLast, List.length_cons]; omega)
  · exact Prod.Lex.left _ _ (by simp only [List.length_dropLast, List.length_cons]; omega)

def read (ss : List Symbol) : Option Expression := readAt 0 ss


theorem writeAt_of_le {e : Expression} {least : Nat} (tight : least ≤ e.level) :
    e.writeAt least = e.write := by
  cases e with
  | operand w => rfl
  | draw f => rfl
  | call f a => rfl
  | binary o l r =>
      have within : least ≤ o.level := tight
      simp only [write, writeAt, if_pos within, Nat.zero_le, if_true]

theorem writeAt_of_lt {e : Expression} {least : Nat} (loose : e.level < least) (apart : least ≤ 3) :
    e.writeAt least = .opening :: (e.write ++ [.closing]) := by
  cases e with
  | operand w => exact absurd loose (Nat.not_lt.mpr apart)
  | draw f => exact absurd loose (Nat.not_lt.mpr apart)
  | call f a => exact absurd loose (Nat.not_lt.mpr apart)
  | binary o l r =>
      have outside : ¬ least ≤ o.level := Nat.not_le.mpr loose
      simp only [write, writeAt, if_neg outside, Nat.zero_le, if_true]

theorem length_writeAt (e : Expression) {least : Nat} (apart : least ≤ 3) :
    (e.writeAt least).length = e.write.length + if least ≤ e.level then 0 else 2 := by
  split
  next tight => rw [writeAt_of_le tight, Nat.add_zero]
  next loose =>
    rw [writeAt_of_lt (Nat.not_le.mp loose) apart, List.length_cons, List.length_append,
      List.length_singleton]

/-- Symbols behind a written expression are cut as they are cut on their own, when its operators do
not come into question: they stand in parentheses or bind more tightly. -/
theorem splitLast_writeAt_append {level : Nat} (e : Expression) {least depth : Nat}
    (spared : 0 < depth ∨ level < least) (ss : List Symbol) :
    splitLast level depth (e.writeAt least ++ ss) =
      (splitLast level depth ss).map fun cut => (e.writeAt least ++ cut.1, cut.2) := by
  induction e generalizing least depth ss with
  | operand w => exact Symbol.splitLast_cons (.inr rfl) _
  | draw f =>
      rw [writeAt, List.cons_append, List.cons_append, List.cons_append, List.nil_append,
        Symbol.splitLast_cons (.inr rfl), Symbol.splitLast_cons (.inr rfl),
        Symbol.splitLast_cons (.inr rfl),
        Option.map_map, Option.map_map]
      rfl
  | call f a ih =>
      rw [writeAt, List.cons_append, List.cons_append, List.append_assoc,
        Symbol.splitLast_cons (.inr rfl), Symbol.splitLast_cons (.inr rfl), Symbol.depthAfter,
        Symbol.depthAfter, ih (.inl (Nat.succ_pos depth)),
        List.singleton_append, Symbol.splitLast_cons (.inr rfl), Option.map_map, Option.map_map,
        Option.map_map]
      simp only [Symbol.depthAfter, Nat.succ_sub_one, Function.comp_def, List.cons_append,
        List.append_assoc, List.nil_append]
  | binary o l r left right =>
      by_cases tight : least ≤ o.level
      · have outer : 0 < depth ∨ level < o.level := spared.imp_right fun below => by omega
        rw [writeAt, if_pos tight, List.append_assoc, left outer, List.cons_append,
          Symbol.splitLast_cons (outer.imp_right fun below => Symbol.operator?_eq_none (by omega)),
          Symbol.depthAfter, right (outer.imp_right fun below => by omega), Option.map_map,
          Option.map_map]
        simp only [Function.comp_def, List.cons_append, List.append_assoc]
      · rw [writeAt, if_neg tight, List.cons_append, Symbol.splitLast_cons (.inr rfl),
          List.append_assoc, List.append_assoc, Symbol.depthAfter, left (.inl (Nat.succ_pos _)),
          List.cons_append,
          Symbol.splitLast_cons (.inl (Nat.succ_pos _)), Symbol.depthAfter,
          right (.inl (Nat.succ_pos _)),
          List.singleton_append, Symbol.splitLast_cons (.inr rfl), Option.map_map, Option.map_map,
          Option.map_map, Option.map_map]
        simp only [Symbol.depthAfter, Nat.succ_sub_one, Function.comp_def, List.cons_append,
          List.append_assoc, List.nil_append]

theorem splitLast_writeAt {level least : Nat} (e : Expression) (spared : level < least) :
    splitLast level 0 (e.writeAt least) = none := by
  have alone : splitLast level 0 (e.writeAt least ++ []) = none :=
    splitLast_writeAt_append e (.inr spared) []
  rwa [List.append_nil] at alone

theorem foldl_writeAt (e : Expression) (least depth : Nat) :
    (e.writeAt least).foldl Symbol.depthAfter depth = depth := by
  induction e generalizing least depth with
  | operand w => rfl
  | draw f => rfl
  | call f a ih =>
      rw [writeAt, List.foldl_cons, List.foldl_cons, List.foldl_append, ih]
      rfl
  | binary o l r left right =>
      have inner (depth : Nat) : (writeAt o.level l ++ .operator o :: writeAt (o.level + 1) r).foldl
          Symbol.depthAfter depth = depth := by
        rw [List.foldl_append, left, List.foldl_cons, right, Symbol.depthAfter]
      rw [writeAt]
      split
      · exact inner depth
      · rw [List.foldl_cons, List.foldl_append, inner]
        rfl

theorem splitLast_operator (o : Operator) (l r : Expression) (least : Nat) :
    splitLast o.level 0 (l.writeAt least ++ .operator o :: r.writeAt (o.level + 1)) =
      some (l.writeAt least, o, r.writeAt (o.level + 1)) := by
  have here : splitLast o.level 0 (.operator o :: r.writeAt (o.level + 1)) =
      some ([], o, r.writeAt (o.level + 1)) := by
    rw [splitLast, Symbol.depthAfter, splitLast_writeAt r (Nat.lt_succ_self _), if_pos rfl,
      Symbol.operator?, if_pos rfl]
    rfl
  rw [← foldl_writeAt l least 0] at here
  rw [Symbol.splitLast_append _ here, List.append_nil]

theorem readAt_of_splitLast {ss : List Symbol} {level least : Nat} (below : level ≤ least)
    (most : least ≤ 3)
    (uncut : ∀ n < least, splitLast n 0 ss = none) : readAt level ss = readAt least ss := by
  induction most : least - level generalizing level with
  | zero => rw [Nat.le_antisymm below (by omega)]
  | succ n ih =>
      have next : readAt (level + 1) ss = readAt least ss := ih (by omega) (by omega)
      rw [readAt.eq_def, if_pos (by omega), ← next]
      split
      next found => rw [uncut level (by omega)] at found; cases found
      next => rfl

theorem readAt_call (f : Text) {ss : List Symbol} (some : ss ≠ []) :
    readAt 3 (.operand f :: .opening :: (ss ++ [.closing])) = (readAt 0 ss).map (call f) := by
  rw [readAt, if_neg (Nat.lt_irrefl 3), List.getLast?_concat, if_pos rfl, List.dropLast_concat]
  intro bare
  exact some (List.append_eq_singleton_iff.mp bare |>.resolve_right
    (fun both => List.cons_ne_nil _ _ both.2)).1

theorem readAt_parenthesized (ss : List Symbol) :
    readAt 3 (.opening :: (ss ++ [.closing])) = readAt 0 ss := by
  rw [readAt, if_neg (Nat.lt_irrefl 3), List.getLast?_concat, if_pos rfl, List.dropLast_concat]

theorem writeAt_ne_nil (e : Expression) (least : Nat) : e.writeAt least ≠ [] := by
  cases e with
  | operand w => exact List.cons_ne_nil _ _
  | draw f => exact List.cons_ne_nil _ _
  | call f a => exact List.cons_ne_nil _ _
  | binary o l r =>
      rw [writeAt]
      split
      · exact List.append_ne_nil_of_right_ne_nil _ (List.cons_ne_nil _ _)
      · exact List.cons_ne_nil _ _

/-- What is written is read back. -/
theorem readAt_writeAt (e : Expression) {level least : Nat} (below : level ≤ least)
    (most : least ≤ 3) :
    readAt level (e.writeAt least) = some e := by
  induction e generalizing level least with
  | operand w =>
      have whole : readAt level (writeAt 3 (operand w)) = readAt 3 (writeAt 3 (operand w)) :=
        readAt_of_splitLast (Nat.le_trans below most) (Nat.le_refl 3) fun n =>
          splitLast_writeAt (operand w)
      refine whole.trans ?_
      rw [writeAt, readAt, if_neg (Nat.lt_irrefl 3)]
  | draw f =>
      have whole : readAt level (writeAt 3 (draw f)) = readAt 3 (writeAt 3 (draw f)) :=
        readAt_of_splitLast (Nat.le_trans below most) (Nat.le_refl 3) fun n =>
          splitLast_writeAt (draw f)
      refine whole.trans ?_
      rw [writeAt, readAt, if_neg (Nat.lt_irrefl 3)]
  | call f a ih =>
      have whole : readAt level (writeAt 3 (call f a)) = readAt 3 (writeAt 3 (call f a)) :=
        readAt_of_splitLast (Nat.le_trans below most) (Nat.le_refl 3) fun n =>
          splitLast_writeAt (call f a)
      refine whole.trans ?_
      exact (readAt_call f (a.writeAt_ne_nil 0)).trans
        (congrArg _ (ih (Nat.le_refl 0) (Nat.zero_le 3)))
  | binary o l r left right =>
      have inner {level : Nat} (below : level ≤ o.level) :
          readAt level (writeAt o.level l ++ .operator o :: writeAt (o.level + 1) r) =
            some (binary o l r) := by
        have uncut (n : Nat) (tight : n < o.level) := splitLast_writeAt (binary o l r) tight
        rw [writeAt, if_pos (Nat.le_refl _)] at uncut
        rw [readAt_of_splitLast below (Nat.le_of_lt o.level_lt) uncut, readAt.eq_def,
          if_pos o.level_lt]
        split
        next found =>
          rw [splitLast_operator] at found
          cases found
          rw [left (Nat.le_refl _) (Nat.le_of_lt o.level_lt), right (Nat.le_refl _) o.level_lt]
          rfl
        next missed => rw [splitLast_operator] at missed; cases missed
      by_cases tight : least ≤ o.level
      · rw [writeAt, if_pos tight]
        exact inner (Nat.le_trans below tight)
      · have uncut (n : Nat) (tight : n < 3) := splitLast_writeAt (binary o l r) tight
        rw [writeAt, if_neg (Nat.not_le.mpr o.level_lt)] at uncut
        rw [writeAt, if_neg tight, readAt_of_splitLast (Nat.le_trans below most)
          (Nat.le_refl 3) uncut, readAt_parenthesized]
        exact inner (Nat.zero_le _)

theorem read_write (e : Expression) : read e.write = some e :=
  readAt_writeAt e (Nat.le_refl 0) (Nat.zero_le 3)

theorem read_operator {o : Operator} (l r : Expression) {least : Nat} (tight : o.level ≤ least)
    (most : least ≤ 3) :
    read (l.writeAt least ++ .operator o :: r.writeAt (o.level + 1)) = some (binary o l r) := by
  have uncut (n : Nat) (loose : n < o.level) :
      splitLast n 0 (l.writeAt least ++ .operator o :: r.writeAt (o.level + 1)) = none := by
    rw [splitLast_writeAt_append l (.inr (by omega)),
      Symbol.splitLast_cons (.inr (Symbol.operator?_eq_none (by omega))), Symbol.depthAfter,
      splitLast_writeAt r (by omega)]
    rfl
  rw [read, readAt_of_splitLast (Nat.zero_le _) (Nat.le_of_lt o.level_lt) uncut, readAt.eq_def,
    if_pos o.level_lt]
  split
  next found =>
    rw [splitLast_operator] at found
    cases found
    rw [readAt_writeAt l tight most, readAt_writeAt r (Nat.le_refl _) o.level_lt]
    rfl
  next missed => rw [splitLast_operator] at missed; cases missed

theorem length_writeAt_le {level : Nat} {ss : List Symbol} {e : Expression} (most : level ≤ 3)
    (reads : readAt level ss = some e) : (e.writeAt level).length ≤ ss.length := by
  fun_induction readAt level ss generalizing e with
  | case1 level ss tight before o after found ihl ihr =>
      obtain ⟨l, first, rest⟩ := Option.bind_eq_some_iff.mp reads
      obtain ⟨r, second, rfl⟩ := Option.map_eq_some_iff.mp rest
      obtain ⟨rfl, rfl⟩ := Symbol.eq_of_splitLast found
      have left := ihl most first
      have right := ihr tight second
      rw [writeAt, if_pos (Nat.le_refl _), List.length_append, List.length_append, List.length_cons,
        List.length_cons]
      omega
  | case2 level ss tight missed ih =>
      have more := ih tight reads
      rw [length_writeAt e tight] at more
      rw [length_writeAt e most]
      split <;> split at more <;> omega
  | case3 => cases reads; exact Nat.le_refl _
  | case4 => cases reads; exact Nat.le_refl _
  | case5 level tight f rest more closed ih =>
      obtain ⟨a, inside, rfl⟩ := Option.map_eq_some_iff.mp reads
      have short := ih (Nat.zero_le 3) inside
      have full : 0 < rest.length := List.length_pos_of_ne_nil fun none => by
        rw [none] at closed; cases closed
      rw [List.length_dropLast] at short
      simp only [writeAt, List.length_cons, List.length_append, List.length_nil]
      omega
  | case6 => cases reads
  | case7 level tight rest closed ih =>
      have short := ih (Nat.zero_le 3) reads
      have full : 0 < rest.length := List.length_pos_of_ne_nil fun none => by
        rw [none] at closed; cases closed
      rw [List.length_dropLast] at short
      rw [length_writeAt e most, write, List.length_cons]
      split <;> omega
  | case8 => cases reads
  | case9 => cases reads

/-- An expression between the symbols of two others, joined by an operator, is read as the
operator's when they bind tightly enough, and only then. -/
theorem read_operator_iff (o : Operator) (l r : Expression) :
    read (l.write ++ .operator o :: r.write) = some (binary o l r) ↔
      o.level ≤ l.level ∧ o.level < r.level := by
  have most := o.level_lt
  constructor
  · intro reads
    have short := length_writeAt_le (Nat.zero_le 3) reads
    rw [writeAt, if_pos (Nat.zero_le _), List.length_append, List.length_append, List.length_cons,
      List.length_cons, length_writeAt l (Nat.le_of_lt most), length_writeAt r most] at short
    split at short <;> split at short <;> omega
  · rintro ⟨left, right⟩
    have written : (binary o l r).write = l.write ++ .operator o :: r.write := by
      rw [write, writeAt, if_pos (Nat.zero_le _), writeAt_of_le left, writeAt_of_le right]
    rw [← written, read_write]

theorem read_parenthesized (l r : Expression) (o : Operator) :
    read (.opening :: (l.write ++ .operator o :: r.write ++ [.closing])) =
      read (l.write ++ .operator o :: r.write) := by
  have uncut (n : Nat) (tight : n < 3) :
      splitLast n 0 (.opening :: (l.write ++ .operator o :: r.write ++ [.closing])) = none := by
    rw [Symbol.splitLast_cons (.inr rfl), List.append_assoc, Symbol.depthAfter,
      write, splitLast_writeAt_append l (.inl (Nat.succ_pos 0)), List.cons_append,
      Symbol.splitLast_cons (.inl (Nat.succ_pos 0)), Symbol.depthAfter, write,
      splitLast_writeAt_append r (.inl (Nat.succ_pos 0))]
    rfl
  rw [read, readAt_of_splitLast (Nat.zero_le 3) (Nat.le_refl 3) uncut, readAt_parenthesized, read]

/-- What an expression written at a level becomes when an operator and its right operand are written
behind it. -/
def attachAt : Expression → Nat → Operator → Expression → Expression
  | binary p l r, least, o, x =>
    if least ≤ p.level ∧ p.level < o.level then binary p l (r.attachAt (p.level + 1) o x)
    else binary o (binary p l r) x
  | e, _, o, x => binary o e x

def attach (e : Expression) (o : Operator) (x : Expression) : Expression := e.attachAt 0 o x

theorem writeAt_attachAt (e : Expression) {o : Operator} {least : Nat} (tight : least ≤ o.level)
    (x : Expression) :
    (e.attachAt least o x).writeAt least = e.writeAt least ++ .operator o :: x.writeAt
    (o.level + 1) := by
  induction e generalizing least with
  | operand w => exact if_pos tight
  | draw f => exact if_pos tight
  | call f a => exact if_pos tight
  | binary p l r _ ih =>
      rw [attachAt]
      split
      next inside =>
        rw [writeAt, if_pos inside.1, ih inside.2, writeAt, if_pos inside.1, List.append_assoc,
          List.cons_append]
      next outside =>
        have same : (binary p l r).writeAt o.level = (binary p l r).writeAt least := by
          rw [writeAt, writeAt]
          exact if_congr (by omega) rfl rfl
        rw [writeAt, if_pos tight, same]

theorem write_attach (e : Expression) (o : Operator) (x : Expression) :
    (e.attach o x).write = e.write ++ .operator o :: x.writeAt (o.level + 1) :=
  writeAt_attachAt e (Nat.zero_le _) x

end Expression

end LiteSql
