import Mathlib.Algebra.BigOperators.Fin
import Mathlib.Algebra.Order.BigOperators.Group.Finset
import LiteSql.Proofs.DrawTally
import LiteSql.Proofs.RuleOrder

/-! Draws in texts in which calls are written by templates. A template adds no draw if the arguments
that it repeats have none, and what they become has none either. -/

namespace LiteSql

open Trail

namespace Trail

theorem Like.tally {t u : Trail} (like : t.Like u) {ls : List Lexeme} (filled : ls ≠ []) :
    tally t ls = tally u ls ∧ along t ls = along u ls := by
  cases ls with
  | nil => exact absurd rfl filled
  | cons l ls =>
      have step : t.pass l = u.pass l := by
        cases l with
        | code c => exact like.next c
        | literal kind text => rfl
      rw [Trail.tally, Trail.tally, along_cons, along_cons, like.isDraw, step]
      exact ⟨rfl, rfl⟩

theorem along_paren {c : Char} (paren : c = '(' ∨ c = ')') (t : Trail) (ls : List Lexeme) :
    along t (ls ++ [.code c]) = ready := by
  have facts : ∀ d ∈ ['(', ')'], isWordChar d = false ∧ isBlank d = false := by decide
  obtain ⟨letter, blank⟩ := facts c (by simpa using paren)
  have step : along (along t ls) [.code c] = (along t ls).next c := rfl
  rw [along_append, step, next_other _ letter, blank]
  rfl

theorem tally_callLexemes (t : Trail) (written : Text) (inner : List Lexeme) :
    tally t (callLexemes written inner) = tally t (written.map .code ++ [.code '(']) + tally
      ready inner ∧
      along t (callLexemes written inner) = ready := by
  have regroup : callLexemes written inner = (written.map .code ++ [.code '(']) ++
      (inner ++ [.code ')']) := by
    simp [callLexemes]
  have last (u : Trail) : tally u [.code ')'] = 0 := rfl
  rw [regroup, ← List.append_assoc, along_paren (.inr rfl), List.append_assoc,
    tally_append t (_ ++ _), along_paren (.inl rfl), tally_append .ready, last]
  exact ⟨rfl, rfl⟩

end Trail

/-! ### Arguments -/

theorem sum_getD_le {weight : List Lexeme → Nat} (empty : weight [] = 0)
    (cores : List (List Lexeme)) {uses : List Nat}
    (once : ∀ i ∈ uses, 1 < uses.count i → weight (cores[i]?.getD []) = 0) :
    (uses.map fun i => weight (cores[i]?.getD [])).sum ≤ (cores.map weight).sum := by
  calc (uses.map fun i => weight (cores[i]?.getD [])).sum
      = ∑ i ∈ uses.toFinset, uses.count i • weight (cores[i]?.getD []) :=
        Finset.sum_list_map_count _ _
    _ ≤ ∑ i ∈ uses.toFinset, weight (cores[i]?.getD []) := by
        refine Finset.sum_le_sum fun i member => ?_
        by_cases repeated : 1 < uses.count i
        · rw [once i (List.mem_toFinset.mp member) repeated]
          exact (Nat.mul_zero _).le
        · exact (Nat.mul_le_mul_right _ (Nat.le_of_not_lt repeated)).trans (Nat.one_mul _).le
    _ ≤ ∑ i ∈ Finset.range cores.length, weight (cores[i]?.getD []) := by
        refine Finset.sum_le_sum_of_ne_zero fun i _ present => Finset.mem_range.mpr ?_
        by_contra beyond
        rw [List.getElem?_eq_none (Nat.le_of_not_lt beyond)] at present
        exact present empty
    _ = (cores.map weight).sum := by
        rw [Finset.sum_range]
        simp

theorem Argued.tally_eq {cores : List (List Lexeme)} {whole : List Lexeme}
    (argued : Argued cores whole) :
    tally ready whole = (cores.map (tally ready)).sum := by
  have drawn := (draws_splitArguments (whole.flatMap Lexeme.text)).1
  rw [argued.splitArguments_eq, draws_eq_tally, argued.closed.lexemes_text] at drawn
  rw [← drawn]
  have sealed := argued.sealed
  clear drawn argued
  induction cores with
  | nil => rfl
  | cons core cores ih =>
      obtain ⟨first, others⟩ := List.forall_mem_cons.mp sealed
      rw [List.map_cons, total, draws_eq_tally, first.lexemes_text, ih others, List.map_cons,
        List.sum_cons]

theorem Listed.exists_around {cores : List (List Lexeme)} {whole core : List Lexeme}
    (listed : Listed cores whole)
    (member : core ∈ cores) : ∃ before after, whole = before ++ (core ++ after) ∧
      along ready before = ready ∧
      joinsName before = false := by
  have blanks {before : List Lexeme} (blank : ∀ l ∈ before, l.isBlank = true) :
      along ready before = ready := by
    induction before with
    | nil => rfl
    | cons l before ih =>
        obtain ⟨first, others⟩ := List.forall_mem_cons.mp blank
        cases l with
        | literal kind text => cases first
        | code c =>
            have step : ready.pass (.code c) = ready := by
              have space : isBlank c = true := first
              have moved : ready.pass (.code c) = ready.next c := rfl
              rw [moved, next_other ready (isWordChar_of_isBlank space), space]
              rfl
            rw [along_cons, step, ih others]
  have own {core x : List Lexeme} (padding : Padding core x) : ∃ before after,
      x = before ++ (core ++ after) ∧
      along ready before = ready ∧ joinsName before = false := by
    obtain ⟨before, after, rfl, leading, -⟩ := padding
    exact ⟨before, after, rfl, blanks leading, joinsName_blanks leading⟩
  induction listed with
  | last padding =>
      cases List.mem_singleton.mp member
      exact own padding
  | @comma first x xs cores padding _ ih =>
      rcases List.mem_cons.mp member with rfl | later
      · obtain ⟨before, after, rfl, facts⟩ := own padding
        exact ⟨before, after ++ .code ',' :: xs, by simp, facts⟩
      · obtain ⟨before, after, rfl, fresh, apart⟩ := ih later
        refine ⟨x ++ [.code ','] ++ before, after, by simp, ?_, ?_⟩
        · have step : along ready (x ++ [.code ',']) = ready := by
            have sign : isWordChar ',' = false := by decide
            rw [along_append]
            exact next_other (along ready x) sign
          rw [along_append, step, fresh]
        · rw [joinsName_append, joinsName_append_code, apart]
          split
          · decide
          · rfl

theorem Argued.unique {cores cores' : List (List Lexeme)} {whole : List Lexeme}
    (one : Argued cores whole)
    (other : Argued cores' whole) : cores = cores' := by
  have same := one.splitArguments_eq.symm.trans other.splitArguments_eq
  have back {cores : List (List Lexeme)} (argued : Argued cores whole) :
      (cores.map (List.flatMap Lexeme.text)).map lexemes = cores := by
    rw [List.map_map]
    exact (List.map_congr_left fun core member => (argued.sealed core member).lexemes_text).trans
      (List.map_id _)
  rw [← back one, same, back other]

/-! ### Filled templates -/

namespace Template

def uses (parts : Template) : List Nat :=
  parts.filterMap fun
    | .argument index => some index
    | _ => none

def repeats (parts : Template) : List Nat := parts.uses.filter fun i =>
    decide (1 < parts.uses.count i)

/-- Whether the texts of a template complete at most `free` draws, hold its arguments apart and
leave no draw open, where one of the given trails comes before it. -/
def isModest (free : Nat) : (starts : List Trail) → Template → Bool
  | starts, [.text t] =>
    starts.all fun s => decide (t ≠ [] ∧ tally s (lexemes t) ≤ free ∧
      Below (along s (lexemes t)) ready)
  | starts, .text t :: .argument _ :: rest =>
    (starts.all fun s => decide (t ≠ [] ∧ tally s (lexemes t) = 0 ∧ along s (lexemes t) = ready)) &&
      isModest free trails rest
  | _, _ => false

/-- A filled template draws what its texts and arguments do. -/
theorem tally_weave {free : Nat} {starts : List Trail} {parts : Template}
    (modest : parts.isModest free starts = true)
    {t : Trail} (start : ∃ s ∈ starts, t.Like s) (cores : List (List Lexeme)) :
    tally t (parts.weave cores) ≤ free + (parts.uses.map fun i =>
      tally ready (cores[i]?.getD [])).sum ∧
      Below (along t (parts.weave cores)) ready := by
  have filled {text : Text} (present : text ≠ []) : lexemes text ≠ [] := by
    intro none
    rw [← flatMap_text_lexemes text, none] at present
    exact present rfl
  fun_induction isModest free starts parts generalizing t with
  | case1 starts text =>
      obtain ⟨s, member, like⟩ := start
      obtain ⟨present, few, below⟩ := of_decide_eq_true (List.all_eq_true.mp modest s member)
      obtain ⟨counted, trail⟩ := like.tally (filled present)
      rw [weave, weave, List.append_nil, counted, trail]
      exact ⟨by simpa [uses] using few, below⟩
  | case2 starts text index rest ih =>
      rw [Bool.and_eq_true] at modest
      obtain ⟨s, member, like⟩ := start
      obtain ⟨present, none, fresh⟩ := of_decide_eq_true (List.all_eq_true.mp modest.1 s member)
      obtain ⟨counted, trail⟩ := like.tally (filled present)
      obtain ⟨later, below⟩ := ih modest.2 (exists_like (along ready (cores[index]?.getD [])))
      rw [weave, weave, tally_append, tally_append, along_append, along_append, counted, trail,
        none, fresh]
      refine ⟨?_, below⟩
      have listed : uses (.text text :: .argument index :: rest) = index :: uses rest := rfl
      rw [listed, List.map_cons, List.sum_cons]
      omega
  | case3 => cases modest

end Template

/-! ### Templates without commas -/

namespace Template

/-- Whether a template starts and ends with texts that are not blank there, and no text of it holds
a comma. -/
def isSolid (parts : Template) : Bool :=
  (parts.all fun
    | .text t => decide (Lexeme.code ',' ∉ lexemes t)
    | _ => true) &&
    (parts.head?.any fun
      | .text t => (lexemes t).head?.any fun l => !l.isBlank
      | _ => false) &&
    parts.getLast?.any fun
      | .text t => (lexemes t).getLast?.any fun l => !l.isBlank
      | _ => false

variable {parts : Template} {cores : List (List Lexeme)}

theorem undivided_weave (plain : ∀ t, .text t ∈ parts → Lexeme.code ',' ∉ lexemes t)
    (items : ∀ core ∈ cores, Item core) (front : List Lexeme) :
      Undivided front (parts.weave cores) := by
  have nothing (front : List Lexeme) : Undivided front [] := fun y z cut => absurd cut (by simp)
  induction parts generalizing front with
  | nil => exact nothing front
  | cons part rest ih =>
      have later := ih fun t member => plain t (List.mem_cons_of_mem part member)
      cases part with
      | text t =>
          refine undivided_append.mpr ⟨fun y z cut => ?_, later _⟩
          exact absurd (by rw [cut]; simp) (plain t List.mem_cons_self)
      | argument index =>
          refine undivided_append.mpr ⟨?_, later _⟩
          exact forall_getD (fun core member => (items core member).undivided_behind front)
            (nothing front) index
      | next => exact later front
      | named name => exact later front
      | broken fault => exact later front

theorem compact_weave (solid : parts.isSolid = true) : Compact (parts.weave cores) := by
  simp only [isSolid, Bool.and_eq_true, Option.any_eq_true] at solid
  obtain ⟨⟨-, first, starts, front⟩, last, ends, back⟩ := solid
  constructor
  · cases first with
    | text t =>
        obtain ⟨l, head, firm⟩ := (Option.any_eq_true _ _).mp front
        obtain ⟨rest, rfl⟩ := List.head?_eq_some_iff.mp starts
        exact ⟨l, by rw [weave, List.head?_append, head]; rfl, by simpa using firm⟩
    | argument _ | next | named _ | broken _ => cases front
  · cases last with
    | text t =>
        obtain ⟨l, final, firm⟩ := (Option.any_eq_true _ _).mp back
        obtain ⟨before, rfl⟩ := List.getLast?_eq_some_iff.mp ends
        refine ⟨l, ?_, by simpa using firm⟩
        rw [weave_append, weave, weave, List.append_nil, List.getLast?_append, final]
        rfl
    | argument _ | next | named _ | broken _ => cases back

end Template

theorem firm_turned {function : Text} {arity : Int} {parts : Template}
    (ascii : IsAsciiWord function)
    (sound : parts.isSound arity = true) (solid : parts.isSolid = true) :
      Firm function (Turned arity parts) := by
  intro written inside new turned named balanced
  have whole := (fair_turned ascii sound).balanced turned named balanced
  cases turned with
  | kept _ _ =>
      exact ⟨⟨whole, undivided_callLexemes ascii named balanced []⟩,
        compact_callLexemes ascii named inside⟩
  | filled argued _ =>
      refine ⟨⟨whole, Template.undivided_weave (fun t member => ?_) argued.item []⟩,
        Template.compact_weave solid⟩
      simp only [Template.isSolid, Bool.and_eq_true] at solid
      exact of_decide_eq_true (List.all_eq_true.mp solid.1.1 _ member)

/-! ### Turned calls -/

section

variable {function : Text} {arity : Int} {parts : Template}

def Spares (arity : Int) (parts : Template) (inner : List Lexeme) : Prop :=
  ∃ cores, Argued cores inner ∧
    ((cores.length : Int) = arity → ∀ i ∈ parts.repeats, tally ready (cores[i]?.getD []) = 0)

/-- No call in lexemes stands directly behind the name of a draw, and all have such arguments. -/
def Sober (function : Text) (arity : Int) (parts : Template) (u : Trail)
    (front ls : List Lexeme) : Prop :=
  ∀ a written inner b, ls = a ++ (callLexemes written inner ++ b) →
    CallCut function (front ++ a) written inner →
    along u a = ready ∧ Spares arity parts inner

namespace Sober

variable {u : Trail} {front ls : List Lexeme}

theorem behind {x : List Lexeme} (sober : Sober function arity parts u front (x ++ ls)) :
    Sober function arity parts (along u x) (front ++ x) ls := by
  rintro a written inner b rfl cut
  rw [List.append_assoc] at cut
  have here := sober (x ++ a) written inner b (by simp) cut
  rwa [along_append] at here

theorem part {before x after : List Lexeme}
    (sober : Sober function arity parts u front (before ++ (x ++ after)))
    (fresh : along u before = ready) (apart : joinsName (front ++ before) = false) :
    Sober function arity parts ready [] x := by
  rintro a written inner b rfl cut
  have cut' : CallCut function (front ++ before ++ a) written inner := by
    refine ⟨cut.named, ?_, cut.balanced⟩
    have separate : joinsName ([] ++ a) = false := cut.separate
    have same : joinsName (front ++ before) = joinsName [] := apart
    exact (joinsName_congr same a).trans separate
  rw [List.append_assoc] at cut'
  have here := sober (before ++ a) written inner (b ++ after) (by simp) cut'
  rwa [along_append, fresh] at here

theorem inner {written : Text} {inner : List Lexeme}
    (sober : Sober function arity parts u front (callLexemes written inner ++ ls)) :
    Sober function arity parts ready [] inner := by
  have regroup : callLexemes written inner ++ ls =
      (written.map .code ++ [.code '(']) ++ (inner ++ .code ')' :: ls) := by simp [callLexemes]
  rw [regroup] at sober
  refine sober.part (along_paren (.inl rfl) u _) ?_
  rw [← List.append_assoc, joinsName_append_code]
  decide

theorem argument {cores : List (List Lexeme)} {inner : List Lexeme}
    (sober : Sober function arity parts ready [] inner)
    (argued : Argued cores inner) {core : List Lexeme} (member : core ∈ cores) :
    Sober function arity parts ready [] core := by
  rcases argued.split with ⟨rfl, -⟩ | ⟨-, listed, -⟩
  · cases member
  · obtain ⟨before, after, rfl, fresh, apart⟩ := listed.exists_around member
    exact sober.part fresh apart

end Sober

theorem Trail.Below.exists_like {t : Trail} (below : Below t ready) :
    ∃ s ∈ [ready, spent], t.Like s := by
  rcases below with rfl | rfl | ⟨-, none⟩
  · exact ⟨ready, by simp, rfl, fun _ => rfl⟩
  · exact ⟨spent, by simp, rfl, fun _ => rfl⟩
  · cases none

variable (ascii : IsAsciiWord function) (sound : parts.isSound arity = true) {free : Nat}
  (modest : parts.isModest free [ready, spent] = true)
  (own : ∀ written, spelled function written = true →
    free ≤ tally ready (written.map .code ++ [.code '(']))
  (firm : parts.repeats = [] ∨ Firm function (Turned arity parts))

include ascii sound modest own firm

theorem Turned.tally_le {written : Text} {inner inside new : List Lexeme}
    {cores : List (List Lexeme)}
    (turned : Turned arity parts written inside new) (named : spelled function written = true)
    (argued : Argued cores inner) (within : Recast function (Turned arity parts) [] inner inside)
    (spared : (cores.length : Int) = arity → ∀ i ∈ parts.repeats,
      tally ready (cores[i]?.getD []) = 0)
    (fewer : tally ready inside ≤ tally ready inner)
    (each : ∀ core ∈ cores, ∀ core', Recast function (Turned arity parts) [] core core' →
      tally ready core' ≤ tally ready core) {t : Trail} (below : Below t ready) :
    tally t new ≤ tally ready (callLexemes written inner) ∧ Below (along t new) ready := by
  rw [(tally_callLexemes ready written inner).1]
  cases turned with
  | kept _ _ =>
      obtain ⟨counted, ended⟩ := tally_callLexemes t written inside
      have name := below.tally_le (written.map .code ++ [.code '('])
      rw [counted, ended]
      exact ⟨Nat.add_le_add name fewer, .refl ready⟩
  | @filled cores' argued' count =>
      obtain ⟨bound, ended⟩ := Template.tally_weave modest below.exists_like cores'
      have once : ∀ i ∈ parts.uses, 1 < parts.uses.count i →
          tally ready (cores'[i]?.getD []) = 0 := by
        intro i used repeated
        have among : i ∈ parts.repeats := List.mem_filter.mpr ⟨used, decide_eq_true repeated⟩
        rcases firm with none | firm
        · rw [none] at among
          cases among
        · obtain ⟨cores'', argued'', pairs⟩ := argued.exists_recast
            (fair_turned ascii sound) firm within
          obtain rfl := argued''.unique argued'
          have fewer' := Template.forall_getD each (fun core' recast => by rw [recast.of_nil]) i _
            (Recast.getD pairs i)
          rw [spared (by rw [pairs.length_eq, count]) i among] at fewer'
          exact Nat.le_zero.mp fewer'
      have total := sum_getD_le (show tally ready [] = 0 from rfl) cores' once
      rw [← argued'.tally_eq] at total
      have name := own written named
      exact ⟨by omega, ended⟩

theorem Recast.tally_le {front ls ms : List Lexeme}
    (recast : Recast function (Turned arity parts) front ls ms)
    {t u : Trail} (sober : Sober function arity parts u front ls) (below : Below t u) :
    tally t ms ≤ tally u ls ∧ Below (along t ms) (along u ls) := by
  have fair := fair_turned ascii sound
  induction size : ls.length using Nat.strongRecOn generalizing front ls ms t u with
  | ind length ih =>
      subst size
      cases recast with
      | done => exact ⟨le_rfl, below⟩
      | @keep _ l ls ms _ later =>
          have first := below.tally_le [l]
          have rest := ih ls.length (by simp) later (sober.behind (x := [l])) (below.pass l) rfl
          rw [← List.singleton_append, tally_append, along_append]
          rw [← List.singleton_append (l := ls), tally_append, along_append]
          exact ⟨Nat.add_le_add first rest.1, rest.2⟩
      | @call _ inner inside new ls ms written cut within turned later =>
          have smaller : inner.length < (callLexemes written inner ++ ls).length ∧
              ls.length < (callLexemes written inner ++ ls).length := by
            simp only [callLexemes, List.length_append, List.length_map, List.length_cons,
              List.length_nil]
            omega
          obtain ⟨fresh, cores, argued, spared⟩ := sober [] written inner ls rfl
            (by rwa [List.append_nil])
          obtain rfl : u = ready := fresh
          obtain ⟨fewer, -⟩ := ih _ smaller.1 within sober.inner (.refl ready) rfl
          obtain ⟨source, ended⟩ := tally_callLexemes ready written inner
          have each : ∀ core ∈ cores, ∀ core', Recast function (Turned arity parts) [] core core' →
              tally ready core' ≤ tally ready core := by
            intro core member core' recast
            have part := (argued.isInfix core member).length_le
            exact (ih _ (by omega) recast (sober.inner.argument argued member) (.refl ready) rfl).1
          have written' := turned.tally_le ascii sound modest own firm cut.named argued within
            spared fewer each below
          have behind := sober.behind
          rw [ended] at behind
          obtain ⟨rest, last⟩ := ih _ smaller.2 later behind written'.2 rfl
          rw [tally_append, tally_append, along_append, along_append, ended]
          exact ⟨Nat.add_le_add written'.1 rest, last⟩

end

end LiteSql
