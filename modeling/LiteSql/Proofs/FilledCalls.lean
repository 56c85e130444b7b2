import LiteSql.Proofs.Weaving

/-! Rules that write calls by templates. Such a rule leaves no call with the number of arguments
that it takes: what it writes holds no call of its own, and what it keeps stays a call with another
number of arguments or is no call any more. -/

namespace LiteSql

/-! ### What a template makes of a call -/

/-- What stands for a call with the given arguments: the filled template for the right number of
them, and the call itself for any other. -/
inductive Turned (arity : Int) (parts : Template) (written : Text) (inside : List Lexeme) :
    List Lexeme → Prop
  | kept {cores : List (List Lexeme)} : Argued cores inside → (cores.length : Int) ≠ arity →
    Turned arity parts written inside (callLexemes written inside)
  | filled {cores : List (List Lexeme)} : Argued cores inside → (cores.length : Int) = arity →
    Turned arity parts written inside (parts.weave cores)

inductive Kept (arity : Int) (written : Text) (inside : List Lexeme) : List Lexeme → Prop
  | intro {cores : List (List Lexeme)} : Argued cores inside → (cores.length : Int) ≠ arity →
    Kept arity written inside (callLexemes written inside)

namespace Template

def startsOpen (parts : Template) : Bool :=
  parts.head?.any fun
    | .text t => t.head?.any fun c => isWordChar c || c == '('
    | _ => false

def isSilent (function : Text) (parts : Template) : Bool :=
  parts.all fun
    | .text t => decide (Silent function t)
    | _ => true

/-- Whether a template can take the place of a call with `arity` arguments. -/
def isSound (arity : Int) (parts : Template) : Bool :=
  parts.fits arity && parts.isFramed && parts.startsOpen && decide
    (levelAfter 0 (parts.weave []) = some 0)

theorem silent_of_isSilent {function : Text} {parts : Template}
    (silent : parts.isSilent function = true) :
    ∀ t, .text t ∈ parts → Silent function t := by
  intro t member
  simpa using List.all_eq_true.mp silent _ member

theorem exists_cons_weave {parts : Template} (starts : parts.startsOpen = true)
    (cores : List (List Lexeme)) :
    ∃ c s, (parts.weave cores).flatMap Lexeme.text = c :: s ∧ (isWordChar c = true ∨ c = '(') := by
  cases parts with
  | nil => cases starts
  | cons part rest =>
      cases part with
      | text t =>
          cases t with
          | nil => cases starts
          | cons c t =>
              refine ⟨c, t ++ (weave cores rest).flatMap Lexeme.text,
                ?_, by simpa [startsOpen] using starts⟩
              rw [weave, List.flatMap_append, flatMap_text_lexemes]
              rfl
      | argument index => cases starts
      | next => cases starts
      | named name => cases starts
      | broken fault => cases starts

end Template

theorem plain_callLexemes {written : Text} {inner : List Lexeme}
    (plain : ∀ l ∈ inner, l.isLineComment = false) :
    ∀ l ∈ callLexemes written inner, l.isLineComment = false := by
  intro l member
  simp only [callLexemes, List.mem_append, List.mem_map, List.mem_cons, List.not_mem_nil, or_false]
    at member
  rcases member with ⟨c, -, rfl⟩ | rfl | among | rfl
  · rfl
  · rfl
  · exact plain l among
  · rfl

section

variable {function : Text} {arity : Int} {parts : Template} (ascii : IsAsciiWord function)
  (sound : parts.isSound arity = true)

include ascii sound

theorem fair_turned : Fair function (Turned arity parts) := by
  simp only [Template.isSound, Bool.and_eq_true, decide_eq_true_eq] at sound
  obtain ⟨⟨⟨-, framed⟩, starts⟩, level⟩ := sound
  refine ⟨ascii, ?_, ?_, ?_, ?_⟩
  · intro written inside new turned named balanced
    cases turned with
    | kept => exact balanced_callLexemes ascii named balanced
    | filled argued _ =>
        exact (Template.levelAfter_weave (fun core member => (argued.item core member).balanced)
          parts 0).trans level
  · intro written inside new turned plain
    cases turned with
    | kept => exact plain_callLexemes plain
    | filled argued _ =>
        exact Template.plain_weave framed fun core member l among =>
          plain l ((argued.isInfix core member).subset among)
  · intro written inside new turned named closed balanced rest
    cases turned with
    | kept => exact closed.lexemes_callLexemes ascii named rest
    | filled argued _ => exact Template.lexemes_weave framed argued.sealed rest
  · intro written inside new turned named
    cases turned with
    | kept =>
        obtain ⟨present, letters⟩ := isWordChar_of_spelled ascii named
        obtain ⟨c, w, rfl⟩ := List.exists_cons_of_ne_nil present
        exact ⟨c, _, flatMap_text_callLexemes _ _, .inl (letters c List.mem_cons_self)⟩
    | filled _ _ => exact Template.exists_cons_weave starts _

omit ascii sound in
theorem exists_turned {written : Text} {inside : List Lexeme} (closed : Sealed inside)
    (balanced : Balanced inside) :
    ∃ new, Turned arity parts written inside new := by
  obtain ⟨cores, argued⟩ := exists_argued closed balanced
  by_cases count : (cores.length : Int) = arity
  · exact ⟨_, .filled argued count⟩
  · exact ⟨_, .kept argued count⟩

omit ascii in
theorem Turned.fillExactly_eq {written : Text} {inside new : List Lexeme}
    (turned : Turned arity parts written inside new) : ∃ answer,
      parts.fillExactly arity (splitArguments (inside.flatMap Lexeme.text)) = .ok answer ∧
        answer.getD (written ++ '(' :: (inside.flatMap Lexeme.text ++ [')'])) =
          new.flatMap Lexeme.text := by
  cases turned with
  | kept argued count =>
      refine ⟨none, ?_, (flatMap_text_callLexemes written inside).symm⟩
      rw [Template.fillExactly, argued.splitArguments_eq, List.length_map, if_neg count]
  | @filled cores argued count =>
      simp only [Template.isSound, Bool.and_eq_true] at sound
      have filled : parts.fill (cores.map (List.flatMap Lexeme.text)) = _ :=
        Template.fillAs_weave (by rw [count]; exact sound.1.1.1) (by simp)
      refine ⟨some ((parts.weave cores).flatMap Lexeme.text), ?_, rfl⟩
      rw [Template.fillExactly, argued.splitArguments_eq, List.length_map, if_pos count, filled]
      rfl

end

/-! ### Calls that are left -/

theorem Recast.eq_of_kept {name : Text} {arity : Int} {front ls ms : List Lexeme}
    (recast : Recast name (Kept arity) front ls ms) : ms = ls := by
  induction recast with
  | done => rfl
  | keep _ _ ih => rw [ih]
  | call _ _ kept _ ihInner ih =>
      cases kept with
      | intro _ _ => rw [ihInner, ih]

theorem Argued.forall_recast {name : Text} {turns : Text → List Lexeme → List Lexeme → Prop}
    (ascii : IsAsciiWord name)
    {cores : List (List Lexeme)} {whole zs : List Lexeme} (argued : Argued cores whole)
    (recast : Recast name turns [] whole zs) : ∃ cores',
    List.Forall₂ (Recast name turns []) cores cores' := by
  rcases argued.split with ⟨rfl, -⟩ | ⟨-, listed, -⟩
  · exact ⟨[], .nil⟩
  · obtain ⟨cores', -, pairs⟩ := recast.exists_listed ascii listed argued.item
    exact ⟨cores', pairs⟩

theorem Recast.of_turned {function : Text} {arity : Int} {parts : Template}
    (ascii : IsAsciiWord function)
    (sound : parts.isSound arity = true) (silent : parts.isSilent function = true)
    {front ls ms : List Lexeme}
    (recast : Recast function (Turned arity parts) front ls ms) {early : List Lexeme}
    (follows : joinsName front = true → joinsName early = true) :
      Recast function (Kept arity) early ms ms := by
  have fair := fair_turned ascii sound
  induction recast generalizing early with
  | done => exact .done early
  | @keep front l ls ms none later ih =>
      refine .keep (later.startsNoCall fair ascii none follows) (ih ?_)
      rw [joinsName_append, joinsName_append]
      split
      · exact follows
      · exact id
  | @call front inner inside new ls ms written cut within turned later ihInner ih =>
      have inside' : Recast function (Kept arity) [] inside inside := ihInner id
      have balanced := within.balanced fair cut.balanced
      have rest (early : List Lexeme) : Recast function (Kept arity) early ms ms :=
        ih (by simp [joinsName_callLexemes])
      cases turned with
      | @kept cores argued count =>
          cases joins : joinsName early with
          | false => exact .call ⟨cut.named, joins, balanced⟩ inside' (.intro argued count) (rest _)
          | true =>
              exact .enclosed ascii ascii cut.named balanced (startsNoCall_of_joinsName joins _)
                inside' (rest _)
      | @filled cores argued count =>
          obtain ⟨cores', pairs⟩ := argued.forall_recast ascii inside'
          have same : List.Forall₂ (· = ·) cores' cores := pairs.flip.imp fun _ _ =>
            Recast.eq_of_kept
          rw [List.forall₂_eq_eq_eq] at same
          subst same
          have framed : parts.isFramed = true := by
            simp only [Template.isSound, Bool.and_eq_true] at sound
            exact sound.1.1.2
          exact .weave ascii pairs (fun core member => (argued.item core member).balanced) framed
            (Template.silent_of_isSilent silent) (rest _)

/-! ### Texts -/

theorem visit_argumentsAt {name s t : Text} (word : ∀ c ∈ name, isWordChar c = true)
    {visit : List Text → Except Fault Unit}
    (passed : replaceCallsM name (fun arguments => do visit arguments; return none) s = .ok t)
    {pos close : Nat}
    (call : IsCall name s pos close) : visit (argumentsAt name s (pos, close)) = .ok () := by
  have between : Between name s 0 := fun i k _ less => absurd less (Nat.not_lt_zero i)
  have run := replaceM_callsFrom_visit word visit 0 between
  rw [callsFrom_zero, ← replaceCallsM, passed, Nat.sub_zero, ← List.range_eq_range'] at run
  have each (listed : List (List Text))
      (all : (do forM listed visit; return s.drop 0) = Except.ok t) :
      ∀ arguments ∈ listed, visit arguments = .ok () := by
    induction listed with
    | nil => exact List.forall_mem_nil _
    | cons first listed ih =>
        rw [List.forM_cons] at all
        cases found : visit first with
        | error fault =>
            rw [found] at all
            cases all
        | ok =>
            rw [found] at all
            exact List.forall_mem_cons.mpr ⟨found, ih all⟩
  exact each _ run.symm _ (List.mem_map_of_mem ((mem_callsOf_iff word pos close).mpr call))

theorem replaceCallsM_of_kept {name : Text} (word : ∀ c ∈ name, isWordChar c = true) {arity : Int}
    {t : Text}
    (left : Recast name (Kept arity) [] (lexemes t) (lexemes t))
    {action : List Text → Except Fault (Option Text)}
    (unanswered : ∀ arguments, (arguments.length : Int) ≠ arity → action arguments = .ok none) :
    replaceCallsM name action t = .ok t := by
  have stays : (Calls.ofText name t).replaceM action = .ok ((lexemes t).flatMap Lexeme.text) := by
    refine left.replaceM (fun kept => ?_) (parsed_ofText word t)
    cases kept with
    | @intro cores argued count =>
        refine ⟨none, unanswered _ ?_, (flatMap_text_callLexemes _ _).symm⟩
        rwa [argued.splitArguments_eq, List.length_map]
  rwa [flatMap_text_lexemes] at stays

def refuse (arity : Int) (arguments : List Text) : Except Fault Unit :=
  if (arguments.length : Int) = arity then .error .undefinedRule else .ok ()

theorem refuse_eq_ok_iff {arity : Int} {arguments : List Text} :
    refuse arity arguments = .ok () ↔ (arguments.length : Int) ≠ arity := by
  rw [refuse]
  split
  · next count => exact iff_of_false nofun (not_not_intro count)
  · next other => exact iff_of_true rfl other

theorem replaceCallsM_refuse {name : Text} (word : ∀ c ∈ name, isWordChar c = true) {arity : Int}
    {t : Text}
    (left : Recast name (Kept arity) [] (lexemes t) (lexemes t)) :
    replaceCallsM name (fun arguments => do refuse arity arguments; return none) t = .ok t := by
  refine replaceCallsM_of_kept word left fun arguments other => ?_
  rw [refuse_eq_ok_iff.mpr other]
  rfl

theorem length_argumentsAt_ne_of_kept {name : Text} (word : ∀ c ∈ name, isWordChar c = true)
    {arity : Int} {t : Text}
    (left : Recast name (Kept arity) [] (lexemes t) (lexemes t)) {pos close : Nat}
    (call : IsCall name t pos close) :
    ((argumentsAt name t (pos, close)).length : Int) ≠ arity :=
  refuse_eq_ok_iff.mp (visit_argumentsAt word (replaceCallsM_refuse word left) call)

namespace Rule

def isSelfless : Rule → Bool
  | template _ function arity parts =>
    decide (IsAsciiWord function) && parts.isSound arity && parts.isSilent function
  | _ => true

theorem isSelfless_table : ∀ rule ∈ table, rule.isSelfless = true := by
  decide +kernel

theorem apply_template_of_recast {name function : Text} {arity : Int} {parts : Template}
    (ascii : IsAsciiWord function)
    (sound : parts.isSound arity = true) {s : Text} {ms : List Lexeme}
    (recast : Recast function (Turned arity parts) [] (lexemes s) ms) :
    (template name function arity parts).apply s = .ok (ms.flatMap Lexeme.text) :=
  recast.replaceM (fun turned => turned.fillExactly_eq sound)
    (parsed_ofText (fun c member => (ascii.2 c member).2) s)

theorem exists_apply_template {name function : Text} {arity : Int} {parts : Template}
    (ascii : IsAsciiWord function)
    (sound : parts.isSound arity = true) {s : Text}
    (plain : ∀ l ∈ lexemes s, l.isLineComment = false) :
    ∃ t, (template name function arity parts).apply s = .ok t ∧
      Recast function (Turned arity parts) [] (lexemes s) (lexemes t) := by
  have fair := fair_turned ascii sound
  have parsed := parsed_ofText (fun c member => (ascii.2 c member).2) s
  obtain ⟨ms, recast⟩ := parsed.exists_recast fair exists_turned rfl plain
  refine ⟨ms.flatMap Lexeme.text, apply_template_of_recast ascii sound recast, ?_⟩
  rwa [recast.lexemes_text fair plain]

section

variable {name function : Text} {arity : Int} {parts : Template}

/-- The rules of the table that write calls by templates do so in one pass: no call is left with the
number of arguments that the template takes, and a second pass changes nothing. -/
theorem apply_template_stable (member : template name function arity parts ∈ table) {s : Text}
    (plain : ∀ l ∈ lexemes s, l.isLineComment = false) :
    ∃ t, (template name function arity parts).apply s = .ok t ∧
      (∀ pos close, IsCall function t pos close → ((argumentsAt function t (pos, close)).length :
        Int) ≠ arity) ∧
      (template name function arity parts).apply t = .ok t := by
  have selfless := isSelfless_table _ member
  simp only [isSelfless, Bool.and_eq_true, decide_eq_true_eq] at selfless
  obtain ⟨⟨ascii, sound⟩, silent⟩ := selfless
  have word : ∀ c ∈ function, isWordChar c = true := fun c member => (ascii.2 c member).2
  obtain ⟨t, applied, recast⟩ := exists_apply_template ascii sound plain
  have left := recast.of_turned ascii sound silent id
  refine ⟨t, applied, fun pos close call => length_argumentsAt_ne_of_kept word left call, ?_⟩
  refine replaceCallsM_of_kept word left fun arguments other => ?_
  rw [Template.fillExactly, if_neg other]

/-- Calls of both kinds in each other, a call in a literal, and the end of a longer name. -/
theorem apply_template_stable_nested :
    let rule := template "if" "IF" 3 ["CASE WHEN ", .argument 0, " THEN ", .argument 1, " ELSE ",
      .argument 2, " END"]
    let s : Text := "if(IF(a, if(b, 'IF(1,2,3)', c )), IF( x , y,z), 0)xIF(1,2,3)"
    let t : Text :=
      "CASE WHEN IF(a, CASE WHEN b THEN 'IF(1,2,3)' ELSE c END) THEN CASE WHEN x THEN y ELSE z END ELSE 0 ENDxIF(1,2,3)"
    rule.apply s = .ok t ∧
      (∀ pos close, IsCall "IF" t pos close →
        ((argumentsAt "IF" t (pos, close)).length : Int) ≠ 3) ∧
      rule.apply t = .ok t := by
  intro rule s t
  have member : rule ∈ table := List.mem_of_getElem? (i := 30) rfl
  have applied : rule.apply s = .ok t := by decide +kernel
  obtain ⟨u, changed, calls, again⟩ := apply_template_stable member (s := s) (by decide +kernel)
  obtain rfl : t = u := Except.ok.inj (applied.symm.trans changed)
  exact ⟨applied, calls, again⟩

end

end Rule

end LiteSql
