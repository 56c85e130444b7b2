import LiteSql.Proofs.FilledCalls
import LiteSql.Proofs.Token

/-! Rules that may be applied in either order. A rule that puts calls in the place of calls keeps
the arguments around them apart, so the calls of another function are found with the same number of
arguments before it and after it, and each rule passes over what the other has written. -/

namespace LiteSql

/-! ### Calls of two functions -/

theorem callLexemes_name {v w : Text} (letters : ∀ c ∈ v, isWordChar c = true)
    (others : ∀ c ∈ w, isWordChar c = true)
    {inner inner' behind behind' : List Lexeme}
    (same : callLexemes v inner ++ behind = callLexemes w inner' ++ behind') : v = w := by
  have opened : isWordChar '(' = false := by decide
  induction v generalizing w with
  | nil =>
      cases w with
      | nil => rfl
      | cons c w =>
          cases (List.cons.inj same).1
          rw [others '(' List.mem_cons_self] at opened
          cases opened
  | cons c v ih =>
      cases w with
      | nil =>
          cases (List.cons.inj same).1
          rw [letters '(' List.mem_cons_self] at opened
          cases opened
      | cons d w =>
          obtain ⟨first, rest⟩ := List.cons.inj same
          cases first
          rw [ih (List.forall_mem_cons.mp letters).2 (List.forall_mem_cons.mp others).2 rest]

theorem startsNoCall_of_other {name other written : Text} (ascii : IsAsciiWord name)
    (word : IsAsciiWord other)
    (differ : name.map foldCase ≠ other.map foldCase) (named : spelled other written = true)
    (front inner rest : List Lexeme) : StartsNoCall name front
    (callLexemes written inner ++ rest) := by
  intro written' inner' behind cut call
  obtain rfl := callLexemes_name (isWordChar_of_spelled word named).2
    (isWordChar_of_spelled ascii call.named).2 cut
  exact differ (((spelled_iff_foldCase _ _).mp call.named).trans
    ((spelled_iff_foldCase _ _).mp named).symm)

/-! ### Pieces in the place of calls -/

/-- Every call is turned into one piece, with no blanks around it. -/
def Firm (name : Text) (turns : Text → List Lexeme → List Lexeme → Prop) : Prop :=
  ∀ {written : Text} {inside new : List Lexeme}, turns written inside new →
    spelled name written = true →
    Balanced inside → Item new ∧ Compact new

def Renames (name : Text) (turns : Text → List Lexeme → List Lexeme → Prop) : Prop :=
  ∀ {written : Text} {inside new : List Lexeme}, turns written inside new →
    spelled name written = true →
    Balanced inside → ∃ other word inner, IsAsciiWord other ∧ spelled other word = true ∧
      Balanced inner ∧
      new = callLexemes word inner

theorem Renames.firm {name : Text} {turns : Text → List Lexeme → List Lexeme → Prop}
    (renames : Renames name turns) :
    Firm name turns := by
  intro written inside new turned named balanced
  obtain ⟨other, word, inner, ascii, named', balanced', rfl⟩ := renames turned named balanced
  exact ⟨⟨balanced_callLexemes ascii named' balanced',
    undivided_callLexemes ascii named' balanced' []⟩, compact_callLexemes ascii named' inner⟩

theorem Item.undivided_behind {x : List Lexeme} (item : Item x) (front : List Lexeme) :
    Undivided front x := by
  intro y z cut level
  rw [levelAfter_append] at level
  obtain ⟨depth, -, level⟩ := Option.bind_eq_some_iff.mp level
  have balanced := item.balanced
  rw [Balanced, cut, levelAfter_append] at balanced
  obtain ⟨own, inside, -⟩ := Option.bind_eq_some_iff.mp balanced
  have shifted := levelAfter_add inside depth
  rw [Nat.zero_add, level, Option.some_inj] at shifted
  obtain rfl : own = 0 := by omega
  exact item.undivided y z cut inside

theorem undivided_append {front x y : List Lexeme} :
    Undivided front (x ++ y) ↔ Undivided front x ∧ Undivided (front ++ x) y := by
  constructor
  · intro whole
    constructor
    · rintro a b rfl
      exact whole a (b ++ y) (List.append_assoc _ _ _)
    · rintro a b rfl
      rw [List.append_assoc]
      exact whole (x ++ a) b (List.append_assoc _ _ _).symm
  · rintro ⟨first, second⟩ a b cut
    rcases List.append_eq_append_iff.mp cut with ⟨e, rfl, rest⟩ | ⟨e, rfl, rest⟩
    · rw [← List.append_assoc]
      exact second e b rest
    · cases e with
      | nil => simpa using second [] b (by simpa using rest.symm)
      | cons l e =>
          obtain ⟨rfl, -⟩ := List.cons.inj rest
          exact first a e rfl

theorem levelAfter_behind {x : List Lexeme} (balanced : Balanced x) (front : List Lexeme) :
    levelAfter 0 (front ++ x) = levelAfter 0 front := by
  rw [levelAfter_append]
  cases levelAfter 0 front with
  | none => rfl
  | some depth =>
      have level := balanced.levelAfter_append depth []
      rwa [List.append_nil] at level

theorem any_getLast?_append {x : List Lexeme} (filled : x.getLast?.any Lexeme.isBlank = false)
    (y : List Lexeme) :
    (x ++ y).getLast?.any Lexeme.isBlank = y.getLast?.any Lexeme.isBlank := by
  rw [List.getLast?_append]
  cases y.getLast? with
  | none => exact filled
  | some l => rfl

namespace Recast

variable {name : Text} {turns : Text → List Lexeme → List Lexeme → Prop} (fair : Fair name turns)
  (firm : Firm name turns) {front ls ms : List Lexeme}

include fair firm

theorem undivided (recast : Recast name turns front ls ms) {before after : List Lexeme}
    (level : levelAfter 0 before = levelAfter 0 after) (source : Undivided before ls) :
      Undivided after ms := by
  have same (x : List Lexeme) {before after : List Lexeme}
      (level : levelAfter 0 before = levelAfter 0 after) :
      levelAfter 0 (before ++ x) = levelAfter 0 (after ++ x) := by
    rw [LiteSql.levelAfter_append, LiteSql.levelAfter_append, level]
  induction recast generalizing before after with
  | done => exact fun a b cut => absurd cut (by simp)
  | @keep front l ls ms _ _ ih =>
      rw [← List.singleton_append, undivided_append] at source ⊢
      refine ⟨fun a b cut => ?_, ih (same [l] level) source.2⟩
      rw [← same a level]
      exact source.1 a b cut
  | call cut within turned _ _ ih =>
      have old := balanced_callLexemes fair.ascii cut.named cut.balanced
      have balanced := within.balanced fair cut.balanced
      obtain ⟨piece, -⟩ := firm turned cut.named balanced
      rw [undivided_append] at source ⊢
      refine ⟨piece.undivided_behind after, ih ?_ source.2⟩
      rw [levelAfter_behind old, levelAfter_behind piece.balanced, level]

theorem item (recast : Recast name turns front ls ms) (source : Item ls) : Item ms where
  balanced := recast.balanced fair source.balanced
  undivided := recast.undivided fair firm rfl source.undivided

theorem exists_filled (recast : Recast name turns front ls ms)
    (source : ∃ l ∈ ls, l.isBlank = false) :
    ∃ l ∈ ms, l.isBlank = false := by
  induction recast with
  | done => exact source
  | keep _ _ ih =>
      rw [List.exists_mem_cons_iff] at source ⊢
      exact source.imp id ih
  | call cut within turned _ _ _ =>
      obtain ⟨l, head, filled⟩ :=
        (firm turned cut.named (within.balanced fair cut.balanced)).2.first
      exact ⟨l, List.mem_append_left _ (List.mem_of_mem_head? head), filled⟩

theorem ne_nil (recast : Recast name turns front ls ms) (present : ls ≠ []) : ms ≠ [] := by
  cases recast with
  | done => exact absurd rfl present
  | keep _ _ => exact List.cons_ne_nil _ _
  | call cut within turned _ =>
      exact List.append_ne_nil_of_left_ne_nil (firm turned cut.named
        (within.balanced fair cut.balanced)).2.ne_nil _

theorem trimmed (recast : Recast name turns front ls ms) (source : Trimmed ls) : Trimmed ms := by
  constructor
  · cases recast with
    | done => exact source.first
    | keep _ _ => exact source.first
    | call cut within turned _ =>
        obtain ⟨l, head, filled⟩ :=
          (firm turned cut.named (within.balanced fair cut.balanced)).2.first
        rw [List.head?_append, head]
        exact filled
  · have last := source.last
    clear source
    induction recast with
    | done => exact last
    | @keep front l ls ms _ later ih =>
        rcases ls with _ | ⟨m, ls⟩
        · rwa [later.of_nil]
        · have filled := ih last
          rcases ms with _ | ⟨n, ms⟩
          · exact absurd rfl (later.ne_nil fair firm (List.cons_ne_nil m ls))
          · exact filled
    | @call front inner inside new ls ms written cut within turned _ _ ih =>
        obtain ⟨l, ends, filled⟩ :=
          (firm turned cut.named (within.balanced fair cut.balanced)).2.last
        rw [any_getLast?_append (by rw [getLast?_callLexemes]; decide)] at last
        rw [any_getLast?_append (by rw [ends]; exact filled)]
        exact ih last

theorem forall_trimmed {cores cores' : List (List Lexeme)}
    (pairs : List.Forall₂ (Recast name turns []) cores cores')
    (source : ∀ core ∈ cores, Item core ∧ Trimmed core) : ∀ core ∈ cores', Item core ∧
      Trimmed core := by
  induction pairs with
  | nil => exact source
  | cons turned _ ih =>
      rw [List.forall_mem_cons] at source ⊢
      exact ⟨⟨turned.item fair firm source.1.1, turned.trimmed fair firm source.1.2⟩, ih source.2⟩

end Recast

theorem Argued.exists_recast {name : Text} {turns : Text → List Lexeme → List Lexeme → Prop}
    (fair : Fair name turns)
    (firm : Firm name turns) {cores : List (List Lexeme)} {list zs : List Lexeme}
    (argued : Argued cores list)
    (recast : Recast name turns [] list zs) :
    ∃ cores', Argued cores' zs ∧ List.Forall₂ (Recast name turns []) cores cores' := by
  have closed := recast.sealed fair argued.closed
  rcases argued.split with ⟨rfl, blank⟩ | ⟨filled, listed, good⟩
  · rw [← List.append_nil list] at recast
    obtain ⟨rest, rfl, ended⟩ := recast.of_blanks fair.ascii blank
    obtain rfl := ended.of_nil
    exact ⟨[], ⟨closed, .inl ⟨rfl, by simpa using blank⟩⟩, .nil⟩
  · obtain ⟨cores', listed', pairs⟩ := recast.exists_listed fair.ascii listed argued.item
    exact ⟨cores', ⟨closed, .inr ⟨recast.exists_filled fair firm filled, listed',
      Recast.forall_trimmed fair firm pairs good⟩⟩, pairs⟩

/-! ### Either order -/

/-- Lexemes that two rules turn into the same whichever comes first. -/
def Meets (F : Text) (A : Text → List Lexeme → List Lexeme → Prop) (G : Text)
    (B : Text → List Lexeme → List Lexeme → Prop) (ls : List Lexeme) : Prop :=
  ∀ {front ms ns : List Lexeme}, Recast F A front ls ms → Recast G B front ls ns →
    ∃ ks, Recast G B front ms ks ∧ Recast F A front ns ks

/-- A rule that writes calls for calls, and lets another rule for other calls pass over them with
the arguments turned. -/
structure Admits (F : Text) (A : Text → List Lexeme → List Lexeme → Prop) (G : Text)
    (B : Text → List Lexeme → List Lexeme → Prop) : Prop where
  fair : Fair F A
  renames : Renames F A
  differ : G.map foldCase ≠ F.map foldCase
  passes {written : Text} {inside new zs : List Lexeme} : A written inside new →
    spelled F written = true →
    Balanced inside → Recast G B [] inside zs → ∃ new', A written zs new' ∧
      ∀ {front ls ms : List Lexeme},
      Recast G B (front ++ new) ls ms → Recast G B front (new ++ ls) (new' ++ ms)

section

variable {F G : Text} {A B : Text → List Lexeme → List Lexeme → Prop}

theorem Meets.symm {ls : List Lexeme} (meets : Meets F A G B ls) : Meets G B F A ls := by
  intro front ms ns first second
  obtain ⟨ks, one, other⟩ := meets second first
  exact ⟨ks, other, one⟩

theorem Meets.of_call (admits : Admits F A G B) (fair : Fair G B) {front inner rest : List Lexeme}
    {written : Text} (cut : CallCut F front written inner) (within : Meets F A G B inner)
    (behind : Meets F A G B rest)
    {ms ns : List Lexeme} (first : Recast F A front (callLexemes written inner ++ rest) ms)
    (second : Recast G B front (callLexemes written inner ++ rest) ns) :
    ∃ ks, Recast G B front ms ks ∧ Recast F A front ns ks := by
  obtain ⟨inF, new, ms, rfl, turnedF, made, laterF⟩ := first.of_callCut cut
  obtain ⟨inG, ns, rfl, turnedG, laterG⟩ :=
    second.exists_enclosed fair.ascii admits.fair.ascii cut.named cut.balanced
    (startsNoCall_of_other fair.ascii admits.fair.ascii admits.differ cut.named front inner rest)
  obtain ⟨inside, insideG, insideF⟩ := within turnedF turnedG
  obtain ⟨ks, restG, restF⟩ := behind laterF laterG
  have balanced := turnedF.balanced admits.fair cut.balanced
  obtain ⟨new', made', passed⟩ := admits.passes made cut.named balanced insideG
  obtain ⟨-, _, _, -, -, -, rfl⟩ := admits.renames made cut.named balanced
  refine ⟨new' ++ ks, passed (restG.congr_front ?_),
    .call ⟨cut.named, cut.separate, turnedG.balanced fair cut.balanced⟩
    insideF made' (restF.congr_front ?_)⟩
  all_goals rw [joinsName_callLexemes, joinsName_callLexemes]

variable (admits : Admits F A G B) (admits' : Admits G B F A)

include admits admits'

/-- The diamond: two rules that admit each other meet. -/
theorem meets (ls : List Lexeme) : Meets F A G B ls := by
  -- a place is passed by both rules, or is a call of one, whose arguments are shorter
  induction size : ls.length using Nat.strongRecOn generalizing ls with
  | ind length ih =>
      subst size
      intro front ms ns first second
      have shorter {written : Text} {inner rest : List Lexeme}
          (whole : ls = callLexemes written inner ++ rest) :
          Meets F A G B inner ∧ Meets F A G B rest := by
        have length : ls.length = written.length + (inner.length + rest.length + 2) := by
          simp only [whole, callLexemes, List.length_append, List.length_map, List.length_cons,
            List.length_nil]
          omega
        exact ⟨ih _ (by omega) inner rfl, ih _ (by omega) rest rfl⟩
      by_cases callF : ∃ written inner rest, ls = callLexemes written inner ++ rest ∧
        CallCut F front written inner
      · obtain ⟨written, inner, rest, whole, cut⟩ := callF
        obtain ⟨within, behind⟩ := shorter whole
        rw [whole] at first second
        exact Meets.of_call admits admits'.fair cut within behind first second
      by_cases callG : ∃ written inner rest, ls = callLexemes written inner ++ rest ∧
        CallCut G front written inner
      · obtain ⟨written, inner, rest, whole, cut⟩ := callG
        obtain ⟨within, behind⟩ := shorter whole
        rw [whole] at first second
        obtain ⟨ks, one, other⟩ := Meets.of_call admits' admits.fair cut within.symm behind.symm
          second first
        exact ⟨ks, other, one⟩
      cases ls with
      | nil =>
          rw [first.of_nil, second.of_nil]
          exact ⟨[], .done front, .done front⟩
      | cons l ls =>
          have noneF : StartsNoCall F front (l :: ls) := fun written inner rest whole cut =>
            callF ⟨written, inner, rest, whole, cut⟩
          have noneG : StartsNoCall G front (l :: ls) := fun written inner rest whole cut =>
            callG ⟨written, inner, rest, whole, cut⟩
          obtain ⟨ms, rfl, laterF⟩ := first.of_startsNoCall noneF
          obtain ⟨ns, rfl, laterG⟩ := second.of_startsNoCall noneG
          obtain ⟨ks, restG, restF⟩ := ih ls.length (Nat.lt_succ_self _) ls rfl laterF laterG
          exact ⟨l :: ks, .keep (laterF.startsNoCall admits.fair admits'.fair.ascii noneG id) restG,
            .keep (laterG.startsNoCall admits'.fair admits.fair.ascii noneF id) restF⟩

end

/-! ### Templates that write calls -/

def Template.isCalling (parts : Template) : Bool :=
  match parts with
  | .text t :: rest =>
    t.getLast? == some '(' && decide (IsAsciiWord t.dropLast) && rest.getLast? ==
      some (.text ")") &&
      decide (levelAfter 0 (Template.weave [] rest.dropLast) = some 0)
  | _ => false

theorem Template.weave_append (cores : List (List Lexeme)) (parts more : Template) :
    weave cores (parts ++ more) = weave cores parts ++ weave cores more := by
  induction parts with
  | nil => rfl
  | cons part parts ih => cases part <;> simp [weave, ih]

theorem Template.exists_callLexemes_weave {parts : Template} (calling : parts.isCalling = true)
    {cores : List (List Lexeme)} (each : ∀ core ∈ cores, Balanced core) :
    ∃ word inner, IsAsciiWord word ∧ Balanced inner ∧ parts.weave cores =
      callLexemes word inner := by
  match parts, calling with
  | .text t :: rest, calling =>
      simp only [isCalling, Bool.and_eq_true, beq_iff_eq, decide_eq_true_eq] at calling
      obtain ⟨⟨⟨opened, ascii⟩, closed⟩, level⟩ := calling
      obtain ⟨word, rfl⟩ := List.getLast?_eq_some_iff.mp opened
      obtain ⟨inner, rfl⟩ := List.getLast?_eq_some_iff.mp closed
      rw [List.dropLast_concat] at ascii level
      refine ⟨word, weave cores inner, ascii, (levelAfter_weave each inner 0).trans level, ?_⟩
      have read : lexemes (word ++ ['(']) = word.map .code ++ [.code '('] :=
        lexemes_append_of_isPlain word ['('] fun c member =>
          isPlain_of_isNeutral (ScanState.isNeutral_of_class (by decide) (ascii.2 c member).2)
      have close : lexemes [')'] = [.code ')'] := rfl
      simp [weave, weave_append, read, close, callLexemes]

theorem renames_turned {function : Text} {arity : Int} {parts : Template}
    (ascii : IsAsciiWord function)
    (calling : parts.isCalling = true) : Renames function (Turned arity parts) := by
  intro written inside new turned named balanced
  cases turned with
  | kept _ _ => exact ⟨function, written, inside, ascii, named, balanced, rfl⟩
  | filled argued _ =>
      obtain ⟨word, inner, ascii', balanced', whole⟩ :=
        Template.exists_callLexemes_weave calling fun core member =>
          (argued.item core member).balanced
      exact ⟨word, word, inner, ascii', (spelled_iff_foldCase word word).mpr rfl, balanced', whole⟩

theorem Turned.exists_recast {function other : Text} {arity : Int} {parts : Template}
    (word : IsAsciiWord function)
    (framed : parts.isFramed = true) (silent : parts.isSilent other = true)
    (differ : other.map foldCase ≠ function.map foldCase)
    {turns : Text → List Lexeme → List Lexeme → Prop} (fair : Fair other turns)
    (renames : Renames other turns)
    {written : Text} {inside new zs : List Lexeme} (turned : Turned arity parts written inside new)
    (named : spelled function written = true) (balanced : Balanced inside)
    (recast : Recast other turns [] inside zs) :
    ∃ new', Turned arity parts written zs new' ∧ ∀ {front ls ms : List Lexeme},
      Recast other turns (front ++ new) ls ms → Recast other turns front (new ++ ls)
        (new' ++ ms) := by
  obtain ascii := fair.ascii
  cases turned with
  | kept argued count =>
      obtain ⟨cores', argued', pairs⟩ := argued.exists_recast fair renames.firm recast
      refine ⟨callLexemes written zs, .kept argued' (by rwa [← pairs.length_eq]), fun later => ?_⟩
      exact .enclosed ascii word named balanced
        (startsNoCall_of_other ascii word differ named _ _ _) recast later
  | filled argued count =>
      obtain ⟨cores', argued', pairs⟩ := argued.exists_recast fair renames.firm recast
      refine ⟨parts.weave cores', .filled argued' (by rwa [← pairs.length_eq]), fun later => ?_⟩
      exact .weave ascii pairs (fun core member => (argued.item core member).balanced) framed
        (Template.silent_of_isSilent silent) later

theorem admits_turned {function other : Text} {arity : Int} {parts : Template}
    (ascii : IsAsciiWord function)
    (sound : parts.isSound arity = true) (calling : parts.isCalling = true)
    (silent : parts.isSilent other = true)
    (differ : other.map foldCase ≠ function.map foldCase)
    {turns : Text → List Lexeme → List Lexeme → Prop}
    (fair : Fair other turns) (renames : Renames other turns) :
      Admits function (Turned arity parts) other turns where
  fair := fair_turned ascii sound
  renames := renames_turned ascii calling
  differ := differ
  passes turned named balanced recast := by
    simp only [Template.isSound, Bool.and_eq_true] at sound
    exact turned.exists_recast ascii sound.1.1.2 silent differ fair renames named balanced recast

namespace Rule

/-- The rules of the table that only give a function another name and arrange its arguments. -/
def renamings : List Rule :=
  table.filter fun rule => [("lcase" : Text), "ucase", "char_length", "locate",
    "ifnull"].contains rule.name

def isPassedBy : (rule other : Rule) → Bool
  | template _ function arity parts, template _ other _ _ =>
    decide (IsAsciiWord function) && parts.isSound arity && parts.isCalling &&
      parts.isSilent other &&
      other.map foldCase != function.map foldCase
  | _, _ => false

theorem isPassedBy_renamings : ∀ rule ∈ renamings, ∀ other ∈ renamings, rule.name ≠ other.name →
    rule.isPassedBy other = true := by
  decide +kernel

/-- Renamings commute. -/
theorem apply_renamings_comm {first second : Rule} (member : first ∈ renamings)
    (member' : second ∈ renamings)
    (distinct : first.name ≠ second.name) {s : Text}
    (plain : ∀ l ∈ lexemes s, l.isLineComment = false) :
    ∃ t, (first.apply s >>= second.apply) = .ok t ∧ (second.apply s >>= first.apply) = .ok t := by
  have passed := isPassedBy_renamings first member second member' distinct
  have passed' := isPassedBy_renamings second member' first member distinct.symm
  match first, second, passed, passed' with
  | template one F a p, template other G b q, passed, passed' =>
      simp only [isPassedBy, Bool.and_eq_true, decide_eq_true_eq, bne_iff_ne] at passed passed'
      obtain ⟨⟨⟨⟨asciiF, soundF⟩, callingF⟩, silentF⟩, differ⟩ := passed
      obtain ⟨⟨⟨⟨asciiG, soundG⟩, callingG⟩, silentG⟩, differ'⟩ := passed'
      have admits : Admits F (Turned a p) G (Turned b q) :=
        admits_turned asciiF soundF callingF silentF differ
        (fair_turned asciiG soundG) (renames_turned asciiG callingG)
      have admits' : Admits G (Turned b q) F (Turned a p) :=
        admits_turned asciiG soundG callingG silentG differ'
        (fair_turned asciiF soundF) (renames_turned asciiF callingF)
      obtain ⟨t, appliedF, recastF⟩ : ∃ t, (template one F a p).apply s = .ok t ∧ _ :=
        exists_apply_template asciiF soundF plain
      obtain ⟨u, appliedG, recastG⟩ : ∃ u, (template other G b q).apply s = .ok u ∧ _ :=
        exists_apply_template asciiG soundG plain
      obtain ⟨ks, afterF, afterG⟩ := meets admits admits' (lexemes s) recastF recastG
      have appliedG' : (template other G b q).apply t = _ :=
        apply_template_of_recast asciiG soundG afterF
      have appliedF' : (template one F a p).apply u = _ :=
        apply_template_of_recast asciiF soundF afterG
      refine ⟨ks.flatMap Lexeme.text, ?_, ?_⟩
      · rw [appliedF]
        exact appliedG'
      · rw [appliedG]
        exact appliedF'

/-- Calls of both functions in each other, some with another number of arguments, and one in a
literal. -/
theorem apply_renamings_comm_nested :
    let first := template "locate" "LOCATE" 2 ["INSTR(", .argument 1, ", ", .argument 0, ")"]
    let second := template "lcase" "LCASE" 1 ["LOWER(", .argument 0, ")"]
    let s : Text := "LOCATE( lcase(a ,LOCATE(b, LCASE( c ))),Lcase( LOCATE('LCASE(d)', e)) )"
    let t : Text := "INSTR(LOWER(INSTR(e, 'LCASE(d)')), lcase(a ,INSTR(LOWER(c), b)))"
    (first.apply s >>= second.apply) = .ok t ∧ (second.apply s >>= first.apply) = .ok t := by
  intro first second s t
  have member : first ∈ renamings :=
    List.mem_filter.mpr ⟨List.mem_of_getElem? (i := 5) rfl, by decide⟩
  have member' : second ∈ renamings :=
    List.mem_filter.mpr ⟨List.mem_of_getElem? (i := 2) rfl, by decide⟩
  obtain ⟨u, one, other⟩ := apply_renamings_comm member member' (by decide) (s := s)
    (by decide +kernel)
  have applied : (first.apply s >>= second.apply) = .ok t := by decide +kernel
  obtain rfl : t = u := Except.ok.inj (applied.symm.trans one)
  exact ⟨one, other⟩

end Rule

end LiteSql
