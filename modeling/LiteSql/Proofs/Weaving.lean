import LiteSql.Proofs.NeatList
import LiteSql.Proofs.Recast
import LiteSql.Proofs.TemplateCall

/-! Arguments and templates on lexemes. Arguments are turned one by one where the list they stand in
is, and a filled template is turned by turning what has been filled in. -/

namespace LiteSql

/-! ### Arguments -/

/-- Lexemes with the given arguments in them, each without blanks at its ends. -/
structure Argued (cores : List (List Lexeme)) (whole : List Lexeme) : Prop where
  closed : Sealed whole
  split : cores = [] ∧ (∀ l ∈ whole, l.isBlank = true) ∨
    (∃ l ∈ whole, l.isBlank = false) ∧ Listed cores whole ∧ ∀ core ∈ cores, Item core ∧ Trimmed core

theorem exists_listed_trimmed {ls : List Lexeme} (pieces : Pieces ls) :
    ∃ cores, Listed cores ls ∧ ∀ core ∈ cores, Item core ∧ Trimmed core := by
  have core : ∀ {x : List Lexeme}, Item x → ∃ core, Padding core x ∧ Item core ∧ Trimmed core := by
    intro x item
    obtain ⟨core, padding, trimmed⟩ := exists_trimmed x
    exact ⟨core, padding, item.congr padding.filled_eq.symm, trimmed⟩
  induction pieces with
  | last item =>
      obtain ⟨core, padding, good⟩ := core item
      exact ⟨[core], .last padding, by simpa using good⟩
  | comma item _ ih =>
      obtain ⟨core, padding, good⟩ := core item
      obtain ⟨cores, listed, others⟩ := ih
      exact ⟨core :: cores, .comma padding listed, List.forall_mem_cons.mpr ⟨good, others⟩⟩

theorem exists_argued {whole : List Lexeme} (closed : Sealed whole) (balanced : Balanced whole) :
    ∃ cores, Argued cores whole := by
  by_cases blank : ∀ l ∈ whole, l.isBlank = true
  · exact ⟨[], closed, .inl ⟨rfl, blank⟩⟩
  · obtain ⟨cores, listed, good⟩ := exists_listed_trimmed (pieces_of_balanced balanced)
    refine ⟨cores, closed, .inr ⟨?_, listed, good⟩⟩
    simpa using blank

theorem Sealed.of_isInfix {ls ms : List Lexeme} (closed : Sealed ls) (part : ms <:+: ls) :
    Sealed ms := by
  obtain ⟨front, back, rfl⟩ := part
  exact closed.left.right

namespace Argued

variable {cores : List (List Lexeme)} {whole : List Lexeme} (argued : Argued cores whole)

include argued

theorem isInfix : ∀ core ∈ cores, core <:+: whole := by
  intro core member
  rcases argued.split with ⟨rfl, -⟩ | ⟨-, listed, -⟩
  · cases member
  · exact listed.isInfix member

theorem sealed : ∀ core ∈ cores, Sealed core := fun core member =>
    argued.closed.of_isInfix (argued.isInfix core member)

theorem item : ∀ core ∈ cores, Item core := by
  intro core member
  rcases argued.split with ⟨rfl, -⟩ | ⟨-, -, good⟩
  · cases member
  · exact (good core member).1

theorem splitArguments_eq : splitArguments (whole.flatMap Lexeme.text) =
    cores.map (List.flatMap Lexeme.text) := by
  rcases argued.split with ⟨rfl, blank⟩ | ⟨⟨l, member, filled⟩, listed, good⟩
  · have all : (whole.flatMap Lexeme.text).all isBlank = true :=
      List.all_eq_true.mpr (isBlank_of_mem_flatMap_text blank)
    rw [splitArguments, if_pos all]
    rfl
  · have some : ¬ (whole.flatMap Lexeme.text).all isBlank = true := by
      intro all
      have read := lexemes_of_isBlank (List.all_eq_true.mp all)
      rw [argued.closed.lexemes_text] at read
      rw [read] at member
      obtain ⟨c, among, rfl⟩ := List.mem_map.mp member
      have blank : isBlank c = true := List.all_eq_true.mp all c among
      exact absurd (show isBlank c = false from filled) (by simp [blank])
    rw [splitArguments, if_neg some, argued.closed.lexemes_text,
      listed.map_trim_piecesAt argued.item]
    apply List.map_congr_left
    intro core among
    exact trim_text_of_trimmed (argued.sealed core among) (good core among).2

end Argued

/-! ### Turned arguments -/

theorem joinsName_blanks {blanks : List Lexeme} (blank : ∀ l ∈ blanks, l.isBlank = true) :
    joinsName blanks = false := by
  rcases List.eq_nil_or_concat blanks with rfl | ⟨front, l, rfl⟩
  · rfl
  · have last := blank l (by simp)
    cases l with
    | literal kind text => cases last
    | code c =>
        have space : isBlank c = true := last
        have word := isWordChar_of_isBlank space
        rw [isWordChar, Bool.or_eq_false_iff] at word
        rw [List.concat_eq_append, joinsName_append_code, continuesName, word.1, word.2]
        simp only [Bool.false_or, Bool.or_eq_false_iff, beq_eq_false_iff_ne]
        constructor <;> rintro rfl <;> cases space

theorem stops_blanks {blanks : List Lexeme} (blank : ∀ l ∈ blanks, l.isBlank = true) :
    Stops blanks := by
  rintro c more rfl
  have first : isBlank c = true := blank _ List.mem_cons_self
  refine ⟨isWordChar_of_isBlank first, ?_⟩
  rintro rfl
  cases first

section

variable {name : Text} {turns : Text → List Lexeme → List Lexeme → Prop} (ascii : IsAsciiWord name)

include ascii

theorem Recast.exists_padding {core padded zs : List Lexeme} (balanced : Balanced core)
    (padding : Padding core padded)
    (recast : Recast name turns [] padded zs) : ∃ core', Padding core' zs ∧
      Recast name turns [] core core' := by
  obtain ⟨before, after, rfl, leading, trailing⟩ := padding
  obtain ⟨_, rfl, behind⟩ := recast.of_blanks ascii leading
  have reset : Recast name turns [] (core ++ after) _ :=
    behind.congr_front (by rw [List.nil_append, joinsName_blanks leading]; rfl)
  obtain ⟨core', tail, rfl, turned, last⟩ :=
    reset.exists_append ascii balanced (stops_blanks trailing)
  rw [← List.append_nil after] at last
  obtain ⟨none, rfl, ended⟩ := last.of_blanks ascii trailing
  obtain rfl := ended.of_nil
  exact ⟨core', ⟨before, after, by simp, leading, trailing⟩, turned⟩

theorem Recast.exists_listed {cores : List (List Lexeme)} {whole zs : List Lexeme}
    (listed : Listed cores whole)
    (items : ∀ core ∈ cores, Item core) (recast : Recast name turns [] whole zs) :
    ∃ cores', Listed cores' zs ∧ List.Forall₂ (Recast name turns []) cores cores' := by
  induction listed generalizing zs with
  | last padding =>
      obtain ⟨core', around, turned⟩ := recast.exists_padding ascii
        (items _ List.mem_cons_self).balanced padding
      exact ⟨[core'], .last around, .cons turned .nil⟩
  | @comma core x xs cores padding _ ih =>
      obtain ⟨item, others⟩ := List.forall_mem_cons.mp items
      obtain ⟨y, z, rfl, first, second⟩ := recast.exists_append ascii (padding.item item).balanced
        (stops_code (by decide) (by decide) xs)
      obtain ⟨rest, rfl, later⟩ := second.of_sign ascii (by rintro d ⟨⟩; decide)
      have reset : Recast name turns [] xs rest :=
        later.congr_front (by rw [joinsName_append_code]; decide)
      obtain ⟨core', around, turned⟩ := first.exists_padding ascii item.balanced padding
      obtain ⟨cores', listed, pairs⟩ := ih others reset
      exact ⟨core' :: cores', .comma around listed, .cons turned pairs⟩

end

/-! ### Texts without calls -/

/-- No call of a function starts in a text, whatever stands around it: neither a whole name with its
parenthesis nor the start of a name at the end. -/
def Silent (name t : Text) : Prop :=
  Uncalling name t ∧ ∀ pos < t.length, t.length - pos ≤ name.length →
    startsIgnoringCase (name.take (t.length - pos)) (t.drop pos) = false

instance (name t : Text) : Decidable (Silent name t) :=
  inferInstanceAs (Decidable (Uncalling name t ∧ ∀ pos < t.length, t.length - pos ≤ name.length →
    startsIgnoringCase (name.take (t.length - pos)) (t.drop pos) = false))

theorem startsIgnoringCase_prefix {name v w : Text}
    (starts : startsIgnoringCase name (v ++ w) = true) :
    startsIgnoringCase (name.take v.length) v = true := by
  induction v generalizing name with
  | nil => rfl
  | cons c v ih =>
      cases name with
      | nil => rfl
      | cons d name =>
          rw [List.cons_append, startsIgnoringCase, Bool.and_eq_true] at starts
          rw [List.length_cons, List.take_succ_cons, startsIgnoringCase, starts.1, ih starts.2]
          rfl

section

variable {name t : Text} (silent : Silent name t)

include silent

theorem Silent.startsNoCall {a b : List Lexeme} (read : lexemes t = a ++ b) (present : b ≠ [])
    (front rest : List Lexeme) : StartsNoCall name (front ++ a) (b ++ rest) := by
  intro written inner behind cut call
  obtain ⟨starts, length⟩ := (spelled_iff name written).mp call.named
  have text : t = a.flatMap Lexeme.text ++ b.flatMap Lexeme.text := (lexemes_of_append read).1
  have place : t.drop (a.flatMap Lexeme.text).length = b.flatMap Lexeme.text := by
    rw [text, List.drop_left]
  have before : t.take (a.flatMap Lexeme.text).length = a.flatMap Lexeme.text := by
    rw [text, List.take_left]
  have filled : b.flatMap Lexeme.text ≠ [] := by
    obtain ⟨l, b, rfl⟩ := List.exists_cons_of_ne_nil present
    have some := text_ne_nil_of_mem_lexemes t l (by rw [read]; simp)
    simp [some]
  have inside : (a.flatMap Lexeme.text).length < t.length := by
    rw [text, List.length_append]
    exact Nat.lt_add_of_pos_right (List.length_pos_of_ne_nil filled)
  have regroup : callLexemes written inner ++ behind =
      (written ++ ['(']).map .code ++ (inner ++ .code ')' :: behind) := by
    simp [callLexemes]
  have opened : ∀ more, b ≠ (written ++ ['(']).map .code ++ more := by
    rintro more rfl
    rw [List.flatMap_append, flatMap_text_map_code, List.append_assoc] at place text
    have named : startsIgnoringCase name (t.drop (a.flatMap Lexeme.text).length) = true := by
      rw [place, ← startsIgnoringCase_take _ _ written.length (Nat.le_of_eq length.symm),
        List.take_left]
      exact starts
    have opening : t[(a.flatMap Lexeme.text).length + name.length]? = some '(' := by
      rw [text, List.getElem?_append_right (by omega), ← length, Nat.add_sub_cancel_left,
        List.getElem?_append_right (by omega), Nat.sub_self]
      rfl
    have joins := silent.1 _ inside named opening
    rw [before] at joins
    have separate : joinsName (front ++ a) = false := call.separate
    rw [joinsName_append] at separate
    split at separate
    · next empty =>
      rw [empty] at joins
      cases joins
    · rw [joinsName, joins] at separate
      cases separate
  rw [regroup] at cut
  rcases List.append_eq_append_iff.mp cut with ⟨extra, whole, -⟩ | ⟨more, whole, -⟩
  · obtain ⟨v, u, letters, rfl, -⟩ := List.map_eq_append_iff.mp whole
    rw [flatMap_text_map_code] at place text
    rcases List.eq_nil_or_concat u with rfl | ⟨u, last, rfl⟩
    · rw [List.append_nil] at letters
      exact opened [] (by rw [letters, List.append_nil])
    · rw [List.concat_eq_append, ← List.append_assoc] at letters
      obtain ⟨rfl, -⟩ := List.append_inj' letters rfl
      have short : t.length - (a.flatMap Lexeme.text).length = v.length := by
        rw [text, List.length_append, Nat.add_sub_cancel_left]
      have begun := silent.2 _ inside (by rw [short, ← length, List.length_append]; omega)
      rw [short, place, startsIgnoringCase_prefix starts] at begun
      cases begun
  · exact opened more whole

theorem Recast.keep_text {turns : Text → List Lexeme → List Lexeme → Prop}
    {front rest zs : List Lexeme}
    (later : Recast name turns (front ++ lexemes t) rest zs) :
    Recast name turns front (lexemes t ++ rest) (lexemes t ++ zs) := by
  have behind (b : List Lexeme) : ∀ a, lexemes t = a ++ b →
      Recast name turns (front ++ a) (b ++ rest) (b ++ zs) := by
    induction b with
    | nil =>
        intro a read
        rw [List.append_nil] at read
        rw [← read]
        exact later
    | cons l b ih =>
        intro a read
        have next := ih (a ++ [l]) (by rw [read, List.append_assoc]; rfl)
        rw [← List.append_assoc] at next
        exact .keep (silent.startsNoCall read (List.cons_ne_nil l b) front rest) next
  simpa using behind (lexemes t) [] rfl

end

/-! ### Filled templates -/

namespace Template

def weave (cores : List (List Lexeme)) : Template → List Lexeme
  | [] => []
  | .text t :: rest => lexemes t ++ weave cores rest
  | .argument index :: rest => cores[index]?.getD [] ++ weave cores rest
  | .next :: rest | .named _ :: rest | .broken _ :: rest => weave cores rest

/-- Whether a template starts and ends with texts, and its arguments can be told from the texts
around them. -/
def isFramed : Template → Bool
  | [.text t] => decide (IsClosed t)
  | .text t :: .argument _ :: .text u :: rest =>
    decide (IsLead t) && decide (IsFollow u) && isFramed (.text u :: rest)
  | _ => false

theorem fillAs_weave {parts : Template} {cores : List (List Lexeme)}
    (fitting : parts.fits cores.length = true)
    {numbering : Numbering} (manual : ∀ next, numbering ≠ .automatic next) :
    fillAs (cores.map (List.flatMap Lexeme.text)) numbering parts =
      .ok ((weave cores parts).flatMap Lexeme.text) := by
  induction parts generalizing numbering with
  | nil => cases numbering <;> rfl
  | cons part rest ih =>
      rw [fits, List.all_cons, Bool.and_eq_true] at fitting
      cases part with
      | text t =>
          have others := ih fitting.2 manual
          rw [weave, List.flatMap_append, flatMap_text_lexemes]
          cases numbering <;> rw [fillAs, others] <;> rfl
      | argument index =>
          have inside : index < cores.length := by simpa using fitting.1
          have found : (cores.map (List.flatMap Lexeme.text))[index]? =
              some (cores[index].flatMap Lexeme.text) := by
            simp [inside]
          rw [fillAs_argument_cons manual found (ih fitting.2 (by simp)), weave,
            List.flatMap_append, List.getElem?_eq_getElem inside, Option.getD_some]
      | next => cases fitting.1
      | named name => cases fitting.1
      | broken fault => cases fitting.1

section

variable {cores : List (List Lexeme)}

theorem forall_getD {holds : List Lexeme → Prop} (each : ∀ core ∈ cores, holds core)
    (empty : holds []) (index : Nat) :
    holds (cores[index]?.getD []) := by
  cases found : cores[index]? with
  | none => exact empty
  | some core => exact each core (List.mem_of_getElem? found)

theorem levelAfter_weave (each : ∀ core ∈ cores, Balanced core) (parts : Template) (depth : Nat) :
    levelAfter depth (weave cores parts) = levelAfter depth (weave [] parts) := by
  induction parts generalizing depth with
  | nil => rfl
  | cons part rest ih =>
      cases part with
      | text t =>
          rw [weave, weave, levelAfter_append, levelAfter_append]
          congr 1
          funext level
          exact ih level
      | argument index =>
          rw [weave, (forall_getD each rfl index).levelAfter_append, ih]
          rfl
      | next => exact ih depth
      | named name => exact ih depth
      | broken fault => exact ih depth

theorem startsNeutral_weave {u : Text} (follow : IsFollow u) (more : Template) (rest : Text) :
    StartsNeutral ((weave cores (.text u :: more)).flatMap Lexeme.text ++ rest) := by
  rw [weave, List.flatMap_append, flatMap_text_lexemes, List.append_assoc]
  obtain ⟨c, s, whole, -, sign⟩ := follow.exists_cons
    ((weave cores more).flatMap Lexeme.text ++ rest)
  rw [whole]
  rcases sign with rfl | rfl | rfl <;> rfl

theorem stops_weave {u : Text} (follow : IsFollow u) {more : Template} {rest : List Lexeme} :
    Stops (weave cores (.text u :: more) ++ rest) := by
  obtain ⟨c, s, whole, -, sign⟩ := follow.exists_cons []
  obtain rfl : u = c :: s := by rw [← whole, List.append_nil]
  rw [weave]
  rcases sign with rfl | rfl | rfl
  all_goals
    rw [lexemes_code _ s rfl]
    exact stops_code (by decide) (by decide) _

theorem lexemes_weave {parts : Template} (framed : parts.isFramed = true)
    (each : ∀ core ∈ cores, Sealed core)
    (more : Text) :
    lexemes ((weave cores parts).flatMap Lexeme.text ++ more) =
      weave cores parts ++ lexemes more := by
  fun_induction isFramed parts with
  | case1 t =>
      rw [weave, weave, List.append_nil, flatMap_text_lexemes]
      exact (of_decide_eq_true framed).lexemes_append more
  | case2 t index u rest ih =>
      simp only [Bool.and_eq_true, decide_eq_true_eq] at framed
      obtain ⟨⟨lead, follow⟩, later⟩ := framed
      rw [weave, weave, List.flatMap_append, List.flatMap_append, flatMap_text_lexemes,
        List.append_assoc, List.append_assoc, lead.lexemes_append,
        (forall_getD each Sealed.nil index).read _ (startsNeutral_weave follow rest more), ih later,
        List.append_assoc, List.append_assoc]
  | case3 => cases framed

theorem plain_weave {parts : Template} (framed : parts.isFramed = true)
    (each : ∀ core ∈ cores, ∀ l ∈ core, l.isLineComment = false) :
    ∀ l ∈ weave cores parts, l.isLineComment = false := by
  fun_induction isFramed parts with
  | case1 t =>
      rw [weave, weave, List.append_nil]
      exact (of_decide_eq_true framed).2
  | case2 t index u rest ih =>
      simp only [Bool.and_eq_true, decide_eq_true_eq] at framed
      rw [weave, weave, List.forall_mem_append, List.forall_mem_append]
      exact ⟨framed.1.1.2, forall_getD each (List.forall_mem_nil _) index, ih framed.2⟩
  | case3 => cases framed

end

end Template

theorem Recast.getD {name : Text} {turns : Text → List Lexeme → List Lexeme → Prop}
    {cores cores' : List (List Lexeme)} (pairs : List.Forall₂ (Recast name turns []) cores cores')
    (index : Nat) :
    Recast name turns [] (cores[index]?.getD []) (cores'[index]?.getD []) := by
  induction pairs generalizing index with
  | nil => exact .done []
  | cons first _ ih =>
      cases index with
      | zero => exact first
      | succ index => exact ih index

theorem Recast.weave {name : Text} {turns : Text → List Lexeme → List Lexeme → Prop}
    (ascii : IsAsciiWord name)
    {cores cores' : List (List Lexeme)} (pairs : List.Forall₂ (Recast name turns []) cores cores')
    (each : ∀ core ∈ cores, Balanced core) {parts : Template} (framed : parts.isFramed = true)
    (silent : ∀ t, .text t ∈ parts → Silent name t) {front rest zs : List Lexeme}
    (later : Recast name turns (front ++ parts.weave cores) rest zs) :
    Recast name turns front (parts.weave cores ++ rest) (parts.weave cores' ++ zs) := by
  fun_induction Template.isFramed parts generalizing front with
  | case1 t =>
      simp only [Template.weave, List.append_nil] at later ⊢
      exact Recast.keep_text (silent t List.mem_cons_self) later
  | case2 t index u more ih =>
      simp only [Bool.and_eq_true, decide_eq_true_eq] at framed
      obtain ⟨⟨lead, follow⟩, behind⟩ := framed
      have apart : joinsName (front ++ lexemes t) = false := by
        obtain ⟨early, c, read, sign⟩ := lead.exists_last
        rw [read, ← List.append_assoc, joinsName_append_code]
        rcases sign with rfl | rfl <;> decide
      have next : Recast name turns (front ++ lexemes t ++ cores[index]?.getD [])
          (Template.weave cores (.text u :: more) ++ rest)
          (Template.weave cores' (.text u :: more) ++ zs) := by
        refine ih behind (fun v member => silent v (by simp [member])) ?_
        simpa only [Template.weave, List.append_assoc] using later
      have whole := (Recast.getD pairs index).append ascii
        (Template.forall_getD each rfl index) apart
        (Template.stops_weave follow) (by simpa only [List.nil_append] using next)
      have all := Recast.keep_text (silent t List.mem_cons_self)
        (by simpa only [List.append_nil] using whole)
      simpa only [Template.weave, List.append_assoc] using all
  | case3 => cases framed

end LiteSql
