import LiteSql.Proofs.Answers
import LiteSql.Proofs.Keyword
import LiteSql.Proofs.Marking
import LiteSql.Proofs.Respacing

/-! Statements without keywords. They only have their blanks changed, unless one of their words
starts like an option and is deleted with it. -/

namespace LiteSql

open Pattern in
theorem spans_option {before : Option Char} {pos : Nat} {w after : Text}
    (apart : before.any isWordChar = false) (letters : ∀ c ∈ w, isWordChar c = true)
    (starts : startsIgnoringCase "CHARSET" w = true) (longer : spelled "CHARSET" w = false) :
    Cleanup.option.Spans before pos w after [] := by
  have most : 7 < w.length := by
    have least : 7 ≤ w.length := length_le_of_startsIgnoringCase starts
    have other : w.length ≠ 7 := by
      rw [spelled, starts, Bool.true_and] at longer
      exact ne_of_beq_false longer
    omega
  have boundary : before.any isWordChar ≠ (w ++ after).head?.any isWordChar := by
    obtain ⟨c, w, rfl⟩ := List.exists_cons_of_ne_nil
      (List.ne_nil_of_length_pos (Nat.zero_lt_of_lt most))
    rw [apart, List.cons_append, List.head?_cons, Option.any_some, letters c List.mem_cons_self]
    exact Bool.false_ne_true
  have front (before : Option Char) (pos : Nat) :
      (keyword "CHARSET").Spans before pos (w.take 7) (w.drop 7 ++ after) [] := by
    rw [spans_keyword_iff, startsIgnoringCase_take _ _ _ (by decide), List.length_take]
    exact ⟨⟨starts, Nat.min_eq_left (Nat.le_of_lt most)⟩, rfl⟩
  have back (before : Option Char) (pos : Nat) : word.Spans before pos (w.drop 7) after [] := by
    rw [word, spans_someOf_iff]
    refine ⟨⟨?_, fun c member => letters c (List.mem_of_mem_drop member)⟩, rfl⟩
    rw [Ne, List.drop_eq_nil_iff]
    omega
  refine .inr (.inl ⟨[], w, [], [], rfl, rfl, ⟨rfl, rfl, boundary⟩, ?_⟩)
  refine ⟨[], w, [], [], rfl, rfl, .inr ⟨rfl, rfl⟩, ?_⟩
  refine ⟨w.take 7, w.drop 7, [], [], (List.take_append_drop 7 w).symm, rfl, .inl (front _ _), ?_⟩
  refine ⟨[], w.drop 7, [], [], rfl, rfl, ⟨List.forall_mem_nil _, rfl⟩, ?_⟩
  refine ⟨[], w.drop 7, [], [], rfl, rfl, .inr ⟨rfl, rfl⟩, ?_⟩
  exact ⟨[], w.drop 7, [], [], rfl, rfl, ⟨List.forall_mem_nil _, rfl⟩, back _ _⟩

namespace Unmapped

variable {s : Text} (unmapped : Unmapped s)

include unmapped

theorem reads_eq_false {w : Text} (inside : w ∈ codeWords s) {head : Head}
    (listed : head ∈ wholeHeads) :
    head.reads w = false := by
  obtain ⟨k, keyword, rfl⟩ := List.mem_map.mp listed
  exact unmapped w inside k (List.mem_append_right _ keyword)

theorem codeHits_eq_nil {p : Pattern} (announced : p.Announces wholeHeads) : p.codeHits s = [] :=
  announced.codeHits_eq_nil fun _ inside _ listed => unmapped.reads_eq_false inside listed

theorem not_isCall {name : Text} (listed : name ∈ keywords) (ascii : IsAsciiWord name)
    (pos close : Nat) :
    ¬ IsCall name s pos close := by
  intro call
  obtain ⟨w, inside, same⟩ := call.exists_mem_codeWords ascii
  rw [unmapped w inside name listed] at same
  cases same

theorem apply_pattern {name : Text} {wanted : Pattern} {replacement : Match → Text}
    (announced : wanted.Announces wholeHeads) :
    (Rule.pattern name wanted replacement).apply s = .ok s :=
  congrArg Except.ok
    (Pattern.replaceCode_of_codeHits_eq_nil (unmapped.codeHits_eq_nil announced) replacement)

theorem apply_call {rule : Rule} (member : rule ∈ Rule.table)
    (named : rule.function?.isSome = true) :
    rule.apply s = .ok s := by
  obtain ⟨function, named⟩ := Option.isSome_iff_exists.mp named
  have ascii := Rule.isAsciiWord_function? member named
  have listed : function ∈ keywords :=
    List.mem_append_left _ (List.mem_filterMap.mpr ⟨rule, member, named⟩)
  obtain ⟨action, -, applied⟩ := Rule.exists_action? named
  rw [applied]
  exact replaceCallsM_uncalled (fun c inside => (ascii.2 c inside).2) action
    (unmapped.not_isCall listed ascii)

theorem apply_patternRules : ∀ rule ∈ Rule.typeRules ++ Rule.joinRules ++ Rule.keyRules,
    rule.function? = none → rule.apply s = .ok s := by
  simp only [Rule.typeRules, Rule.joinRules, Rule.keyRules, List.forall_mem_append,
    List.forall_mem_cons]
  have done := List.forall_mem_nil fun rule : Rule => rule.function? = none → rule.apply s = .ok s
  refine ⟨⟨⟨?_, ?_, ?_, ?_, ?_, ?_, ?_, done⟩, ?_, ?_, done⟩, ?_, ?_, ?_, done⟩
  · exact fun _ => unmapped.apply_pattern begins_signedCast.announces
  · exact fun _ => unmapped.apply_pattern begins_integer.announces
  · exact fun _ => unmapped.apply_pattern begins_characters.announces
  · intro unnamed
    cases unnamed
  · exact fun _ => unmapped.apply_pattern begins_real.announces
  · exact fun _ => unmapped.apply_pattern begins_timestamp.announces
  · exact fun _ => unmapped.apply_pattern begins_binary.announces
  · exact fun _ => unmapped.apply_pattern begins_outer.announces
  · exact fun _ => unmapped.apply_pattern announces_join
  · exact fun _ => unmapped.apply_pattern begins_beforeKey.announces
  · exact fun _ => unmapped.apply_pattern begins_afterKey.announces
  · exact fun _ => unmapped.apply_pattern begins_alone.announces

theorem apply_table (rule : Rule) (member : rule ∈ Rule.table) : rule.apply s = .ok s := by
  cases named : rule.function? with
  | some function => exact unmapped.apply_call member (by rw [named]; rfl)
  | none =>
      have calls : ∀ rule ∈ Rule.stringRules ++ Rule.dateRules ++ Rule.numericRules ++
          Rule.conditionalRules,
          rule.function? ≠ none := by decide
      rw [Rule.table, List.append_assoc, List.append_assoc, ← List.append_assoc Rule.typeRules]
        at member
      rcases List.mem_append.mp member with early | late
      · exact absurd named (calls rule early)
      · exact unmapped.apply_patternRules rule late named

theorem adapt_eq : adapt Rule.table s = .ok (Conversion.mark (Cleanup.clean s)) := by
  rw [adapt, Rule.run_eq_self unmapped.apply_table]
  rfl

theorem markUnsupported_eq {t : Text} (same : codeWords t = codeWords s) :
    markUnsupported t = (t, []) := by
  have unmapped' : Unmapped t := by rwa [Unmapped, same]
  have listed : ∀ name ∈ markedFunctions, name ∈ keywords ∧ IsAsciiWord name := by decide
  exact markUnsupported_of_unmarked (unmapped'.codeHits_eq_nil begins_rollupPattern.announces)
    fun name member => unmapped'.not_isCall (listed name member).1 (listed name member).2

open Pattern in
theorem codeHits_option_eq_nil_iff :
    Cleanup.option.codeHits s = [] ↔ ∀ w ∈ codeWords s, startsIgnoringCase "CHARSET" w = false := by
  have listed : "CHARSET".toList ∈ keywords := by decide
  constructor
  · rw [codeHits, List.flatMap_eq_nil_iff]
    intro none w inside
    rw [Bool.eq_false_iff]
    intro starts
    have longer := unmapped w inside _ listed
    rw [codeWords_eq, List.mem_flatMap] at inside
    obtain ⟨x, segment, word⟩ := inside
    obtain ⟨front, rest, rfl, apart, -, rfl⟩ := (mem_words_iff _ _).mp word
    have letters : ∀ c ∈ rest.takeWhile isWordChar, isWordChar c = true :=
      List.all_eq_true.mp List.all_takeWhile
    have free := none _ segment
    rw [← List.takeWhile_append_dropWhile (p := isWordChar) (l := rest)] at free
    exact not_spans_of_hits_eq_nil (by decide) free (spans_option apart letters starts longer)
  · intro none
    refine begins_option.announces.codeHits_eq_nil fun w inside =>
      List.forall_mem_cons.mpr ⟨none w inside, ?_⟩
    exact fun head whole => unmapped.reads_eq_false inside whole

end Unmapped

/-- A statement without keywords is converted without reports and keeps its literals, its words and
all its code but blanks, exactly if none of its words starts like the option that is deleted too
eagerly. -/
theorem sameContent_adapt_iff (s : Text) (unmapped : Unmapped s) :
    (∃ conversion, adapt Rule.table s = .ok conversion ∧ conversion.unsupported = [] ∧
      SameContent (lexemes s) (lexemes conversion.text)) ↔
      ∀ w ∈ codeWords s, startsIgnoringCase "CHARSET" w = false := by
  rw [← unmapped.codeHits_option_eq_nil_iff, ← Cleanup.sameContent_clean_iff, unmapped.adapt_eq]
  constructor
  · rintro ⟨_, converted, silent, same⟩
    cases converted
    rw [Conversion.unsupported_mark] at silent
    rw [Conversion.text_mark, markUnsupported_eq_self silent] at same
    exact same
  · intro same
    have unmarked := unmapped.markUnsupported_eq same.words
    refine ⟨Conversion.mark (Cleanup.clean s), rfl, ?_, ?_⟩
    · rw [Conversion.unsupported_mark, unmarked]
    · simpa only [Conversion.text_mark, unmarked] using same

theorem sameContent_adapt_identifiers :
    Unmapped "SELECT int1 ,\t joins\n \n FROM a -- b JOIN  \n" ∧
      ∃ conversion, adapt Rule.table "SELECT int1 ,\t joins\n \n FROM a -- b JOIN  \n" =
        .ok conversion ∧
        conversion.unsupported = [] ∧
        SameContent (lexemes "SELECT int1 ,\t joins\n \n FROM a -- b JOIN  \n")
          (lexemes conversion.text) := by
  have unmapped : Unmapped "SELECT int1 ,\t joins\n \n FROM a -- b JOIN  \n" := by decide
  exact ⟨unmapped, (sameContent_adapt_iff _ unmapped).mpr (by decide)⟩

/-- A name that only starts like an option is deleted. -/
theorem not_forall_sameContent_adapt :
    ¬ ∀ s, Unmapped s → ∃ conversion, adapt Rule.table s = .ok conversion ∧
      conversion.unsupported = [] ∧ SameContent (lexemes s) (lexemes conversion.text) := by
  intro all
  have unmapped : Unmapped "SELECT charset_name FROM t" := by decide
  obtain ⟨conversion, adapted, -, same⟩ := all _ unmapped
  rw [unmapped.adapt_eq] at adapted
  cases adapted
  have text : (Conversion.mark (Cleanup.clean "SELECT charset_name FROM t")).text =
      "SELECT FROM t" := by
    decide +kernel
  have words := same.words
  rw [text] at words
  exact absurd words (by decide)

end LiteSql
