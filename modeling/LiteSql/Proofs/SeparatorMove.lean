import LiteSql.Proofs.ClauseSeam
import LiteSql.Proofs.MarkStability
import LiteSql.Proofs.WordStep

/-! Group concatenations with a SEPARATOR clause. The delimiter becomes a second argument before the
ordering, or, if the values are distinct, the clause is taken out and reported; it is never lost. -/

namespace LiteSql.GroupConcat

open Pattern

def ordering (order? : Option Text) : Text := order?.elim [] fun order => " ORDER BY " ++ order

def clauses (values : Text) (order? : Option Text) (delimiter : Text) : Text :=
  values ++ (ordering order? ++ (" SEPARATOR " ++ delimiter))

def enclosed (inner : Text) : Text := function ++ '(' :: (inner ++ [')'])

/-- An ordering as it is written again: nothing stands before a comma. -/
def reordering (order? : Option Text) : Text := order?.elim [] fun order =>
    " ORDER BY" ++ (space order ++ order)

theorem enclosed_eq (inner : Text) : enclosed inner = "GROUP_CONCAT(" ++ (inner ++ ")") := rfl

theorem clauses_none (values delimiter : Text) :
    clauses values none delimiter = values ++ (" SEPARATOR " ++ delimiter) := rfl

theorem clauses_some (values order delimiter : Text) : clauses values (some order) delimiter =
    values ++ (" ORDER BY " ++ (order ++ (" SEPARATOR " ++ delimiter))) := by
  rw [clauses, ordering, Option.elim_some, List.append_assoc]

theorem append_reordering_none (values : Text) : values ++ reordering none = values :=
  List.append_nil values

theorem append_reordering_some (values order : Text) :
    values ++ reordering (some order) = values ++ ((" ORDER BY" ++ space order) ++ order) := by
  rw [reordering, Option.elim_some, List.append_assoc]

/-! ### Where the words stand -/

theorem exists_matchAt?_wholeWord {k w rest : Text} (ascii : IsAsciiWord k)
    (named : spelled k w = true)
    (stop : rest.head?.any isWordChar = false) :
    ∃ m, (wholeWord k).matchAt? ⟨0, none, w ++ rest, []⟩ = some m ∧ m.text = w := by
  have taken := (spans_wholeWord_iff ascii none 0 w rest []).mpr ⟨⟨named, rfl, stop⟩, rfl⟩
  obtain ⟨m, behind, caps, found, cut, takes⟩ := exists_matchAt? taken
  obtain ⟨⟨same, -, ended⟩, -⟩ := (spans_wholeWord_iff ascii _ _ _ _ _).mp takes.spans
  exact ⟨m, found, ((whole_of_spelled ascii named stop).unique
    (whole_of_spelled ascii same ended) cut).1.symm⟩

theorem exists_matchAt?_orderBy {rest : Text} (stop : rest.head?.any isWordChar = false) :
    ∃ m, orderBy.matchAt? ⟨0, none, "ORDER BY" ++ rest, []⟩ = some m ∧
      m.text = "ORDER BY".toList := by
  have order : Whole "ORDER" (" " ++ ("BY" ++ rest)) :=
    whole_of_spelled (k := "ORDER") (by decide) (by decide) rfl
  have last : Whole "BY" rest := whole_of_spelled (k := "BY") (by decide) (by decide) stop
  have gap : IsGap " " := ⟨by decide, by decide⟩
  have taken : orderBy.Spans none 0 "ORDER BY" rest [] :=
    (spans_wordPair_iff (k := "ORDER") (l := "BY") (by decide) (by decide) _ _ _ _ _).mpr
      ⟨⟨"ORDER", " ", "BY", rfl, by decide, by decide, by decide⟩, rfl, stop, rfl⟩
  obtain ⟨m, behind, caps, found, cut, takes⟩ := exists_matchAt? taken
  obtain ⟨⟨v, b, w, text, named, blank, second⟩, -, ended, -⟩ :=
    (spans_wordPair_iff (k := "ORDER") (l := "BY") (by decide) (by decide) _ _ _ _ _).mp takes.spans
  refine ⟨m, found, ?_⟩
  have gap' : IsGap b := ⟨blank.1, blank.2⟩
  have cut' : "ORDER" ++ (" " ++ ("BY" ++ rest)) = v ++ (b ++ (w ++ behind)) := by
    rw [text] at cut
    simpa using cut
  obtain ⟨rfl, rest⟩ := order.unique (whole_of_spelled (k := "ORDER") (by decide) named
    (gap'.stop _)) cut'
  obtain ⟨rfl, rfl, -⟩ := gap.unique last gap'
    (whole_of_spelled (k := "BY") (by decide) second ended) rest
  exact text

theorem neutral_space (t : Text) : ∀ c ∈ space t, ScanState.isNeutral c = true ∧ c ≠ '(' ∧
    c ≠ ')' := by
  rw [space]
  split
  · exact List.forall_mem_nil _
  · decide

theorem exists_space (t : Text) : (∃ rest, space t ++ t = " " ++ rest) ∨ ∃ rest,
    space t ++ t = "," ++ rest := by
  rw [space]
  split
  · next comma =>
      obtain ⟨rest, rfl⟩ := List.head?_eq_some_iff.mp comma
      exact .inr ⟨rest, rfl⟩
  · exact .inl ⟨t, rfl⟩

theorem stop_space (t : Text) : (space t ++ t).head?.any isWordChar = false := by
  rcases exists_space t with ⟨rest, text⟩ | ⟨rest, text⟩
  · rw [text]
    rfl
  · rw [text]
    rfl

section

variable {e d : Text} {order? : Option Text} (values : IsListText e)
  (order : ∀ o ∈ order?, IsListText o)
  (delimiter : IsListText d)

include values order

theorem isClosedText_reordering : IsClosedText (e ++ reordering order?) := by
  cases order? with
  | none =>
      rw [append_reordering_none]
      exact values.toIsClosedText
  | some o =>
      rw [append_reordering_some]
      refine values.toIsClosedText.append (order o rfl).toIsClosedText (by simp) ?_
      rw [List.forall_mem_append]
      exact ⟨by decide, neutral_space o⟩

include delimiter

theorem isClosedText_clauses : IsClosedText (clauses e order? d) := by
  cases order? with
  | none =>
      rw [clauses_none]
      exact values.toIsClosedText.append delimiter.toIsClosedText (by decide) (by decide)
  | some o =>
      rw [clauses_some]
      have behind : IsClosedText (o ++ (" SEPARATOR " ++ d)) :=
        (order o rfl).toIsClosedText.append delimiter.toIsClosedText (by decide) (by decide)
      exact values.toIsClosedText.append behind (by decide) (by decide)

theorem joinArguments_clauses : joinArguments (splitArguments (clauses e order? d)) =
    (e ++ reordering order?) ++ (" SEPARATOR" ++ (space d ++ d)) := by
  have separatorWords : IsWords "SEPARATOR" := ⟨by decide, by decide, by decide⟩
  have orderWords : IsWords "ORDER BY" := ⟨by decide, by decide, by decide⟩
  cases order? with
  | none =>
      have whole := joinArguments_splitArguments_words values delimiter.toIsClosedText
        separatorWords
      rw [delimiter.spaced] at whole
      rw [append_reordering_none]
      exact whole
  | some o =>
      have closed : IsClosedText (o ++ (" SEPARATOR " ++ d)) :=
        (order o rfl).toIsClosedText.append delimiter.toIsClosedText (by decide) (by decide)
      have behind : joinArguments (splitArguments (o ++ (" SEPARATOR " ++ d))) =
          o ++ (" SEPARATOR" ++ (space d ++ d)) := by
        have behind := joinArguments_splitArguments_words (order o rfl) delimiter.toIsClosedText
          separatorWords
        rw [delimiter.spaced] at behind
        exact behind
      have whole := joinArguments_splitArguments_words values closed orderWords
      rw [space_append (order o rfl).filled, behind] at whole
      rw [clauses_some, append_reordering_some]
      refine Eq.trans whole ?_
      simp only [List.append_assoc]
      rfl

omit delimiter in
theorem topLevel?_reordering (plain : separator.topLevel? e = none)
    (plainOrder : ∀ o ∈ order?, separator.topLevel? o = none) :
      separator.topLevel? (e ++ reordering order?) = none := by
  cases order? with
  | none => rw [append_reordering_none, plain]
  | some o =>
      -- behind the words the ordering starts with a space or a comma
      have behind : separator.topLevel? (space o ++ o) = none := by
        rw [space]
        split
        · exact plainOrder o rfl
        · rw [topLevel?_append (lexemes_append_of_isPlain [' '] o (by decide)) rfl
            (local_of_refuses (by decide) o) (.inl rfl), plainOrder o rfl]
          rfl
      have seam : separator.Local none 0 " ORDER BY" (space o ++ o) := by
        rcases exists_space o with ⟨rest, text⟩ | ⟨rest, text⟩
        · rw [text]
          exact local_of_blocked (by decide) (by decide) (by decide) (by decide) _ rest
        · rw [text]
          exact local_of_blocked (by decide) (by decide) (by decide) (by decide) _ rest
      have refused : (space o ++ o).head?.all (fun c => separator.refuses c) = true := by
        rcases exists_space o with ⟨rest, text⟩ | ⟨rest, text⟩
        · rw [text]
          rfl
        · rw [text]
          rfl
      have words : separator.topLevel? (" ORDER BY" ++ (space o ++ o)) = none := by
        rw [topLevel?_append (lexemes_append_of_isPlain " ORDER BY" _ (by decide)) rfl seam
          (.inr refused), behind]
        decide
      have whole := values.toIsClosedText.topLevel?_append (p := separator) (t := []) (by decide)
        (by decide) (by decide)
        ("ORDER BY" ++ (space o ++ o)) plain
      rw [append_reordering_some, List.append_assoc]
      exact whole.trans (congrArg _ words)

theorem splitSeparator?_clauses (plain : separator.topLevel? e = none)
    (plainOrder : ∀ o ∈ order?, separator.topLevel? o = none) :
    splitSeparator? (splitArguments (clauses e order? d)) = some (e ++ reordering order?, d) := by
  have kept := isClosedText_reordering values order
  have free := topLevel?_reordering values order plain plainOrder
  have joined := joinArguments_clauses values order delimiter
  generalize e ++ reordering order? = x at kept free joined ⊢
  obtain ⟨m, found, text⟩ := exists_matchAt?_wholeWord (k := "SEPARATOR") (w := "SEPARATOR")
    (by decide) (by decide) (stop_space d)
  have clause : separator.topLevel? (x ++ (" SEPARATOR" ++ (space d ++ d))) =
      some ((m.moved 1).moved x.length) := by
    have first : separator.topLevel? (" SEPARATOR" ++ (space d ++ d)) = some (m.moved 1) :=
      topLevel?_space (w := "SEPARATOR") (by decide) (by decide) (by decide) found text
    have whole := kept.topLevel?_append (p := separator) (t := []) (by decide) (by decide)
      (by decide)
      ("SEPARATOR" ++ (space d ++ d)) free
    exact whole.trans (congrArg _ first)
  have cut : x ++ (" SEPARATOR" ++ (space d ++ d)) = (x ++ [' ']) ++
      ("SEPARATOR" ++ (space d ++ d)) := by simp
  have start : ((m.moved 1).moved x.length).start = (x ++ [' ']).length := by
    obtain ⟨-, -, -, place, -⟩ := takes_of_matchAt? found rfl
    rw [Match.moved, Match.moved, place, List.length_append, Nat.add_comm]
    rfl
  have stop : ((m.moved 1).moved x.length).stop =
      (x ++ [' ']).length + "SEPARATOR".toList.length := by
    rw [Match.stop, start, ← text]
    rfl
  have front : trimEnd (x ++ [' ']) = x := by
    rw [trimEnd, dropEndWhile_append isBlank x (by decide)]
    exact trimEnd_eq_self kept.last
  have behind : trim (space d ++ d) = d := by
    have blank : ∀ c ∈ space d, isBlank c = true := by
      rw [space]
      split
      · exact List.forall_mem_nil _
      · decide
    have same := trim_padded blank (List.forall_mem_nil _) d
    rwa [List.append_nil, delimiter.trimmed] at same
  rw [splitSeparator?, joined]
  simp only [clause, Option.bind_eq_bind, Option.bind_some, start, stop]
  rw [cut, List.take_left, List.drop_length_add_append, List.drop_left, front, behind, if_neg]
  simp [kept.filled, delimiter.filled]

end

/-! ### Distinct values -/

theorem isSome_matchStart?_distinct_iff (s : Text) : (distinct.matchStart? s).isSome = true ↔
    ∃ w rest, s = w ++ rest ∧ spelled "DISTINCT" w = true ∧ rest.head?.any isWordChar = false := by
  rw [Option.isSome_iff_ne_none, ne_eq, matchStart?, matchAt?_eq_none_iff, not_not]
  constructor
  · rintro ⟨w, rest, caps, cut, taken⟩
    obtain ⟨named, stop, -⟩ := (spans_wordEnd_iff (k := "DISTINCT") (by decide) _ _ _ _ _).mp taken
    exact ⟨w, rest, cut, named, stop⟩
  · rintro ⟨w, rest, cut, named, stop⟩
    exact ⟨w, rest, [], cut, (spans_wordEnd_iff (k := "DISTINCT") (by decide) _ _ _ _ _).mpr
      ⟨named, stop, rfl⟩⟩

theorem isSome_matchStart?_distinct_append {x y : Text} (stop : y.head?.any isWordChar = false) :
    (distinct.matchStart? (x ++ y)).isSome = (distinct.matchStart? x).isSome := by
  rw [Bool.eq_iff_iff, isSome_matchStart?_distinct_iff, isSome_matchStart?_distinct_iff]
  constructor
  · rintro ⟨w, rest, cut, named, ended⟩
    have letters := (isWordChar_of_spelled (k := "DISTINCT") (by decide) named).2
    rcases List.append_eq_append_iff.mp cut with ⟨more, rfl, behind⟩ | ⟨more, rfl, rfl⟩
    · cases more with
      | nil => exact ⟨x, [], by simp, by simpa using named, rfl⟩
      | cons c more =>
          rw [behind, List.cons_append, List.head?_cons, Option.any_some,
            letters c (List.mem_append_right x List.mem_cons_self)] at stop
          cases stop
    · refine ⟨w, more, rfl, named, ?_⟩
      cases more with
      | nil => rfl
      | cons c more => exact ended
  · rintro ⟨w, rest, rfl, named, ended⟩
    refine ⟨w, rest ++ y, List.append_assoc w rest y, named, ?_⟩
    cases rest with
    | nil => exact stop
    | cons c rest => exact ended

theorem stop_reordering (order? : Option Text) :
    (reordering order?).head?.any isWordChar = false := by
  cases order? with
  | none => rfl
  | some o => rfl

/-! ### The call with its delimiter as an argument -/

theorem convert_of_splitSeparator? {arguments : List Text} {x d : Text}
    (split : splitSeparator? arguments = some (x, d)) :
    convert arguments = if (distinct.matchStart? x).isSome then none
      else some (enclosed ((orderBy.topLevel? x).elim (x ++ (", " ++ d)) fun order =>
        trimEnd (x.take order.start) ++ (", " ++ (d ++ (" " ++ x.drop order.start))))) := by
  rw [convert, split, Option.bind_eq_bind, Option.bind_some]
  refine if_congr Iff.rfl rfl ?_
  cases orderBy.topLevel? x with
  | none =>
      rw [enclosed_eq, Option.elim_none]
      simp only [List.append_assoc]
  | some order =>
      rw [enclosed_eq, Option.elim_some]
      simp only [List.append_assoc]

theorem exists_topLevel?_orderBy {e o : Text} (values : IsListText e)
    (unordered : orderBy.topLevel? e = none) :
    ∃ m, orderBy.topLevel? (e ++ reordering (some o)) = some m ∧ m.start = e.length + 1 := by
  obtain ⟨m, found, text⟩ := exists_matchAt?_orderBy (stop_space o)
  have words : orderBy.topLevel? (" ORDER BY" ++ (space o ++ o)) = some (m.moved 1) :=
    topLevel?_space (w := "ORDER BY") (by decide) (by decide) (by decide) found text
  have whole := values.toIsClosedText.topLevel?_append (p := orderBy) (t := "ORDER BY") (by decide)
    (by decide) (by decide)
    (space o ++ o) unordered
  refine ⟨(m.moved 1).moved e.length, whole.trans (congrArg _ words), ?_⟩
  obtain ⟨-, -, -, place, -⟩ := takes_of_matchAt? found rfl
  rw [Match.moved, Match.moved, place, Nat.add_comm]

section

variable {e d : Text} {order? : Option Text} (values : IsListText e)
  (order : ∀ o ∈ order?, IsListText o)
  (delimiter : IsListText d)

include values order delimiter

theorem convert_clauses (plain : separator.topLevel? e = none)
    (plainOrder : ∀ o ∈ order?, separator.topLevel? o = none)
    (unordered : orderBy.topLevel? e = none) :
    convert (splitArguments (clauses e order? d)) = if (distinct.matchStart? e).isSome then none
      else some (enclosed (e ++ (", " ++ (d ++ reordering order?)))) := by
  rw [convert_of_splitSeparator? (splitSeparator?_clauses values order delimiter plain plainOrder),
    isSome_matchStart?_distinct_append (stop_reordering order?)]
  refine if_congr Iff.rfl rfl (congrArg (fun inner => some (enclosed inner)) ?_)
  cases order? with
  | none =>
      have free : orderBy.topLevel? (e ++ reordering none) = none := by rwa [append_reordering_none]
      rw [free, Option.elim_none, append_reordering_none, append_reordering_none]
  | some o =>
      obtain ⟨m, found, place⟩ := exists_topLevel?_orderBy (o := o) values unordered
      have cut : e ++ reordering (some o) = (e ++ [' ']) ++ ("ORDER BY" ++ (space o ++ o)) := by
        rw [append_reordering_some]
        simp
      have front : trimEnd (e ++ [' ']) = e := by
        rw [trimEnd, dropEndWhile_append isBlank e (by decide)]
        exact trimEnd_eq_self values.toIsClosedText.last
      have start : m.start = (e ++ [' ']).length := by
        rw [place, List.length_append, List.length_singleton]
      have early : trimEnd ((e ++ reordering (some o)).take m.start) = e := by
        rw [cut, start, List.take_left, front]
      have late : (e ++ reordering (some o)).drop m.start = "ORDER BY" ++ (space o ++ o) := by
        rw [cut, start, List.drop_left]
      rw [found, Option.elim_some, early, late]
      rfl

end

/-! ### Calls in the clauses -/

theorem isClosedText_orderBy : IsClosedText "ORDER BY" :=
  ⟨by decide, by decide, by decide, by decide, rfl⟩

section

variable {name : Text} (word : ∀ c ∈ name, isWordChar c = true)
  {m : Type → Type} [Monad m] [LawfulMonad m]
  (action : List Text → m (Option Text)) {e d : Text} {order? : Option Text} (values : IsListText e)
  (order : ∀ o ∈ order?, IsListText o) (stays : replaceCallsM name action e = pure e)
  (staysOrder : ∀ o ∈ order?, replaceCallsM name action o = pure o)

include word values order stays staysOrder

theorem replaceCallsM_clauses (last : replaceCallsM name action d = pure d) :
    replaceCallsM name action (clauses e order? d) = pure (clauses e order? d) := by
  have clause : replaceCallsM name action (" SEPARATOR " ++ d) = pure (" SEPARATOR " ++ d) :=
    replaceCallsM_words word action (by decide) (by decide) last
  cases order? with
  | none => exact values.toIsClosedText.replaceCallsM_append word action rfl rfl stays clause
  | some o =>
      have behind := (order o rfl).toIsClosedText.replaceCallsM_append word action
        (v := " SEPARATOR " ++ d) rfl rfl
        (staysOrder o rfl) clause
      rw [clauses_some]
      exact values.toIsClosedText.replaceCallsM_append word action rfl rfl stays
        (replaceCallsM_words word action (by decide) (by decide) behind)

theorem replaceCallsM_reordering {v : Text} (neutral : StartsNeutral v)
    (sign : v.head?.all (fun c => isSign c && c != '(') = true)
    (last : replaceCallsM name action v = pure v) :
    replaceCallsM name action (e ++ (reordering order? ++ v)) =
      pure (e ++ (reordering order? ++ v)) := by
  cases order? with
  | none => exact values.toIsClosedText.replaceCallsM_append word action neutral sign stays last
  | some o =>
      have behind := (order o rfl).toIsClosedText.replaceCallsM_append word action neutral sign
        (staysOrder o rfl) last
      have spaced : replaceCallsM name action (space o ++ (o ++ v)) =
          pure (space o ++ (o ++ v)) := by
        rw [space]
        split
        · exact behind
        · exact replaceCallsM_words word action (by decide) (by decide) behind
      have start : StartsNeutral (space o ++ (o ++ v)) ∧
          (space o ++ (o ++ v)).head?.all (fun c => isSign c && c != '(') = true := by
        rw [← List.append_assoc]
        rcases exists_space o with ⟨rest, cut⟩ | ⟨rest, cut⟩
        · rw [cut]
          exact ⟨rfl, rfl⟩
        · rw [cut]
          exact ⟨rfl, rfl⟩
      have words := isClosedText_orderBy.replaceCallsM_append word action start.1 start.2
        (replaceCallsM_uncalled word action (uncalling_of_not_mem (by decide)).not_isCall) spaced
      have whole := values.toIsClosedText.replaceCallsM_append word action
        (v := " " ++ ("ORDER BY" ++ (space o ++ (o ++ v)))) rfl rfl stays
        (replaceCallsM_words word action (by decide) (by decide) words)
      rw [reordering, Option.elim_some]
      simpa using whole

end

/-! ### The call and its mark -/

theorem lexemes_notSupported (fragment : Text) :
    lexemes (notSupported fragment) = [.literal .blockComment (notSupported fragment)] := by
  have read := lexemes_append_of_leads (leads_notSupported fragment [])
  rwa [Lexeme.text, List.append_nil] at read

theorem not_isCall_notSupported (name fragment : Text) (pos close : Nat) :
    ¬ IsCall name (notSupported fragment) pos close := by
  intro call
  have inside : pos < (notSupported fragment).length := by
    have := call.lt_close
    have := call.close_lt
    omega
  have read : lexemes (notSupported fragment) = [] ++ .literal .blockComment
      (notSupported fragment) :: [] :=
    lexemes_notSupported fragment
  exact call.outside (inLiteral_of_lexemes read (Nat.zero_le _) (by simpa using inside))

section

variable {e d : Text} {order? : Option Text} (values : IsListText e)
  (order : ∀ o ∈ order?, IsListText o)
  (uncalled : ∀ name ∈ markedFunctions, ∀ x ∈ e :: d :: order?.toList, ∀ pos close,
    ¬ IsCall name x pos close)
  (delimiter : IsListText d)

include values order uncalled

theorem replaceCallsM_marked {m : Type → Type} [Monad m] [LawfulMonad m] {name : Text}
    (member : name ∈ markedFunctions)
    (other : Uncalling name "GROUP_CONCAT(") (action : List Text → m (Option Text))
    (fragment : Text) :
    replaceCallsM name action (enclosed (e ++ reordering order?) ++
      (" " ++ notSupported fragment)) =
      pure (enclosed (e ++ reordering order?) ++ (" " ++ notSupported fragment)) := by
  have word : ∀ c ∈ name, isWordChar c = true := by
    revert name
    decide
  have stays (x : Text) (part : x ∈ e :: d :: order?.toList) :
      replaceCallsM name action x = pure x :=
    replaceCallsM_uncalled word action (uncalled name member x part)
  have comment : replaceCallsM name action (") " ++ notSupported fragment) =
      pure (") " ++ notSupported fragment) :=
    replaceCallsM_words word action (by decide) (by decide)
      (replaceCallsM_uncalled word action (not_isCall_notSupported name fragment))
  have inner := replaceCallsM_reordering word action values order (stays e (by simp))
    (fun o own => stays o (by simp_all))
    (v := ") " ++ notSupported fragment) rfl rfl comment
  have whole := replaceCallsM_lead word action (t := "GROUP_CONCAT(") (by decide) other
    (e ++ (reordering order? ++ (") " ++ notSupported fragment)))
  rw [inner, pure_bind] at whole
  have text : enclosed (e ++ reordering order?) ++ (" " ++ notSupported fragment) =
      "GROUP_CONCAT(" ++ (e ++ (reordering order? ++ (") " ++ notSupported fragment))) := by
    rw [enclosed_eq]
    simp only [List.append_assoc]
    rfl
  rwa [text]

include delimiter

/-- What a pass over the calls gives: its answer to the clauses, in the place of the call. -/
theorem replaceCallsM_enclosed_clauses {m : Type → Type} [Monad m] [LawfulMonad m]
    (action : List Text → m (Option Text)) :
    replaceCallsM function action (enclosed (clauses e order? d)) = do
      return (← action (splitArguments (clauses e order? d))).getD
        (enclosed (clauses e order? d)) := by
  have word : ∀ c ∈ function, isWordChar c = true := by decide
  have stays (x : Text) (part : x ∈ e :: d :: order?.toList) :
      replaceCallsM function action x = pure x :=
    replaceCallsM_uncalled word action (uncalled function (by decide) x part)
  have closed := isClosedText_clauses values order delimiter
  exact replaceCallsM_enclosed word action closed.sealed closed.balanced
    (replaceCallsM_clauses word action values order (stays e (by simp))
      (fun o own => stays o (by simp_all))
      (stays d (by simp)))

theorem markUnsupported_clauses (plain : separator.topLevel? e = none)
    (plainOrder : ∀ o ∈ order?, separator.topLevel? o = none)
    (grouped : Unsupported.rollupPattern.codeHits (enclosed (clauses e order? d)) = []) :
    markUnsupported (enclosed (clauses e order? d)) =
      (enclosed (e ++ reordering order?) ++ (" " ++ notSupported ("SEPARATOR " ++ d)),
        [.separator d]) := by
  have split := splitSeparator?_clauses values order delimiter plain plainOrder
  have marked : Unsupported.markSeparator (splitArguments (clauses e order? d)) = do
      Unsupported.record (.separator d)
      return some (enclosed (e ++ reordering order?) ++
        (" " ++ notSupported ("SEPARATOR " ++ d))) := by
    rw [Unsupported.markSeparator, split]
    dsimp only
    rw [enclosed_eq]
    simp only [List.append_assoc]
    rfl
  rw [markUnsupported, Unsupported.markAll, Unsupported.markRollups_of_codeHits grouped, pure_bind,
    replaceCallsM_enclosed_clauses values order uncalled delimiter, marked]
  simp only [bind_assoc, pure_bind, Option.getD_some]
  rw [replaceCallsM_marked values order uncalled (by decide) (by decide), pure_bind,
    replaceCallsM_marked values order uncalled (by decide) (by decide)]
  rfl

end

theorem reordering_eq {order? : Option Text} (filled : ∀ o ∈ order?, o.head? ≠ some ',') :
    reordering order? = ordering order? := by
  cases order? with
  | none => rfl
  | some o =>
      rw [reordering, ordering, Option.elim_some, Option.elim_some, space, if_neg (filled o rfl)]
      rfl

/-- A SEPARATOR clause becomes a second argument, or a report if the values are distinct. -/
theorem separator_moved_or_reported {e d : Text} {order? : Option Text} (values : IsListText e)
    (order : ∀ o ∈ order?, IsListText o) (delimiter : IsListText d)
    (uncalled : ∀ name ∈ markedFunctions, ∀ x ∈ e :: d :: order?.toList, ∀ pos close,
      ¬ IsCall name x pos close)
    (plain : separator.topLevel? e = none) (plainOrder : ∀ o ∈ order?, separator.topLevel? o = none)
    (unordered : orderBy.topLevel? e = none) :
    let rule := Rule.total "group_concat separator" function convert
    let call := enclosed (clauses e order? d)
    rule ∈ Rule.table ∧
      (distinct.matchStart? e = none →
        rule.apply call = .ok (enclosed (e ++ (", " ++ (d ++ reordering order?))))) ∧
      ((distinct.matchStart? e).isSome → rule.apply call = .ok call ∧
        (Unsupported.rollupPattern.codeHits call = [] →
          (markUnsupported call).1 =
            enclosed (e ++ reordering order?) ++ (" " ++ notSupported ("SEPARATOR " ++ d)) ∧
          (markUnsupported call).2.map Unsupported.fragment = ["SEPARATOR " ++ d])) ∧
      ((∀ o ∈ order?, o.head? ≠ some ',') → reordering order? = ordering order?) := by
  intro rule call
  have answer := convert_clauses values order delimiter plain plainOrder unordered
  have applied := replaceCallsM_enclosed_clauses values order uncalled delimiter
    fun arguments => (Except.ok (convert arguments) : Except Fault _)
  refine ⟨List.mem_of_getElem? (i := 6) rfl, fun values => ?_,
    fun values => ⟨?_, fun grouped => ?_⟩, reordering_eq⟩
  · rw [values] at answer
    exact applied.trans (by rw [answer]; rfl)
  · rw [values] at answer
    exact applied.trans (by rw [answer]; rfl)
  · rw [markUnsupported_clauses ‹_› order uncalled delimiter plain plainOrder grouped]
    exact ⟨rfl, rfl⟩

/-- Distinct values of a list with commas and parentheses, with an ordering. -/
theorem separator_moved_or_reported_distinct :
    let call := enclosed (clauses "DISTINCT f(a, b), c" (some "a, b DESC") "'; '")
    IsListText "DISTINCT f(a, b), c" ∧ IsListText "a, b DESC" ∧
      (Rule.total "group_concat separator" function convert).apply call = .ok call ∧
      (markUnsupported call).1 = enclosed ("DISTINCT f(a, b), c" ++ reordering
        (some "a, b DESC")) ++
        (" " ++ notSupported ("SEPARATOR " ++ "'; '")) := by
  have values : IsListText "DISTINCT f(a, b), c" :=
    ⟨⟨by decide, by decide, by decide, by decide, rfl⟩, by decide⟩
  have order : IsListText "a, b DESC" :=
    ⟨⟨by decide, by decide, by decide, by decide, rfl⟩, by decide⟩
  have delimiter : IsListText "'; '" :=
    ⟨⟨by decide, by decide, by decide, by decide, rfl⟩, by decide⟩
  have free : ∀ name ∈ markedFunctions, ∀ x ∈ ["DISTINCT f(a, b), c", "'; '",
      "a, b DESC"].map String.toList,
      Uncalling name x := by decide
  have orders : ∀ o ∈ some "a, b DESC".toList, IsListText o := fun o own => by
    cases own; exact order
  obtain ⟨-, -, reported, -⟩ := separator_moved_or_reported values orders delimiter
    (fun name member x part => (free name member x part).not_isCall) (by decide)
    (fun o own => by cases own; decide)
    (by decide)
  obtain ⟨stays, marked⟩ := reported (by decide)
  exact ⟨values, order, stays, (marked (by decide)).1⟩

/-- An ordering that starts with a comma is not written as it was. -/
theorem not_forall_apply_clauses : ¬ ∀ e o d : Text, IsListText e → IsListText o → IsListText d →
    (∀ name ∈ markedFunctions, ∀ x ∈ [e, d, o], ∀ pos close, ¬ IsCall name x pos close) →
    separator.topLevel? e = none → separator.topLevel? o = none → orderBy.topLevel? e = none →
    distinct.matchStart? e = none →
    (Rule.total "group_concat separator" function convert).apply (enclosed (clauses e (some o) d)) =
      .ok (enclosed (e ++ (", " ++ (d ++ ordering (some o))))) := by
  intro all
  have free : ∀ name ∈ markedFunctions, ∀ x ∈ ["a", "';'", ", b"].map String.toList,
      Uncalling name x := by decide
  have moved := all "a" ", b" "';'" ⟨⟨by decide, by decide, by decide, by decide, rfl⟩, by decide⟩
    ⟨⟨by decide, by decide, by decide, by decide, rfl⟩, by decide⟩
    ⟨⟨by decide, by decide, by decide, by decide, rfl⟩, by decide⟩
    (fun name member x part => (free name member x part).not_isCall) (by decide) (by decide)
    (by decide) (by decide)
  exact absurd moved (by decide +kernel)

end LiteSql.GroupConcat
