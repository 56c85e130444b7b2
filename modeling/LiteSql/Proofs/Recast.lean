import LiteSql.Proofs.SeparatorMarks

/-! Calls of one function turned into something else, inner calls first. The turned lexemes are read
as they stand, their parentheses match where those of the source do, and no call starts at a place
that is kept if none did. What is balanced is turned on its own, whatever stands around it. -/

namespace LiteSql

/-! ### What stands before a call -/

def joinsName (front : List Lexeme) : Bool := (front.flatMap Lexeme.text).getLast?.any continuesName

theorem joinsName_append (front ls : List Lexeme) :
    joinsName (front ++ ls) = if ls.flatMap Lexeme.text = [] then joinsName front
      else joinsName ls := by
  rw [joinsName, List.flatMap_append]
  split
  · next empty => rw [empty, List.append_nil, joinsName]
  · next present => rw [List.getLast?_append_of_ne_nil _ present, joinsName]

@[simp]
theorem joinsName_append_code (front : List Lexeme) (c : Char) :
    joinsName (front ++ [.code c]) = continuesName c := by
  rw [joinsName_append]
  rfl

theorem joinsName_callLexemes (front : List Lexeme) (written : Text) (inner : List Lexeme) :
    joinsName (front ++ callLexemes written inner) = false := by
  rw [callLexemes, ← List.cons_append, ← List.append_assoc, ← List.append_assoc,
    joinsName_append_code]
  decide

theorem joinsName_congr {front early : List Lexeme} (same : joinsName front = joinsName early)
    (ls : List Lexeme) :
    joinsName (front ++ ls) = joinsName (early ++ ls) := by
  rw [joinsName_append, joinsName_append, same]

/-! ### Where a call ends -/

/-- Whether neither a name nor an argument list goes on with lexemes. -/
def Stops (rest : List Lexeme) : Prop := ∀ c more, rest = .code c :: more →
    isWordChar c = false ∧ c ≠ '('

theorem stops_code {c : Char} (sign : isWordChar c = false) (other : c ≠ '(') (more : List Lexeme) :
    Stops (.code c :: more) := by
  intro d rest cut
  cases cut
  exact ⟨sign, other⟩

theorem Balanced.not_opened {front opened inner more : List Lexeme} (balanced : Balanced inner)
    (part : inner = opened ++ more) : ¬ Balanced (front ++ .code '(' :: opened) := by
  intro whole
  rw [Balanced, part, LiteSql.levelAfter_append] at balanced
  rw [Balanced, LiteSql.levelAfter_append] at whole
  obtain ⟨depth, -, within⟩ := Option.bind_eq_some_iff.mp whole
  obtain ⟨level, inside, -⟩ := Option.bind_eq_some_iff.mp balanced
  have deeper := levelAfter_add inside (depth + 1)
  have step : levelAfter depth (.code '(' :: opened) = levelAfter (0 + (depth + 1)) opened := by
    rw [levelAfter, if_neg (by simp), Nat.zero_add]
    rfl
  rw [step, deeper] at within
  cases within

section

variable {name : Text} (ascii : IsAsciiWord name)

include ascii

theorem exists_append_of_call {front x rest inner behind : List Lexeme} {written : Text}
    (balanced : Balanced (front ++ x)) (present : x ≠ []) (stops : Stops rest)
    (named : spelled name written = true) (within : Balanced inner)
    (cut : x ++ rest = callLexemes written inner ++ behind) :
    ∃ more, x = callLexemes written inner ++ more ∧ behind = more ++ rest := by
  have letters := (isWordChar_of_spelled ascii named).2
  have regroup : callLexemes written inner ++ behind =
      (written ++ ['(']).map .code ++ (inner ++ .code ')' :: behind) := by
    simp [callLexemes]
  rw [regroup] at cut
  obtain ⟨y, rfl, tail⟩ : ∃ y, x = (written ++ ['(']).map .code ++ y ∧
      y ++ rest = inner ++ .code ')' :: behind := by
    rcases List.append_eq_append_iff.mp cut with ⟨extra, whole, behind⟩ | ⟨y, whole, tail⟩
    · cases extra with
      | nil =>
          rw [List.append_nil] at whole
          exact ⟨[], by rw [whole, List.append_nil], behind⟩
      | cons l extra =>
          exfalso
          have member : l ∈ (written ++ ['(']).map Lexeme.code := by
            rw [whole]
            simp
          obtain ⟨c, among, rfl⟩ := List.mem_map.mp member
          obtain ⟨sign, other⟩ := stops c _ behind
          rcases List.mem_append.mp among with letter | opening
          · rw [letters c letter] at sign
            cases sign
          · exact other (List.mem_singleton.mp opening)
    · exact ⟨y, whole, tail.symm⟩
  have opened : Balanced ((front ++ written.map .code) ++ .code '(' :: y) := by
    simpa using balanced
  rcases List.append_eq_append_iff.mp tail with ⟨extra, whole, -⟩ | ⟨extra, rfl, close⟩
  · exact absurd opened (within.not_opened whole)
  · cases extra with
    | nil =>
        rw [List.append_nil] at opened
        exact absurd opened (within.not_opened (List.append_nil inner).symm)
    | cons l extra =>
        obtain ⟨rfl, rfl⟩ := List.cons.inj close
        exact ⟨extra, by simp [callLexemes], rfl⟩

theorem exists_code_callLexemes {written : Text} (named : spelled name written = true)
    (inner : List Lexeme) :
    ∃ c w, written = c :: w ∧ isWordChar c = true ∧
      callLexemes written inner = .code c :: (w.map .code ++ .code '(' ::
        (inner ++ [.code ')'])) := by
  obtain ⟨present, letters⟩ := isWordChar_of_spelled ascii named
  obtain ⟨c, w, rfl⟩ := List.exists_cons_of_ne_nil present
  exact ⟨c, w, rfl, letters c List.mem_cons_self, rfl⟩

theorem startsNoCall_of_sign {front ls : List Lexeme} {l : Lexeme}
    (sign : ∀ c, l = .code c → isWordChar c = false) :
    StartsNoCall name front (l :: ls) := by
  intro written inner behind cut call
  obtain ⟨c, w, -, letter, whole⟩ := exists_code_callLexemes ascii call.named inner
  rw [whole] at cut
  obtain ⟨rfl, -⟩ := List.cons.inj cut
  rw [sign c rfl] at letter
  cases letter

omit ascii in
theorem startsNoCall_of_joinsName {front : List Lexeme} (joins : joinsName front = true)
    (ls : List Lexeme) :
    StartsNoCall name front ls := by
  intro written inner behind _ call
  have separate : joinsName front = false := call.separate
  rw [joins] at separate
  cases separate

end

/-! ### Turned calls -/

/-- Lexemes behind others with the calls of a function turned: what takes the place of a call is
told by its name and by what has become of its arguments. -/
inductive Recast (name : Text) (turns : Text → List Lexeme → List Lexeme → Prop) :
    (front ls ms : List Lexeme) → Prop
  | done (front : List Lexeme) : Recast name turns front [] []
  | keep {front : List Lexeme} {l : Lexeme} {ls ms : List Lexeme} :
    StartsNoCall name front (l :: ls) → Recast name turns (front ++ [l]) ls ms →
      Recast name turns front (l :: ls) (l :: ms)
  | call {front inner inside new ls ms : List Lexeme} {written : Text} :
    CallCut name front written inner → Recast name turns [] inner inside →
      turns written inside new →
      Recast name turns (front ++ callLexemes written inner) ls ms →
      Recast name turns front (callLexemes written inner ++ ls) (new ++ ms)

/-- What takes the place of a call is balanced, is read as it stands, and starts like a name or an
argument list. -/
structure Fair (name : Text) (turns : Text → List Lexeme → List Lexeme → Prop) : Prop where
  ascii : IsAsciiWord name
  balanced {written : Text} {inside new : List Lexeme} : turns written inside new →
    spelled name written = true →
    Balanced inside → Balanced new
  plain {written : Text} {inside new : List Lexeme} : turns written inside new →
    (∀ l ∈ inside, l.isLineComment = false) → ∀ l ∈ new, l.isLineComment = false
  read {written : Text} {inside new : List Lexeme} : turns written inside new →
    spelled name written = true →
    Sealed inside → Balanced inside → ∀ rest, lexemes (new.flatMap Lexeme.text ++ rest) =
      new ++ lexemes rest
  starts {written : Text} {inside new : List Lexeme} : turns written inside new →
    spelled name written = true →
    ∃ c s, new.flatMap Lexeme.text = c :: s ∧ (isWordChar c = true ∨ c = '(')

namespace Recast

variable {name : Text} {turns : Text → List Lexeme → List Lexeme → Prop} {front ls ms : List Lexeme}

theorem of_nil (recast : Recast name turns front [] ms) : ms = [] := by
  generalize whole : ([] : List Lexeme) = source at recast
  cases recast with
  | done => rfl
  | keep _ _ => cases whole
  | call _ _ _ _ => simp [callLexemes] at whole

theorem of_startsNoCall {l : Lexeme} (recast : Recast name turns front (l :: ls) ms)
    (none : StartsNoCall name front (l :: ls)) : ∃ rest, ms = l :: rest ∧
      Recast name turns (front ++ [l]) ls rest := by
  generalize whole : l :: ls = source at recast
  cases recast with
  | done => cases whole
  | keep _ later =>
      cases whole
      exact ⟨_, rfl, later⟩
  | call cut _ _ _ => exact absurd cut (none _ _ _ whole)

theorem of_callCut {written : Text} {inner : List Lexeme}
    (recast : Recast name turns front (callLexemes written inner ++ ls) ms)
    (cut : CallCut name front written inner) :
    ∃ inside new rest, ms = new ++ rest ∧ Recast name turns [] inner inside ∧
      turns written inside new ∧
      Recast name turns (front ++ callLexemes written inner) ls rest := by
  generalize whole : callLexemes written inner ++ ls = source at recast
  cases recast with
  | done => simp [callLexemes] at whole
  | keep none _ => exact absurd cut (none _ _ _ whole.symm)
  | call other within turned later =>
      obtain ⟨rfl, rfl, rfl⟩ := callLexemes_inj cut.named other.named cut.balanced
        other.balanced whole
      exact ⟨_, _, _, rfl, within, turned, later⟩

theorem congr_front (recast : Recast name turns front ls ms) {early : List Lexeme}
    (same : joinsName front = joinsName early) : Recast name turns early ls ms := by
  induction recast generalizing early with
  | done => exact .done early
  | @keep front l ls ms none _ ih =>
      refine .keep ?_ (ih (joinsName_congr same [l]))
      intro written inner behind whole cut
      have separate : joinsName early = false := cut.separate
      exact none written inner behind whole ⟨cut.named, same.trans separate, cut.balanced⟩
  | @call front inner inside new ls ms written cut within turned _ _ ih =>
      have separate : joinsName front = false := cut.separate
      exact .call ⟨cut.named, same.symm.trans separate, cut.balanced⟩ within turned
        (ih (joinsName_congr same _))

section

variable (fair : Fair name turns)

include fair

theorem closesAlike (recast : Recast name turns front ls ms) : ClosesAlike ls ms := by
  induction recast with
  | done => exact .nil
  | keep _ _ ih => exact ih.cons _
  | call cut _ turned _ within ih =>
      exact ih.append (balanced_callLexemes fair.ascii cut.named cut.balanced)
        (fair.balanced turned cut.named (within.balanced cut.balanced))

theorem balanced (recast : Recast name turns front ls ms) (source : Balanced ls) : Balanced ms :=
  (recast.closesAlike fair).balanced source

theorem plain (recast : Recast name turns front ls ms)
    (source : ∀ l ∈ ls, l.isLineComment = false) :
    ∀ l ∈ ms, l.isLineComment = false := by
  induction recast with
  | done => exact source
  | keep _ _ ih =>
      rw [List.forall_mem_cons] at source ⊢
      exact ⟨source.1, ih source.2⟩
  | call _ _ turned _ ihInner ih =>
      rw [List.forall_mem_append] at source ⊢
      refine ⟨fair.plain turned (ihInner fun l member => ?_), ih source.2⟩
      exact source.1 l (by simp [callLexemes, member])

theorem readsAlike (recast : Recast name turns front ls ms)
    (plain : ∀ l ∈ ls, l.isLineComment = false) (rest : Text) :
    ReadsAlike ls ms rest := by
  induction recast generalizing rest with
  | done => exact .nil rest
  | keep _ _ ih => exact (ih (List.forall_mem_cons.mp plain).2 rest).cons _
  | @call front inner inside new ls ms written cut within turned _ ihInner ih =>
      intro source
      rw [List.forall_mem_append] at plain
      have quiet : ∀ l ∈ inner, l.isLineComment = false := fun l member =>
        plain.1 l (by simp [callLexemes, member])
      have closed : Sealed inner := by
        have start : lexemes ((callLexemes written inner ++ ls).flatMap Lexeme.text ++ rest) =
            [] ++ (callLexemes written inner ++ (ls ++ lexemes rest)) := by
          rw [source, List.append_assoc]
          rfl
        exact sealed_inner start quiet
      have closed' : Sealed inside :=
        ⟨within.plain fair quiet, fun rest neutral =>
          (ihInner quiet rest (closed.read rest neutral)).1⟩
      refine (ih plain.2 rest).append (fair.read turned cut.named closed'
        (within.balanced fair cut.balanced))
        (fun s t => ?_) source
      obtain ⟨present, letters⟩ := isWordChar_of_spelled fair.ascii cut.named
      obtain ⟨c, w, rfl⟩ := List.exists_cons_of_ne_nil present
      obtain ⟨d, x, first, kind⟩ := fair.starts turned cut.named
      rw [first, flatMap_text_callLexemes]
      refine .of_letter (letters c List.mem_cons_self) ?_ _ _
      rcases kind with word | rfl
      · exact not_mem_special_of_isWordChar word
      · decide

theorem lexemes_text {s : Text} (recast : Recast name turns front (lexemes s) ms)
    (plain : ∀ l ∈ lexemes s, l.isLineComment = false) : lexemes (ms.flatMap Lexeme.text) = ms :=
  (recast.readsAlike fair plain []).lexemes_text (by rw [flatMap_text_lexemes])

theorem sealed (recast : Recast name turns front ls ms) (source : Sealed ls) : Sealed ms where
  plain := recast.plain fair source.plain
  read rest neutral := (recast.readsAlike fair source.plain rest (source.read rest neutral)).1

end

/-! ### Places that are kept -/

theorem keepsWords : KeepsWords (Recast name turns) where
  next recast inside := by
    cases recast with
    | done => exact .inl ⟨rfl, rfl⟩
    | keep _ later => exact .inr ⟨_, _, _, rfl, rfl, later⟩
    | call cut _ _ _ =>
        rw [any_getLast?_outline rfl cut.separate] at inside
        cases inside

theorem startsNoCall (fair : Fair name turns) {l : Lexeme}
    (recast : Recast name turns (front ++ [l]) ls ms)
    {other : Text} (ascii : IsAsciiWord other) (none : StartsNoCall other front (l :: ls))
    {early : List Lexeme}
    (follows : joinsName front = true → joinsName early = true) :
      StartsNoCall other early (l :: ms) := by
  refine keepsWords.startsNoCall (fun later => later.closesAlike fair) ascii none recast
    fun apart => ?_
  rw [← Bool.not_eq_true] at apart ⊢
  exact fun joins => apart (follows joins)

/-! ### Balanced lexemes among others -/

section

variable (ascii : IsAsciiWord name)

include ascii

theorem append {x y rest zs early : List Lexeme} (recast : Recast name turns front x y)
    (balanced : Balanced (front ++ x)) (apart : joinsName early = false) (stops : Stops rest)
    (later : Recast name turns (early ++ (front ++ x)) rest zs) :
    Recast name turns (early ++ front) (x ++ rest) (y ++ zs) := by
  have separate (front : List Lexeme) : joinsName (early ++ front) = joinsName front := by
    rw [joinsName_append]
    split
    · next empty => rw [apart, joinsName, empty]; rfl
    · rfl
  induction recast with
  | done front => simpa using later
  | @keep front l ls ms none _ ih =>
      refine .keep ?_ ?_
      · intro written inner behind cut call
        obtain ⟨more, whole, -⟩ := exists_append_of_call ascii balanced
          (List.cons_ne_nil l ls) stops call.named
          call.balanced cut
        exact none written inner more whole ⟨call.named, (separate front).symm.trans call.separate,
          call.balanced⟩
      · have next := ih (by simpa using balanced) (by simpa using later)
        rwa [← List.append_assoc] at next
  | @call front inner inside new ls ms written cut within turned _ _ ih =>
      have next := ih (by simpa using balanced) (by simpa using later)
      rw [← List.append_assoc] at next
      rw [List.append_assoc, List.append_assoc]
      exact .call ⟨cut.named, (separate front).trans cut.separate, cut.balanced⟩ within turned next

theorem exists_append {x rest zs : List Lexeme} (recast : Recast name turns front (x ++ rest) zs)
    (balanced : Balanced (front ++ x)) (stops : Stops rest) :
    ∃ y z, zs = y ++ z ∧ Recast name turns front x y ∧ Recast name turns (front ++ x) rest z := by
  generalize whole : x ++ rest = source at recast
  induction recast generalizing x with
  | done front =>
      obtain ⟨rfl, rfl⟩ := List.append_eq_nil_iff.mp whole
      exact ⟨[], [], rfl, .done front, .done _⟩
  | @keep front l ls ms none later ih =>
      cases x with
      | nil =>
          rw [List.nil_append] at whole
          subst whole
          exact ⟨[], _, rfl, .done front, by simpa using Recast.keep none later⟩
      | cons m x =>
          obtain ⟨rfl, rfl⟩ := List.cons.inj whole
          obtain ⟨y, z, rfl, first, second⟩ := ih (by simpa using balanced) rfl
          refine ⟨m :: y, z, rfl, .keep ?_ first, by simpa using second⟩
          intro written inner behind cut
          exact none written inner (behind ++ rest) ((congrArg (· ++ rest) cut).trans
            (List.append_assoc _ _ _))
  | @call front inner inside new ls ms written cut within turned later _ ih =>
      cases x with
      | nil =>
          rw [List.nil_append] at whole
          subst whole
          exact ⟨[], _, rfl, .done front, by simpa using Recast.call cut within turned later⟩
      | cons m x =>
          obtain ⟨more, cut', rfl⟩ := exists_append_of_call ascii balanced
            (List.cons_ne_nil m x) stops cut.named
            cut.balanced whole
          rw [cut'] at balanced ⊢
          obtain ⟨y, z, rfl, first, second⟩ := ih (by simpa using balanced) rfl
          refine ⟨new ++ y, z, by simp, .call cut within turned first, by simpa using second⟩

theorem of_sign {l : Lexeme} (recast : Recast name turns front (l :: ls) ms)
    (sign : ∀ c, l = .code c → isWordChar c = false) :
    ∃ rest, ms = l :: rest ∧ Recast name turns (front ++ [l]) ls rest :=
  recast.of_startsNoCall (startsNoCall_of_sign ascii sign)

theorem of_blanks {blanks : List Lexeme} (blank : ∀ l ∈ blanks, l.isBlank = true)
    (recast : Recast name turns front (blanks ++ ls) ms) :
    ∃ rest, ms = blanks ++ rest ∧ Recast name turns (front ++ blanks) ls rest := by
  induction blanks generalizing front ms with
  | nil => exact ⟨ms, rfl, by simpa using recast⟩
  | cons l blanks ih =>
      obtain ⟨first, others⟩ := List.forall_mem_cons.mp blank
      obtain ⟨rest, rfl, later⟩ := recast.of_sign ascii fun c same =>
        isWordChar_of_isBlank (c := c) (by rwa [same] at first)
      obtain ⟨more, rfl, last⟩ := ih others later
      exact ⟨more, rfl, by simpa using last⟩

/-! ### Calls of another name -/

omit ascii in
theorem keep_letters {w : Text} (letters : ∀ c ∈ w, isWordChar c = true)
    (joins : joinsName front = true)
    (later : Recast name turns (front ++ w.map .code) ls ms) :
    Recast name turns front (w.map .code ++ ls) (w.map .code ++ ms) := by
  induction w generalizing front with
  | nil => simpa using later
  | cons c w ih =>
      obtain ⟨letter, others⟩ := List.forall_mem_cons.mp letters
      refine .keep (startsNoCall_of_joinsName joins _) (ih others ?_ (by simpa using later))
      rw [joinsName_append_code]
      exact continuesName_of_isWordChar c letter

omit ascii in
theorem of_letters {w : Text} (letters : ∀ c ∈ w, isWordChar c = true)
    (joins : joinsName front = true)
    (recast : Recast name turns front (w.map .code ++ ls) ms) :
    ∃ rest, ms = w.map .code ++ rest ∧ Recast name turns (front ++ w.map .code) ls rest := by
  induction w generalizing front ms with
  | nil => exact ⟨ms, rfl, by simpa using recast⟩
  | cons c w ih =>
      obtain ⟨letter, others⟩ := List.forall_mem_cons.mp letters
      obtain ⟨rest, rfl, later⟩ := recast.of_startsNoCall (startsNoCall_of_joinsName joins _)
      have joins' : joinsName (front ++ [.code c]) = true := by
        rw [joinsName_append_code]
        exact continuesName_of_isWordChar c letter
      obtain ⟨more, rfl, last⟩ := ih others joins' later
      exact ⟨more, rfl, by simpa using last⟩

variable {other written : Text} (word : IsAsciiWord other) (named : spelled other written = true)
  {inner rest : List Lexeme} (within : Balanced inner)
  (none : StartsNoCall name front (callLexemes written inner ++ rest))

include word named within none

theorem enclosed {inside zs : List Lexeme} (recast : Recast name turns [] inner inside)
    (later : Recast name turns (front ++ callLexemes written inner) rest zs) :
    Recast name turns front (callLexemes written inner ++ rest)
      (callLexemes written inside ++ zs) := by
  obtain ⟨present, letters⟩ := isWordChar_of_spelled word named
  obtain ⟨c, w, rfl⟩ := List.exists_cons_of_ne_nil present
  obtain ⟨letter, others⟩ := List.forall_mem_cons.mp letters
  have joins : joinsName (front ++ [.code c]) = true := by
    rw [joinsName_append_code]
    exact continuesName_of_isWordChar c letter
  have close : Recast name turns ((front ++ (c :: w).map .code ++ [.code '(']) ++ ([] ++ inner))
      (.code ')' :: rest) (.code ')' :: zs) := by
    refine .keep (startsNoCall_of_sign ascii ?_) (by simpa [callLexemes] using later)
    intro d same
    cases same
    decide
  have arguments := recast.append ascii (by simpa using within)
    (by rw [joinsName_append_code]; decide)
    (stops_code (by decide) (by decide) rest) close
  have opened : Recast name turns (front ++ (c :: w).map .code)
      (.code '(' :: (inner ++ .code ')' :: rest))
      (.code '(' :: (inside ++ .code ')' :: zs)) := by
    refine .keep (startsNoCall_of_sign ascii ?_) (by simpa using arguments)
    intro d same
    cases same
    decide
  have whole := Recast.keep (by simpa [callLexemes] using none)
    (keep_letters others joins (by simpa using opened))
  simpa [callLexemes] using whole

theorem exists_enclosed {zs : List Lexeme}
    (recast : Recast name turns front (callLexemes written inner ++ rest) zs) :
    ∃ inside z, zs = callLexemes written inside ++ z ∧ Recast name turns [] inner inside ∧
      Recast name turns (front ++ callLexemes written inner) rest z := by
  obtain ⟨present, letters⟩ := isWordChar_of_spelled word named
  obtain ⟨c, w, rfl⟩ := List.exists_cons_of_ne_nil present
  obtain ⟨letter, others⟩ := List.forall_mem_cons.mp letters
  have joins : joinsName (front ++ [.code c]) = true := by
    rw [joinsName_append_code]
    exact continuesName_of_isWordChar c letter
  have regroup : callLexemes (c :: w) inner ++ rest =
      .code c :: (w.map .code ++ .code '(' :: (inner ++ .code ')' :: rest)) := by
    simp [callLexemes]
  rw [regroup] at recast none
  obtain ⟨_, rfl, afterFirst⟩ := recast.of_startsNoCall none
  obtain ⟨_, rfl, afterName⟩ := afterFirst.of_letters others joins
  obtain ⟨_, rfl, opened⟩ := afterName.of_sign ascii (by rintro d ⟨⟩; decide)
  have reset : Recast name turns [] (inner ++ .code ')' :: rest) _ :=
    opened.congr_front (by rw [joinsName_append_code]; decide)
  obtain ⟨inside, _, rfl, turned, closed⟩ :=
    reset.exists_append ascii (by simpa using within) (stops_code (by decide) (by decide) rest)
  obtain ⟨z, rfl, last⟩ := closed.of_sign ascii (by rintro d ⟨⟩; decide)
  refine ⟨inside, z, by simp [callLexemes], turned, last.congr_front ?_⟩
  rw [joinsName_append_code, joinsName_callLexemes]
  decide

end

end Recast

/-! ### Replacing calls -/

section

variable {name : Text} {turns : Text → List Lexeme → List Lexeme → Prop}

theorem Parsed.exists_recast (fair : Fair name turns)
    (total : ∀ {written : Text} {inside : List Lexeme}, Sealed inside → Balanced inside → ∃ new,
      turns written inside new)
    {front ls : List Lexeme} {calls : Calls} (parsed : Parsed name front ls calls)
    {s : Text} (read : lexemes s = front ++ ls) (plain : ∀ l ∈ ls, l.isLineComment = false) :
    ∃ ms, Recast name turns front ls ms := by
  induction parsed generalizing s with
  | done front => exact ⟨[], .done front⟩
  | @copy front l ls rest none _ ih =>
      rw [List.append_cons] at read
      obtain ⟨ms, recast⟩ := ih read (List.forall_mem_cons.mp plain).2
      exact ⟨l :: ms, .keep none recast⟩
  | @call front written inner ls inside rest cut _ _ ihInner ih =>
      rw [List.forall_mem_append] at plain
      have quiet : ∀ l ∈ inner, l.isLineComment = false := fun l member =>
        plain.1 l (by simp [callLexemes, member])
      have closed := sealed_inner read quiet
      obtain ⟨inside, within⟩ := ihInner closed.lexemes_text quiet
      obtain ⟨new, turned⟩ : ∃ new, turns written inside new :=
        total (within.sealed fair closed) (within.balanced fair cut.balanced)
      rw [← List.append_assoc] at read
      obtain ⟨ms, recast⟩ := ih read plain.2
      exact ⟨new ++ ms, .call cut within turned recast⟩

theorem Recast.replaceM {action : List Text → Except Fault (Option Text)}
    (answers : ∀ {written : Text} {inside new : List Lexeme}, turns written inside new → ∃ answer,
      action (splitArguments (inside.flatMap Lexeme.text)) = .ok answer ∧
        answer.getD (written ++ '(' :: (inside.flatMap Lexeme.text ++ [')'])) =
          new.flatMap Lexeme.text)
    {front ls ms : List Lexeme} {calls : Calls} (parsed : Parsed name front ls calls)
    (recast : Recast name turns front ls ms) : calls.replaceM action =
      .ok (ms.flatMap Lexeme.text) := by
  induction parsed generalizing ms with
  | done front =>
      rw [recast.of_nil]
      rfl
  | @copy front l ls rest none _ ih =>
      obtain ⟨ms, rfl, later⟩ := recast.of_startsNoCall none
      have copied (x : Text) : (Calls.copy x rest).replaceM action =
          .ok (x ++ ms.flatMap Lexeme.text) := by
        induction x with
        | nil => exact ih later
        | cons c x ihx =>
            rw [Calls.copy, List.foldr_cons, Calls.replaceM, ← Calls.copy, ihx]
            rfl
      exact copied l.text
  | @call front written inner ls inside rest cut _ _ ihInner ih =>
      obtain ⟨within, new, ms, rfl, turned, made, later⟩ := recast.of_callCut cut
      obtain ⟨answer, found, text⟩ := answers made
      rw [Calls.replaceM, ihInner turned, ih later, List.flatMap_append, ← text]
      simp only [bind, Except.bind, found]
      rfl

end

end LiteSql
