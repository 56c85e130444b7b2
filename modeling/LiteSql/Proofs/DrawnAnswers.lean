import LiteSql.Proofs.Draw
import LiteSql.Proofs.Answers
import LiteSql.Proofs.Listing

/-! What the answers to calls draw. The draws of a text are those of its arguments, and every answer
but one writes each argument that draws at most once. -/

namespace LiteSql

open Mode (Closes)

namespace Trail

/-! ### Going on from a trail -/

/-- Behind a trail that is no draw, a text that does not go on with a word is read as from the
start. -/
theorem read_of_idle {u : Trail} (idle : u.isDraw = false) {s : Text}
    (stop : s.head?.any isWordChar = false)
    (q : ScanState) : count q u s = count q ready s ∧ (s ≠ [] → after q u s = after q ready s) := by
  cases s with
  | nil => exact ⟨rfl, fun none => absurd rfl none⟩
  | cons c s =>
      have other : isWordChar c = false := stop
      have step : u.step q c = ready.step q c := by
        rw [Trail.step, Trail.step, next_other u other, next_other ready other, idle]
        rfl
      rw [count, count, after, after, step, completes_of_not_isDraw idle,
        completes_of_not_isDraw rfl]
      exact ⟨rfl, fun _ => rfl⟩

theorem step_blank {q : ScanState} {t : Trail} (closed : q.isOpen = false → t = ready) {c : Char}
    (blank : isBlank c = true) : (t.step q c).isDraw = t.isDraw := by
  cases opened : q.isOpen with
  | false => rw [step_of_closed opened, closed opened]
  | true =>
      rw [step_of_isOpen opened, next_other t (isWordChar_of_isBlank blank), blank]
      cases t.isDraw <;> rfl

theorem closed_after (s : Text) : (scan s).isOpen = false → after .code ready s = ready := by
  intro closed
  have fits := fits_after s
  rwa [Fits, closed, if_neg Bool.false_ne_true] at fits

theorem isDraw_after_blanks {s blanks : Text} (blank : ∀ c ∈ blanks, isBlank c = true) :
    (after .code ready (s ++ blanks)).isDraw = (after .code ready s).isDraw := by
  induction blanks generalizing s with
  | nil => rw [List.append_nil]
  | cons c blanks ih =>
      obtain ⟨first, others⟩ := List.forall_mem_cons.mp blank
      have grouped : s ++ c :: blanks = s ++ [c] ++ blanks := by rw [List.append_assoc]; rfl
      rw [grouped, ih others, after_append]
      exact step_blank (closed_after s) first

theorem read_dropWhile (s : Text) : count .code ready (s.dropWhile isBlank) = count .code ready s ∧
    after .code ready (s.dropWhile isBlank) = after .code ready s := by
  induction s with
  | nil => exact ⟨rfl, rfl⟩
  | cons c s ih =>
      cases blank : isBlank c with
      | false =>
          rw [List.dropWhile_cons_of_neg (by simp [blank])]
          exact ⟨rfl, rfl⟩
      | true =>
          have state : ScanState.code.step c = .code :=
            ScanState.step_of_isOpen rfl (ScanState.isNeutral_of_class (by decide) blank)
          rw [List.dropWhile_cons_of_pos blank, count, after, state,
            step_ready (isWordChar_of_isBlank blank), completes_of_not_isDraw rfl, ih.1, ih.2]
          exact ⟨(Nat.zero_add _).symm, rfl⟩

end Trail

open Trail

/-! ### The draws of arguments -/

theorem draws_trimEnd (s : Text) : draws (trimEnd s) = draws s ∧
    (after .code ready (trimEnd s)).isDraw = (after .code ready s).isDraw := by
  obtain ⟨tail, cut, blank⟩ := exists_dropEndWhile isBlank s
  have quiet (q : ScanState) (t : Trail) :=
    count_eq_zero (fun c member => ne_paren_of_isBlank (blank c member)) q t
  have whole := isDraw_after_blanks (s := dropEndWhile isBlank s) blank
  rw [← cut] at whole
  refine ⟨?_, whole.symm⟩
  rw [draws_eq_count, draws_eq_count, cut, count_append, quiet, ← cut]
  rfl

theorem draws_trim (s : Text) : draws (trim s) = draws s ∧
    (after .code ready (trim s)).isDraw = (after .code ready s).isDraw := by
  obtain ⟨front, last⟩ := read_dropWhile s
  obtain ⟨same, ends⟩ := draws_trimEnd (s.dropWhile isBlank)
  refine ⟨same.trans ?_, ends.trans (congrArg isDraw last)⟩
  rw [draws_eq_count, draws_eq_count, front]

theorem read_piecesAt {x : Text} {done ls : List Lexeme} (lexed : lexemes x = done ++ ls)
    (depth : Int)
    {q : ScanState} {t : Trail} (state : scan (done.flatMap Lexeme.text) = q)
    (trail : after .code ready (done.flatMap Lexeme.text) = t) :
    ∃ piece rest, piecesAt depth ls = piece :: rest ∧
      count q t (ls.flatMap Lexeme.text) = count q t piece + total draws rest ∧
      (rest = [] → after q t (ls.flatMap Lexeme.text) = after q t piece) ∧
      ∀ last, rest.getLast? = some last → after q t (ls.flatMap Lexeme.text) =
        after .code ready last := by
  induction ls generalizing done depth q t with
  | nil => exact ⟨[], [], rfl, rfl, fun _ => rfl, by simp⟩
  | cons l ls ih =>
      have lexed' : lexemes x = (done ++ [l]) ++ ls := by rw [lexed, List.append_assoc]; rfl
      have state' : scan ((done ++ [l]).flatMap Lexeme.text) = q.after l.text := by
        rw [List.flatMap_append, List.flatMap_singleton, scan_append, state]
      have trail' : after .code ready ((done ++ [l]).flatMap Lexeme.text) = after q t l.text := by
        rw [List.flatMap_append, List.flatMap_singleton, after_append, trail, ← state]
        rfl
      rw [piecesAt, List.flatMap_cons, count_append, after_append]
      split
      · next comma =>
          obtain ⟨rfl, -⟩ := comma
          have opened : q.isOpen = true := by
            rw [← state]
            exact isOpen_scan_of_lexemes lexed (by decide)
          have code : q.after (Lexeme.code ',').text = .code :=
            ScanState.step_of_isOpen opened (by decide)
          have fresh : after q t (Lexeme.code ',').text = ready := by
            have step : after q t (Lexeme.code ',').text = t.step q ',' := rfl
            rw [step, step_of_isOpen opened, next_other t (by decide)]
            rfl
          have silent : count q t (Lexeme.code ',').text = 0 :=
            count_eq_zero (by simp [Lexeme.text]) q t
          rw [code] at state'
          rw [fresh] at trail'
          obtain ⟨piece, rest, pieces, counted, alone, ended⟩ := ih lexed' depth state' trail'
          rw [silent, code, fresh]
          refine ⟨[], piece :: rest, by rw [pieces], ?_, ?_, ?_⟩
          · rw [counted, ← draws_eq_count]
            rfl
          · intro none
            cases none
          · intro last found
            cases rest with
            | nil =>
                obtain rfl : piece = last := Option.some.inj found
                exact alone rfl
            | cons other rest => exact ended last (by rwa [List.getLast?_cons_cons] at found)
      · obtain ⟨piece, rest, pieces, counted, alone, ended⟩ :=
          ih lexed' (depth + l.turn) state' trail'
        refine ⟨l.text ++ piece, rest, by rw [pieces]; rfl, ?_, ?_, ended⟩
        · rw [counted, count_append, Nat.add_assoc]
        · intro none
          rw [alone none, after_append]

theorem total_draws_trim (pieces : List Text) : total draws (pieces.map trim) =
    total draws pieces := by
  induction pieces with
  | nil => rfl
  | cons x pieces ih => rw [List.map_cons, total, total, ih, (draws_trim x).1]

/-- The draws of a text are those of its arguments, and a draw that its last argument leaves open is
open at its end. -/
theorem draws_splitArguments (s : Text) : total draws (splitArguments s) = draws s ∧
    ∀ last, (splitArguments s).getLast? = some last →
      (after .code ready last).isDraw = (after .code ready s).isDraw := by
  rw [splitArguments]
  split
  · next blank =>
      have none : draws s = 0 := by
        rw [draws_eq_count]
        exact count_eq_zero (fun c member => ne_paren_of_isBlank
          (List.all_eq_true.mp blank c member)) _ _
      exact ⟨none.symm, by simp⟩
  · have state : scan (([] : List Lexeme).flatMap Lexeme.text) = .code := rfl
    have trail : after .code ready (([] : List Lexeme).flatMap Lexeme.text) = ready := rfl
    obtain ⟨piece, rest, pieces, counted, alone, ended⟩ :=
      read_piecesAt (List.nil_append (lexemes s)).symm 0 state trail
    rw [flatMap_text_lexemes] at counted alone ended
    rw [pieces, total_draws_trim, total, draws_eq_count s, counted, draws_eq_count piece]
    refine ⟨rfl, fun last found => ?_⟩
    rw [List.getLast?_map, Option.map_eq_some_iff] at found
    obtain ⟨whole, found, rfl⟩ := found
    rw [(draws_trim whole).2]
    cases rest with
    | nil =>
        obtain rfl : piece = whole := Option.some.inj found
        rw [alone rfl]
    | cons other rest => rw [ended whole (by rwa [List.getLast?_cons_cons] at found)]

/-! ### Fixed texts around arguments -/

theorem Mode.Closes.isOpen {strict : Bool} {s : Text} (closes : Closes strict s) :
    (scan s).isOpen = true := by
  obtain ⟨last, reads, opened, -⟩ := closes
  rwa [← Mode.scan_of_read reads]

theorem forall_open_iff (holds : ScanState → Prop) :
    (∀ q, q.isOpen = true → holds q) ↔ ∀ q ∈ [ScanState.code, .dash, .slash], holds q := by
  constructor
  · intro all q member
    have opened : ∀ q ∈ [ScanState.code, .dash, .slash], q.isOpen = true := by decide
    exact all q (opened q member)
  · intro checked q opened
    refine checked q ?_
    cases q <;> simp_all [ScanState.isOpen]

/-- A text that ends in code, completes no draw and leaves none open, whatever comes before it in
code. -/
def Severs (s : Text) : Prop :=
  ∀ q : ScanState, q.isOpen = true → ∀ t : Trail, q.after s = .code ∧ count q t s = 0 ∧
    after q t s = ready

instance (s : Text) : Decidable (Severs s) :=
  decidable_of_iff
    (∀ q ∈ [ScanState.code, .dash, .slash], ∀ t ∈ trails, q.after s = .code ∧ count q t s = 0 ∧
      after q t s = ready)
    (by
      rw [Severs, forall_open_iff]
      refine ⟨fun checked q member t => ?_, fun all q member t _ => all q member t⟩
      have filled : s ≠ [] := by
        rintro rfl
        cases (checked q member spent (by decide)).2.2
      obtain ⟨u, among, like⟩ := exists_like t
      obtain ⟨counted, trail⟩ := like.read filled q
      rw [counted, trail]
      exact checked q member u among)

/-- A text that draws `n` random numbers, ends in code and leaves no draw open, where none is open
before it. -/
def Costs (n : Nat) (s : Text) : Prop :=
  ∀ q : ScanState, q.isOpen = true → q.after s = .code ∧ count q ready s = n ∧
    after q ready s = ready

instance (n : Nat) (s : Text) : Decidable (Costs n s) := decidable_of_iff' _ (forall_open_iff _)

theorem Severs.costs {s : Text} (severs : Severs s) : Costs 0 s := fun q opened =>
    severs q opened ready

theorem Costs.append {n m : Nat} {x y : Text} (first : Costs n x) (second : Costs m y) :
    Costs (n + m) (x ++ y) := by
  intro q opened
  obtain ⟨state, counted, trail⟩ := first q opened
  rw [ScanState.after_append, count_append, after_append, state, counted, trail]
  obtain ⟨state', counted', trail'⟩ := second .code rfl
  exact ⟨state', by rw [counted'], trail'⟩

theorem Costs.around {n : Nat} {x argument y : Text} (front : Costs n x)
    (closes : Closes false argument)
    (severs : Severs y) : Costs (n + draws argument) (x ++ argument ++ y) := by
  intro q opened
  obtain ⟨state, counted, trail⟩ := front q opened
  obtain ⟨state', counted', trail'⟩ := severs _ closes.isOpen (after .code ready argument)
  have middle : ScanState.code.after argument = scan argument := rfl
  simp only [ScanState.after_append, count_append, after_append, state, counted, trail, middle,
    state', counted', trail', draws_eq_count, Nat.add_zero, true_and]

/-- Arguments with a fixed text between them draw what they draw apart, and end as the last one
does. -/
theorem draws_joinWith {separator : Text} (severs : Severs separator) {arguments : List Text}
    (closes : ∀ argument ∈ arguments, (scan argument).isOpen = true) :
    draws (joinWith separator arguments) = total draws arguments ∧
      ∀ last, arguments.getLast? = some last →
        after .code ready (joinWith separator arguments) = after .code ready last := by
  fun_induction joinWith separator arguments with
  | case1 => exact ⟨rfl, by simp⟩
  | case2 argument =>
      refine ⟨rfl, fun last found => ?_⟩
      obtain rfl : argument = last := Option.some.inj found
      rfl
  | case3 first second rest ih =>
      obtain ⟨here, later⟩ := List.forall_mem_cons.mp closes
      obtain ⟨counted, ended⟩ := ih later
      obtain ⟨state, silent, trail⟩ := severs _ here (after .code ready first)
      have middle : ScanState.code.after first = scan first := rfl
      refine ⟨?_, fun last found => ?_⟩
      · rw [draws_eq_count, count_append, count_append, after_append, ScanState.after_append,
          middle, state, silent, trail, ← draws_eq_count, ← draws_eq_count, counted]
        rfl
      · rw [after_append, after_append, ScanState.after_append, middle, state, trail]
        exact ended last (by rwa [List.getLast?_cons_cons] at found)

/-! ### Actions -/

/-- An action that writes no more draws than its arguments have and leaves none open, except that
where signs must be applied an answer may end with the last argument. -/
def Modest (strict : Bool) (action : List Text → Except Fault (Option Text)) : Prop :=
  ∀ arguments answer, (∀ argument ∈ arguments, Closes strict argument) →
    action arguments = .ok (some answer) →
    ∀ q : ScanState, q.isOpen = true → (strict = true → q = .code) →
      count q ready answer ≤ total draws arguments ∧
        (Below (after q ready answer) ready ∨ strict = true ∧ ∃ last,
          arguments.getLast? = some last ∧
          after q ready answer = after .code ready last)

theorem modest_of_costs {action : List Text → Except Fault (Option Text)}
    (costs : ∀ arguments answer, (∀ argument ∈ arguments, Closes false argument) →
      action arguments = .ok (some answer) → ∃ n ≤ total draws arguments, Costs n answer) :
        Modest false action := by
  intro arguments answer closes answered q opened _
  obtain ⟨n, bound, cost⟩ := costs arguments answer closes answered
  obtain ⟨-, counted, trail⟩ := cost q opened
  exact ⟨by rwa [counted], .inl (by rw [trail]; exact .refl ready)⟩

theorem modest_unixTimestamp : Modest false fun arguments =>
    .ok (Rule.unixTimestamp arguments) := by
  refine modest_of_costs fun arguments answer closes answered => ?_
  have written : Rule.unixTimestamp arguments = some answer := Except.ok.inj answered
  match arguments, written with
  | [], rfl => exact ⟨0, le_rfl, by decide +kernel⟩
  | [time], rfl =>
    have front : Costs 0 "CAST(strftime('%s', " := by decide +kernel
    exact ⟨_, by simp [total], front.around (closes time List.mem_cons_self) (by decide)⟩

theorem modest_enum : Modest false fun _ => .ok (some "TEXT") := by
  intro arguments answer _ answered q opened _
  cases answered
  have spent : ∀ q ∈ [ScanState.code, .dash, .slash], count q ready "TEXT" = 0 ∧
      after q ready "TEXT" = spent := by decide
  obtain ⟨counted, trail⟩ := (forall_open_iff _).mpr spent q opened
  exact ⟨by rw [counted]; exact Nat.zero_le _, .inl (.inr (.inl trail))⟩

theorem modest_concat : Modest true fun arguments =>
    .ok (if arguments.isEmpty then none else some (joinWith " || " arguments)) := by
  intro arguments answer closes answered q _ code
  rw [code rfl]
  have written : (if arguments.isEmpty then none
      else some (joinWith " || " arguments)) = some answer :=
    Except.ok.inj answered
  have severs : Severs " || " := by decide
  obtain ⟨counted, ended⟩ := draws_joinWith severs fun argument member =>
    (closes argument member).isOpen
  split at written
  · cases written
  · next present =>
      cases written
      rw [← draws_eq_count, counted]
      refine ⟨le_rfl, .inr ⟨rfl, ?_⟩⟩
      have filled : arguments ≠ [] := by simpa using present
      exact ⟨_, List.getLast?_eq_some_getLast filled,
        ended _ (List.getLast?_eq_some_getLast filled)⟩

theorem isRandom_iff (value : Text) : Rounding.isRandom value = true ↔ draws value ≠ 0 := by
  rw [Rounding.isRandom, Pattern.startsInCode, draws, ne_eq, List.length_eq_zero_iff,
    List.filter_eq_nil_iff, List.any_eq_true]
  push Not
  rfl

theorem costs_round (direction : Rounding.Direction) {value : Text} (closes : Closes false value)
    (calm : draws value = 0) : Costs 0 (Rounding.round direction value) := by
  have truncated {n : Nat} {x : Text} (front : Costs n x) :
      Costs n (x ++ ("CAST(" ++ value ++ " AS INTEGER)")) := by
    have opened : Costs 0 "CAST(" := by decide
    have cost := front.append (opened.around closes (y := " AS INTEGER)") (by decide))
    rwa [calm] at cost
  have both (sign comparison : Text) (first : Severs sign) (second : Severs comparison) :
      Costs 0 ("(" ++ ("CAST(" ++ value ++ " AS INTEGER)") ++ sign ++ value ++ comparison ++
        ("CAST(" ++ value ++ " AS INTEGER)") ++ "))") := by
    have opened : Costs 0 "(" := by decide
    have compared := ((truncated opened).append first.costs).around closes second
    rw [calm] at compared
    have closed : Severs "))" := by decide
    exact (truncated compared).append closed.costs
  cases direction with
  | up => exact both " + (" " > " (by decide) (by decide)
  | down => exact both " - (" " < " (by decide) (by decide)

theorem modest_rounding (direction : Rounding.Direction) :
    Modest false fun arguments => .ok (Rounding.convert direction arguments) := by
  refine modest_of_costs fun arguments answer closes answered => ?_
  have written : Rounding.convert direction arguments = some answer := Except.ok.inj answered
  match arguments, written with
  | [value], written =>
    have argument := closes value List.mem_cons_self
    rw [Rounding.convert] at written
    split at written
    · cases written
      have opened : Costs 0 "(SELECT " := by decide
      have drawn : Costs 0 (Rounding.round direction "v") :=
        costs_round direction ⟨Mode.start, rfl, rfl, fun _ => rfl⟩ rfl
      have middle : Severs " FROM (SELECT " := by decide
      have front := (opened.append drawn).append middle.costs
      exact ⟨_, by simp [total], front.around argument (by decide)⟩
    · next calm =>
        cases written
        exact ⟨0, Nat.zero_le _, costs_round direction argument
          (by simpa [isRandom_iff] using calm)⟩

theorem read_inString {s : Text} (plain : ∀ c ∈ s, c ≠ '\x27' ∧ c ≠ '\x5c') :
    ScanState.string.after s = .string ∧ count .string ready s = 0 ∧
      after .string ready s = ready := by
  induction s with
  | nil => exact ⟨rfl, rfl, rfl⟩
  | cons c s ih =>
      obtain ⟨here, later⟩ := List.forall_mem_cons.mp plain
      have stays : ScanState.string.step c = .string := by simp [ScanState.step, here]
      obtain ⟨state, counted, trail⟩ := ih later
      refine ⟨?_, ?_, ?_⟩
      · rw [ScanState.after, List.foldl_cons, stays]
        exact state
      · rw [count, stays, completes_of_not_isDraw rfl, step_of_closed rfl, counted]
        rfl
      · rw [after, stays, step_of_closed rfl, trail]

theorem modest_move (direction : Int) : Modest false (DayInterval.move direction) := by
  refine modest_of_costs fun arguments answer closes answered => ?_
  match arguments, answered with
  | [date, amount], answered =>
    rw [DayInterval.move] at answered
    split at answered
    · cases answered
    · next found =>
        obtain ⟨offset, -, same⟩ := (bind_eq_ok_iff _ _ _).mp answered
        cases same
        have interval : Severs (", '" ++ signedDecimal (direction * offset) ++ " days')") := by
          intro q opened t
          have quoted : ∀ q ∈ [ScanState.code, .dash, .slash], ∀ t ∈ trails,
              q.after ", '" = .string ∧ count q t ", '" = 0 ∧ after q t ", '" = ready := by decide
          obtain ⟨u, among, like⟩ := exists_like t
          obtain ⟨same, trail⟩ := like.read (s := ", '") (by simp) q
          obtain ⟨state, counted, ended⟩ := (forall_open_iff _).mpr quoted q opened u among
          rw [← same] at counted
          rw [← trail] at ended
          obtain ⟨within, silent, stays⟩ := read_inString (plain_signedDecimal (direction * offset))
          simp only [ScanState.after_append, count_append, after_append, state, counted, ended,
            within, silent, stays]
          decide
        have opened : Costs 0 "DATETIME(" := by decide
        have cost := opened.around (closes date List.mem_cons_self) interval
        rw [← List.append_assoc, ← List.append_assoc] at cost
        exact ⟨_, by simp [total], cost⟩

/-! ### Arguments written as clauses -/

/-- Behind a character that is part of no word, a name may be open but no word is. -/
theorem Trail.below_ready_step (q : ScanState) (t : Trail) {c : Char}
    (other : isWordChar c = false) :
    Below ready (t.step q c) := by
  cases opened : q.isOpen with
  | false =>
      rw [step_of_closed opened]
      exact .refl ready
  | true =>
      rw [step_of_isOpen opened, next_other t other]
      split
      · exact .inr (.inr ⟨rfl, rfl⟩)
      · exact .refl ready

theorem draws_exchange_comma {front x : Text} (spacing : Spacing x) (outside : scan front ≠ .line)
    (back : Text) :
    draws (front ++ (", " ++ back)) ≤ draws (front ++ (x ++ back)) := by
  have comma : Neutral ", " := ⟨by decide, by decide⟩
  have old := (ScanState.after_of_isNeutral outside spacing.neutral.1 spacing.neutral.2).2
  have new := (ScanState.after_of_isNeutral outside comma.1 comma.2).2
  have fresh (q : ScanState) (t : Trail) : after q t ", " = ready := by
    have step : t.step q ',' = ready := by
      rw [step]
      split
      · exact next_other t (by decide)
      · rfl
    have letters : (", " : Text) = [',', ' '] := rfl
    rw [letters, after, step, after, step_ready (by decide)]
    rfl
  have below : Below ready (after (scan front) (after .code ready front) x) := by
    obtain ⟨early, c, rfl, blank⟩ := spacing.ends
    rw [after_append]
    exact below_ready_step _ _ (isWordChar_of_isBlank blank)
  have silent : count (scan front) (after .code ready front) ", " = 0 :=
    count_eq_zero (by decide) _ _
  have middle : ScanState.code.after front = scan front := rfl
  simp only [draws_eq_count, count_append, middle, old, new, silent, fresh]
  have later := below.count_le (scan front).settle back
  omega

theorem Mode.Closes.ne_line {strict : Bool} {front back : Text}
    (closes : Closes strict (front ++ back)) :
    scan front ≠ .line := by
  obtain ⟨last, reads, -⟩ := closes
  obtain ⟨middle, first, -⟩ := Mode.exists_read_of_append reads
  rw [← Mode.scan_of_read first]
  exact (Mode.sound_of_read first Mode.sound_start).outside

theorem draws_append_le (x y : Text) : draws x ≤ draws (x ++ y) := by
  rw [draws_eq_count, draws_eq_count, count_append]
  exact Nat.le_add_right _ _

theorem draws_arguments? {arguments list : List Text}
    (closes : ∀ argument ∈ arguments, Closes false argument)
    (found : Substring.arguments? arguments = some list) :
    draws (joinArguments list) ≤ total draws arguments := by
  have severs : Severs ", " := by decide
  have comma : Neutral ", " := ⟨by decide, by decide⟩
  have listed := (draws_joinWith severs fun argument member => (closes argument member).isOpen).1
  match arguments, found with
  | [argument], found =>
    have whole := closes argument List.mem_cons_self
    obtain ⟨m, start, -⟩ := Option.map_eq_some_iff.mp found
    obtain ⟨text, between, position, rest, rfl, spaced,
        ⟨pair, -⟩ | ⟨more, length, tail, rfl, spaced', -, triple⟩⟩ :=
      arguments?_fromFor start
    · rw [pair] at found
      cases found
      have first := draws_exchange_comma spaced whole.ne_line (position ++ rest)
      have cut := draws_append_le (text ++ ", " ++ position) rest
      simp only [List.append_assoc] at cut
      simpa [joinArguments, joinWith, total] using cut.trans first
    · rw [triple] at found
      cases found
      have first := draws_exchange_comma spaced whole.ne_line
        (position ++ (more ++ (length ++ tail)))
      have exchanged := whole.exchange spaced.neutral comma
      rw [← List.append_assoc, ← List.append_assoc] at exchanged
      have second := draws_exchange_comma spaced' exchanged.ne_line (length ++ tail)
      have cut := draws_append_le (text ++ ", " ++ position ++ ", " ++ length) tail
      simp only [List.append_assoc] at cut second
      simpa [joinArguments, joinWith, total] using cut.trans (second.trans first)
  | [], found =>
      cases found
      exact listed.le
  | first :: second :: rest, found =>
      cases found
      exact listed.le

theorem modest_substring : Modest false fun arguments => .ok (Substring.convert arguments) := by
  refine modest_of_costs fun arguments answer closes answered => ?_
  have written : Substring.convert arguments = some answer := Except.ok.inj answered
  obtain ⟨list, found, written⟩ := Option.bind_eq_some_iff.mp written
  split at written
  · cases written
    have front : Costs 0 "SUBSTR(" := by decide
    have cost := front.around (closes_arguments? closes found) (y := ")") (by decide)
    rw [Nat.zero_add] at cost
    exact ⟨_, draws_arguments? closes found, cost⟩
  · cases written

theorem Trail.count_eq_of_word {q p : ScanState} {t u : Trail} (one : q.isOpen = true)
    (other : p.isOpen = true)
    (outside : t.inWord = false) (outside' : u.inWord = false) {s : Text}
    (starts : s.head?.any isWordChar = true) :
    count q t s = count p u s := by
  cases s with
  | nil => cases starts
  | cons c s =>
      have letter : isWordChar c = true := starts
      have neutral : ScanState.isNeutral c = true := ScanState.isNeutral_of_class (by decide) letter
      have plain := ne_paren_of_isWordChar letter
      rw [count, count, step_of_isOpen one, step_of_isOpen other,
        ScanState.step_of_isOpen one neutral, ScanState.step_of_isOpen other neutral,
        next_of_not_inWord outside letter, next_of_not_inWord outside' letter,
        completes_eq_false plain, completes_eq_false plain]

theorem inWord_after {s : Text} (opened : (scan s).isOpen = true) :
    (after .code ready s).inWord = s.getLast?.any isWordChar := by
  have fits := fits_after s
  rwa [Fits, if_pos opened] at fits

theorem Trail.after_spent {q : ScanState} (opened : q.isOpen = true) {w : Text}
    (letters : ∀ c ∈ w, isWordChar c = true) :
    after q spent w = spent := by
  induction w generalizing q with
  | nil => rfl
  | cons c w ih =>
      obtain ⟨letter, others⟩ := List.forall_mem_cons.mp letters
      have stays : spent.next c = spent := by rw [next, if_pos letter]
      rw [after, step_of_isOpen opened, stays]
      exact ih (by rwa [ScanState.isOpen_step_letter q letter]) others

theorem Trail.after_word {q : ScanState} {t : Trail} (opened : q.isOpen = true)
    (outside : t.inWord = false) {d : Char}
    {k w : Text} (ascii : IsAsciiWord (d :: k)) (other : sameIgnoringCase 'R' d = false)
    (named : spelled (d :: k) w = true) : after q t w = spent := by
  obtain ⟨filled, letters⟩ := isWordChar_of_spelled ascii named
  obtain ⟨c, w, rfl⟩ := List.exists_cons_of_ne_nil filled
  obtain ⟨letter, others⟩ := List.forall_mem_cons.mp letters
  have same : foldCase d = foldCase c := by
    rw [spelled_iff_foldCase] at named
    exact (List.cons.inj named).1
  have miss : sameIgnoringCase 'R' c = false := by rwa [sameIgnoringCase, ← same]
  have first : t.next c = spent := by
    have start : extend 0 c = spent := by
      have letter : Trail.letters[0]? = some 'R' := rfl
      rw [extend, letter, Option.any_some, miss, if_neg Bool.false_ne_true]
    rw [next_of_not_inWord outside letter, next, if_pos letter]
    exact start
  rw [after, step_of_isOpen opened, first]
  exact after_spent (by rwa [ScanState.isOpen_step_letter q letter]) others

theorem draws_splitSeparator? {arguments : List Text} {values delimiter : Text}
    (closes : ∀ argument ∈ arguments, Closes false argument)
    (found : GroupConcat.splitSeparator? arguments = some (values, delimiter)) :
    draws values + draws delimiter ≤ total draws arguments := by
  obtain ⟨clause, top, found⟩ := Option.bind_eq_some_iff.mp found
  obtain ⟨front, rest, caps, cut, place, taken, outside⟩ := spans_of_topLevel? top
  have ascii : IsAsciiWord "SEPARATOR" := by decide
  obtain ⟨⟨named, before, behind⟩, -⟩ := (Pattern.spans_wholeWord_iff ascii _ _ _ _ _).mp taken
  have neutral := neutral_separator taken
  have severs : Severs ", " := by decide
  have listed := (draws_joinWith severs fun argument member => (closes argument member).isOpen).1
  have body := closes_joinArguments closes
  simp only [Match.stop, place] at found
  rw [joinArguments] at body cut outside found
  rw [cut] at body outside found listed
  have opened := (body.cut neutral outside).1.isOpen
  have trail : after (scan front) (after .code ready front) clause.text = spent :=
    after_word opened (by rw [inWord_after opened, before]) ascii (by decide) named
  have state : (scan front).after clause.text = .code := by
    have quiet := (ScanState.after_of_isNeutral (s := clause.text) body.ne_line neutral.1
      neutral.2).2
    rw [quiet]
    cases state : scan front <;> simp_all [ScanState.isOpen, ScanState.settle]
  have idle := (read_of_idle (u := spent) rfl behind .code).1
  have middle : ScanState.code.after front = scan front := rfl
  rw [draws_eq_count, count_append, count_append, middle, trail, state, idle, ← draws_eq_count,
    ← draws_eq_count] at listed
  rw [List.take_left, ← List.append_assoc, ← List.length_append, List.drop_left] at found
  split at found
  · cases found
  · cases found
    rw [(draws_trimEnd front).1, (draws_trim rest).1, ← listed]
    omega

theorem draws_moved_clause {before text clause : Text} (one : Closes false before)
    (other : Closes false text)
    (apart : before.getLast?.any isWordChar = false) (starts : clause.head?.any isWordChar = true) :
    draws (text ++ " " ++ clause) + draws before = draws text + draws (before ++ clause) := by
  have blank : Neutral " " := ⟨by decide, by decide⟩
  have spaced : (scan (text ++ " ")).isOpen = true := by
    have joined := (other.joined blank (closes_nil false)).isOpen
    rwa [List.append_nil] at joined
  have outside : (after .code ready (text ++ " ")).inWord = false := by
    rw [inWord_after spaced, List.getLast?_append]
    rfl
  have same := count_eq_of_word one.isOpen spaced (by rw [inWord_after one.isOpen, apart])
    outside starts
  have silent : count (scan text) (after .code ready text) " " = 0 := count_eq_zero (by decide) _ _
  have first : ScanState.code.after before = scan before := rfl
  have second : ScanState.code.after (text ++ " ") = scan (text ++ " ") := rfl
  have third : ScanState.code.after text = scan text := rfl
  simp only [draws_eq_count]
  rw [count_append .code ready before, count_append .code ready (text ++ " "), first, second, same,
    count_append .code ready text, third, silent]
  omega

theorem modest_groupConcat : Modest false fun arguments => .ok (GroupConcat.convert arguments) := by
  refine modest_of_costs fun arguments answer closes answered => ?_
  have written : GroupConcat.convert arguments = some answer := Except.ok.inj answered
  obtain ⟨⟨values, delimiter⟩, found, written⟩ := Option.bind_eq_some_iff.mp written
  obtain ⟨first, second⟩ := closes_splitSeparator? closes found
  have bound := draws_splitSeparator? closes found
  have front : Costs 0 "GROUP_CONCAT(" := by decide
  have order_ascii : IsAsciiWord "ORDER" := by decide
  have by_ascii : IsAsciiWord "BY" := by decide
  have comma : Severs ", " := by decide
  dsimp only at written
  split at written
  · cases written
  · split at written
    · cases written
      have cost := (front.around first comma).around second (y := ")") (by decide)
      exact ⟨_, by simpa using bound, cost⟩
    · next order top =>
        cases written
        obtain ⟨before, rest, caps, cut, place, taken, outside⟩ := spans_of_topLevel? top
        obtain ⟨⟨word, blanks, last, text, named, -, -⟩, apart, -⟩ :=
          (Pattern.spans_wordPair_iff order_ascii by_ascii _ _ _ _ _).mp taken
        rw [cut] at first outside bound
        obtain ⟨unordered, ordering⟩ := first.cut (neutral_orderBy taken) outside
        rw [cut, place, List.take_left, List.drop_left]
        have blank : Neutral " " := ⟨by decide, by decide⟩
        have clauses := second.joined blank ordering
        have cost := (front.around unordered.trimEnd comma).around clauses (y := ")") (by decide)
        refine ⟨0 + draws (trimEnd before) + draws (delimiter ++ " " ++ (order.text ++ rest)), ?_,
          by simpa only [List.append_assoc] using cost⟩
        have starts : (order.text ++ rest).head?.any isWordChar = true := by
          obtain ⟨filled, letters⟩ := isWordChar_of_spelled order_ascii named
          obtain ⟨c, word, rfl⟩ := List.exists_cons_of_ne_nil filled
          rw [text]
          exact letters c List.mem_cons_self
        have moved := draws_moved_clause unordered second apart starts
        rw [(draws_trimEnd before).1]
        omega

end LiteSql
