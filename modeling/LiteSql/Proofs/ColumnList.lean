import LiteSql.Proofs.OneLine
import LiteSql.Statement.Layout

/-! The column list of a table definition. Laid out with one line for each column, a definition is
read back with the same table and the same columns. -/

namespace LiteSql

theorem append_inj_of_run {p : Char → Bool} {u v x y : Text} (same : u ++ x = v ++ y)
    (first : ∀ c ∈ u, p c = true) (second : ∀ c ∈ v, p c = true) (ended : x.head?.any p = false)
    (stopped : y.head?.any p = false) : u = v ∧ x = y := by
  have run {u x : Text} (members : ∀ c ∈ u, p c = true) (ended : x.head?.any p = false) :
      (u ++ x).takeWhile p = u := by
    rw [List.takeWhile_append_of_pos members]
    cases x with
    | nil => simp
    | cons c x =>
        have outside : p c = false := ended
        simp [outside]
  have front : u = v := by rw [← run first ended, same, run second stopped]
  subst front
  exact ⟨rfl, List.append_cancel_left same⟩

namespace Layout

open Pattern (Prefers Spans)

/-! ### The header -/

def isNameChar (c : Char) : Bool := !isBlank c && c != '('

/-- The words after which a table is only made if there is none. -/
def unlessWords : Pattern := .capture "unless" (.all ["IF", .gap, "NOT", .gap, "EXISTS", .gap])

theorem header_eq : header =
    .seq (.keyword ['C', 'R', 'E', 'A', 'T', 'E'])
      (.seq .gap (.seq (.keyword ['T', 'A', 'B', 'L', 'E']) (.seq .gap
      (.seq (.optional unlessWords) (.seq (.capture "table" (.someOf isNameChar)) .blanks))))) :=
        rfl

theorem filled_of_spelled {k w : Text} (ascii : IsAsciiWord k)
    (taken : startsIgnoringCase k w = true ∧ w.length = k.length) :
    w ≠ [] ∧ ∀ c ∈ w, (!isBlank c && c != '(') = true := by
  obtain ⟨present, letters⟩ := isWordChar_of_spelled ascii ((spelled_iff k w).mpr taken)
  refine ⟨present, fun c member => ?_⟩
  have letter := letters c member
  have filled : isBlank c = false := by
    by_contra blank
    rw [isWordChar_of_isBlank (by simpa using blank)] at letter
    cases letter
  have sign : c ≠ '(' := by
    rintro rfl
    exact absurd letter (by decide)
  simp [filled, sign]

theorem not_spans_unlessWords {table rest : Text} (members : ∀ c ∈ table, isNameChar c = true)
    (before : Option Char) (pos : Nat) : ¬ ∃ y after caps,
    table ++ ' ' :: '(' :: rest = y ++ after ∧
      unlessWords.Spans before pos y after caps := by
  rintro ⟨y, after, caps, whole, early, -, taken⟩
  simp only [Pattern.all, Spans, Pattern.spans_keyword_iff, Pattern.gap,
    Pattern.spans_someOf_iff] at taken
  obtain ⟨first, _, _, _, rfl, -, ⟨named, -⟩, gap, _, _, _, rfl, -, ⟨⟨present, blank⟩, -⟩, second,
      last, _, _, rfl, -, ⟨others, -⟩, -⟩ := taken
  obtain ⟨-, letters⟩ := filled_of_spelled (by decide) named
  obtain ⟨filled, signs⟩ := filled_of_spelled (by decide) others
  obtain ⟨d, gap, rfl⟩ := List.exists_cons_of_ne_nil present
  obtain ⟨c, second, rfl⟩ := List.exists_cons_of_ne_nil filled
  have solid := signs c List.mem_cons_self
  simp only [List.append_assoc] at whole
  obtain ⟨rfl, tail⟩ := append_inj_of_run (p := isNameChar) whole members letters
    (show isNameChar ' ' = false by decide) (by simp [isNameChar, blank d List.mem_cons_self])
  obtain ⟨-, tail⟩ := append_inj_of_run (p := isBlank) (u := [' ']) tail (by decide) blank rfl
    (by simpa using (Bool.and_eq_true_iff.mp solid).1)
  obtain ⟨rfl, -⟩ := List.cons.inj tail
  exact absurd solid (by decide)

def opening (guarded : Bool) : Text :=
  "CREATE TABLE " ++ (if guarded then "IF NOT EXISTS " else "").toList

theorem prefers_gap {before : Option Char} {pos : Nat} {after : Text}
    (filled : after.head?.any isBlank = false) :
    Pattern.gap.Prefers before pos [' '] after [] :=
  .someOf (by simp) (by decide) filled

theorem prefers_word {before : Option Char} {pos : Nat} {after : Text} (k : Text)
    (same : startsIgnoringCase k k = true) :
    (Pattern.keyword k).Prefers before pos k after [] :=
  .keyword same rfl

theorem prefers_unlessWords {before : Option Char} {pos : Nat} {after : Text}
    (filled : after.head?.any isBlank = false) :
    unlessWords.Prefers before pos "IF NOT EXISTS " after [⟨"unless", pos, pos + 14⟩] := by
  have words : (Pattern.all ["IF", .gap, "NOT", .gap, "EXISTS", .gap]).Prefers before pos
      ("IF".toList ++ ([' '] ++ ("NOT".toList ++ ([' '] ++ ("EXISTS".toList ++ [' '])))))
        after [] :=
    (prefers_word "IF" (by decide)).seq ((prefers_gap rfl).seq ((prefers_word "NOT" (by decide)).seq
      ((prefers_gap rfl).seq ((prefers_word "EXISTS" (by decide)).seq (prefers_gap filled)))))
  exact words.capture

theorem prefers_tableName {table : Text} (present : table ≠ [])
    (members : ∀ c ∈ table, isNameChar c = true)
    (before : Option Char) (pos : Nat) (rest : Text) :
    (Pattern.seq (.capture "table" (.someOf isNameChar)) .blanks).Prefers before pos
    (table ++ [' ']) ('(' :: rest)
      [⟨"table", pos, pos + table.length⟩] := by
  have ended : ([' '] ++ '(' :: rest).head?.any isNameChar = false :=
    show isNameChar ' ' = false by decide
  exact (Prefers.someOf present members ended).capture.seq (.many (by decide) rfl)

theorem prefers_createTable {p : Pattern} {x after : Text} {caps : List Capture}
    (filled : (x ++ after).head?.any isBlank = false)
    (later : p.Prefers (some ' ') 13 x after caps) :
    (Pattern.seq (.keyword ['C', 'R', 'E', 'A', 'T', 'E'])
      (.seq .gap (.seq (.keyword ['T', 'A', 'B', 'L', 'E'])
      (.seq .gap p)))).Prefers none 0 ("CREATE TABLE " ++ x) after caps := by
  have space : Pattern.gap.Prefers (some 'E') 12 [' '] (x ++ after) [] := prefers_gap filled
  have table : (Pattern.keyword ['T', 'A', 'B', 'L', 'E']).Prefers (some ' ') 7
      ['T', 'A', 'B', 'L', 'E']
      ([' '] ++ x ++ after) [] := prefers_word _ (by decide)
  have gap : Pattern.gap.Prefers (some 'E') 6 [' ']
      (['T', 'A', 'B', 'L', 'E'] ++ ([' '] ++ x) ++ after) [] :=
    prefers_gap rfl
  have create : (Pattern.keyword ['C', 'R', 'E', 'A', 'T', 'E']).Prefers none 0
      ['C', 'R', 'E', 'A', 'T', 'E']
      ([' '] ++ (['T', 'A', 'B', 'L', 'E'] ++ ([' '] ++ x)) ++ after) [] :=
        prefers_word _ (by decide)
  simpa using create.seq (gap.seq (table.seq (space.seq later)))

theorem prefers_header {table : Text} (guarded : Bool) (present : table ≠ [])
    (members : ∀ c ∈ table, isNameChar c = true) (rest : Text) :
    ∃ caps : List Capture, (caps.any fun c => c.label == "unless") = guarded ∧
      header.Prefers none 0 (opening guarded ++ (table ++ [' '])) ('(' :: rest)
        (⟨"table", (opening guarded).length, (opening guarded).length + table.length⟩ :: caps) := by
  have first : (table ++ [' '] ++ '(' :: rest).head?.any isBlank = false := by
    obtain ⟨c, table, rfl⟩ := List.exists_cons_of_ne_nil present
    have filled := members c List.mem_cons_self
    rw [isNameChar, Bool.and_eq_true, Bool.not_eq_true'] at filled
    exact filled.1
  rw [header_eq]
  cases guarded with
  | false =>
      have none : (Pattern.optional unlessWords).Prefers (some ' ') 13 []
          (table ++ [' '] ++ '(' :: rest) [] :=
        Prefers.empty.right (by simpa using not_spans_unlessWords members (some ' ') 13)
      refine ⟨[], rfl, ?_⟩
      exact prefers_createTable first (none.seq (prefers_tableName present members _ _ rest))
  | true =>
      have some : (Pattern.optional unlessWords).Prefers (some ' ') 13 "IF NOT EXISTS "
          (table ++ [' '] ++ '(' :: rest)
          [⟨"unless", 13, 27⟩] := (prefers_unlessWords first).left
      refine ⟨[⟨"unless", 13, 27⟩], rfl, ?_⟩
      exact prefers_createTable rfl (some.seq (prefers_tableName present members _ _ rest))

theorem isSome_lookup_captures (caps : List Capture) (label : String) (text : Capture → Text) :
    ((caps.map fun c => (c.label, text c)).lookup label).isSome = caps.any fun c =>
      c.label == label := by
  induction caps with
  | nil => rfl
  | cons c caps ih =>
      rw [List.map_cons, List.lookup_cons, List.any_cons]
      cases same : label == c.label with
      | true =>
          rw [beq_iff_eq] at same
          simp [same]
      | false =>
          rw [BEq.comm] at same
          rw [ih, same]
          rfl

theorem exists_matchStart?_header {table : Text} (guarded : Bool) (present : table ≠ [])
    (members : ∀ c ∈ table, isNameChar c = true) (rest : Text) : ∃ head : Match,
      header.matchStart? (opening guarded ++ (table ++ [' ']) ++ '(' :: rest) = some head ∧
        head.stop = (opening guarded ++ (table ++ [' '])).length ∧
          head.captured? "table" = some table ∧
        (head.captured? "unless").isSome = guarded := by
  obtain ⟨caps, flag, prefers⟩ := prefers_header guarded present members rest
  refine ⟨_, prefers.matchAt?, by rw [Match.stop, Nat.zero_add], ?_, ?_⟩
  · rw [Match.captured?, List.map_cons, List.lookup_cons_self]
    simp
  · rw [Match.captured?, isSome_lookup_captures, List.any_cons, flag]
    simp

theorem exists_spans_last {ps : List Pattern} {last : Pattern} {before : Option Char} {pos : Nat}
    {x after : Text}
    {caps : List Capture} (spans : (ps.foldr .seq last).Spans before pos x after caps) :
    ∃ y z early late, x = y ++ z ∧ caps = late ++ early ∧
      last.Spans (y.getLast?.or before) (pos + y.length) z after late := by
  induction ps generalizing before pos x caps with
  | nil => exact ⟨[], x, [], caps, rfl, by simp, by simpa using spans⟩
  | cons p ps ih =>
      obtain ⟨first, rest, one, _, rfl, rfl, -, others⟩ := spans
      obtain ⟨y, z, early, late, rfl, rfl, taken⟩ := ih others
      refine ⟨first ++ y, z, early ++ one, late, by simp, by simp, ?_⟩
      rwa [List.getLast?_append, Option.or_assoc, List.length_append, ← Nat.add_assoc]

theorem exists_table {s : Text} {head : Match} (found : header.matchStart? s = some head) :
    ∃ table, head.captured? "table" = some table ∧ table ≠ [] ∧ ∀ c ∈ table,
    isNameChar c = true := by
  obtain ⟨after, caps, -, -, spans, captures⟩ := Pattern.takes_of_matchAt? found rfl
  have row : header = [.keyword "CREATE", .gap, .keyword "TABLE", .gap,
      .optional unlessWords].foldr .seq
      (.seq (.capture "table" (.someOf isNameChar)) .blanks) := rfl
  rw [row] at spans
  obtain ⟨front, rest, early, _, text, rfl, table, blanks, _, _, rfl, rfl, ⟨_, rfl, taken⟩,
      -, rfl⟩ :=
    exists_spans_last spans
  obtain ⟨⟨present, members⟩, rfl⟩ := (Pattern.spans_someOf_iff _ _ _ _ _ _).mp taken
  refine ⟨table, ?_, present, members⟩
  rw [Match.captured?, captures, text]
  simp

/-! ### The columns -/

structure IsColumn (ls : List Lexeme) : Prop where
  item : Item ls
  closed : Sealed ls
  squeezed : Squeezed ls
  trimmed : trim (ls.flatMap Lexeme.text) = ls.flatMap Lexeme.text
  present : ls.flatMap Lexeme.text ≠ []

theorem IsColumn.onOneLine_eq {ls : List Lexeme} (column : IsColumn ls) :
    onOneLine (ls.flatMap Lexeme.text) = ls.flatMap Lexeme.text :=
  onOneLine_eq_self column.closed column.squeezed column.trimmed

theorem filter_onOneLine {columns : List (List Lexeme)} (valid : ∀ ls ∈ columns, IsColumn ls) :
    ((columns.map (List.flatMap Lexeme.text)).map onOneLine).filter (!·.isEmpty) =
      columns.map (List.flatMap Lexeme.text) := by
  have same : (columns.map (List.flatMap Lexeme.text)).map onOneLine =
      columns.map (List.flatMap Lexeme.text) := by
    rw [List.map_map]
    exact List.map_congr_left fun ls member => (valid ls member).onOneLine_eq
  rw [same, List.filter_eq_self]
  intro text member
  obtain ⟨ls, inside, rfl⟩ := List.mem_map.mp member
  simpa using (valid ls inside).present

theorem exists_read_of_infix {s : Text} {inner behind x : List Lexeme} {c : Char}
    (read : lexemes s = inner ++ .code c :: behind) (inside : x <:+: inner) :
    ∃ rest, rest ≠ [] ∧ lexemes (x.flatMap Lexeme.text ++ rest) = x ++ lexemes rest := by
  obtain ⟨front, back, rfl⟩ := inside
  rw [List.append_assoc, List.append_assoc] at read
  obtain ⟨-, later⟩ := lexemes_of_append read
  obtain ⟨-, last⟩ := lexemes_of_append later
  refine ⟨(back ++ .code c :: behind).flatMap Lexeme.text, by simp [Lexeme.text], ?_⟩
  rw [last, ← List.flatMap_append, later]

theorem exists_columns {body : Text} {n : Nat} (found : closing? body = some n) :
    ∃ columns : List (List Lexeme), (∀ ls ∈ columns, IsColumn ls) ∧
      ((splitArguments (body.take n)).map onOneLine).filter (!·.isEmpty) =
        columns.map (List.flatMap Lexeme.text) := by
  obtain ⟨inner, behind, read, level, length⟩ := exists_level_of_closingIn found
  have taken : body.take n = inner.flatMap Lexeme.text := by
    rw [(lexemes_of_append read).1, ← length, List.take_left]
  rw [taken, splitArguments, lexemes_front read]
  split
  · exact ⟨[], by simp, rfl⟩
  · obtain ⟨items, pieces, parts⟩ := exists_items level
    have lines : ∀ x ∈ items, ∃ ls, Item ls ∧ Sealed ls ∧ Squeezed ls ∧
        onOneLine (trim (x.flatMap Lexeme.text)) = ls.flatMap Lexeme.text := by
      intro x member
      obtain ⟨item, inside⟩ := parts x member
      obtain ⟨rest, present, again⟩ := exists_read_of_infix read inside
      exact item.exists_onOneLine present again
    choose! line item closed squeezed text using lines
    have same : ((piecesAt 0 inner).map trim).map onOneLine = (items.map line).map
        (List.flatMap Lexeme.text) := by
      rw [pieces, List.map_map, List.map_map, List.map_map]
      exact List.map_congr_left text
    refine ⟨(items.map line).filter fun ls => !(ls.flatMap Lexeme.text).isEmpty, ?_, ?_⟩
    · intro ls member
      obtain ⟨listed, filled⟩ := List.mem_filter.mp member
      obtain ⟨x, inside, rfl⟩ := List.mem_map.mp listed
      refine ⟨item x inside, closed x inside, squeezed x inside, ?_, by simpa using filled⟩
      rw [← text x inside, trim_onOneLine]
    · rw [same, List.filter_map]
      rfl

theorem columnLines_ne_nil {columns : List Text} (present : columns ≠ []) :
    Definition.columnLines columns ≠ [] := by
  fun_cases Definition.columnLines columns with
  | case1 => exact absurd rfl present
  | case2 | case3 => simp

theorem exists_listed_columnLines {columns : List (List Lexeme)} (present : columns ≠ [])
    (closed : ∀ ls ∈ columns, Sealed ls) : ∃ whole, Listed columns whole ∧ Sealed whole ∧
      whole.flatMap Lexeme.text =
        '\n' :: (joinWith "\n" (Definition.columnLines (columns.map (List.flatMap Lexeme.text))) ++
          ['\n']) := by
  induction columns with
  | nil => exact absurd rfl present
  | cons column columns ih =>
      have first := closed column List.mem_cons_self
      have front : ∀ c ∈ '\n' :: indent, ScanState.isNeutral c = true := by decide
      cases columns with
      | nil =>
          refine ⟨('\n' :: indent).map .code ++ (column ++ [.code '\n']), .last ?_, ?_, ?_⟩
          · exact ⟨_, _, rfl, by decide, by decide⟩
          · exact (first.append (by decide) .nil).code_append front
          · rw [List.flatMap_append, flatMap_text_map_code]
            simp [Definition.columnLines, joinWith, Lexeme.text]
      | cons next rest =>
          obtain ⟨whole, listed, sealed, text⟩ := ih (by simp) fun ls member =>
            closed ls (List.mem_cons_of_mem _ member)
          have others : Definition.columnLines ((next :: rest).map
              (List.flatMap Lexeme.text)) ≠ [] :=
            columnLines_ne_nil (by simp)
          refine ⟨('\n' :: indent).map .code ++ column ++ .code ',' :: whole,
            .comma ?_ listed, ?_, ?_⟩
          · exact ⟨_, [], by rw [List.append_nil], by decide, by simp⟩
          · exact (first.code_append front).append (by decide) sealed
          · have lines : Definition.columnLines ((column :: next :: rest).map
                (List.flatMap Lexeme.text)) =
                (indent ++ column.flatMap Lexeme.text ++ ",") ::
                  Definition.columnLines ((next :: rest).map (List.flatMap Lexeme.text)) := rfl
            rw [lines, joinWith_cons others, List.flatMap_append, List.flatMap_cons, text,
              List.flatMap_append, flatMap_text_map_code]
            simp [Lexeme.text]

theorem exists_lastLine_eq (d : Definition) : ∃ tail, d.lastLine = ')' :: tail := by
  rw [Definition.lastLine]
  split
  · exact ⟨[';'], rfl⟩
  · exact ⟨' ' :: (d.tail ++ [';']), by simp⟩

theorem firstLine_eq (d : Definition) : d.firstLine =
    opening d.unlessExists ++ (d.table ++ [' ']) ++ ['('] := by
  have line : d.firstLine = opening d.unlessExists ++ d.table ++ " (".toList := rfl
  rw [line]
  simp

theorem exists_write_eq (d : Definition) (present : d.columns ≠ []) :
    ∃ tail, d.lastLine = ')' :: tail ∧ d.write = opening d.unlessExists ++ (d.table ++ [' ']) ++
      '(' :: ('\n' :: (joinWith "\n" (Definition.columnLines d.columns) ++ ['\n']) ++
        ')' :: tail) := by
  obtain ⟨tail, last⟩ := exists_lastLine_eq d
  refine ⟨tail, last, ?_⟩
  rw [Definition.write, joinWith_cons (by simp), joinWith_append_one (columnLines_ne_nil present),
    last, firstLine_eq]
  generalize opening d.unlessExists ++ (d.table ++ [' ']) = front
  generalize joinWith "\n" (Definition.columnLines d.columns) = lines
  simp

theorem matchingParen_eq_ok_iff {s : Text} {pos close : Nat} (opened : s[pos]? = some '(') :
    matchingParen s pos = .ok (close : Int) ↔ ∃ n, closing? (s.drop (pos + 1)) = some n ∧
      close = pos + 1 + n := by
  have same := toOption_matchingParen s pos opened
  rw [matching?] at same
  cases result : matchingParen s pos with
  | error fault =>
      rw [result] at same
      cases inner : closing? (s.drop (pos + 1)) with
      | none => simp
      | some n => simp [inner, Except.toOption] at same
  | ok stop =>
      rw [result] at same
      cases inner : closing? (s.drop (pos + 1)) with
      | none => simp [inner, Except.toOption] at same
      | some n =>
          simp only [inner, Except.toOption, Option.map_some, Option.some.injEq] at same
          subst same
          simp
          omega

def columnsBetween (s : Text) (start stop : Nat) : List Text :=
  ((splitArguments (slice s (start + 1) stop)).map onOneLine).filter (!·.isEmpty)

theorem slice_closing (s : Text) (pos n : Nat) :
    slice s (pos + 1) (pos + 1 + n) = (s.drop (pos + 1)).take n := by
  rw [slice, Nat.add_sub_cancel_left]

section

variable {s : Text} {head : Match} {n : Nat} (found : header.matchStart? s = some head)
  (opened : s[head.stop]? = some '(') (closes : closing? (s.drop (head.stop + 1)) = some n)
  (present : columnsBetween s head.stop (head.stop + 1 + n) ≠ [])

include found opened closes present

theorem read?_eq_some : Definition.read? s = some {
    unlessExists := (head.captured? "unless").isSome
    table := (head.captured? "table").getD []
    columns := columnsBetween s head.stop (head.stop + 1 + n)
    tail :=
      trim (dropEndWhile (· == ';') (onOneLine ((s.drop (head.stop + 1)).drop (n + 1)))) } := by
  rw [columnsBetween, slice_closing] at present ⊢
  simp only [Definition.read?, found, Option.bind_eq_bind, Option.bind_some, opened, ne_eq,
    not_true_eq_false, if_false, closes]
  rw [if_neg (by simpa using present)]
  rfl

theorem exists_read? :
    ∃ tail, Definition.read? s = some {
      unlessExists := (head.captured? "unless").isSome
      table := (head.captured? "table").getD []
      columns := columnsBetween s head.stop (head.stop + 1 + n)
      tail := tail } :=
  ⟨_, read?_eq_some found opened closes present⟩

end

theorem exists_reading_write {d : Definition} {columns : List (List Lexeme)}
    (named : d.columns = columns.map (List.flatMap Lexeme.text)) (present : columns ≠ [])
    (valid : ∀ ls ∈ columns, IsColumn ls) (table : d.table ≠ [])
    (members : ∀ c ∈ d.table, isNameChar c = true) :
    ∃ (head : Match) (n : Nat), header.matchStart? d.write = some head ∧
      head.captured? "table" = some d.table ∧
      (head.captured? "unless").isSome = d.unlessExists ∧ d.write[head.stop]? = some '(' ∧
      closing? (d.write.drop (head.stop + 1)) = some n ∧
      splitArguments (slice d.write (head.stop + 1) (head.stop + 1 + n)) = d.columns ∧
      (∀ l ∈ lexemes (slice d.write (head.stop + 1) (head.stop + 1 + n)), l.isLineComment = false) ∧
      (d.write.drop (head.stop + 1)).drop (n + 1) = d.lastLine.drop 1 := by
  obtain ⟨whole, listed, closed, text⟩ := exists_listed_columnLines present fun ls member =>
    (valid ls member).closed
  obtain ⟨tail, last, written⟩ := exists_write_eq d (by simpa [named] using present)
  rw [named, ← text] at written
  obtain ⟨head, found, stop, name, flag⟩ := exists_matchStart?_header d.unlessExists table members
    (whole.flatMap Lexeme.text ++ ')' :: tail)
  rw [← written] at found
  have behind : d.write.drop head.stop = '(' :: (whole.flatMap Lexeme.text ++ ')' :: tail) := by
    rw [written, stop, List.drop_left]
  have body : d.write.drop (head.stop + 1) = whole.flatMap Lexeme.text ++ ')' :: tail := by
    rw [← List.drop_drop, behind]
    rfl
  have read : lexemes (whole.flatMap Lexeme.text ++ ')' :: tail) =
      whole ++ .code ')' :: lexemes tail := by
    rw [closed.read (')' :: tail) rfl, lexemes_code ')' tail rfl]
  have items : ∀ ls ∈ columns, Item ls := fun ls member => (valid ls member).item
  have trimmed : (columns.map fun ls => trim (ls.flatMap Lexeme.text)) = d.columns := by
    rw [named]
    exact List.map_congr_left fun ls member => (valid ls member).trimmed
  refine ⟨head, (whole.flatMap Lexeme.text).length, found, name, flag, ?_, ?_, ?_, ?_, ?_⟩
  · rw [← List.head?_drop, behind]
    rfl
  · rw [body, closing?, read, (listed.balanced items).closingIn_append]
  · rw [slice_closing, body, List.take_left, listed.splitArguments_eq items closed, trimmed]
    obtain ⟨ls, rest, rfl⟩ := List.exists_cons_of_ne_nil present
    have first := valid ls List.mem_cons_self
    exact ⟨ls, List.mem_cons_self, by rw [first.trimmed]; exact first.present⟩
  · rw [slice_closing, body, List.take_left, closed.lexemes_text]
    exact closed.plain
  · rw [body, last, List.drop_length_add_append]

/-- Laying out a table definition keeps its columns. For every statement with a header, a closed
column list and a column: the statement laid out has a header with the same table and the same
condition, the list behind it is split into the columns, each on one line, with no line comment
among them, and laying it out again gives the same lines for the columns. -/
theorem definition_columns {s : Text} {head : Match} {close : Nat}
    (found : header.matchStart? s = some head)
    (opened : s[head.stop]? = some '(') (closes : matchingParen s head.stop = .ok (close : Int))
    (present : columnsBetween s head.stop close ≠ []) :
    (∃ (again : Match) (stop : Nat), header.matchStart? (definition s) = some again ∧
      again.captured? "table" = head.captured? "table" ∧
      (again.captured? "unless").isSome = (head.captured? "unless").isSome ∧
      (definition s)[again.stop]? = some '(' ∧ matchingParen (definition s) again.stop = .ok
      (stop : Int) ∧
      splitArguments (slice (definition s) (again.stop + 1) stop) =
        columnsBetween s head.stop close ∧
      ∀ l ∈ lexemes (slice (definition s) (again.stop + 1) stop), l.isLineComment = false) ∧
    ∃ first last other, definition s =
        joinWith "\n" (first :: (Definition.columnLines (columnsBetween s head.stop close) ++
          [last])) ∧
      definition (definition s) =
        joinWith "\n" (first :: (Definition.columnLines (columnsBetween s head.stop close) ++
          [other])) := by
  obtain ⟨n, found', rfl⟩ := (matchingParen_eq_ok_iff opened).mp closes
  obtain ⟨tail, read⟩ := exists_read? found opened found' present
  obtain ⟨table, name, filled, members⟩ := exists_table found
  obtain ⟨columns, valid, named⟩ := exists_columns found'
  rw [← slice_closing, ← columnsBetween] at named
  generalize columnsBetween s head.stop (head.stop + 1 + n) = texts at present read named ⊢
  rw [name, Option.getD_some] at read
  have laid : definition s = Definition.write ⟨(head.captured? "unless").isSome, table, texts,
      tail⟩ := by
    rw [definition, read]
    rfl
  obtain ⟨again, m, header, sameName, sameFlag, opened', closes', columns', plain, -⟩ :=
    exists_reading_write (d := ⟨(head.captured? "unless").isSome, table, texts, tail⟩) named
      (by rintro rfl; exact present named) valid filled members
  rw [← laid] at header opened' closes' columns' plain
  have kept : columnsBetween (definition s) again.stop (again.stop + 1 + m) = texts := by
    rw [columnsBetween, columns', named, filter_onOneLine valid]
  obtain ⟨other, reread⟩ := exists_read? header opened' closes' (kept ▸ present)
  rw [kept, sameName, sameFlag, Option.getD_some] at reread
  refine ⟨⟨again, again.stop + 1 + m, header, sameName.trans name.symm, sameFlag, opened', ?_,
    columns', plain⟩, ?_⟩
  · exact (matchingParen_eq_ok_iff opened').mpr ⟨m, closes', rfl⟩
  · have relaid : definition (definition s) = Definition.write
        ⟨(head.captured? "unless").isSome, table, texts, other⟩ := by
      rw [definition, reread]
      rfl
    exact ⟨_, _, _, laid, relaid⟩

/-- Commas and parentheses in a line comment, a string and a type, and a blank column. -/
theorem definition_columns_commented :
    let s : Text := "create table if not  exists t(a, -- b, (\n\tc ',)', , d(1,2)) x"
    let head : Match := ⟨0, "create table if not  exists t",
      [("table", "t"), ("unless", "if not  exists ")]⟩
    header.matchStart? s = some head ∧ s[head.stop]? = some '(' ∧
      matchingParen s head.stop = .ok 58 ∧
      columnsBetween s head.stop 58 =
        ["a", "/* b, ( */ c ',)'", "d(1,2)"] ∧
      ∃ first last other, definition s =
          joinWith "\n" (first :: (Definition.columnLines (columnsBetween s head.stop 58) ++
            [last])) ∧
        definition (definition s) =
          joinWith "\n" (first :: (Definition.columnLines (columnsBetween s head.stop 58) ++
            [other])) := by
  intro s head
  have found : header.matchStart? s = some head := by decide +kernel
  have opened : s[head.stop]? = some '(' := by decide +kernel
  have closes : matchingParen s head.stop = .ok ((58 : Nat) : Int) := by decide +kernel
  have columns : columnsBetween s head.stop 58 =
      ["a", "/* b, ( */ c ',)'", "d(1,2)"] := by decide +kernel
  have present : columnsBetween s head.stop 58 ≠ [] := by
    rw [columns]
    simp
  exact ⟨found, opened, closes, columns, (definition_columns found opened closes present).2⟩

end Layout

end LiteSql
