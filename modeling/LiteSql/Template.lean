import LiteSql.Fault

/-! Templates: texts with places for arguments. A place is numbered or takes the next argument;
a doubled brace writes a brace. What is wrong with a template shows when it is filled, and
the fault furthest to the left counts. -/

namespace LiteSql

inductive Template.Part
  | text (text : Text)
  | argument (index : Nat)
  /-- The next argument, counted from the first. -/
  | next
  | named (name : Text)
  | broken (fault : Fault)
  deriving DecidableEq, Repr

abbrev Template := List Template.Part

namespace Template

instance : Coe String Part := ⟨fun s => .text s⟩

def arg (index : Nat) : Part := .argument index

def indexLimit : Nat := 0x7fffffffffffffff

/-- The place that the name of a field stands for, where the digits before `name` write `index`. -/
def placeAfter (whole : Text) (index : Nat) : (name : Text) → Part
  | [] => .argument index
  | c :: name =>
    match digitValue? c with
    | none => .named whole
    | some digit =>
      if indexLimit < index * 10 + digit then .broken .indexTooLarge
      else placeAfter whole (index * 10 + digit) name

def place (name : Text) : Part := if name.isEmpty then .next else placeAfter name 0 name

/-- Reads a template. `field` is the name of the open field so far, last character first. Reading
ends at the first fault. -/
def parse : (field : Option Text) → Text → Template
  | none, [] => []
  | some _, [] => [.broken .openField]
  | some name, c :: s =>
    if c = '\x7d' then place name.reverse :: parse none s
    else if c = '\x7b' then [.broken .braceInField]
    else parse (some (c :: name)) s
  | none, [c] =>
    if c = '\x7b' then [.broken .loneOpenBrace]
    else if c = '\x7d' then [.broken .loneCloseBrace]
    else [.text [c]]
  | none, c :: d :: s =>
    if c = '\x7b' then if d = '\x7b' then .text [c] :: parse none s else parse (some []) (d :: s)
    else if c = '\x7d' then if d = '\x7d' then .text [c] :: parse none s
      else [.broken .loneCloseBrace]
    else .text [c] :: parse none (d :: s)

def ofText (s : Text) : Template := parse none s

inductive Numbering
  | undecided
  | automatic (next : Nat)
  | manual
  deriving DecidableEq, Repr

def argumentAt (arguments : List Text) (index : Nat) : Except Fault Text :=
  match arguments[index]? with
  | some argument => .ok argument
  | none => .error (.missingArgument index)

/-- Puts arguments in the places of a template. Numbered places and places for the next argument do
not go together. -/
def fillAs (arguments : List Text) : Numbering → Template → Except Fault Text
  | _, [] => .ok []
  | numbering, .text text :: rest => do return text ++ (← fillAs arguments numbering rest)
  | .automatic _, .argument _ :: _ => .error .manualAfterAutomatic
  | .undecided, .argument index :: rest | .manual, .argument index :: rest => do
    return (← argumentAt arguments index) ++ (← fillAs arguments .manual rest)
  | .manual, .next :: _ => .error .automaticAfterManual
  | .undecided, .next :: rest => do
    return (← argumentAt arguments 0) ++ (← fillAs arguments (.automatic 1) rest)
  | .automatic index, .next :: rest => do
    return (← argumentAt arguments index) ++ (← fillAs arguments (.automatic (index + 1)) rest)
  | _, .named name :: _ => .error (.namedArgument name)
  | _, .broken fault :: _ => .error fault

def fill (template : Template) (arguments : List Text) : Except Fault Text :=
  fillAs arguments .undecided template

/-- Fills a template with exactly `arity` arguments; any other number has no answer. -/
def fillExactly (template : Template) (arity : Int) (arguments : List Text) :
    Except Fault (Option Text) :=
  if (arguments.length : Int) = arity then some <$> template.fill arguments else .ok none

end Template

end LiteSql
