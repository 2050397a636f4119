import Disassembly.Arguments.Basic

/-!
# Reading arguments

Arguments are read from left to right. An argument that begins with `-` holds one or more option
letters; an option that takes a value ends the argument, and its value is the rest of it, without
one `=`, or else the next argument. A separate value may not begin with `-`, unless it is `-` alone.
After `--` every argument is an input name. A request for help or for the version is answered as
soon as it is reached.

Every value is kept with its position. Positions are counted from one: an input name has one, each
letter has one, and so has the value of an option.
-/

namespace Disassembly

/-- The values with one more at the end. -/
def Values.add (values : Values) (position : Nat) (text : String) : Values :=
  { positions := values.positions ++ [position], texts := values.texts ++ [text] }

namespace Given

/-- The values with one more item, which stands at a position. -/
def add (given : Given) (position : Nat) (item : Item) : Given :=
  let values := (given.values item.kind).add position item.text
  match item.kind with
  | .input => { given with input := values }
  | .optionsFile => { given with optionsFile := values }
  | .setting .select => { given with select := values }
  | .setting .entry => { given with entry := values }
  | .setting .correlate => { given with correlate := values }
  | .setting .place => { given with place := values }
  | .setting .content => { given with content := values }
  | .setting .symbol => { given with symbol := values }
  | .setting .vectors => { given with vectors := values }
  | .setting .flags => { given with flags := values }

/-- Only the values of the item's kind change. -/
theorem values_add (given : Given) (position : Nat) (item : Item) (kind : Kind) :
    (given.add position item).values kind =
      if item.kind = kind then (given.values kind).add position item.text
      else given.values kind := by
  cases item with
  | input name =>
      cases kind with
      | input => rfl
      | optionsFile => rfl
      | setting option => cases option <;> rfl
  | optionsFile path =>
      cases kind with
      | input => rfl
      | optionsFile => rfl
      | setting option => cases option <;> rfl
  | setting option value =>
      cases kind with
      | input => cases option <;> rfl
      | optionsFile => cases option <;> rfl
      | setting option' => cases option <;> cases option' <;> rfl

end Given

namespace Arguments

/-- Why an argument list has no meaning as such. -/
inductive Stop where
  | help
  | version
  | rejected
deriving DecidableEq, Repr

/-- An option that takes a value. -/
inductive Valued where
  | setting (option : Setting)
  /-- `-o` -/
  | output
  /-- `-x` -/
  | optionsFile
deriving DecidableEq, Repr

/-- The option with a letter that takes a value. -/
def Valued.ofLetter? : Char → Option Valued
  | 'o' => some output
  | 'x' => some optionsFile
  | c => (Setting.ofLetter? c).map setting

/-- The arguments read so far, and the last position counted. -/
structure Reading where
  arguments : Arguments := {}
  position : Nat := 0

/-- Whether an argument can be the value of the option before it. -/
def isValue (argument : List Char) : Bool :=
  match argument with
  | '-' :: _ :: _ => false
  | _ => true

namespace Reading

/-- Counts a position at which nothing is kept. -/
def advance (reading : Reading) : Reading :=
  { reading with position := reading.position + 1 }

/-- Takes a switch, which may be given once. -/
def addSwitch (reading : Reading) (s : Switch) : Except Stop Reading :=
  let arguments := reading.arguments
  if arguments.has s then .error .rejected
  else .ok
    { reading.advance with arguments := { arguments with switches := arguments.switches ++ [s] } }

/-- Takes an item at the next position. -/
def addItem (reading : Reading) (item : Item) : Reading :=
  let arguments := reading.arguments
  { reading.advance with
    arguments := { arguments with given := arguments.given.add (reading.position + 1) item } }

/-- Takes the value of an option. The output may be given once, and the name of an options file may
not be empty. -/
def addValue (reading : Reading) (option : Valued) (value : String) : Except Stop Reading :=
  match option with
  | .setting s => .ok (reading.addItem (.setting s value))
  | .output =>
    let arguments := reading.arguments
    if arguments.output.isSome then .error .rejected
    else .ok { reading.advance with arguments := { arguments with output := some value } }
  | .optionsFile =>
    if value = "" then .error .rejected else .ok (reading.addItem (.optionsFile value))

/-- Reads the letters after a `-`. An option still without its value is given back. -/
def readLetters (reading : Reading) : List Char → Except Stop (Reading × Option Valued)
  | [] => .ok (reading, none)
  | 'h' :: _ => .error .help
  | 'V' :: _ => .error .version
  | c :: cs =>
    match Switch.ofLetter? c with
    | some s => do readLetters (← reading.addSwitch s) cs
    | none =>
      match Valued.ofLetter? c with
      | none => .error .rejected
      | some option =>
        match cs with
        | [] => .ok (reading.advance, some option)
        | '=' :: value => do
          return (← reading.advance.addValue option (String.ofList value), none)
        | value => do
          return (← reading.advance.addValue option (String.ofList value), none)

/-- Reads the remaining arguments; `pending` is an option that waits for its value. -/
def readFrom (reading : Reading) (pending : Option Valued) : List String → Except Stop Reading
  | [] => if pending.isSome then .error .rejected else .ok reading
  | a :: rest =>
    match pending with
    | some option =>
      if isValue a.toList then do readFrom (← reading.addValue option a) none rest
      else .error .rejected
    | none =>
      match a.toList with
      | ['-', '-'] => .ok (rest.foldl (fun reading name => reading.addItem (.input name)) reading)
      | '-' :: '-' :: name =>
        if name = "help".toList then .error .help
        else if name = "version".toList then .error .version
        else .error .rejected
      | '-' :: c :: cs => do
        let (reading, pending) ← reading.readLetters (c :: cs)
        readFrom reading pending rest
      | _ => readFrom (reading.addItem (.input a)) none rest

end Reading

/-- A reader of argument lists. -/
abbrev Parser := List String → Except Stop Arguments

/-- The reader with the rules above. -/
def Parser.standard : Parser := fun list => do
  return (← Reading.readFrom {} none list).arguments

/-- Reads an argument list. An argument `-?` counts as `-h`. -/
def read (list : List String) (parse : Parser := Parser.standard) : Except Stop Arguments :=
  parse (list.map fun a => if a = "-?" then "-h" else a)

end Arguments

end Disassembly
