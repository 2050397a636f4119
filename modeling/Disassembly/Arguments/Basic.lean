/-!
# Arguments

The meaning of an argument list. For each kind of argument (input names, options files, and each
option that takes effect in its place) there is a list of the values given, with the positions at
which they stand; beside them are the output name and the switches, which have no place of their
own. The order in which the arguments were given is found again by sorting all values by position.
-/

namespace Disassembly

/-- An option whose values take effect in the order in which they are given. -/
inductive Setting where
  /-- `-d`: a part to decode. -/
  | select
  /-- `-e`: an entry point. -/
  | entry
  /-- `-f`: a correlation of addresses. -/
  | correlate
  /-- `-i`: a place of the input file in memory. -/
  | place
  /-- `-m`: the content of a range. -/
  | content
  /-- `-s`: the name of an address. -/
  | symbol
  /-- `-t`: a vector table. -/
  | vectors
  /-- `-w`: output flags. -/
  | flags
deriving DecidableEq, Repr

namespace Setting

def all : List Setting :=
  [select, entry, correlate, place, content, symbol, vectors, flags]

/-- The letter of the option. -/
def letter : Setting → Char
  | select => 'd'
  | entry => 'e'
  | correlate => 'f'
  | place => 'i'
  | content => 'm'
  | symbol => 's'
  | vectors => 't'
  | flags => 'w'

/-- The option with a letter. -/
def ofLetter? : Char → Option Setting
  | 'd' => some select
  | 'e' => some entry
  | 'f' => some correlate
  | 'i' => some place
  | 'm' => some content
  | 's' => some symbol
  | 't' => some vectors
  | 'w' => some flags
  | _ => none

@[simp]
theorem ofLetter?_letter (s : Setting) : ofLetter? s.letter = some s := by
  cases s <;> rfl

end Setting

/-- An option without a value. -/
inductive Switch where
  /-- `-l`: the input is little-endian. -/
  | littleEndian
  /-- `-r`: one file for each section. -/
  | split
  /-- `-v` -/
  | verbose
  /-- `-z` -/
  | debug
deriving DecidableEq, Repr

/-- The switch with a letter. -/
def Switch.ofLetter? : Char → Option Switch
  | 'l' => some littleEndian
  | 'r' => some split
  | 'v' => some verbose
  | 'z' => some debug
  | _ => none

/-- An argument that takes effect where it stands. -/
inductive Item where
  | input (name : String)
  | optionsFile (path : String)
  | setting (option : Setting) (value : String)
deriving DecidableEq, Repr

/-- What an item is, but for its text. -/
inductive Kind where
  | input
  | optionsFile
  | setting (option : Setting)
deriving DecidableEq, Repr

namespace Kind

/-- All kinds, in the order in which their values are gathered. -/
def all : List Kind :=
  input :: optionsFile :: Setting.all.map setting

/-- The item of a kind with a text. -/
def item : Kind → String → Item
  | input, text => .input text
  | optionsFile, text => .optionsFile text
  | setting option, text => .setting option text

end Kind

namespace Item

def kind : Item → Kind
  | input _ => .input
  | optionsFile _ => .optionsFile
  | setting option _ => .setting option

def text : Item → String
  | input name => name
  | optionsFile path => path
  | setting _ value => value

@[simp]
theorem item_kind_text (item : Item) : item.kind.item item.text = item := by
  cases item <;> rfl

end Item

/-- An item and the position at which it stands. -/
structure Occurrence where
  position : Nat
  item : Item
deriving DecidableEq, Repr

namespace Occurrence

/-- Puts an occurrence in front of the first that does not stand before it. -/
def insert (o : Occurrence) : List Occurrence → List Occurrence
  | [] => [o]
  | next :: rest =>
    if o.position ≤ next.position then o :: next :: rest else next :: insert o rest

/-- Sorts occurrences by position; those at the same position keep their order. -/
def sort (occurrences : List Occurrence) : List Occurrence :=
  occurrences.foldr insert []

end Occurrence

/-- The values of one kind, and beside them the positions at which they stand. -/
structure Values where
  positions : List Nat := []
  texts : List String := []
deriving DecidableEq, Repr

/-- Each value as an item of its kind, with its position. -/
def Values.occurrences (values : Values) (kind : Kind) : List Occurrence :=
  (values.positions.zip values.texts).map fun (position, text) => ⟨position, kind.item text⟩

/-- The values that are given of each kind. -/
structure Given where
  input : Values := {}
  optionsFile : Values := {}
  select : Values := {}
  entry : Values := {}
  correlate : Values := {}
  place : Values := {}
  content : Values := {}
  symbol : Values := {}
  vectors : Values := {}
  flags : Values := {}
deriving DecidableEq, Repr

namespace Given

/-- The values of a kind. -/
def values (given : Given) : Kind → Values
  | .input => given.input
  | .optionsFile => given.optionsFile
  | .setting .select => given.select
  | .setting .entry => given.entry
  | .setting .correlate => given.correlate
  | .setting .place => given.place
  | .setting .content => given.content
  | .setting .symbol => given.symbol
  | .setting .vectors => given.vectors
  | .setting .flags => given.flags

/-- The values of all kinds, in the order in which they were given. -/
def occurrences (given : Given) : List Occurrence :=
  Occurrence.sort (Kind.all.flatMap fun kind => (given.values kind).occurrences kind)

end Given

/-- The meaning of an argument list. -/
structure Arguments where
  given : Given := {}
  output : Option String := none
  switches : List Switch := []
deriving DecidableEq, Repr

namespace Arguments

/-- Whether a switch is given. -/
def has (arguments : Arguments) (s : Switch) : Bool :=
  arguments.switches.contains s

/-- The input names in order. -/
def inputs (arguments : Arguments) : List String :=
  arguments.given.input.texts

/-- The options files in order. -/
def optionsFiles (arguments : Arguments) : List String :=
  arguments.given.optionsFile.texts

/-- The values of an option in order. -/
def values (arguments : Arguments) (s : Setting) : List String :=
  (arguments.given.values (.setting s)).texts

/-- What takes effect where it stands, in order. -/
def items (arguments : Arguments) : List Item :=
  arguments.given.occurrences.map Occurrence.item

end Arguments

end Disassembly
