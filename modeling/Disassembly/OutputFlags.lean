import Disassembly.Text.Blank
import Disassembly.Text.Pieces

/-!
# Output flags

What the listing shows is chosen by six flags. Four of them have a name and are set or cleared by a
comma-separated list of words: a flag's name sets it, `no` before the name clears it, in any
mixture of upper and lower case. The words take effect from left to right, and a word of neither
form stops the list there, with the words before it in effect.
-/

namespace Disassembly

/-- What a listing shows. -/
structure OutputFlags where
  /-- Work out labels, functions and returns before writing code. -/
  outline : Bool := false
  /-- Write `AC`, `FP` and `SP` for the registers 13, 14 and 15. -/
  aliases : Bool := false
  /-- Write `$` instead of `0x` before hexadecimal numbers. -/
  dollar : Bool := false
  /-- Show the words of each record before its text. -/
  rawWords : Bool := false
  /-- Report each section as it is decoded. -/
  verbose : Bool := false
  /-- Report the configuration in full. -/
  debug : Bool := false
deriving DecidableEq, Repr

namespace OutputFlags

/-- The flags that the user sets and clears by name. -/
inductive Name where
  | outline
  | aliases
  | dollar
  | rawWords
deriving DecidableEq, Repr

namespace Name

/-- Every named flag, in the order of the help text. -/
def all : List Name :=
  [outline, aliases, dollar, rawWords]

/-- The word for the flag. -/
def word : Name → String
  | outline => "structure"
  | aliases => "register"
  | dollar => "dollar"
  | rawWords => "hexcode"

/-- What the help text says of the flag. -/
def description : Name → String
  | outline => "analyse code structure and annotate labels, functions and returns"
  | aliases => "use AC, FP and SP for R13, R14 and R15"
  | dollar => "print hexadecimal numbers as $1F instead of 0x1F"
  | rawWords => "show raw instruction words"

/-- The flag with a given word. -/
def ofWord? (word : List Char) : Option Name :=
  all.find? fun n => n.word.toList = word

end Name

/-- The value of a named flag. -/
def get (flags : OutputFlags) : Name → Bool
  | .outline => flags.outline
  | .aliases => flags.aliases
  | .dollar => flags.dollar
  | .rawWords => flags.rawWords

/-- The flags with one named flag given a value. -/
def set (flags : OutputFlags) (name : Name) (value : Bool) : OutputFlags :=
  match name with
  | .outline => { flags with outline := value }
  | .aliases => { flags with aliases := value }
  | .dollar => { flags with dollar := value }
  | .rawWords => { flags with rawWords := value }

/-- The flags as a set of bits, one for each flag in the order of the fields. -/
def bits (flags : OutputFlags) : Nat :=
  flags.outline.toNat + 2 * flags.aliases.toNat + 4 * flags.dollar.toNat + 8 * flags.rawWords.toNat
    + 16 * flags.verbose.toNat + 32 * flags.debug.toNat

/-- What one word asks for: a flag and the value it takes. -/
structure Change where
  name : Name
  value : Bool
deriving DecidableEq, Repr

/-- The change a word stands for: `no` and a flag's name clears the flag, a flag's name sets it. -/
def Change.ofWord? (word : List Char) : Option Change :=
  let lower := word.map Char.toLower
  match lower with
  | 'n' :: 'o' :: rest =>
    match Name.ofWord? rest with
    | some name => some ⟨name, false⟩
    | none => (Name.ofWord? lower).map (⟨·, true⟩)
  | _ => (Name.ofWord? lower).map (⟨·, true⟩)

/-- The words of a comma-separated list, without the blanks around them and without empty ones. -/
def words (text : List Char) : List (List Char) :=
  ((Text.pieces ',' text).map Text.trim).filter (· ≠ [])

/-- The flags after a list of words, and the first word that is not understood. -/
def applyWords (flags : OutputFlags) : List (List Char) → OutputFlags × Option (List Char)
  | [] => (flags, none)
  | w :: ws =>
    match Change.ofWord? w with
    | some change => applyWords (flags.set change.name change.value) ws
    | none => (flags, some w)

/-- The flags after a comma-separated list of words, and the first word that is not understood. -/
def apply (flags : OutputFlags) (text : String) : OutputFlags × Option String :=
  let result := applyWords flags (words text.toList)
  (result.1, result.2.map String.ofList)

/-- The report of a word that is not understood. -/
def unknownMessage (word : String) : String :=
  "unknown output option \"" ++ word ++ "\""

/-- The help text on the named flags. -/
def help : String :=
  "Output options (-w name[,name...], prefix with \"no\" to clear):\n"
    ++ String.join (Name.all.map fun n =>
      "  " ++ String.ofList (n.word.toList.rightpad 12 ' ') ++ n.description ++ "\n")

@[simp]
theorem get_set_self (flags : OutputFlags) (name : Name) (value : Bool) :
    (flags.set name value).get name = value := by
  cases name <;> rfl

theorem get_set_of_ne (flags : OutputFlags) {n m : Name} (value : Bool) (h : m ≠ n) :
    (flags.set n value).get m = flags.get m := by
  revert h
  cases n <;> cases m <;> simp [set, get]

@[simp]
theorem verbose_set (flags : OutputFlags) (name : Name) (value : Bool) :
    (flags.set name value).verbose = flags.verbose := by
  cases name <;> rfl

@[simp]
theorem debug_set (flags : OutputFlags) (name : Name) (value : Bool) :
    (flags.set name value).debug = flags.debug := by
  cases name <;> rfl

end OutputFlags

end Disassembly
