import Std.Data.ExtTreeMap
import Std.Data.ExtTreeSet
import Disassembly.Outline.FunctionEnd
import Disassembly.Symbols
import Disassembly.Text.Digits

/-!
# The outline of a program

What can be said about decoded code as a whole: which addresses are jumped to and get a label, which
are called and start a function, and where functions return. Every label has a name: the declared
one, or else that of an interrupt, or else one made of its address.
-/

namespace Disassembly

/-- Decoded instructions by address; of two at one address the later one stays. -/
abbrev Code := Std.ExtTreeMap UInt32 Record

namespace Code

/-- The table that records leave, entered in order. -/
def ofRecords (records : List Record) : Code :=
  records.foldl (fun code record => code.insert record.address record) ∅

/-- The records in ascending order of their addresses. -/
def records (code : Code) : List Record :=
  code.toList.map Prod.snd

end Code

/-- Functions that are declared rather than found, with their names. -/
abbrev Entries := Std.ExtTreeMap UInt32 String

/-- The entries that declarations leave; of two at one address the earlier one stays. -/
def Entries.ofDeclarations (declarations : List (UInt32 × String)) : Entries :=
  declarations.foldl (fun entries d => entries.insertIfNew d.1 d.2) ∅

/-- A function; `stop` is exclusive. -/
structure Function where
  entry : UInt32
  stop : UInt32
  name : String
deriving DecidableEq, Repr

/-- The outline of a program. -/
structure Outline where
  code : Code
  /-- Every label with its name. -/
  labels : Std.ExtTreeMap UInt32 String
  functions : Std.ExtTreeMap UInt32 Function
  returns : Std.ExtTreeSet UInt32

/-- The sizes of the parts of an outline. -/
structure Outline.Summary where
  instructions : Nat
  labels : Nat
  functions : Nat
  returns : Nat
deriving DecidableEq, Repr

namespace Outline

/-- Where functions start: at the targets of calls, and where they are declared to. -/
def entryPoints (records : List Record) (entries : Entries) : Std.ExtTreeSet UInt32 :=
  .ofList (records.filterMap (fun r => r.flow.bind Flow.callTarget?) ++ entries.keys)

/-- The addresses that get a label: those with a declared name, the targets of branches and calls,
and the starts of functions. -/
def labelled (records : List Record) (symbols : Symbols) (points : Std.ExtTreeSet UInt32) :
    Std.ExtTreeSet UInt32 :=
  .ofList (symbols.keys ++ records.filterMap (fun r => r.flow.bind Flow.labelTarget?)
    ++ points.toList)

/-- The name of a label. -/
def labelName (symbols : Symbols) (entries : Entries) (points : Std.ExtTreeSet UInt32)
    (a : UInt32) : String :=
  match symbols[a]?, entries[a]? with
  | some name, _ => name
  | none, some name => name
  | none, none =>
    (if a ∈ points then "function_" else "label_") ++ Text.hexPadded 8 a.toNat

/-- The functions at ascending entries, given the records in ascending order. A function ends at the
latest where the next one starts. -/
def functionsAt (name : UInt32 → String) : List UInt32 → List Record → List Function
  | [], _ => []
  | entry :: entries, records =>
    let ahead := records.dropWhile fun r => decide (r.address < entry)
    let limit := entries.head?.getD 0xFFFFFFFF
    { entry, stop := functionEnd ahead entry limit, name := name entry }
      :: functionsAt name entries ahead

/-- The outline of decoded code. -/
def ofCode (code : Code) (symbols : Symbols) (entries : Entries) : Outline :=
  let records := code.records
  let points := entryPoints records entries
  let name := labelName symbols entries points
  { code := code
    labels := .ofList ((labelled records symbols points).toList.map fun a => (a, name a))
    functions := .ofList ((functionsAt name points.toList records).map fun f => (f.entry, f))
    returns := .ofList ((records.filter Record.isReturn).map Record.address) }

/-- The sizes of the parts of an outline. -/
def summary (outline : Outline) : Summary :=
  { instructions := outline.code.size
    labels := outline.labels.size
    functions := outline.functions.size
    returns := outline.returns.size }

end Outline

end Disassembly
