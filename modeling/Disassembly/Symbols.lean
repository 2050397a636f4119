import Std.Data.ExtTreeMap

/-!
# Symbols

Names that the user gives to addresses. One address has one name; declaring it again replaces the
name. Two tables with the same names at the same addresses are equal, in whatever order the names
were declared.
-/

namespace Disassembly

/-- The declared names, by address. -/
abbrev Symbols := Std.ExtTreeMap UInt32 String

/-- The table that the declarations leave, later ones replacing earlier ones. -/
def Symbols.ofList (declarations : List (UInt32 × String)) : Symbols :=
  declarations.foldl (fun table d => table.insert d.1 d.2) ∅

end Disassembly
