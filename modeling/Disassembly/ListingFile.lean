import Disassembly.Arguments.Help
import Disassembly.Listing
import Disassembly.Path

/-!
# Listing files

A listing is written to one file, or each section to a file of its own. The output name is the one
given, or else made from the name of the input; the file of a section carries the start of the
section in its name. Every file begins with the same header.
-/

namespace Disassembly.ListingFile

/-- The extension of listing files, with its dot. -/
def suffix : String := ".asm"

/-- What every listing file begins with. -/
def header (input : String) (output : Option String) : String :=
  "DFR " ++ Arguments.version ++ "\n  Input:  " ++ input ++ "\n  Output: "
    ++ output.getD "(default)" ++ "\n\n"

/-- The file of a whole listing: the given output, or the base name of the input with the listing
extension. -/
def path (input : String) (output : Option String) : String :=
  match output with
  | some given => given
  | none =>
    match Path.fileName? input.toList with
    | some name => String.ofList (Path.stem name) ++ suffix
    | none => "dfr" ++ suffix

/-- The file of the section that starts at an address, beside the file of the whole listing. -/
def sectionPath (base : String) (start : UInt32) : String :=
  let stem := ((Path.fileName? base.toList).map Path.stem).getD []
  let name := String.ofList stem ++ "_" ++ Text.hexPadded 8 start.toNat ++ suffix
  String.ofList (Path.withFileName base.toList name.toList)

/-- The files of a listing with their texts, in the order of writing. -/
def all (listing : Listing) (input : String) (output : Option String) (split : Bool) :
    List (String × String) :=
  let base := path input output
  let head := header input output
  if split then
    listing.sections.map fun s => (sectionPath base s.region.start, head ++ listing.sectionText s)
  else [(base, head ++ String.join (listing.sections.map listing.sectionText))]

end Disassembly.ListingFile
