import Disassembly.Main
import Disassembly.Settings.Script
import Disassembly.Proofs.AnnotatedListing
import Disassembly.Proofs.CheckedRun
import Disassembly.Proofs.DeclarationOrder
import Disassembly.Proofs.Displacements
import Disassembly.Proofs.EndOfSpace
import Disassembly.Proofs.FileOffsets
import Disassembly.Proofs.FlagWords
import Disassembly.Proofs.FunctionExtents
import Disassembly.Proofs.ImageReads
import Disassembly.Proofs.Inclusion
import Disassembly.Proofs.IndexSearch
import Disassembly.Proofs.InstructionReads
import Disassembly.Proofs.LongerFiles
import Disassembly.Proofs.LosslessData
import Disassembly.Proofs.LosslessListing
import Disassembly.Proofs.NamesAndStyle
import Disassembly.Proofs.OptionLines
import Disassembly.Proofs.OutlineMembers
import Disassembly.Proofs.OutputNames
import Disassembly.Proofs.ReadingOrder
import Disassembly.Proofs.RegionDeclarations
import Disassembly.Proofs.Requests
import Disassembly.Proofs.SectionFiles
import Disassembly.Proofs.Separators
import Disassembly.Proofs.SharedAddresses
import Disassembly.Proofs.TerminatedStrings
import Disassembly.Proofs.VectorFunctions
import Disassembly.Proofs.VectorTables
import Disassembly.Proofs.WellFormedSettings
