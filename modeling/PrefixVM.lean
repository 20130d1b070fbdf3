import PrefixVM.Main
import PrefixVM.Proofs.CallStack
import PrefixVM.Proofs.Disassembly
import PrefixVM.Proofs.FileContents
import PrefixVM.Proofs.ImageFormat
import PrefixVM.Proofs.Interleavings
import PrefixVM.Proofs.InternalFaults
import PrefixVM.Proofs.LockHistory
import PrefixVM.Proofs.LockPassage
import PrefixVM.Proofs.Preservation
import PrefixVM.Proofs.Reassembly
import PrefixVM.Proofs.References
import PrefixVM.Proofs.Sections
import PrefixVM.Proofs.Services
import PrefixVM.Proofs.Literals
import PrefixVM.Proofs.LongestMatch
import PrefixVM.Proofs.Concatenation
import PrefixVM.Proofs.WrittenInstructions
import PrefixVM.Proofs.ErrorLines
import PrefixVM.Proofs.ConsoleText
import PrefixVM.Proofs.DecodingLoop
import PrefixVM.Proofs.WriterPositions
import PrefixVM.Proofs.BitOrder
