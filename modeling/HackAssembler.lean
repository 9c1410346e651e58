import HackAssembler.Command.Derivation
import HackAssembler.FileTree
import HackAssembler.Instruction.Decoding
import HackAssembler.Line.Layout
import HackAssembler.Machine
import HackAssembler.Main
import HackAssembler.Program.Meaning
import HackAssembler.Program.Renumbering
import HackAssembler.Proofs.FileTree.Replace
import HackAssembler.Proofs.Line.Layout
import HackAssembler.Proofs.Program.Delivery
import HackAssembler.Proofs.Program.Disassembly
import HackAssembler.Proofs.Program.File
import HackAssembler.Proofs.Program.Layout
import HackAssembler.Proofs.Program.Renumbering
import HackAssembler.Proofs.Line.Append
import HackAssembler.Proofs.Program.Bounds
import HackAssembler.Proofs.Program.Extension
import HackAssembler.Proofs.Program.Relabeling
import HackAssembler.Proofs.Machine
import HackAssembler.Proofs.Command.Turns
import HackAssembler.Proofs.Program.Renaming
import HackAssembler.Proofs.Program.SourceFile
import HackAssembler.Proofs.Program.Variables
import HackAssembler.Proofs.Line.Cover
import HackAssembler.Proofs.Program.Literal
import HackAssembler.Proofs.SymbolTable.History
import HackAssembler.Proofs.SymbolTable.Sorted
import HackAssembler.Proofs.Program.Account
import HackAssembler.Proofs.CommandLine.Run
import HackAssembler.Proofs.Listing
import HackAssembler.Proofs.Instruction.Bits
