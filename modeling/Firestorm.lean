import Firestorm.Main
import Firestorm.Proofs.Acceptance
import Firestorm.Proofs.Bytecode.CallProtocol
import Firestorm.Proofs.Bytecode.Disassembly
import Firestorm.Proofs.Bytecode.IndexedAccess
import Firestorm.Proofs.Bytecode.InitialValues
import Firestorm.Proofs.Bytecode.StackHeights
import Firestorm.Proofs.Bytecode.StringLiterals
import Firestorm.Proofs.Include.Identity
import Firestorm.Proofs.Include.Positions
import Firestorm.Proofs.Interpreter.Characters
import Firestorm.Proofs.Interpreter.Leaks
import Firestorm.Proofs.Interpreter.Safety
import Firestorm.Proofs.Native.Registers
import Firestorm.Proofs.Native.Riscv.Stack
import Firestorm.Proofs.Native.RuntimeSymbols
import Firestorm.Proofs.Native.Strings
import Firestorm.Proofs.Native.X86.Primitives
import Firestorm.Proofs.Program.Parsing.Blame
import Firestorm.Proofs.Program.Printing
import Firestorm.Proofs.Token.Recovery
