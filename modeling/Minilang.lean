import Minilang.Proofs.Collection.Scope
import Minilang.Main
import Minilang.Proofs.Compiler.Soundness
import Minilang.Proofs.Machine.Isolation
import Minilang.Proofs.Machine.Guarded
import Minilang.Proofs.Machine.Balance
import Minilang.Proofs.Tac.ValidCode
import Minilang.Proofs.Compiler.Names
import Minilang.Proofs.Bytecode.Capacity
import Minilang.Proofs.Tac.ControlFlow
import Minilang.Proofs.Tac.CountingLoops
import Minilang.Proofs.Value.Equality
import Minilang.Proofs.Value.Printing
import Minilang.Proofs.Typing.Aliases
import Minilang.Proofs.Bytecode.Truncation
import Minilang.Proofs.Machine.DepthLimit
import Minilang.Proofs.Machine.Failure
import Minilang.Proofs.Tree.SelectorChains
import Minilang.Proofs.Tree.Totality
import Minilang.Proofs.Tree.Semicolons
import Minilang.Proofs.Bytecode.Entry
import Minilang.Proofs.Bytecode.Pool
import Minilang.Proofs.Diagnostic.Underlining
import Minilang.Proofs.Expectations
import Minilang.Proofs.Tac.LiteralNames
