import SsaCompiler.Main
import SsaCompiler.Proofs.Compiling.Bounds
import SsaCompiler.Proofs.Compiling.Discarding
import SsaCompiler.Proofs.Compiling.Framing
import SsaCompiler.Proofs.Compiling.LocalNames
import SsaCompiler.Proofs.Compiling.Resolution
import SsaCompiler.Proofs.Execution.TypeSafety
import SsaCompiler.Proofs.Lowering.Scopes
import SsaCompiler.Proofs.Meaning.Optimizer
import SsaCompiler.Proofs.Optimizer.Combining
import SsaCompiler.Proofs.Optimizer.Numbering
import SsaCompiler.Proofs.Optimizer.Reports
import SsaCompiler.Proofs.Printing.Numerals
import SsaCompiler.Proofs.Reading.Programs
import SsaCompiler.Proofs.Reading.Splitting
import SsaCompiler.Proofs.Reading.Strictness
import SsaCompiler.Proofs.Reading.Termination
import SsaCompiler.Proofs.Validity.Operands
import SsaCompiler.Proofs.Validity.Uses
