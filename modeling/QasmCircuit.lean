import QasmCircuit.Diagnostic
import QasmCircuit.Draft.Gate
import QasmCircuit.Draft.Lower
import QasmCircuit.Histogram
import QasmCircuit.Main
import QasmCircuit.Session.Call
import QasmCircuit.Proofs.Circuit.Involution
import QasmCircuit.Proofs.Lowering.Reversal
import QasmCircuit.Proofs.Circuit.Rendering
import QasmCircuit.Proofs.Lowering.Termination
import QasmCircuit.Proofs.Lowering.Broadcast
import QasmCircuit.Proofs.Lowering.Inline
import QasmCircuit.Proofs.Circuit.Callable
import QasmCircuit.Proofs.Expr.Exact
import QasmCircuit.Proofs.Expr.Minimal
import QasmCircuit.Proofs.Program.Names
import QasmCircuit.Proofs.Program.Validity
import QasmCircuit.Proofs.Circuit.Search
import QasmCircuit.Proofs.Circuit.Recall
import QasmCircuit.Proofs.Circuit.Texts
import QasmCircuit.Proofs.Matrix.Controlled
import QasmCircuit.Proofs.Matrix.Placement
import QasmCircuit.Proofs.Program.Report
