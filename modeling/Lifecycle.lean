import Lifecycle.Builder.Sketch
import Lifecycle.Main
import Lifecycle.Progress.View
import Lifecycle.Proofs.Calls.Kept
import Lifecycle.Proofs.CompUnit.Normal
import Lifecycle.Proofs.CompUnit.Numbers
import Lifecycle.Proofs.CompUnit.Positions
import Lifecycle.Proofs.Exits.Cleanup
import Lifecycle.Proofs.Flow.Unrolling
import Lifecycle.Proofs.Injection.Blame
import Lifecycle.Proofs.Injection.Emptied
import Lifecycle.Proofs.Injection.Replaced
import Lifecycle.Proofs.Operators.Agreement
import Lifecycle.Proofs.Ownership.Routine
import Lifecycle.Proofs.Trace.Ring
import Lifecycle.Proofs.Trace.Spans
import Lifecycle.Proofs.Tree.Grammar
import Lifecycle.Proofs.Types.Accepted
import Lifecycle.Proofs.Types.Generic
import Lifecycle.Proofs.Types.Interning
import Lifecycle.Text.Hex
import Lifecycle.World.Memory
