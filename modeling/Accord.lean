import Accord.Main
import Accord.Proofs.Body.Typed
import Accord.Proofs.Generic.Structure
import Accord.Proofs.Body.Exits
import Accord.Proofs.Program.Consistent
import Accord.Proofs.Program.Templates
import Accord.Proofs.Call.Cache
import Accord.Proofs.Assign.Locks
import Accord.Proofs.Types.Existence
import Accord.Proofs.Types.Unambiguous
import Accord.Proofs.Call.Wider
import Accord.Proofs.Body.Scopes
import Accord.Proofs.Call.Storing
import Accord.Proofs.Program.Rounds
import Accord.Proofs.Types.Acyclic
import Accord.Proofs.Format.Origins
import Accord.Proofs.Format.Rewriting
import Accord.Proofs.Body.Equality
import Accord.Proofs.Body.Dereference
import Accord.Proofs.Assign.Detached
import Accord.Proofs.Assign.Trial
import Accord.Proofs.Call.Measure
