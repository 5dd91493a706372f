import Modary.Action.TypeScript
import Modary.App.Connections
import Modary.Database.Evolution
import Modary.Database.Transaction
import Modary.Governed.Enqueue
import Modary.Governed.PlanStore
import Modary.Governed.Tasks
import Modary.Identity.BoundedBody
import Modary.Identity.Oidc
import Modary.Identity.Sessions
import Modary.Module.Facades
import Modary.Module.Ownership
import Modary.Process.Readiness
import Modary.Project.Reproduction
import Modary.Project.RootGates
import Modary.Rbac.Contract
import Modary.Runtime.ErrorContract
import Modary.Runtime.Guard
import Modary.Runtime.Leases
import Modary.Runtime.NumberBytes
import Modary.Runtime.PlanBinding
import Modary.Runtime.Reservations
import Modary.Runtime.SafeErr
import Modary.Schema.Counts
import Modary.Schema.Expansion
import Modary.Schema.References
import Modary.Sql.Agreement
import Modary.Sql.Scripts
import Modary.Starter.Creation
import Modary.Transport.Envelope
import Modary.Transport.Parity
import Modary.Validation.Answers
