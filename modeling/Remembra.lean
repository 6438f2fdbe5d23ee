import Remembra.Diff.Unified
import Remembra.Http.Streaming
import Remembra.Idempotency.Gate
import Remembra.Idempotency.Principals
import Remembra.Idempotency.Replay
import Remembra.Jobs.Equivalence
import Remembra.Lock.File
import Remembra.Lock.InProcess
import Remembra.Queue.Settling
import Remembra.Quota.Retry
import Remembra.Quota.Speculative
import Remembra.Recovery.Sticky
import Remembra.Retrieval.Budget
import Remembra.Retrieval.Embeddings
import Remembra.Retrieval.Evaluation
import Remembra.Retrieval.Fusion
import Remembra.Retrieval.Relations
import Remembra.Retrieval.Repeats
import Remembra.Retrieval.Temporal
import Remembra.Service.Batch
import Remembra.Service.BatchSearch
import Remembra.Service.Boundary
import Remembra.Service.Consolidation
import Remembra.Service.DecayPass
import Remembra.Service.Health
import Remembra.Service.Isolation
import Remembra.Service.Redacted
import Remembra.Service.Relations
import Remembra.Shutdown.Order
import Remembra.Snapshot.Export
import Remembra.Sqlite.Migration
import Remembra.Sqlite.Reconcile
import Remembra.Sqlite.RoundTrip
import Remembra.Store.AdvisoryLock
import Remembra.Store.Normal
import Remembra.Tenant.Durable
import Remembra.Tenant.Linearizable
import Remembra.TenantMigration.Preflight
import Remembra.V6.AuditLog
import Remembra.V6.Layers
import Remembra.V6.LifecycleJob
import Remembra.V6.Schema
import Remembra.V6.Writes
import Remembra.Worker.Fleet
import Remembra.Worker.Pump
import Remembra.Worker.Settling
