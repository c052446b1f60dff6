import Agentihooks.Fencing.Theorems.Serial
import Agentihooks.Lease.Theorems.Safety
import Agentihooks.Execution.Theorems.Settled
import Agentihooks.Authority.Theorems.Journal
import Agentihooks.Runtime.Theorems.Journal
import Agentihooks.Outbox.Theorems.Flush
import Agentihooks.Ledger.Theorems.History
import Agentihooks.Events.Theorems.Hub
import Agentihooks.Naming.Theorems.Aliases
import Agentihooks.Launch.Theorems.Grants
import Agentihooks.Messages.Theorems.Bus
import Agentihooks.Inbox.Theorems.Worlds
import Agentihooks.Mutation.Theorems.Batch
import Agentihooks.Fleet.Theorems.Registry
import Agentihooks.Relay.Theorems.Relay
import Agentihooks.Grouping.Theorems.Operations
import Agentihooks.Chunks.Theorems.Safe
import Agentihooks.Tasks.Theorems.Operations
import Agentihooks.Admission.Theorems.Pending
import Agentihooks.Slots.Theorems.Accounts
import Agentihooks.Workflows.Theorems.Runs
import Agentihooks.Ingest.Theorems.Ingest
import Agentihooks.Collection.Theorems.Freed
import Agentihooks.Broadcasts.Theorems.Calls
import Agentihooks.Events.Theorems.Patch
import Agentihooks.Ledger.Theorems.Tables
import Agentihooks.Reservation.Theorems.LaunchSlots
import Agentihooks.Masters.Theorems.Masters
import Agentihooks.Artifacts.Theorems.Store
import Agentihooks.Spool.Theorems.Spool
import Agentihooks.SearchIndex.Theorems.Vectors
import Agentihooks.NatsPayload.Theorems.RoundTrip
import Agentihooks.Inbox.Theorems.Histories
import Agentihooks.Ledger.Theorems.Columns
import Agentihooks.Ledger.Theorems.Seeds
import Agentihooks.Ledger.Theorems.Retention
import Agentihooks.Events.Theorems.StateStore
import Agentihooks.Lease.Theorems.Cache
import Agentihooks.Fencing.Theorems.ArchiveChunks
import Agentihooks.Plans.Theorems.Ranges
import Agentihooks.Plans.Theorems.Phases
import Agentihooks.Claiming.Theorems.Focus
import Agentihooks.Events.Theorems.Subjects
import Agentihooks.Claiming.Theorems.Lives
import Agentihooks.Ledger.Theorems.Priorities
import Agentihooks.Stages.Theorems.Accounts
import Agentihooks.Quota.Theorems.Policy
import Agentihooks.Masters.Theorems.Shares
import Agentihooks.SearchIndex.Theorems.Partition
import Agentihooks.Collection.Theorems.Ranges
import Agentihooks.Breaker.Theorems.Retry
import Agentihooks.SessionTools.Theorems.Listings
import Agentihooks.Runtime.Theorems.Observe
import Agentihooks.Importer.Theorems.Sources
import Agentihooks.LocalSlots.Theorems.Claims
import Agentihooks.Backfill.Theorems.Calls
import Agentihooks.Autoscale.Theorems.Ceilings
import Agentihooks.Sites.Theorems.Edges
import Agentihooks.MergeQueue.Theorems.Priority
import Agentihooks.Preempt.Theorems.Asks
import Agentihooks.RunWindow.Theorems.Passes
import Agentihooks.Checkpoints.Theorems.Retention
import Agentihooks.Ledger.Theorems.Outline
import Agentihooks.Allocation.Theorems.Allocate
import Agentihooks.Scheduler.Theorems.Runs
import Agentihooks.Collector.Theorems.Poll
