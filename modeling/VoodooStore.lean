import VoodooStore.Acceptance
import VoodooStore.Activation
import VoodooStore.ApiCalls
import VoodooStore.Backlog
import VoodooStore.Backups
import VoodooStore.Bytes
import VoodooStore.Careful
import VoodooStore.CarefulCron
import VoodooStore.CarefulJobs
import VoodooStore.CarefulRecords
import VoodooStore.Cdc
import VoodooStore.Codecs
import VoodooStore.CollectionIndexes
import VoodooStore.CollectionKeys
import VoodooStore.CollectionMaps
import VoodooStore.CollectionRecords
import VoodooStore.CollectionRuns
import VoodooStore.Collections
import VoodooStore.Commit
import VoodooStore.Compaction
import VoodooStore.ConsumerGroup
import VoodooStore.Continuation
import VoodooStore.Corruption
import VoodooStore.Crash
import VoodooStore.Cron
import VoodooStore.CronDates
import VoodooStore.CronFields
import VoodooStore.CronJobs
import VoodooStore.CronScheduler
import VoodooStore.CronTimes
import VoodooStore.CronVisits
import VoodooStore.Delivery
import VoodooStore.Disk
import VoodooStore.Faults
import VoodooStore.Feed
import VoodooStore.FeedRuns
import VoodooStore.Fields
import VoodooStore.Footprint
import VoodooStore.Generation
import VoodooStore.Groups
import VoodooStore.Growth
import VoodooStore.Header
import VoodooStore.Interleaving
import VoodooStore.Interruption
import VoodooStore.JobCalls
import VoodooStore.JobClaims
import VoodooStore.JobHistories
import VoodooStore.JobKeys
import VoodooStore.JobLeases
import VoodooStore.JobLife
import VoodooStore.JobRecords
import VoodooStore.JobRuns
import VoodooStore.JobSteps
import VoodooStore.JobStorage
import VoodooStore.JobUses
import VoodooStore.Jobs
import VoodooStore.Lib.Calendar
import VoodooStore.Lib.Choosing
import VoodooStore.Lib.Cleanup
import VoodooStore.Lib.Crc32
import VoodooStore.Lib.Cursors
import VoodooStore.Lib.Deliveries
import VoodooStore.Lib.Effects
import VoodooStore.Lib.Endian
import VoodooStore.Lib.Faults
import VoodooStore.Lib.Frames
import VoodooStore.Lib.Hoare
import VoodooStore.Lib.Leases
import VoodooStore.Lib.Mapping
import VoodooStore.Lib.Paging
import VoodooStore.Lib.Reading
import VoodooStore.Lib.Sha256
import VoodooStore.Lib.Simulation
import VoodooStore.Lib.Sorting
import VoodooStore.Lib.Spelling
import VoodooStore.Lib.Tuples
import VoodooStore.LifetimeRuns
import VoodooStore.Lifetimes
import VoodooStore.Limits
import VoodooStore.Log
import VoodooStore.Messaging
import VoodooStore.Migrations
import VoodooStore.Mirroring
import VoodooStore.Namespaces
import VoodooStore.Numbers
import VoodooStore.ObjectRecords
import VoodooStore.ObjectRetention
import VoodooStore.ObjectRuns
import VoodooStore.ObjectStoring
import VoodooStore.Objects
import VoodooStore.Operation
import VoodooStore.Operations
import VoodooStore.Orderly
import VoodooStore.Outbox
import VoodooStore.Pages
import VoodooStore.Pruning
import VoodooStore.Query
import VoodooStore.QueryResults
import VoodooStore.Queue
import VoodooStore.QueueClaims
import VoodooStore.QueueHealth
import VoodooStore.QueueLag
import VoodooStore.Quota
import VoodooStore.Reachable
import VoodooStore.RecordCodecs
import VoodooStore.Recover
import VoodooStore.Refusals
import VoodooStore.Resumption
import VoodooStore.Retries
import VoodooStore.Room
import VoodooStore.Rpc
import VoodooStore.RpcBook
import VoodooStore.RpcRuns
import VoodooStore.Runs
import VoodooStore.Scanners
import VoodooStore.ScheduleRuns
import VoodooStore.ScheduleTicks
import VoodooStore.SchemaRuns
import VoodooStore.Service
import VoodooStore.Store
import VoodooStore.StreamRuns
import VoodooStore.Streams
import VoodooStore.Subscriptions
import VoodooStore.Success
import VoodooStore.TickFailures
import VoodooStore.Totals
import VoodooStore.Transaction
import VoodooStore.TransactionDomains
import VoodooStore.Triggers
import VoodooStore.Ttl
import VoodooStore.Unrepaired
import VoodooStore.View
import VoodooStore.Workflow
import VoodooStore.WorkflowCalls
import VoodooStore.WorkflowRecords
import VoodooStore.WorkflowRuns
