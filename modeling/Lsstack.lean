import Lsstack.Program
import Lsstack.Interleaving
import Lsstack.ReadCommitted
import Lsstack.Lease
import Lsstack.Text
import Lsstack.Domain
import Lsstack.JsonText
import Lsstack.Database
import Lsstack.Repositories
import Lsstack.UseCases
import Lsstack.Queue
import Lsstack.TaskSystem
import Lsstack.TaskEdits
import Lsstack.TaskWriteOnce
import Lsstack.TaskSerial
import Lsstack.OutboxProtocol
import Lsstack.OutboxCommits
import Lsstack.OutboxDelivery
import Lsstack.OutboxPublication
import Lsstack.TaskMessages
import Lsstack.Accounts
import Lsstack.AccountProtocol
import Lsstack.AccountHandlers
import Lsstack.AccountCommits
import Lsstack.SessionRevocation
import Lsstack.PasswordChanges
import Lsstack.PublicIds
import Lsstack.Web
import Lsstack.TaskForms
import Lsstack.CanonicalEmails
import Lsstack.Urls
import Lsstack.DatabaseUrls
import Lsstack.Shlex
import Lsstack.HookPolicy
import Lsstack.TaskRaces
import Lsstack.Sequential
import Lsstack.SessionRuns
import Lsstack.DatabaseAlone
import Lsstack.Seeding
import Lsstack.RelayClaims
import Lsstack.RelayPasses
import Lsstack.Backoff
import Lsstack.RelayTicks
import Lsstack.RequestEdge
import Lsstack.StackIdentity
import Lsstack.Dictionary
import Lsstack.OutboxReference
import Lsstack.ProcessCoordinator
import Lsstack.SessionAmid
import Lsstack.WorkerMarks
import Lsstack.TaskLists
import Lsstack.PageRequests
import Lsstack.TaskPage
import Lsstack.PageVisits
import Lsstack.PageAgreement
import Lsstack.TwoRuns
import Lsstack.Noninterference
import Lsstack.Linearization
import Lsstack.CredentialMap
import Lsstack.LockOrder
import Lsstack.Served
import Lsstack.Deadlock
import Lsstack.Projection
import Lsstack.AccountsAlone
import Lsstack.ServedSessions
import Lsstack.Binary64
import Lsstack.SessionMapping
import Lsstack.Reaching
import Lsstack.Worktrees
import Lsstack.CleanWorktree
import Lsstack.JobDelivery
import Lsstack.StackShutdown
import Lsstack.PortAllocation
