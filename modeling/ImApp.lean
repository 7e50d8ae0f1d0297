import ImApp.Retention.PrefixSafety
import ImApp.RetentionJobs.Progress
import ImApp.RetentionJobs.Visibility
import ImApp.Forward.Counters
import ImApp.Forward.Cancellation
import ImApp.ImSync.Convergence
import ImApp.MediaGc.Safety
import ImApp.RelationSync.Convergence
import ImApp.GroupJoin.Agreement
import ImApp.Media.ForwardArchive
import ImApp.ImLogin.Logout
import ImApp.ChatStore.Updates
import ImApp.ChatStore.Isolation
import ImApp.SqliteClient.Transactions
import ImApp.MonitorAlerts.AlertRuns
import ImApp.DatabaseSync.DataPromise
import ImApp.Sftp.Faithful
import ImApp.Retention.ExactPlan
import ImApp.Announcements.Coherence
import ImApp.MediaGc.Evidence
import ImApp.MediaGc.References
import ImApp.Organizations.Soundness
import ImApp.McpOperations.Protocol
import ImApp.DesktopEnvelopes.Agreement
import ImApp.PlatformMigration.Lossless
import ImApp.Auth.MobileSession
import ImApp.Auth.Rotation
import ImApp.Auth.SMSCodes
import ImApp.ImReservations.SystemMessages
import ImApp.ReadCursors.GroupRead
import ImApp.GroupMembers.Approval
import ImApp.GroupMembers.Cap
import ImApp.BodyPurge.Purge
import ImApp.ChatStore.Expiry
import ImApp.Forward.RetryDelay
import ImApp.MediaArchive.CompareAndSet
import ImApp.MemberList.Walk
import ImApp.ArchiveDownload.Bounds
import ImApp.AuthSession.Dropped
import ImApp.SendMessage.Outcome
import ImApp.ConnectionPool.Discipline
import ImApp.MediaCache.Backed
import ImApp.PreviewCache.Canonical
import ImApp.PreviewCache.Invalidation
import ImApp.ActiveConnections.Accounting
import ImApp.AgentRedaction.Redaction
import ImApp.RedisGate.Bounds
import ImApp.SqlStatements.Agreement
import ImApp.SshJumps.Usable
import ImApp.TerminalOutput.Streams
import ImApp.WorkspaceAccess.Closure
import ImApp.CommandTracker.Tracker
import ImApp.ApiKeys.Lifecycle
import ImApp.ConversationIds.Peer
import ImApp.DesktopReports.Accept
import ImApp.Organizations.InvitationQuota
import ImApp.ProductVersions.Compare
import ImApp.GroupMembers.Owner
