import AstramemLocal.Core.Forks
import AstramemLocal.Core.Runs
import AstramemLocal.Core.Text
import AstramemLocal.Sync.Applicable
import AstramemLocal.Sync.Backfill
import AstramemLocal.Sync.ForkHead
import AstramemLocal.Daemon.Lifecycle
import AstramemLocal.Daemon.Hides
import AstramemLocal.Daemon.Undo
import AstramemLocal.Daemon.Erasure
import AstramemLocal.Daemon.ErasedText
import AstramemLocal.Daemon.Links
import AstramemLocal.Daemon.Removal
import AstramemLocal.Daemon.Echo
import AstramemLocal.Daemon.Replay
import AstramemLocal.Sync.Watermark
import AstramemLocal.Daemon.Relations
import AstramemLocal.Daemon.PurgeBatches
import AstramemLocal.Daemon.Windows
import AstramemLocal.Daemon.Hideable
import AstramemLocal.Daemon.Prune
import AstramemLocal.Daemon.ImplicitPositive
import AstramemLocal.Pipeline.Recovery
import AstramemLocal.Pipeline.Aging
import AstramemLocal.Server.StableStringify
import AstramemLocal.Ingest.Envelope
import AstramemLocal.Ingest.SpoolGuard
import AstramemLocal.Ingest.Project
import AstramemLocal.Ingest.Tables
import AstramemLocal.Server.Ingest
import AstramemLocal.Ingest.SpoolDrain
import AstramemLocal.Server.ExactlyOnce
import AstramemLocal.Capture.Recapture
import AstramemLocal.Service.AcquireMutex
import AstramemLocal.Service.Takeover
import AstramemLocal.Storage.Keystore
import AstramemLocal.Providers.QuotaBreaker
import AstramemLocal.Providers.CodexSubscription
import AstramemLocal.Vector.VecSearchHost
import AstramemLocal.MemoryTool.Adapter
import AstramemLocal.Recall.Surfaces
import AstramemLocal.Distill.BatchJudges
import AstramemLocal.Distill.DualPass
import AstramemLocal.Config.RoundTrip
import AstramemLocal.Store.CostEvents
import AstramemLocal.Search.Decompose
import AstramemLocal.Search.ScoreRange
import AstramemLocal.Search.SupplementalLegs
import AstramemLocal.Distill.Checkpoints
import AstramemLocal.Distill.AttributeSpeaker
import AstramemLocal.Distill.LocateEvidence
import AstramemLocal.Distill.ValidityWindow
import AstramemLocal.Redact.Idempotence
import AstramemLocal.Redact.Shielding
import AstramemLocal.Search.VariantHits
import AstramemLocal.Search.EvidenceBundle
import AstramemLocal.Search.Rerank
import AstramemLocal.Distill.MergeDualPass
import AstramemLocal.Sync.SanitizeJsonb
import AstramemLocal.Distill.ChunkCap
import AstramemLocal.Distill.Concurrency
import AstramemLocal.Distill.SalvageAtoms
import AstramemLocal.Distill.SpeakerMargin
import AstramemLocal.Distill.Reduce
import AstramemLocal.MemoryTool.StrReplace
import AstramemLocal.Ingest.SpoolPlaces
import AstramemLocal.Ingest.DrainProgress
import AstramemLocal.Ingest.Quarantine
import AstramemLocal.Storage.MigrationGuard
import AstramemLocal.Storage.NewerDatabase
import AstramemLocal.Service.ReleaseHash
import AstramemLocal.Providers.CachingEmbed
import AstramemLocal.Providers.RateLimited
import AstramemLocal.Store.CostReport
import AstramemLocal.Recall.Injection
import AstramemLocal.Capture.FinishCapture
import AstramemLocal.Providers.CodexSse
import AstramemLocal.Server.CanonicalText
import AstramemLocal.Search.FtsQuery
import AstramemLocal.Pipeline.Reembed
import AstramemLocal.Core.InvertedIndex
import AstramemLocal.Distill.LinkAtoms
import AstramemLocal.Distill.AtomLinks
import AstramemLocal.Core.Worklist
import AstramemLocal.TagHygiene.LimitedRuns
import AstramemLocal.TagHygiene.DeriveRepo
import AstramemLocal.TagHygiene.RepoIdentityBackfill
import AstramemLocal.TagHygiene.Backfill
import AstramemLocal.Consolidate.WholeRun
import AstramemLocal.Service.WatchdogRuns
import AstramemLocal.Search.Answer
import AstramemLocal.Storage.MigrateEncrypt
