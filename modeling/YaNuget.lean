import YaNuget.Concurrency.Program
import YaNuget.Concurrency.Machine
import YaNuget.Concurrency.RelyGuarantee
import YaNuget.Concurrency.Sequential
import YaNuget.Data.Table
import YaNuget.Data.Text
import YaNuget.Data.Orderings
import YaNuget.Store.Records
import YaNuget.Store.Policy
import YaNuget.Store.Database
import YaNuget.Store.Calls
import YaNuget.Store.Effects
import YaNuget.Operations.Retention
import YaNuget.Operations.Indexing
import YaNuget.Operations.Admin
import YaNuget.Operations.Mirror
import YaNuget.Operations.Server
import YaNuget.Operations.Sections
import YaNuget.Operations.Footprints
import YaNuget.Operations.LockDiscipline
import YaNuget.Operations.VersionView
import YaNuget.Operations.SharedBuild
import YaNuget.Operations.BuildKept
import YaNuget.Operations.SectionsKept
import YaNuget.Operations.SharedRuns
import YaNuget.Operations.PayloadAgreement
import YaNuget.Operations.ApprovedBuilds
import YaNuget.Operations.Decisions
import YaNuget.Operations.OverwriteDecisions
import YaNuget.Operations.RetentionDecisions
import YaNuget.Operations.Tombstones
import YaNuget.Operations.Exclusion
import YaNuget.Operations.LicensePolicies
import YaNuget.Requests.ClientIp
import YaNuget.Requests.FailedAuth
import YaNuget.Packages.EntryNames
import YaNuget.Packages.ManifestDocument
import YaNuget.Operations.Tasks
import YaNuget.Operations.ServedValidators
import YaNuget.Concurrency.Triples
import YaNuget.Operations.TaskDiscipline
import YaNuget.Operations.VersionRows
import YaNuget.Operations.FilesKept
import YaNuget.Operations.FileSections
import YaNuget.Operations.FileRuns
import YaNuget.Operations.SymbolsKept
import YaNuget.Operations.SymbolSections
import YaNuget.Operations.SymbolPushesKept
import YaNuget.Operations.SymbolRuns
import YaNuget.Versions.RangeMeaning
import YaNuget.Internalize.UpstreamCache
import YaNuget.Internalize.VerifiedFiles
import YaNuget.Internalize.SyncRuns
import YaNuget.Versions.EmptyRanges
import YaNuget.Retention.Interrupted
import YaNuget.Retention.ShownPlan
import YaNuget.Policy.AllowList
import YaNuget.Policy.DenyList
import YaNuget.Requests.RateLimits
import YaNuget.Requests.CountedDownloads
import YaNuget.Data.Reads
import YaNuget.Symbols.PeAgreement
import YaNuget.Symbols.PePasses
import YaNuget.Data.Chunks
import YaNuget.Data.Hops
import YaNuget.Listings.FeedRows
import YaNuget.Listings.PageUrls
import YaNuget.Listings.Registration
import YaNuget.Upstreams.Clients
import YaNuget.Upstreams.OutgoingRequests
import YaNuget.Upstreams.SingleFlight
import YaNuget.Listings.Headlines
import YaNuget.Data.Slices
import YaNuget.Internalize.ClosureAnswers
import YaNuget.Internalize.NamesGiven
import YaNuget.Internalize.ResumedFiles
import YaNuget.Data.FirstSeen
import YaNuget.Data.Runs
import YaNuget.Data.SortedMaps
import YaNuget.Operations.CopySections
import YaNuget.Operations.LockRegistry
import YaNuget.Operations.Migration
import YaNuget.Operations.MigrationRuns
import YaNuget.Operations.ReservedIds
import YaNuget.Packages.ContentTypes
import YaNuget.Packages.Rewrite
import YaNuget.Packages.RewritePlanned
import YaNuget.Store.Reservations
import YaNuget.Data.CaseMapping
import YaNuget.Listings.TagSearch
import YaNuget.Listings.TagsLead
import YaNuget.Operations.SymbolNames
import YaNuget.Operations.SymbolSpellings
import YaNuget.Operations.SymbolsAlike
import YaNuget.Operations.InboxReads
import YaNuget.Operations.InboxRuns
import YaNuget.Operations.ResumableUploads
import YaNuget.Operations.UploadRuns
import YaNuget.Store.SpaceGuard
import YaNuget.Store.SpaceRuns
