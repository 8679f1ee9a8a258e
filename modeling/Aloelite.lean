import Aloelite.Engine
import Aloelite.StoreEffects
import Aloelite.Descent
import Aloelite.OperationStrides
import Aloelite.EngineStrides
import Aloelite.Integrity
import Aloelite.Forest
import Aloelite.DeepTree
import Aloelite.Removal
import Aloelite.Containment
import Aloelite.VersionPointers
import Aloelite.Library.Newest
import Aloelite.Retention
import Aloelite.Sessions
import Aloelite.Locks
import Aloelite.Footprint
import Aloelite.LockExclusion
import Aloelite.Descriptors
import Aloelite.LockedNodes
import Aloelite.Homes
import Aloelite.Library.Numbered
import Aloelite.Manifests
import Aloelite.Contents
import Aloelite.Library.Patches
import Aloelite.ContentWrites
import Aloelite.ContentOps
import Aloelite.VersionRows
import Aloelite.Streams
import Aloelite.StreamRuns
import Aloelite.ManifestShape
import Aloelite.Readback
import Aloelite.Pruning
import Aloelite.ReaderSteps
import Aloelite.Listings
import Aloelite.OpsListing
import Aloelite.Naming
import Aloelite.Fuse
import Aloelite.Bindings
import Aloelite.FuseNames
import Aloelite.Http
import Aloelite.EntityTags
import Aloelite.Downloads
import Aloelite.Library.Paging
import Aloelite.Library.CommonPrefixes
import Aloelite.S3
import Aloelite.Library.PageBlocks
import Aloelite.Library.PageEnds
import Aloelite.BucketPages
import Aloelite.VolumeKeys
import Aloelite.Direct
import Aloelite.SessionCalls
import Aloelite.UpheldSessions
import Aloelite.SessionSteps
import Aloelite.DirectSessions
import Aloelite.Library.UrlText
import Aloelite.SigV4
import Aloelite.CanonicalRequests
import Aloelite.SignedReads
import Aloelite.Signatures
import Aloelite.Library.Extents
import Aloelite.FuseFiles
import Aloelite.KeptContents
import Aloelite.Dav
import Aloelite.PinSessions
import Aloelite.Library.Dicts
import Aloelite.VolumeStore
import Aloelite.VolumeRecords
import Aloelite.Library.Worklist
import Aloelite.CliTransfer
import Aloelite.DownloadPaths
import Aloelite.DownloadBounds
import Aloelite.DownloadLoop
import Aloelite.TreeDownloads
import Aloelite.Attachment
import Aloelite.ReadOnlyMounts
import Aloelite.Manager
import Aloelite.RecordedSessions
import Aloelite.HonestRecords
import Aloelite.MountEnds
import Aloelite.RecordsBegun
import Aloelite.ManagerSessions
import Aloelite.Rosters
import Aloelite.RegistryRosters
import Aloelite.RecordCalls
import Aloelite.RecordBooks
import Aloelite.NewVolumes
import Aloelite.DeletedRecords
import Aloelite.RecordVolumes
import Aloelite.Ids
import Aloelite.MarkedFiles
import Aloelite.Watermarks
import Aloelite.Library.Numerals
import Aloelite.PathFold
import Aloelite.TxnBoundary
import Aloelite.ContentEdits
import Aloelite.ArrayFiles
import Aloelite.FlushFailures
import Aloelite.FiledRows
import Aloelite.UnpackParts
import Aloelite.UnpackRounds
import Aloelite.Unpacking
import Aloelite.SinglePlaces
import Aloelite.Superseding
import Aloelite.UpwardPaths
import Aloelite.DavPaths
import Aloelite.DavLocks
import Aloelite.Verification
import Aloelite.Multipart
import Aloelite.DavUrls
import Aloelite.Overlays
import Aloelite.FailedFlushes
import Aloelite.Library.Tallies
import Aloelite.InodeRequests
import Aloelite.InodeReplies
import Aloelite.InodeTable
import Aloelite.Library.Reruns
import Aloelite.Eras
import Aloelite.EraStatements
import Aloelite.EraColumns
import Aloelite.EraOpenings
import Aloelite.EraCrashes
import Aloelite.EraMigrations
import Aloelite.Library.Machine
import Aloelite.RustContent
import Aloelite.RustLeaves
import Aloelite.RustLimits
import Aloelite.RustDescriptors
import Aloelite.Library.Divisions
import Aloelite.GlobWalk
import Aloelite.GlobTrees
import Aloelite.GlobCounts
import Aloelite.Globs
import Aloelite.WriterEnds
import Aloelite.Uploads
import Aloelite.RustCalls
import Aloelite.Exports
import Aloelite.MountAttempts
import Aloelite.RustWrites
import Aloelite.RustBounds
import Aloelite.Admission
import Aloelite.ChunkKeys
import Aloelite.ConnectionKeys
import Aloelite.Hierarchy
import Aloelite.VersionNumbers
import Aloelite.HealthCheck
import Aloelite.TreeWalk
import Aloelite.TreeCopy
import Aloelite.CopiedTrees
import Aloelite.Library.Scanning
import Aloelite.IfHeader
import Aloelite.CleanReports
import Aloelite.Library.Portions
import Aloelite.VolumeShares
import Aloelite.OtherVolumes
import Aloelite.VolumeIsolation
import Aloelite.VolumeViews
import Aloelite.PackCodec
import Aloelite.NodeAttributes
import Aloelite.PackWalk
import Aloelite.TreeReplica
import Aloelite.UnpackLoop
import Aloelite.PackRoundTrip
