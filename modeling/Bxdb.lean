import Bxdb.Lib.Bytes
import Bxdb.Lib.SortedIndex
import Bxdb.Lib.BufWriter
import Bxdb.Spec.AppendOnly
import Bxdb.Spec.Purge
import Bxdb.Spec.Check
import Bxdb.Proof.Codec
import Bxdb.Lib.Versioned
import Bxdb.Proof.Lookup
import Bxdb.Proof.Load
import Bxdb.Proof.Bulk
import Bxdb.Lib.Bits
import Bxdb.Proof.Jobs
import Bxdb.Proof.Pass
import Bxdb.Proof.Save
import Bxdb.Spec.Session
import Bxdb.Proof.EndToEnd
import Bxdb.Proof.Progress
import Bxdb.Proof.Purge
import Bxdb.Proof.Rerun
import Bxdb.Proof.History
import Bxdb.Proof.Check
import Bxdb.Proof.Maintained
import Bxdb.Proof.CheckSound
import Bxdb.Proof.FailedSaves
import Bxdb.Proof.LogOrder
import Bxdb.Proof.Conversion
import Bxdb.Proof.PurgeCompose
import Bxdb.Proof.Sync
import Bxdb.Proof.BulkAgree
import Bxdb.Proof.Layout
import Bxdb.Proof.Schedules
import Bxdb.Lib.Memory
import Bxdb.Lib.SetCache
import Bxdb.Spec.Cache
import Bxdb.Proof.Cache
import Bxdb.Proof.CachedReads
import Bxdb.Spec.CacheSteps
import Bxdb.Proof.CacheSteps
import Bxdb.Proof.DamagedIndex
import Bxdb.Proof.IndexLookups
import Bxdb.Proof.OutOfRange
import Bxdb.Proof.Bitmap
import Bxdb.Proof.Panics
import Bxdb.Proof.TornLog
import Bxdb.Proof.Rejected
import Bxdb.Proof.PurgeFrees
import Bxdb.Proof.OwnReads
import Bxdb.Spec.ConvertToRaw
import Bxdb.Proof.RawChain
import Bxdb.Proof.LogSwap
import Bxdb.Proof.Crash
import Bxdb.Proof.RoundTrip
import Bxdb.Proof.Appends
import Bxdb.Lib.Recency
import Bxdb.Proof.Lru
import Bxdb.Proof.FindWay
import Bxdb.Proof.Identity
import Bxdb.Proof.TruncatedExport
import Bxdb.Proof.Reader
import Bxdb.Proof.OpenReader
import Bxdb.Proof.Lifecycle
import Bxdb.Proof.InspectDatabase
import Bxdb.Proof.SharedReads
import Bxdb.Proof.Tool
import Bxdb.Proof.BlobDir
import Bxdb.Proof.Locked
import Bxdb.Proof.CApi
import Bxdb.Proof.SharedSteps
