import ObserverClub.AnyOrder
import ObserverClub.Auth
import ObserverClub.AuthGuessing
import ObserverClub.AuthLogin
import ObserverClub.AuthRevocation
import ObserverClub.AuthSessions
import ObserverClub.BackendPool
import ObserverClub.BackendProgress
import ObserverClub.Backends
import ObserverClub.Ballots
import ObserverClub.Base32
import ObserverClub.Base58
import ObserverClub.Batches
import ObserverClub.Canon
import ObserverClub.CanonAgreement
import ObserverClub.CanonBinding
import ObserverClub.CanonForms
import ObserverClub.CanonStrings
import ObserverClub.CanonTokens
import ObserverClub.CapsRestored
import ObserverClub.Catalog
import ObserverClub.CatalogRuns
import ObserverClub.CatchUp
import ObserverClub.Cid
import ObserverClub.CidForms
import ObserverClub.ClaimHistory
import ObserverClub.ClaimSteps
import ObserverClub.Claims
import ObserverClub.Clocks
import ObserverClub.Clubd
import ObserverClub.ClubdKeys
import ObserverClub.ClubdRuns
import ObserverClub.Crashes
import ObserverClub.DagPb
import ObserverClub.Decoding
import ObserverClub.Drain
import ObserverClub.EventTables
import ObserverClub.Events
import ObserverClub.Exclusive
import ObserverClub.Extract
import ObserverClub.FailedPublish
import ObserverClub.Fates
import ObserverClub.Fetch
import ObserverClub.FetchAgreement
import ObserverClub.FetchAvailable
import ObserverClub.FetchBounds
import ObserverClub.FetchComplete
import ObserverClub.FetchPrefix
import ObserverClub.FetchVerdict
import ObserverClub.FetchWhole
import ObserverClub.FieldNames
import ObserverClub.FirstSeen
import ObserverClub.Forgetting
import ObserverClub.Forgotten
import ObserverClub.Go
import ObserverClub.GoWriting
import ObserverClub.GossipDiscipline
import ObserverClub.HamtPeek
import ObserverClub.Hosts
import ObserverClub.Inbox
import ObserverClub.InboxFiles
import ObserverClub.Indexer
import ObserverClub.IngestSteps
import ObserverClub.Janitor
import ObserverClub.KeptRows
import ObserverClub.Labels
import ObserverClub.LaneCaps
import ObserverClub.LatestWins
import ObserverClub.Leases
import ObserverClub.Library.Base64
import ObserverClub.Library.Binary64
import ObserverClub.Library.Decimal
import ObserverClub.Library.Journal
import ObserverClub.Library.JsonAgreement
import ObserverClub.Library.JsonContents
import ObserverClub.Library.JsonInjective
import ObserverClub.Library.JsonLimits
import ObserverClub.Library.JsonOrder
import ObserverClub.Library.JsonReader
import ObserverClub.Library.JsonReaderLemmas
import ObserverClub.Library.JsonRoundTrip
import ObserverClub.Library.JsonScalars
import ObserverClub.Library.JsonValue
import ObserverClub.Library.JsonWriter
import ObserverClub.Library.Loop
import ObserverClub.Library.Plurality
import ObserverClub.Library.Positional
import ObserverClub.Library.Preserving
import ObserverClub.Library.Program
import ObserverClub.Library.Regex
import ObserverClub.Library.Registers
import ObserverClub.Library.Replay
import ObserverClub.Library.Rounding
import ObserverClub.Library.Runs
import ObserverClub.Library.Selection
import ObserverClub.Library.Shortest
import ObserverClub.Library.Table
import ObserverClub.Library.Text
import ObserverClub.Library.Trace
import ObserverClub.Library.Transaction
import ObserverClub.Library.Turns
import ObserverClub.Library.Utf8
import ObserverClub.Library.Varint
import ObserverClub.Library.Window
import ObserverClub.LicenseForms
import ObserverClub.Licenses
import ObserverClub.Limit
import ObserverClub.LinkCids
import ObserverClub.LogTables
import ObserverClub.LostReview
import ObserverClub.Malformed
import ObserverClub.NamedChildren
import ObserverClub.Office
import ObserverClub.OneLease
import ObserverClub.Parking
import ObserverClub.PeerCounts
import ObserverClub.Poison
import ObserverClub.Pruning
import ObserverClub.Publishing
import ObserverClub.Python
import ObserverClub.PythonFloats
import ObserverClub.PythonNumbers
import ObserverClub.PythonText
import ObserverClub.QueueFlight
import ObserverClub.Reading
import ObserverClub.Rebuilds
import ObserverClub.Reexport
import ObserverClub.Relays
import ObserverClub.Replies
import ObserverClub.Retries
import ObserverClub.Returning
import ObserverClub.ScopeVerdicts
import ObserverClub.Search
import ObserverClub.SearchIndex
import ObserverClub.Settling
import ObserverClub.SignedLines
import ObserverClub.SkipHook
import ObserverClub.Snapshot
import ObserverClub.SnapshotRule
import ObserverClub.Sniffing
import ObserverClub.Stampede
import ObserverClub.Store
import ObserverClub.StoreSteps
import ObserverClub.TakenRows
import ObserverClub.Throttle
import ObserverClub.Together
import ObserverClub.Transactions
import ObserverClub.Unforged
import ObserverClub.UnixFs
import ObserverClub.Votes
import ObserverClub.Wholesome
import ObserverClub.Windows
import ObserverClub.WireForm
import ObserverClub.Work
