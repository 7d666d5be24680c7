import SocietyHelper.Library.Table
import SocietyHelper.Library.Effect
import SocietyHelper.Library.Paging
import SocietyHelper.Library.Disk
import SocietyHelper.Sync.NamespaceChain
import SocietyHelper.Library.Base64
import SocietyHelper.Sync.Requests
import SocietyHelper.Sync.JournalReplication
import SocietyHelper.Sync.Steady
import SocietyHelper.Sync.Manifests
import SocietyHelper.Sync.ManifestProtocol
import SocietyHelper.Sync.Rows
import SocietyHelper.Sync.Announce
import SocietyHelper.Sync.Agreement
import SocietyHelper.Sync.BoundedSnapshot
import SocietyHelper.Sync.Visibility
import SocietyHelper.Delivery.Ordered
import SocietyHelper.Delivery.Exchange
import SocietyHelper.Delivery.Reader
import SocietyHelper.Sync.Controller
import SocietyHelper.Sync.AtMostOnce
import SocietyHelper.Generation.Host
import SocietyHelper.Generation.Remote
import SocietyHelper.Generation.Jobs
import SocietyHelper.Generation.Protocol
import SocietyHelper.Library.Moves
import SocietyHelper.Sync.Adoption
import SocietyHelper.Sync.AdoptionSafety
import SocietyHelper.Sync.AdoptionRuns
import SocietyHelper.Storage.GroupSession
import SocietyHelper.Storage.Revocation
import SocietyHelper.Core.Presence
import SocietyHelper.Core.PresenceEvents
import SocietyHelper.Monitoring.Publisher
import SocietyHelper.Monitoring.Revisions
import SocietyHelper.Discovery.AutomaticPairing
import SocietyHelper.Discovery.Leader
import SocietyHelper.Discovery.NearbyDevices
import SocietyHelper.Discovery.Invitations
import SocietyHelper.Library.Hmac
import SocietyHelper.Storage.PairingCredentials
import SocietyHelper.Storage.PairingProofs
import SocietyHelper.Library.Reorder
import SocietyHelper.Sync.Transfers
import SocietyHelper.Sync.Windows
import SocietyHelper.Sync.Slices
import SocietyHelper.Sync.Resumable
import SocietyHelper.Sync.WatchPaths
import SocietyHelper.Sync.RemoteFiles
import SocietyHelper.Client.Inspection
import SocietyHelper.Client.Drive
import SocietyHelper.Client.Changes
import SocietyHelper.Client.Reports
import SocietyHelper.Client.Tokens
import SocietyHelper.Client.Completion
import SocietyHelper.Sync.NearbyBootstrap
import SocietyHelper.Storage.LegacyCache
import SocietyHelper.Library.JsonGrammar
import SocietyHelper.Monitoring.JsonScanning
import SocietyHelper.Monitoring.JsonReading
import SocietyHelper.Monitoring.JsonWriting
import SocietyHelper.Sync.Clocks
import SocietyHelper.Sync.LogicalPaths
import SocietyHelper.Sync.ConflictNames
import SocietyHelper.Library.Sorting
import SocietyHelper.Sync.ApplicationOrder
import SocietyHelper.Objects.ObjectCodec
import SocietyHelper.Objects.Snapshots
import SocietyHelper.Library.Rooted
import SocietyHelper.Sync.Providers
import SocietyHelper.Sync.Placement
import SocietyHelper.Sync.Preservation
import SocietyHelper.Sync.Catalog
import SocietyHelper.Client.Catalog
import SocietyHelper.Media.Downloads
import SocietyHelper.Media.Faithful
import SocietyHelper.Media.Staging
