import Fnd.Lib.Machine
import Fnd.Lib.HashChain
import Fnd.Lib.Decoder
import Fnd.Lib.Slice
import Fnd.Lib.Ledger
import Fnd.Lib.Snapshot
import Fnd.Lib.OrderedMap
import Fnd.Lib.Paging
import Fnd.Lib.Rejection
import Fnd.Lib.Hex
import Fnd.Lib.Each
import Fnd.Lib.Refill
import Fnd.Lib.LittleEndian
import Fnd.Lib.Weight
import Fnd.Basic
import Fnd.Crypto
import Fnd.Wire.Dwire
import Fnd.Wire.Messages
import Fnd.Wire.Decode
import Fnd.Wire.Envelope
import Fnd.Wire.Codec
import Fnd.Wire.Equals
import Fnd.P2p.Handshake
import Fnd.P2p.PeerMuxer
import Fnd.P2p.Connections
import Fnd.P2p.Gossip
import Fnd.P2p.PeerManager
import Fnd.P2p.Admission
import Fnd.P2p.Pending
import Fnd.Blob.File
import Fnd.Blob.Transaction
import Fnd.Blob.Bytes
import Fnd.Blob.Stream
import Fnd.Blob.Store
import Fnd.Blob.Pool
import Fnd.Blob.Hash
import Fnd.Blob.Seal
import Fnd.Store.DB
import Fnd.Store.WithTx
import Fnd.Store.Keys
import Fnd.Store.Flat
import Fnd.Store.HeaderCount
import Fnd.Util.MultiLocker
import Fnd.Util.Lock
import Fnd.Util.Cache
import Fnd.Util.Reaper
import Fnd.Util.Sampler
import Fnd.P2p.Broadcast
import Fnd.Protocol.Names
import Fnd.Protocol.BanList
import Fnd.Store.Paging
import Fnd.Store.Times
import Fnd.Store.Rows
import Fnd.Store.PeerStream
import Fnd.Store.SectorHashes
import Fnd.P2p.Seeds
import Fnd.Protocol.NameImporter
import Fnd.Protocol.TXTRecords
import Fnd.Protocol.Epoch
import Fnd.Protocol.Syncer
import Fnd.Protocol.UpdateQueue
import Fnd.Protocol.ItemHeap
import Fnd.Protocol.Updater
import Fnd.Symbolic
import Fnd.Blob.SerialHash
import Fnd.Protocol.SyncLoop
import Fnd.Protocol.SectorServer
import Fnd.Protocol.Moderation
import Fnd.Rpc.Server
import Fnd.Rpc.ReadAt
import Fnd.Rpc.BlobReader
import Fnd.Rpc.BlobWriter
import Fnd.Node
import Fnd.Agreement
import Fnd.Sync
import Fnd.Protocol.SectorFaults
import Fnd.Authentic
import Fnd.Equivocation
import Fnd.Versions
import Fnd.Protocol.UpdateServer
import Fnd.Outcome
import Fnd.Commits
import Fnd.Bans
import Fnd.Throttle
import Fnd.Gates
import Fnd.Punishment
import Fnd.Evidence
import Fnd.Queue
import Fnd.Serving
import Fnd.Moderation
import Fnd.References
import Fnd.Isolation
import Fnd.NameImport
import Fnd.NameReset
import Fnd.Lifecycle
import Fnd.Appends
import Fnd.Network
import Fnd.Chain.DomainName
import Fnd.Chain.Encoding
import Fnd.Chain.Block
import Fnd.Chain.Fetch
import Fnd.Chain.ResourceFormat
import Fnd.P2p.Peer
import Fnd.P2p.PeerProgress
import Fnd.Protocol.NameSyncer
import Fnd.Protocol.NameSyncJob
import Fnd.Protocol.PeerExchanger
import Fnd.P2p.PeerBans
import Fnd.Cli.Write
import Fnd.Release
import Fnd.Propagation
