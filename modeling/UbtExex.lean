import UbtExex.Lib.Writes
import UbtExex.Lib.Versioned
import UbtExex.Lib.History
import UbtExex.Lib.Run
import UbtExex.Lib.Stateful
import UbtExex.Lib.Registry
import UbtExex.Lib.Tables
import UbtExex.Lib.Grouped
import UbtExex.Lib.Bytes
import UbtExex.Types
import UbtExex.Persistence
import UbtExex.KeyIndex
import UbtExex.Index
import UbtExex.PackedIndex
import UbtExex.KeySet
import UbtExex.Nomt
import UbtExex.Chain
import UbtExex.Exex
import UbtExex.Export
import UbtExex.Overlay
import UbtExex.Journal
import UbtExex.Commit
import UbtExex.Revert
import UbtExex.Ledger
import UbtExex.Follow
import UbtExex.Commits
import UbtExex.Owned
import UbtExex.EntryOrder
import UbtExex.DeltaTable
import UbtExex.Reorg
import UbtExex.NomtSync
import UbtExex.Crash
import UbtExex.Startup
import UbtExex.NomtLog
import UbtExex.Retention
import UbtExex.Resume
import UbtExex.Accounts
import UbtExex.CodeLeaves
import UbtExex.Replay
import UbtExex.Reads
import UbtExex.StemCount
import UbtExex.Heads
import UbtExex.Finished
import UbtExex.Exported
import UbtExex.Gate
import UbtExex.Incremental
import UbtExex.Pir2
import UbtExex.Contract
import UbtExex.Exportable
import UbtExex.TwoExports
import UbtExex.Snapshot
import UbtExex.FailedExport
import UbtExex.Mirrored
import UbtExex.Validator
import UbtExex.Restarts
import UbtExex.RevertPieces
import UbtExex.Rpc
import UbtExex.Replica
import UbtExex.Delivery
import UbtExex.Served
import UbtExex.Lifetimes
import UbtExex.Survived
import UbtExex.Rooted
