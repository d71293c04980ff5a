import Axis.Lib.Positional
import Axis.Lib.PrefixCode
import Axis.Lib.Independence
import Axis.Lib.FiniteMap
import Axis.Lib.Transition
import Axis.Lib.MerkleTree
import Axis.Lib.Ledger
import Axis.Lib.HashChain
import Axis.Lib.Serving
import Axis.Lib.Calendar
import Axis.Lib.Scan
import Axis.Lib.Digits
import Axis.Lib.Sessions
import Axis.Lib.Queries
import Axis.Types
import Axis.Crypto
import Axis.Tx
import Axis.Block
import Axis.Utxo
import Axis.Chain
import Axis.Net
import Axis.Mempool
import Axis.Mining
import Axis.Loading
import Axis.Node
import Axis.Printing
import Axis.Restart
import Axis.Wire
import Axis.Headers
import Axis.DoubleSpend
import Axis.Uniqueness
import Axis.Conservation
import Axis.Failure
import Axis.Commitment
import Axis.Consistency
import Axis.Index
import Axis.Supply
import Axis.Order
import Axis.Threads
import Axis.Reads
import Axis.Serial
import Axis.Replay
import Axis.Owners
import Axis.Admission
import Axis.Submission
import Axis.GetPool
import Axis.Charts
import Axis.Activity
import Axis.Frames
import Axis.Crash
import Axis.Databases
import Axis.Faults
import Axis.Explorer
import Axis.Paging
import Axis.Http
import Axis.Broadcasts
import Axis.Sessions
import Axis.Snapshot
import Axis.Dump
import Axis.Later
