import Nimbus.Spec.AristoRuns
import Nimbus.Spec.BalBuilder
import Nimbus.Spec.BalTracker
import Nimbus.Spec.BaseQueue
import Nimbus.Spec.BeaconRuns
import Nimbus.Spec.CodeBytes
import Nimbus.Spec.ConcurrentQueue
import Nimbus.Spec.ContentDb
import Nimbus.Spec.DispatchLoop
import Nimbus.Spec.Eip4844
import Nimbus.Spec.EreFiles
import Nimbus.Spec.EreTotal
import Nimbus.Spec.EvmMemory
import Nimbus.Spec.ForkIds
import Nimbus.Spec.FrameBlob
import Nimbus.Spec.FrameEffects
import Nimbus.Spec.GasLimit
import Nimbus.Spec.HeaderChainCommit
import Nimbus.Spec.HeaderServing
import Nimbus.Spec.LogPacking
import Nimbus.Spec.LruLimit
import Nimbus.Spec.ModExpGas
import Nimbus.Spec.Nearby
import Nimbus.Spec.PayloadRanges
import Nimbus.Spec.PersistBatches
import Nimbus.Spec.PooledTxs
import Nimbus.Spec.ProxyLogs
import Nimbus.Spec.ProxyRuns
import Nimbus.Spec.ReadOnlyLedger
import Nimbus.Spec.ReceiptRounds
import Nimbus.Spec.RlpxStream
import Nimbus.Spec.RootedKeys
import Nimbus.Spec.StateQueries
import Nimbus.Spec.StaticFrames
import Nimbus.Spec.SyncSched
import Nimbus.Spec.TxPacker
import Nimbus.Spec.TxPoolWalk
import Nimbus.Spec.UnprocKeys
import Nimbus.Spec.WordOps
