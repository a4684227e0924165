import GoHpb.PrometheusVerify
import GoHpb.PrometheusSigners
import GoHpb.NonceLaw
import GoHpb.CanonicalIndex
import GoHpb.HeaderChainIndex
import GoHpb.ValueConservation
import GoHpb.NativePath
import GoHpb.RevertRoot
import GoHpb.CopyShared
import GoHpb.TrieProof
import GoHpb.TrieSyncRun
import GoHpb.SyncSchedulerRun
import GoHpb.PullerCount
import GoHpb.PullerImport
import GoHpb.DiscoveryFaults
import GoHpb.HistorysnapSplit
import GoHpb.PrometheusTurns
import GoHpb.TxList
import GoHpb.TxPoolReset
import GoHpb.RlpOutput
import GoHpb.RlpxFrame
import GoHpb.BloomGenerator
import GoHpb.ChainSchema
import GoHpb.WorkEnvironment
import GoHpb.EvmMemory
import GoHpb.EvmSafety
import GoHpb.PendingLoop
