import RoseChain.Consensus.CacheRuns
import RoseChain.Consensus.Conservation
import RoseChain.Consensus.CreationAgreement
import RoseChain.Consensus.Deficits
import RoseChain.Consensus.DoubleSpend
import RoseChain.Consensus.HeaderRaises
import RoseChain.Consensus.HighestFork
import RoseChain.Consensus.Iterations
import RoseChain.Consensus.PersistentPeak
import RoseChain.Consensus.SubSlotLookup
import RoseChain.FullNode.CoinStoreRuns
import RoseChain.FullNode.FinishedSubSlots
import RoseChain.FullNode.FutureCaches
import RoseChain.FullNode.GeneratorEncoding
import RoseChain.FullNode.LightExchange
import RoseChain.FullNode.PotentialCache
import RoseChain.FullNode.ProofRuns
import RoseChain.FullNode.Replacement
import RoseChain.FullNode.SubSlotAgreement
import RoseChain.FullNode.SummaryWeights
import RoseChain.FullNode.SyncStore
import RoseChain.FullNode.TemplateMatch
import RoseChain.FullNode.TimeLocks
import RoseChain.Server.AddressManagerStore
import RoseChain.Server.RateAgreement
import RoseChain.Server.RequestMatching
import RoseChain.Timelord.BlockCount
import RoseChain.Util.Bech32m
import RoseChain.Util.JsonRoundTrip
import RoseChain.Util.KeychainSlots
import RoseChain.Util.MerkleTotality
import RoseChain.Util.Truncation
import RoseChain.Wallet.BoundSpends
import RoseChain.Wallet.CoinSelection
import RoseChain.Wallet.DerivationIndices
import RoseChain.Wallet.FilterCoins
import RoseChain.Wallet.PoolSpends
import RoseChain.Wallet.ReorgExact
import RoseChain.Wallet.TradeResolution
import RoseChain.Wallet.TreeHash
import RoseChain.Wallet.TxUpdates
import RoseChain.Wallet.WalletBlockStoreRuns
import RoseChain.Wallet.WalletTransaction
