import LitecoinZ.Validation.SupplyBound
import LitecoinZ.Validation.Agreement
import LitecoinZ.Script.SignatureHash
import LitecoinZ.Mempool.Removal
import LitecoinZ.Pow.Rebuild
import LitecoinZ.Chain.Pruning
import LitecoinZ.Net.BlocksInFlight
import LitecoinZ.Wallet.WitnessChain
import LitecoinZ.Wallet.Payment
import LitecoinZ.Net.Framing
import LitecoinZ.Net.BloomFilter
import LitecoinZ.Net.MruSet
import LitecoinZ.Validation.CheckQueueLimits
import LitecoinZ.Chain.HeaderChain
import LitecoinZ.Pow.ChainWork
import LitecoinZ.Rpc.AsyncRPCQueue
import LitecoinZ.Wallet.NoteMerge
import LitecoinZ.Chain.Reindex
import LitecoinZ.Net.AddrManDisk
import LitecoinZ.Wallet.MerkleTx
import LitecoinZ.Script.Limits
