import GoEthereum.Trie.Proof
import GoEthereum.State.Finalise
import GoEthereum.Core.TxIndex
import GoEthereum.Ethash.Uncles
import GoEthereum.Core.Signing
import GoEthereum.Trie.Decode
import GoEthereum.Trie.FlushOrder
import GoEthereum.Trie.Materialise
import GoEthereum.Trie.Faults
import GoEthereum.Rlp.Bounds
import GoEthereum.Rlp.Outputs
import GoEthereum.State.Original
import GoEthereum.Trie.Download
import GoEthereum.Vm.Words
import GoEthereum.Vm.CallGas
import GoEthereum.Vm.ModExp
import GoEthereum.Core.Pruning
import GoEthereum.TxPool.Reset
import GoEthereum.TxPool.Limit
import GoEthereum.Clique.Retrieve
import GoEthereum.Clique.Turns
import GoEthereum.Bitutil.Compress
import GoEthereum.Ethash.Workers
import GoEthereum.Fetcher.Accounting
import GoEthereum.Fetcher.Imports
import GoEthereum.Bloombits.Distributor
import GoEthereum.Discover.Sampling
import GoEthereum.Whisper.Message
import GoEthereum.Core.TxOrder
import GoEthereum.P2p.Protocols
import GoEthereum.Swarm.Intervals
import GoEthereum.Discover.Lookup
import GoEthereum.Swarm.PotUnion
import GoEthereum.Les.RandSelect
import GoEthereum.Common.Prque
import GoEthereum.Swarm.Encryption
import GoEthereum.Swarm.Depth
import GoEthereum.Core.Asm
import GoEthereum.Core.ForkChoice
import GoEthereum.Core.DeriveSha
