import Ethcore.Lib.BigEndian
import Ethcore.Lib.PrefixMap
import Ethcore.Lib.Prque
import Ethcore.Lib.Indexed
import Ethcore.Lib.LocalWalk
import Ethcore.Lib.BitSet
import Ethcore.Lib.Positional
import Ethcore.Lib.Entries
import Ethcore.Lib.SliceHeap
import Ethcore.Lib.Search
import Ethcore.Lib.Blocks
import Ethcore.Lib.InPlace
import Ethcore.Rlp.Item
import Ethcore.Rlp.Encode
import Ethcore.Rlp.Output
import Ethcore.Rlp.Stream
import Ethcore.Rlp.Decode
import Ethcore.Rlp.Raw
import Ethcore.Rlp.Typed
import Ethcore.Trie.Encoding
import Ethcore.Trie.Node
import Ethcore.Trie.Trie
import Ethcore.Trie.Hasher
import Ethcore.Trie.Canon
import Ethcore.Trie.RoundTrip
import Ethcore.Trie.Proof
import Ethcore.Trie.Prque
import Ethcore.Trie.Contents
import Ethcore.Trie.Minimal
import Ethcore.Trie.Store
import Ethcore.Trie.RootHash
import Ethcore.State.StateDB
import Ethcore.State.Revert
import Ethcore.State.Commit
import Ethcore.Common.Bytes
import Ethcore.Common.Hexutil
import Ethcore.Vm.Instructions
import Ethcore.Vm.Arith
import Ethcore.Vm.Contracts
import Ethcore.Vm.Gas
import Ethcore.Vm.Analysis
import Ethcore.Vm.Run
import Ethcore.Core.BlockValidator
import Ethcore.Core.Difficulty
import Ethcore.Core.Rewards
import Ethcore.Core.TxPool
import Ethcore.Types.Signing
import Ethcore.Types.Bloom
import Ethcore.Types.TxSort
import Ethcore.Discover.Table
import Ethcore.Discover.ReadRandom
import Ethcore.Discover.Distance
import Ethcore.Abi.Codec
import Ethcore.Abi.Unpack
import Ethcore.P2p.Rlpx
import Ethcore.P2p.Dial
import Ethcore.Core.BlockChain
import Ethcore.Core.Atxi
import Ethcore.Downloader.Queue
import Ethcore.Downloader.Skeleton
import Ethcore.Downloader.Outstanding
import Ethcore.Event.Feed
import Ethcore.Event.Delivery
