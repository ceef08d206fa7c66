import Lemochain.Lib.Radix
import Lemochain.Lib.RadixWalk
import Lemochain.Lib.Loop
import Lemochain.Common.Types
import Lemochain.Rlp.Encode
import Lemochain.Rlp.Raw
import Lemochain.Trie.Encoding
import Lemochain.Trie.Node
import Lemochain.Trie.Methods
import Lemochain.Trie.Shape
import Lemochain.Trie.InsertSpec
import Lemochain.Trie.DeleteSpec
import Lemochain.Trie.GetSpec
import Lemochain.Trie.Operations
import Lemochain.Trie.Reachable
import Lemochain.Trie.Database
import Lemochain.Trie.Codec
import Lemochain.Trie.ShapeCodec
import Lemochain.Trie.Hasher
import Lemochain.Trie.Cache
import Lemochain.Trie.HasherSpec
import Lemochain.Trie.RootHash
import Lemochain.Trie.History
import Lemochain.Trie.Proof
import Lemochain.Trie.ProofSpec
import Lemochain.Trie.Untrusted
import Lemochain.Trie.Iterator
import Lemochain.Trie.IteratorSpec
import Lemochain.Rlp.Decode
import Lemochain.Rlp.RawStream
import Lemochain.Rlp.Encbuf
import Lemochain.Rlp.EncbufSpec
import Lemochain.P2p.Netutil
import Lemochain.P2p.Table
import Lemochain.P2p.TableSpec
import Lemochain.Abi.Codec
import Lemochain.Lib.ExchangeSort
import Lemochain.Clique.Snapshot
import Lemochain.Clique.SnapshotSpec
import Lemochain.Lib.Keystream
import Lemochain.P2p.Rlpx
import Lemochain.P2p.RlpxSpec
import Lemochain.Lib.PackedBits
import Lemochain.Vm.Analysis
import Lemochain.Vm.AnalysisSpec
import Lemochain.Common.Math
import Lemochain.Params
import Lemochain.Vm.Common
import Lemochain.Vm.Contracts
import Lemochain.Vm.Memory
import Lemochain.Vm.MemoryGas
import Lemochain.Vm.Gas
import Lemochain.Vm.GasSpec
import Lemochain.Core.StateTransition
import Lemochain.Core.StateTransitionSpec
import Lemochain.Lib.TwosComplement
import Lemochain.Common.Big
import Lemochain.Vm.Instructions
import Lemochain.Vm.InstructionsSpec
import Lemochain.Lib.Slice
import Lemochain.Whisper.Message
import Lemochain.Whisper.MessageSpec
import Lemochain.Lib.Keccak
import Lemochain.Core.Types.Bloom
import Lemochain.Core.Bloombits.Generator
import Lemochain.Core.Types.Signing
import Lemochain.Lib.Heap
import Lemochain.Core.Types.Transaction
import Lemochain.Lib.KeySorted
import Lemochain.Core.TxList
import Lemochain.Core.TxListSpec
import Lemochain.Core.State.StateDB
import Lemochain.Core.State.StateDBSpec
import Lemochain.Core.Bloombits.Matcher
import Lemochain.Core.Bloombits.MatcherSpec
import Lemochain.Swarm.Chunker
import Lemochain.Swarm.ChunkerSpec
import Lemochain.Compression.Rle
import Lemochain.Common.Compress
import Lemochain.Common.CompressSpec
import Lemochain.Lib.Numeral
import Lemochain.Common.Hexutil
import Lemochain.Common.HexutilSpec
import Lemochain.Lib.BinarySearch
import Lemochain.Lib.LeastK
import Lemochain.P2p.Closest
import Lemochain.P2p.Enr
import Lemochain.P2p.EnrSpec
import Lemochain.Les.Flowcontrol
import Lemochain.Trie.CacheFlags
import Lemochain.Trie.CacheRun
