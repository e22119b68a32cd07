import EpvChain.Lib.BigEndian
import EpvChain.Public.Types
import EpvChain.Lib.Sweep
import EpvChain.Lib.Finmap
import EpvChain.Lib.Heap
import EpvChain.Kernel.Types.Header
import EpvChain.Agreement.Epvdpos.Archive
import EpvChain.Agreement.Epvdpos.Replay
import EpvChain.Agreement.Epvdpos.Bookkeeping
import EpvChain.Agreement.Epvdpos.Engine
import EpvChain.Agreement.Epvdpos.SealWindow
import EpvChain.Agreement.Epvdpos.Snapshot
import EpvChain.Agreement.Epvdpos.Turn
import EpvChain.Agreement.Epvdpos.Production
import EpvChain.Agreement.Epvdpos.GasFields
import EpvChain.Kernel.StateTransition
import EpvChain.Kernel.Types.Block
import EpvChain.Kernel.StateProcessor
import EpvChain.Work.Worker
import EpvChain.Process.Encode
import EpvChain.Process.Decode
import EpvChain.Process.Reading
import EpvChain.Process.RoundTrip
import EpvChain.Process.Raw
import EpvChain.Fast.Database
import EpvChain.Kernel.State.StateDb
import EpvChain.Kernel.State.Revert
import EpvChain.Kernel.State.Copy
import EpvChain.Kernel.BlockChain
import EpvChain.Fast.Node
import EpvChain.Fast.Hasher
import EpvChain.Fast.Codec
import EpvChain.Fast.Trie
import EpvChain.Fast.TrieMap
import EpvChain.Fast.Walk
import EpvChain.Fast.Cache
import EpvChain.Lib.ExceptLoop
import EpvChain.Public.Bitutil
import EpvChain.Lib.GoSlice
import EpvChain.Topic.Whisperv5.Message
import EpvChain.Topic.Whisperv5.Sent
import EpvChain.Lib.Keystream
import EpvChain.Peer.Rlpx
import EpvChain.Peer.Protocols
import EpvChain.Peer.Netutil.Net
import EpvChain.Peer.Discover.Table
import EpvChain.Peer.Discover.ReadRandom
import EpvChain.Lib.GoList
import EpvChain.Peer.Discover.Udp
import EpvChain.Fc.Distributor
import EpvChain.Fc.Flowcontrol.Control
import EpvChain.Lib.WeightedScan
import EpvChain.Lib.SlotIndex
import EpvChain.Fc.RandSelect.Node
import EpvChain.Fc.RandSelect.Select
import EpvChain.Epv.Fetcher
import EpvChain.Kernel.ChainIndexer
import EpvChain.Epv.Downloader.Queue
import EpvChain.Epv.Downloader.Slots
import EpvChain.Epv.Downloader.Reservation
import EpvChain.Epv.Downloader.Delivery
import EpvChain.Epv.Downloader.Runs
import EpvChain.Epv.Downloader.Ancestor
import EpvChain.Kernel.Types.Bloom9
import EpvChain.Kernel.Types.Transaction
import EpvChain.Kernel.Types.Signing
import EpvChain.Kernel.Vm.Common
import EpvChain.Kernel.Vm.Memory
import EpvChain.Kernel.Vm.Analysis
import EpvChain.Kernel.Vm.Contracts
import EpvChain.Lib.TwosComplement
import EpvChain.Public.Math.Big
import EpvChain.Kernel.Vm.Instructions
import EpvChain.Public.Hexutil
import EpvChain.Act.Hd
import EpvChain.Act.Keystore.AccountCache
import EpvChain.Kernel.Bloombits.Matcher
import EpvChain.Epv.BloomIndexer
import EpvChain.Epv.Filters.Filter
import EpvChain.Agreement.Epvdpos.Window
import EpvChain.Process.Output
import EpvChain.Process.Positions
import EpvChain.Fast.Decoded
import EpvChain.Fast.CommitOrder
import EpvChain.Kernel.HeaderChain
import EpvChain.Kernel.TxList
import EpvChain.Kernel.TxSortedMap
import EpvChain.Lib.Lex
import EpvChain.Fast.Iterator
