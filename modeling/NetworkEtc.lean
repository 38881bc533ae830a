import NetworkEtc.Library.Machine
import NetworkEtc.HTTPClient.Chunks
import NetworkEtc.HTTPClient.HeaderLines
import NetworkEtc.HTTPClient.HttpMessage
import NetworkEtc.HTTPClient.IMF
import NetworkEtc.HTTPClient.Lines
import NetworkEtc.HTTPClient.GetField
import NetworkEtc.HTTPClient.HttpResponse
import NetworkEtc.HTTPClient.Response
import NetworkEtc.HTTPClient.StartLine
import NetworkEtc.HTTPClient.Content
import NetworkEtc.HTTPClient.ChunkBounds
import NetworkEtc.HTTPClient.SeekCrlf
import NetworkEtc.HTTPClient.EncodeMessage
import NetworkEtc.HTTP.Headers
import NetworkEtc.HTTP.HttpRequest
import NetworkEtc.HTTP.HttpContentHandler
import NetworkEtc.Library.Decimal
import NetworkEtc.Library.Printf
import NetworkEtc.Library.LeaseHistory
import NetworkEtc.Library.Links
import NetworkEtc.Library.RedBlack
import NetworkEtc.Library.Ring
import NetworkEtc.Library.Shelves
import NetworkEtc.Library.Runs
import NetworkEtc.Library.Tally
import NetworkEtc.Library.Rows
import NetworkEtc.Netfram.GetOpt
import NetworkEtc.Netfram.Timer
import NetworkEtc.Netfram.Memblock
import NetworkEtc.Netfram.Common
import NetworkEtc.Netfram.ByteQueue
import NetworkEtc.Netfram.TypedCodec
import NetworkEtc.Netfram.SessionWrite
import NetworkEtc.Netfram.SlowPeer
import NetworkEtc.Netfram.SessionRead
import NetworkEtc.Netfram.SkipList
import NetworkEtc.Netfram.SkipListInv
import NetworkEtc.Netfram.SkipListCut
import NetworkEtc.Netfram.SkipListRange
import NetworkEtc.Netfram.RBTree
import NetworkEtc.Netfram.RBTreeMem
import NetworkEtc.Netfram.RBTreeInv
import NetworkEtc.Netfram.RBTreeDelete
import NetworkEtc.Netfram.RBTreeRun
import NetworkEtc.Netfram.RBTreeSeek
import NetworkEtc.Netfram.TimerTree
import NetworkEtc.Netfram.RBTreeIter
import NetworkEtc.Netfram.PollDelay
import NetworkEtc.Netfram.Poll
import NetworkEtc.Netfram.EventPosted
import NetworkEtc.Netfram.Cycle
import NetworkEtc.Netfram.SockAddr
import NetworkEtc.Netfram.SessionManager
import NetworkEtc.Netfram.NextSession
import NetworkEtc.Netfram.IoConnector
import NetworkEtc.Netfram.Datagram
import NetworkEtc.Mdb.Memory
import NetworkEtc.Mdb.PagePool
import NetworkEtc.Mdb.SlabManager
import NetworkEtc.Mdb.Places
import NetworkEtc.Mdb.SlabPages
import NetworkEtc.Mdb.Filing
import NetworkEtc.Mdb.Stock
import NetworkEtc.Mdb.ItemLists
import NetworkEtc.Mdb.SlabBooks
import NetworkEtc.Mdb.SlabRun
import NetworkEtc.Mdb.HashMap
import NetworkEtc.Mdb.Manager
import NetworkEtc.Mdb.ItemIds
import NetworkEtc.Mdb.Ledger
import NetworkEtc.Mdb.Chains
import NetworkEtc.Mdb.Expiry
import NetworkEtc.Mdb.Slots
import NetworkEtc.Mdb.Eviction
import NetworkEtc.Mdb.Changes
import NetworkEtc.Mdb.StoreCalls
import NetworkEtc.Mdb.Start
import NetworkEtc.Mdb.StoreRun
import NetworkEtc.Mdb.Ownership
import NetworkEtc.Mdb.AreaStats
import NetworkEtc.Mdb.Service
import NetworkEtc.Mdb.Contents
import NetworkEtc.Mdb.ReadYourWrite
import NetworkEtc.Mdb.LazyClear
import NetworkEtc.Mdb.ItemCounts
import NetworkEtc.Mdb.CounterLaw
import NetworkEtc.Mdb.RawCalls
import NetworkEtc.Mdb.Sweep
import NetworkEtc.Mdb.StoreUse
import NetworkEtc.Mdb.EntryCodec
import NetworkEtc.Mdb.EntryArea
import NetworkEtc.Mdb.FreePage
import NetworkEtc.PL.Msg
import NetworkEtc.PL.MsgCodec
import NetworkEtc.PL.ReplicatedLogMsg
import NetworkEtc.PL.Config
import NetworkEtc.PL.ConfigFile
import NetworkEtc.PL.Effect
import NetworkEtc.PL.Acceptor
import NetworkEtc.PL.Addresses
import NetworkEtc.PL.ConfigLookup
import NetworkEtc.PL.TokenBounds
import NetworkEtc.PL.Proposer
import NetworkEtc.PL.ProposerRun
import NetworkEtc.PL.RestartCounter
import NetworkEtc.PL.PaxosLease
import NetworkEtc.PL.Micro
import NetworkEtc.PL.Process
import NetworkEtc.PL.Network
import NetworkEtc.PL.ProposalIDs
import NetworkEtc.PL.Learning
import NetworkEtc.PL.Tokens
import NetworkEtc.PL.History
import NetworkEtc.PL.Rounds
import NetworkEtc.PL.Exclusivity
import NetworkEtc.BDB.Table
import NetworkEtc.BDB.Backward
import NetworkEtc.BDB.Prune
import NetworkEtc.Netfram.QueueNode
import NetworkEtc.Netfram.PeerId
import NetworkEtc.Netfram.MessageTable
import NetworkEtc.Netfram.WaitObject
import NetworkEtc.HTTP.TableGrowth
import NetworkEtc.HTTPClient.Resumes
import NetworkEtc.Library.Quota
import NetworkEtc.Tair.TableBuilder1
import NetworkEtc.Tair.Settled
import NetworkEtc.Tair.QuickTable
import NetworkEtc.Tair.Racks
import NetworkEtc.Tair.Migration
import NetworkEtc.Tair.Survivors
import NetworkEtc.Json.RoundTrip
import NetworkEtc.Json.Utf8
