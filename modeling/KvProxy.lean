import KvProxy.Lib.SortedMap
import KvProxy.Lib.Cursor
import KvProxy.Lib.MachineInt
import KvProxy.Lib.Loop
import KvProxy.Lib.ByteMem
import KvProxy.Lib.Grouping
import KvProxy.Lib.Act
import KvProxy.Lib.Steps
import KvProxy.Lib.ReflectedCrc
import KvProxy.Lib.Links
import KvProxy.Lib.Numbering
import KvProxy.Lib.Numeral
import KvProxy.Lib.RoundRobin
import KvProxy.Lib.Sharding
import KvProxy.Crc32
import KvProxy.ConsistentHash
import KvProxy.VNodeNames
import KvProxy.Hosts
import KvProxy.HostAliases
import KvProxy.Failover
import KvProxy.Extension
import KvProxy.Header
import KvProxy.ParseReq
import KvProxy.ParseResp
import KvProxy.RequestBounds
import KvProxy.ParserProgress
import KvProxy.Encode
import KvProxy.Backend
import KvProxy.SendBuffer
import KvProxy.WriteDelivery
import KvProxy.Reading
import KvProxy.FailAccounting
import KvProxy.PriorAnswers
import KvProxy.Packet
import KvProxy.ParsePackets
import KvProxy.FanOut
import KvProxy.Routing
import KvProxy.TextScan
import KvProxy.TextCommands
import KvProxy.TextRouting
import KvProxy.TextRequest
import KvProxy.TextFraming
import KvProxy.Answer
import KvProxy.MergedReply
import KvProxy.Reassembly
import KvProxy.TextResponse
import KvProxy.DigitCounts
import KvProxy.TextReassembly
import KvProxy.ReplyIndependence
import KvProxy.Attribution
import KvProxy.ConnPool
import KvProxy.PoolAccounting
import KvProxy.PoolRace
import KvProxy.AsyncQueue
import KvProxy.ConnQueue
import KvProxy.Dispatch
import KvProxy.StopRun
import KvProxy.ClientCount
import KvProxy.ReadEvent
import KvProxy.AsyncEncode
import KvProxy.Replication
import KvProxy.RequestStream
import KvProxy.Framing
import KvProxy.BatchParse
import KvProxy.BatchSplit
import KvProxy.BatchServed
import KvProxy.OneStore
import KvProxy.ReplyBounds
import KvProxy.ResponseBounds
import KvProxy.ClosedConnection
import KvProxy.FailStreak
import KvProxy.HealthCheck
import KvProxy.Preference
import KvProxy.HealthPass
import KvProxy.OfflineHosts
import KvProxy.Status
import KvProxy.Proxy
import KvProxy.ProxyRun
import KvProxy.EventRun
import KvProxy.StoreFailover
import KvProxy.RingHistory
import KvProxy.Config
import KvProxy.ConfigFile
import KvProxy.ConfigPadding
import KvProxy.ConfigReads
import KvProxy.ExtensionLoad
import KvProxy.Util
import KvProxy.SplitFields
import KvProxy.HostEntries
import KvProxy.ListedHosts
import KvProxy.Startup
