import ArcusClient.Lib.CString
import ArcusClient.Hosts.Types
import ArcusClient.Lib.ConsistentHash
import ArcusClient.Hosts.Continuum
import ArcusClient.Hosts.Ring
import ArcusClient.Hosts.Placement
import ArcusClient.Hosts.ServerList
import ArcusClient.Hosts.RingMatches
import ArcusClient.Rgroup.Model
import ArcusClient.Rgroup.Update
import ArcusClient.Hosts.ListSpec
import ArcusClient.Lib.Outcome
import ArcusClient.Rgroup.GroupSpec
import ArcusClient.Rgroup.InfoSpec
import ArcusClient.Rgroup.MatchSpec
import ArcusClient.Rgroup.ClientSpec
import ArcusClient.Rgroup.Reconciled
import ArcusClient.Rgroup.FreeList
import ArcusClient.Pool.CacheList
import ArcusClient.Pool.Proxy
import ArcusClient.Pool.Members
import ArcusClient.Pool.Conservation
import ArcusClient.Pool.UpToDate
import ArcusClient.Collection.Query
import ArcusClient.Collection.Request
import ArcusClient.Collection.Replies
import ArcusClient.Io.Write
import ArcusClient.Io.ExactlyOnce
import ArcusClient.Io.Packets
import ArcusClient.Keys.Hash
import ArcusClient.Keys.Request
import ArcusClient.Keys.Routing
import ArcusClient.Keys.MultiGet
import ArcusClient.Store.Reply
import ArcusClient.Lib.Loops
import ArcusClient.Store.SendMulti
import ArcusClient.Store.Matched
import ArcusClient.Store.Summary
import ArcusClient.Pool.PublishedList
import ArcusClient.Lib.Strtok
import ArcusClient.Pool.ProxyString
import ArcusClient.Pool.Locks
import ArcusClient.Collection.PipedInsert
import ArcusClient.Collection.PipedOnce
import ArcusClient.Collection.MultiKey
import ArcusClient.Collection.Elements
import ArcusClient.Lib.KWayMerge
import ArcusClient.Smget.Merge
import ArcusClient.Smget.Cursors
import ArcusClient.Smget.Sorted
import ArcusClient.Smget.Storage
import ArcusClient.Smget.Trimmed
import ArcusClient.Smget.TrimmedOrder
import ArcusClient.Smget.Correspondence
import ArcusClient.Smget.Mirror
import ArcusClient.Rgroup.Slots
import ArcusClient.Rgroup.Validity
import ArcusClient.Rgroup.Target
import ArcusClient.Collection.StatusLine
import ArcusClient.Keys.ReplicaGet
import ArcusClient.Store.Switchover
import ArcusClient.Collection.PipedBulk
import ArcusClient.Collection.BatchReply
import ArcusClient.Collection.BulkScatter
import ArcusClient.Collection.BulkSummary
import ArcusClient.Collection.PipedExist
import ArcusClient.Collection.StatedBytes
import ArcusClient.Collection.PipedStream
import ArcusClient.Pool.NodeNames
import ArcusClient.Pool.ProxyRoom
import ArcusClient.Collection.MgetReply
import ArcusClient.Collection.SmgetReply
import ArcusClient.Store.BinaryCounter
import ArcusClient.Rgroup.Bookkeeping
import ArcusClient.Pool.MemberStock
import ArcusClient.Hosts.RingSharing
import ArcusClient.Lib.LinkedList
import ArcusClient.Pool.UsedList
import ArcusClient.Keys.ShardKey
import ArcusClient.Collection.HexCodec
import ArcusClient.Collection.ReplyCounts
import ArcusClient.Collection.QueryText
import ArcusClient.Collection.MapList
import ArcusClient.Collection.ValueReply
import ArcusClient.Hosts.MovedInput
import ArcusClient.Hosts.RingRoom
import ArcusClient.Collection.StringGrowth
import ArcusClient.Collection.ValueHeader
import ArcusClient.Zk.Manager
