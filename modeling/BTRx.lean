import BTRx.Base.Outcome
import BTRx.Base.ByteSet
import BTRx.Base.LittleEndian
import BTRx.Base.Memory
import BTRx.Base.Transition
import BTRx.Base.WriteOnce
import BTRx.Base.Blocks
import BTRx.Base.Lru
import BTRx.Base.Exchange
import BTRx.Base.Fifo
import BTRx.Base.Ranking
import BTRx.Base.Retry
import BTRx.Base.Text
import BTRx.Json.Value
import BTRx.Json.Bson
import BTRx.Json.BsonRoundTrip
import BTRx.Pkts.Pkts
import BTRx.Pkts.Codec
import BTRx.ObjStore.Bfield
import BTRx.ObjStore.Flips
import BTRx.ObjStore.Cache
import BTRx.ObjStore.Access
import BTRx.ObjStore.Geometry
import BTRx.ObjStore.Transparency
import BTRx.ObjStore.Contents
import BTRx.ObjStore.Threads
import BTRx.ObjStore.Lru
import BTRx.ObjStore.FirstWrite
import BTRx.ObjStore.Frame
import BTRx.ObjStore.Budget
import BTRx.NbrMap.NbrMap
import BTRx.NbrMap.Earmark
import BTRx.NbrMap.Unchoke
import BTRx.NbrMap.Neighbours
import BTRx.NbrMap.Preferred
import BTRx.NbrMap.OptUnchoke
import BTRx.NbrMap.Threads
import BTRx.Handler.Handler
import BTRx.Handler.Turn
import BTRx.Handler.Difference
import BTRx.Handler.Receive
import BTRx.Handler.Bounds
import BTRx.Handler.Choke
import BTRx.Handler.Registration
import BTRx.Handler.Loop
import BTRx.Handler.Neighbour
import BTRx.Handler.Announce
import BTRx.Node.Node
import BTRx.Node.Step
import BTRx.Node.Claims
import BTRx.Node.Output
import BTRx.Node.Store
import BTRx.Node.Requests
import BTRx.Node.Earmarks
import BTRx.Node.Table
import BTRx.Node.Flags
import BTRx.Node.Reply
import BTRx.Node.Process
import BTRx.Node.Setup
import BTRx.Node.Start
import BTRx.Network.Network
import BTRx.Network.Honest
import BTRx.Network.Conservation
import BTRx.Network.Gate
import BTRx.Network.Wire
import BTRx.Network.Exchange
import BTRx.Network.Traffic
import BTRx.Network.Transfer
import BTRx.Entrypoint.Config
import BTRx.Entrypoint.PeerInfo
import BTRx.Entrypoint.Main
