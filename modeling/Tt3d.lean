import Tt3d.Lib.Machine
import Tt3d.Lib.RadixWheel
import Tt3d.Core.Coordinate
import Tt3d.Timer.TimerMaster
import Tt3d.Timer.Calendar
import Tt3d.Timer.Wheel
import Tt3d.Timer.Refinement
import Tt3d.Timer.Timing
import Tt3d.Lib.Decimal
import Tt3d.Lib.Feed
import Tt3d.Lib.MachineInt
import Tt3d.Network.LineFormat
import Tt3d.Network.Stream
import Tt3d.Network.Grammar
import Tt3d.Network.Decoding
import Tt3d.Lib.UpgradeMutex
import Tt3d.Network.ReadHandler
import Tt3d.Network.Frames
import Tt3d.Network.SharedConstBuffers
import Tt3d.Network.BufferCopies
import Tt3d.Network.WritePath
import Tt3d.Network.Teardown
import Tt3d.Network.NestedCalls
import Tt3d.Network.ResponseTable
import Tt3d.Network.Calls
import Tt3d.Network.Replies
import Tt3d.Network.Peers
import Tt3d.Timer.Checks
import Tt3d.Thread.IntrusiveCount
import Tt3d.Server.Acceptors
import Tt3d.Network.Dispatch
import Tt3d.Thread.ThreadPool
import Tt3d.Server.Channels
import Tt3d.Server.Shutdown
import Tt3d.Server.StopReturns
import Tt3d.Server.Accepting
import Tt3d.Network.Ownership
import Tt3d.Network.Obligations
import Tt3d.Timer.Placed
import Tt3d.Timer.Restart
import Tt3d.Lib.FirstSeen
import Tt3d.Server.ConcurrentContainer
import Tt3d.Server.RpcServiceClients
import Tt3d.Server.Waiting
import Tt3d.Timer.Draining
import Tt3d.Lib.RoundRobin
import Tt3d.Network.IOServicePool
import Tt3d.Network.ClientConnection
import Tt3d.Network.Resolution
import Tt3d.Network.Transport
import Tt3d.Network.RpcStream
import Tt3d.Lib.LittleEndian
import Tt3d.Core.Lookup8
import Tt3d.Network.Registration
import Tt3d.Lib.ConditionVariable
import Tt3d.Thread.Resting
import Tt3d.Network.Heartbeat
import Tt3d.Network.HeartbeatPeers
import Tt3d.Timer.Slots
