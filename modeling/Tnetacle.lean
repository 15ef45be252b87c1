import Tnetacle.Library.Run
import Tnetacle.Library.ByteOrder
import Tnetacle.Library.LineBuffer
import Tnetacle.Library.CString
import Tnetacle.Library.Keyed
import Tnetacle.Library.Vector
import Tnetacle.Library.Ledger
import Tnetacle.Library.Memory
import Tnetacle.Library.Flooding
import Tnetacle.Library.Framing
import Tnetacle.Library.Cuts
import Tnetacle.Library.Segments
import Tnetacle.Library.Chains
import Tnetacle.Library.Printf
import Tnetacle.Library.Sideband
import Tnetacle.Meta.Endpoint
import Tnetacle.Meta.Tokens
import Tnetacle.Meta.Split
import Tnetacle.Meta.Server
import Tnetacle.Meta.Lines
import Tnetacle.Meta.Changes
import Tnetacle.Meta.Identity
import Tnetacle.Meta.Established
import Tnetacle.Meta.Ownership
import Tnetacle.Meta.Cleanup
import Tnetacle.Meta.Endpoints
import Tnetacle.Meta.Approval
import Tnetacle.Meta.Handshake
import Tnetacle.Meta.Listen
import Tnetacle.Meta.Listeners
import Tnetacle.Meta.Acceptance
import Tnetacle.Meta.Buffers
import Tnetacle.Meta.Mesh
import Tnetacle.Meta.Shutdown
import Tnetacle.Tunnel.Broadcast
import Tnetacle.Tunnel.Delivery
import Tnetacle.Tunnel.Frame
import Tnetacle.Tunnel.Receive
import Tnetacle.Tunnel.RoundTrip
import Tnetacle.Tunnel.Isolation
import Tnetacle.Tunnel.Buffers
import Tnetacle.Tunnel.Owners
import Tnetacle.Tunnel.Flood
import Tnetacle.Tunnel.PeerLoop
import Tnetacle.Fibers.Sched
import Tnetacle.Fibers.Resume
import Tnetacle.Fibers.Locality
import Tnetacle.Fibers.Origin
import Tnetacle.Fibers.Cache
import Tnetacle.Fibers.Programs
import Tnetacle.Fibers.Exit
import Tnetacle.Fibers.Blocking
import Tnetacle.Tunnel.Broadcaster
import Tnetacle.Tunnel.Process
import Tnetacle.Tunnel.Receiver
import Tnetacle.Tunnel.Compress
import Tnetacle.Tunnel.Uncompress
import Tnetacle.Hexdump
import Tnetacle.Windows.Pipe
import Tnetacle.Windows.DevicePipe
import Tnetacle.Windows.Iocp
import Tnetacle.Windows.DeviceFrames
import Tnetacle.Windows.Overlapped
import Tnetacle.Client.Control
import Tnetacle.Client.Peers
import Tnetacle.Discovery
import Tnetacle.Config.Parser
import Tnetacle.Config.Document
import Tnetacle.Config.Order
import Tnetacle.Config.Json
import Tnetacle.Config.Accept
import Tnetacle.Config.File
import Tnetacle.Config.Lists
import Tnetacle.Config.Entry
import Tnetacle.Config.Ports
import Tnetacle.Privileged.Imsg
import Tnetacle.Privileged.Dispatch
import Tnetacle.Privileged.Address
import Tnetacle.Privileged.Ibuf
import Tnetacle.Privileged.Channel
import Tnetacle.Privileged.Delivery
import Tnetacle.Privileged.Startup
import Tnetacle.Privileged.Wakeups
import Tnetacle.Gui.Qt
import Tnetacle.Gui.CheckIp
import Tnetacle.Gui.Contacts
