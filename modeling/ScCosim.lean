import ScCosim.Kernel.Machine
import ScCosim.Kernel.Trace
import ScCosim.Kernel.Linear
import ScCosim.Kernel.Mealy
import ScCosim.Kernel.Program
import ScCosim.Kernel.Realises
import ScCosim.Kernel.Channel
import ScCosim.Kernel.Memory
import ScCosim.Firewall.Word
import ScCosim.Async.Packet
import ScCosim.Async.Channel
import ScCosim.Async.Wakeup
import ScCosim.Async.Interface
import ScCosim.Async.Matching
import ScCosim.Async.Exit
import ScCosim.Async.Settling
import ScCosim.Async.Payload
import ScCosim.Async.Exchange
import ScCosim.Async.Feeding
import ScCosim.Async.Mutexes
import ScCosim.Async.BlockingGet
import ScCosim.Async.Wire
import ScCosim.Async.Stream
import ScCosim.Async.Layouts
import ScCosim.Async.Framing
import ScCosim.Firewall.State
import ScCosim.Firewall.Bus
import ScCosim.Firewall.Ports
import ScCosim.Firewall.Ingress
import ScCosim.Firewall.Network
import ScCosim.Firewall.Processes
import ScCosim.Firewall.Machine
import ScCosim.Firewall.Registers
import ScCosim.Firewall.Pipeline
import ScCosim.Firewall.Routing
import ScCosim.Firewall.Rules
import ScCosim.Firewall.Tokens
import ScCosim.Firewall.Acknowledged
import ScCosim.Firewall.Mediation
import ScCosim.Firewall.Denial
import ScCosim.Firewall.Progress
import ScCosim.Firewall.DirectWrite
import ScCosim.Firewall.WriteEnds
import ScCosim.Firewall.Pieces
import ScCosim.Firewall.Counters
import ScCosim.Kernel.Flow
import ScCosim.Firewall.Switching
import ScCosim.Firewall.Delivery
import ScCosim.Firewall.Answers
import ScCosim.Firewall.Transit
import ScCosim.Firewall.Round
import ScCosim.Firewall.Markers
import ScCosim.Firewall.Reads
import ScCosim.Firewall.DirectRead
import ScCosim.Firewall.Contents
import ScCosim.Firewall.Settled
import ScCosim.Firewall.Phases
import ScCosim.Firewall.Judging
import ScCosim.Firewall.Crossing
import ScCosim.Firewall.Draining
import ScCosim.Firewall.Receiving
import ScCosim.Firewall.PacketWrites
import ScCosim.Firewall.Coherence
import ScCosim.Firewall.Accesses
import ScCosim.Firewall.Handover
import ScCosim.Firewall.HandoverTime
import ScCosim.Firewall.HandoverPorts
import ScCosim.Firewall.Debug
import ScCosim.Driver.Calls
import ScCosim.Driver.Encoding
import ScCosim.Driver.Addresses
import ScCosim.Driver.Requests
import ScCosim.Driver.Ioctl
import ScCosim.Driver.Events
import ScCosim.Driver.Mapped
import ScCosim.Driver.Polling
import ScCosim.Driver.Copying
import ScCosim.Driver.Privilege
import ScCosim.Driver.UserMode
import ScCosim.Driver.Accesses
import ScCosim.Driver.Virtual
import ScCosim.Driver.SharedMemory
import ScCosim.Driver.Handoff
import ScCosim.Driver.Returning
import ScCosim.Driver.Board
import ScCosim.Driver.Stacks
import ScCosim.Driver.SimpleRules
import ScCosim.Driver.Groups
import ScCosim.Driver.Delays
import ScCosim.Demo.Simulation
import ScCosim.Demo.Rejection
import ScCosim.Demo.Coherence
import ScCosim.Driver.Array
import ScCosim.Driver.Network
import ScCosim.Driver.Connections
import ScCosim.Driver.Serving
import ScCosim.Demo.Station
import ScCosim.Demo.Remote
import ScCosim.Helper.Cells
import ScCosim.Helper.Queue
import ScCosim.Helper.Capacity
import ScCosim.Helper.Vector
import ScCosim.Helper.Pieces
import ScCosim.Helper.Words
import ScCosim.Helper.Trim
import ScCosim.Helper.Trimstring
import ScCosim.Helper.Tokenize
