import Networking.Lib.Base64
import Networking.Lib.CString
import Networking.Lib.Circle
import Networking.Lib.Condition
import Networking.Lib.Counted
import Networking.Lib.Descent
import Networking.Lib.Drawing
import Networking.Lib.Fair
import Networking.Lib.Followed
import Networking.Lib.Fuel
import Networking.Lib.Ledger
import Networking.Lib.Presentation
import Networking.Lib.Segment
import Networking.Lib.Shell
import Networking.Lib.SortedMap
import Networking.Lib.Transition
import Networking.Lib.Wire
import Networking.Lib.Words
import Networking.Net.Assign
import Networking.Net.Connect
import Networking.Net.Groups
import Networking.Net.Listen
import Networking.Net.Numbers
import Networking.Net.Ownership
import Networking.Net.Service
import Networking.Net.SyncSocket
import Networking.Pool.Capacity
import Networking.Pool.Handout
import Networking.Pool.Joins
import Networking.Pool.Progress
import Networking.Pool.Shutdown
import Networking.Pool.Stop
import Networking.Pool.Threadpool
import Networking.Relay.Addresses
import Networking.Relay.Buffer
import Networking.Relay.Chain
import Networking.Relay.ChainFile
import Networking.Relay.Closing
import Networking.Relay.Delivery
import Networking.Relay.Descriptors
import Networking.Relay.File
import Networking.Relay.Receive
import Networking.Relay.Records
import Networking.Relay.Request
import Networking.Relay.Stone
import Networking.Relay.TempFiles
import Networking.Relay.Wget
import Networking.Resolver.AddressText
import Networking.Resolver.Answers
import Networking.Resolver.Attempt
import Networking.Resolver.Backtrack
import Networking.Resolver.Bounds
import Networking.Resolver.Circles
import Networking.Resolver.Delegation
import Networking.Resolver.Fallback
import Networking.Resolver.HostName
import Networking.Resolver.Location
import Networking.Resolver.Message
import Networking.Resolver.Names
import Networking.Resolver.Packet
import Networking.Resolver.Path
import Networking.Resolver.Pointers
import Networking.Resolver.Query
import Networking.Resolver.Question
import Networking.Resolver.Records
import Networking.Resolver.Referral
import Networking.Resolver.Resolution
import Networking.Resolver.SendOut
import Networking.Resolver.Signature
import Networking.Resolver.Success
import Networking.Sched.Conserved
import Networking.Sched.Deadlock
import Networking.Sched.Empty
import Networking.Sched.Entering
import Networking.Sched.EventQueue
import Networking.Sched.Log
import Networking.Sched.Nesting
import Networking.Sched.Order
import Networking.Sched.Prefixed
import Networking.Sched.Progress
import Networking.Sched.Reaping
import Networking.Sched.Return
import Networking.Sched.Shared
import Networking.Sched.Signals
import Networking.Sched.Startup
import Networking.Stream.Connecting
import Networking.Stream.Copying
import Networking.Stream.Decoding
import Networking.Stream.Exchange
import Networking.Stream.Getting
import Networking.Stream.Integers
import Networking.Stream.Leftovers
import Networking.Stream.Message
import Networking.Stream.Operators
import Networking.Stream.Overrun
import Networking.Stream.Received
import Networking.Stream.Registry
import Networking.Stream.RoundTrip
import Networking.Stream.Serving
import Networking.Stream.Sharing
import Networking.Stream.Socket
import Networking.Stream.Tags
import Networking.Stream.Transfer
import Networking.Stream.Types
