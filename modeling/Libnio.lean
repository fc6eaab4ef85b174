import Libnio.Linked.Segment
import Libnio.Common.Ring
import Libnio.Common.RingFacts
import Libnio.Linked.Buckets
import Libnio.Common.Htable
import Libnio.Common.HtableFacts
import Libnio.Common.HtableIter
import Libnio.Common.HtableMap
import Libnio.Slots.Block
import Libnio.Common.Array
import Libnio.Stream.Returns
import Libnio.Common.ArrayFacts
import Libnio.Common.ArrayDelete
import Libnio.Common.ArrayDeque
import Libnio.Trace.Machine
import Libnio.Trace.Amortized
import Libnio.Trace.Custody
import Libnio.Common.ArrayGrowth
import Libnio.Common.ArrayIter
import Libnio.Common.HtableGrowth
import Libnio.Stream.Drive
import Libnio.Stream.Grammar
import Libnio.Stream.Receiver
import Libnio.Stream.Base128
import Libnio.Mqtt.Base
import Libnio.Mqtt.Header
import Libnio.Mqtt.HeaderFacts
import Libnio.Mqtt.Publish
import Libnio.Mqtt.Connect
import Libnio.Mqtt.Subscribe
import Libnio.Mqtt.Unsubscribe
import Libnio.Mqtt.Suback
import Libnio.Mqtt.Ack
import Libnio.Mqtt.Message
import Libnio.Mqtt.AckFacts
import Libnio.Mqtt.Client
import Libnio.Mqtt.Packet
import Libnio.Mqtt.HeaderGrammar
import Libnio.Mqtt.PublishFacts
import Libnio.Mqtt.PublishLength
import Libnio.Mqtt.ConnectFacts
import Libnio.Mqtt.SubscribeFacts
import Libnio.Mqtt.ReturnCodes
import Libnio.Mqtt.UnsubscribeFacts
import Libnio.Mqtt.Packing
import Libnio.Mqtt.Consistency
import Libnio.Mqtt.Wire
import Libnio.Mqtt.Follows
import Libnio.Mqtt.ConnectHeld
import Libnio.Mqtt.ConnectVar
import Libnio.Mqtt.Rewrite
import Libnio.Mqtt.Framing
import Libnio.Mqtt.Sound
import Libnio.Mqtt.Progress
import Libnio.Event.Base
import Libnio.Event.Event
import Libnio.Event.EventFacts
import Libnio.Event.Epoll
import Libnio.Event.Loop
import Libnio.Event.History
import Libnio.Event.Deletion
import Libnio.Event.Deferred
import Libnio.Event.Requests
import Libnio.Event.Clear
import Libnio.Event.Mirror
import Libnio.Event.Kernel
import Libnio.Event.OneShot
import Libnio.Event.Rearm
import Libnio.Event.Poll
import Libnio.Event.Select
import Libnio.Event.Tables
import Libnio.Event.Admits
import Libnio.Event.Room
import Libnio.Event.PollWait
import Libnio.Event.SelectWait
import Libnio.Event.Kqueue
import Libnio.Event.Agrees
import Libnio.Event.Backends
import Libnio.Event.SelectArray
import Libnio.Event.Answered
import Libnio.Trace.Always
import Libnio.Timer.Base
import Libnio.Timer.Loop
import Libnio.Timer.Cancel
import Libnio.Timer.Order
import Libnio.Timer.Armed
import Libnio.Timer.Timeout
import Libnio.Timer.Rounds
import Libnio.Timer.Lateness
import Libnio.Socket.Outgoing
import Libnio.Socket.Base
import Libnio.Socket.Client
import Libnio.Socket.Proc
import Libnio.Socket.Loop
import Libnio.Socket.Update
import Libnio.Socket.Updates
import Libnio.Socket.Step
import Libnio.Socket.Closing
import Libnio.Socket.Bytes
import Libnio.Socket.Notify
import Libnio.Mqtt.Send
import Libnio.Socket.Timed
import Libnio.Socket.Dangling
import Libnio.Socket.Files
import Libnio.Socket.Reported
import Libnio.Socket.Connecting
import Libnio.Socket.Clean
import Libnio.Socket.Cancels
import Libnio.Socket.Answers
import Libnio.Socket.Stranded
import Libnio.Socket.Allocated
import Libnio.Socket.Silent
import Libnio.Socket.Server
import Libnio.Socket.Descriptors
import Libnio.Mqtt.Delivery
import Libnio.Mqtt.Contents
import Libnio.Mqtt.Network
import Libnio.Stream.Duplex
import Libnio.Mqtt.PingPong
