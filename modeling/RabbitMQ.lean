import RabbitMQ.Lib.Circular
import RabbitMQ.Lib.Segment
import RabbitMQ.Lib.Run
import RabbitMQ.Core.Memory
import RabbitMQ.Core.QueueBooks
import RabbitMQ.Core.Message
import RabbitMQ.Lib.Bytes
import RabbitMQ.Lib.Reader
import RabbitMQ.Core.Wire
import RabbitMQ.Core.Framing
import RabbitMQ.Core.Connection
import RabbitMQ.Core.Receiver
import RabbitMQ.Core.Sends
import RabbitMQ.Core.Custody
import RabbitMQ.Core.Broker
import RabbitMQ.Core.Routing
import RabbitMQ.Core.Monitor
import RabbitMQ.Core.Waiting
import RabbitMQ.Core.Forwarding
import RabbitMQ.Core.Copies
import RabbitMQ.Core.Registry
import RabbitMQ.Core.Consumers
import RabbitMQ.Core.Pushes
import RabbitMQ.Core.Network
import RabbitMQ.Core.Decoding
import RabbitMQ.Core.Resync
import RabbitMQ.Core.Dispatch
import RabbitMQ.Core.Entries
import RabbitMQ.Core.Slots
import RabbitMQ.Core.Tags
import RabbitMQ.Core.Relay
import RabbitMQ.Core.Handling
import RabbitMQ.Core.Properties
import RabbitMQ.Core.Creating
import RabbitMQ.Core.Sessions
import RabbitMQ.Core.Balance
import RabbitMQ.Lib.Threads
import RabbitMQ.Core.Lifecycle
import RabbitMQ.Core.Losses
import RabbitMQ.Core.Bounds
import RabbitMQ.Core.Grammar
import RabbitMQ.Core.Truncation
import RabbitMQ.Lib.Before
import RabbitMQ.Core.Timeouts
import RabbitMQ.Core.Topics
import RabbitMQ.Core.Registries
import RabbitMQ.Core.Descriptors
import RabbitMQ.Wrapper.Client
import RabbitMQ.Core.Deliveries
import RabbitMQ.Core.Indices
import RabbitMQ.Core.Accepting
import RabbitMQ.Lib.Holders
import RabbitMQ.Wrapper.Messages
import RabbitMQ.Lib.Prog
import RabbitMQ.Core.Accesses
import RabbitMQ.Core.Interleavings
import RabbitMQ.Core.Producers
import RabbitMQ.Core.Pipeline
import RabbitMQ.Core.EventLoop
import RabbitMQ.Core.Teardown
import RabbitMQ.Core.Main
import RabbitMQ.Lib.Fair
import RabbitMQ.Core.Progress
import RabbitMQ.Core.Load
import RabbitMQ.Core.Arrivals
import RabbitMQ.Wrapper.Publishing
import RabbitMQ.Wrapper.Service
import RabbitMQ.Core.Log
