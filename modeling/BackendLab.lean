import BackendLab.Support.Loop
import BackendLab.Support.CString
import BackendLab.Support.LexicalPath
import BackendLab.Support.StructLayout
import BackendLab.Support.Custody
import BackendLab.Support.ByteOrder
import BackendLab.Support.Framing
import BackendLab.Support.Runs
import BackendLab.Support.WriteQueue
import BackendLab.Support.Population
import BackendLab.Support.Variables
import BackendLab.Support.Election
import BackendLab.Support.Lanes
import BackendLab.Support.Sessions
import BackendLab.Support.HeadLines
import BackendLab.Proactor.Connection.Model
import BackendLab.Proactor.Connection.Parser
import BackendLab.Proactor.Connection.Response
import BackendLab.Proactor.Parsing.Lines
import BackendLab.Proactor.Parsing.Text
import BackendLab.Proactor.Parsing.Rounds
import BackendLab.Proactor.Parsing.Splitting
import BackendLab.Proactor.Parsing.Head
import BackendLab.Proactor.Parsing.Grammar
import BackendLab.Proactor.Parsing.Body
import BackendLab.Proactor.Parsing.Delivery
import BackendLab.Proactor.Parsing.BodyPieces
import BackendLab.Proactor.Parsing.Accepted
import BackendLab.Proactor.Parsing.Malformed
import BackendLab.Proactor.Parsing.HeaderEnd
import BackendLab.Proactor.Parsing.Indices
import BackendLab.Proactor.Responses.Confinement
import BackendLab.Proactor.Responses.Lookup
import BackendLab.Proactor.Responses.Appending
import BackendLab.Proactor.Responses.Text
import BackendLab.Proactor.Responses.Lengths
import BackendLab.Proactor.Responses.Sending
import BackendLab.Proactor.Responses.KeepAlive
import BackendLab.Proactor.Responses.Fetching
import BackendLab.Proactor.Responses.Closing
import BackendLab.Proactor.Memory.Layout
import BackendLab.Proactor.System.Server
import BackendLab.Proactor.System.Filling
import BackendLab.Proactor.System.Ownership
import BackendLab.Proactor.System.Guarantees
import BackendLab.Proactor.System.Resting
import BackendLab.Proactor.System.Pool
import BackendLab.Proactor.System.Changes
import BackendLab.Proactor.System.Accounting
import BackendLab.Proactor.System.Mappings
import BackendLab.Proactor.System.Listening
import BackendLab.Proactor.System.Lives
import BackendLab.Proactor.System.Serving
import BackendLab.ServicePool.Message
import BackendLab.ServicePool.Reading
import BackendLab.ServicePool.Sending
import BackendLab.ServicePool.Encoding
import BackendLab.ServicePool.RoundRobin
import BackendLab.ServicePool.Stopping
import BackendLab.ServicePool.Json
import BackendLab.ServicePool.Reply
import BackendLab.ServicePool.Logic
import BackendLab.ServicePool.Pipeline
import BackendLab.ServicePool.Exchange
import BackendLab.ServicePool.Draining
import BackendLab.ServicePool.Conversation
import BackendLab.ServicePool.Lockstep
import BackendLab.ServicePool.Completion
import BackendLab.Coroutine.Reading
import BackendLab.Coroutine.Agreement
import BackendLab.Coroutine.Buffers
import BackendLab.Coroutine.Serving
import BackendLab.HttpServer.Response
import BackendLab.HttpServer.Connections
import BackendLab.Accepting.Registry
import BackendLab.Echo.Session
import BackendLab.Echo.Law
import BackendLab.Echo.Closing
import BackendLab.Echo.Client
import BackendLab.Echo.Server
import BackendLab.Overload.Queues
import BackendLab.WebSocket.Connection
import BackendLab.WebSocket.Strings
import BackendLab.WebSocket.Sending
import BackendLab.WebSocket.Echo
import BackendLab.WebSocket.Server
import BackendLab.PartialWrite.Queued
import BackendLab.PartialWrite.WriteAll
import BackendLab.PartialWrite.Direct
import BackendLab.PartialWrite.Receiving
import BackendLab.Webbench.Request
import BackendLab.Webbench.Benchmark
import BackendLab.Echo.Blocking
