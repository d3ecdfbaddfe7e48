import JnetLib.Foundation.Block
import JnetLib.Foundation.Borders
import JnetLib.Foundation.Chain
import JnetLib.Foundation.Cut
import JnetLib.Foundation.Interleaving
import JnetLib.Foundation.Ledger
import JnetLib.Foundation.Monitor
import JnetLib.Foundation.Numeral
import JnetLib.Foundation.Transition
import JnetLib.Foundation.WakeUps
import JnetLib.Base.Buffer
import JnetLib.Base.ErrorCode
import JnetLib.Base.Event
import JnetLib.Base.Join
import JnetLib.Base.ObjectList
import JnetLib.Base.Thread
import JnetLib.File.Accesses
import JnetLib.File.Backends
import JnetLib.File.EndOfLine
import JnetLib.File.Memory
import JnetLib.File.Pieces
import JnetLib.File.Write
import JnetLib.Worker.Links
import JnetLib.Worker.Loop
import JnetLib.Worker.Queue
import JnetLib.Epoll.Accept
import JnetLib.Epoll.CarefulCopies
import JnetLib.Epoll.Close
import JnetLib.Epoll.Conservation
import JnetLib.Epoll.Disposal
import JnetLib.Epoll.Duplex
import JnetLib.Epoll.Fates
import JnetLib.Epoll.FirstLine
import JnetLib.Epoll.LastLine
import JnetLib.Epoll.Lifetime
import JnetLib.Epoll.Masks
import JnetLib.Epoll.NextLine
import JnetLib.Epoll.Objects
import JnetLib.Epoll.OpenFailure
import JnetLib.Epoll.Operation
import JnetLib.Epoll.Owner
import JnetLib.Epoll.ReadBack
import JnetLib.Epoll.ReadLine
import JnetLib.Epoll.ReadWrite
import JnetLib.Epoll.Received
import JnetLib.Epoll.Recv
import JnetLib.Epoll.RecvSize
import JnetLib.Epoll.Registration
import JnetLib.Epoll.Semaphore
import JnetLib.Epoll.Send
import JnetLib.Epoll.SendSize
import JnetLib.Epoll.Service
import JnetLib.Epoll.Slots
import JnetLib.Epoll.Stop
import JnetLib.Epoll.Submissions
import JnetLib.Epoll.Wiring
import JnetLib.Epoll.WriteQueue
import JnetLib.Epoll.WriteSize
import JnetLib.Epoll.Written
import JnetLib.Iocp.Attended
import JnetLib.Iocp.Effects
import JnetLib.Iocp.Fallback
import JnetLib.Iocp.FileRead
import JnetLib.Iocp.Handshake
import JnetLib.Iocp.OneHolder
import JnetLib.Iocp.ReadLine
import JnetLib.Iocp.RecvSize
import JnetLib.Iocp.Routine
import JnetLib.Iocp.Send
import JnetLib.Iocp.SendSize
import JnetLib.Iocp.Service
import JnetLib.Iocp.Tokens
import JnetLib.Iocp.TransferSize
import JnetLib.Iocp.WriteSize
import JnetLib.Fiber.Fibers
import JnetLib.Fiber.Frame
import JnetLib.Fiber.Holders
import JnetLib.Fiber.Invariant
import JnetLib.Fiber.Life
import JnetLib.Fiber.Scheduler
import JnetLib.Fiber.Steps
import JnetLib.Fiber.Switches
import JnetLib.Fiber.Tokens
import JnetLib.Server.ConnectionContext
import JnetLib.Server.Lifetime
import JnetLib.Server.Listener
import JnetLib.Server.Results
import JnetLib.Http.Assembly
import JnetLib.Http.Bodies
import JnetLib.Http.BodyTurn
import JnetLib.Http.Bytewise
import JnetLib.Http.Callback
import JnetLib.Http.Delimiter
import JnetLib.Http.Delimiting
import JnetLib.Http.FieldNames
import JnetLib.Http.FieldReader
import JnetLib.Http.Fields
import JnetLib.Http.Framing
import JnetLib.Http.HeaderEnd
import JnetLib.Http.HeaderFieldLines
import JnetLib.Http.HeaderFirstLine
import JnetLib.Http.HeaderLines
import JnetLib.Http.HeaderPiece
import JnetLib.Http.HeaderSection
import JnetLib.Http.HeaderTurn
import JnetLib.Http.Leftover
import JnetLib.Http.Listener
import JnetLib.Http.Messages
import JnetLib.Http.OneByte
import JnetLib.Http.OneRound
import JnetLib.Http.Parser
import JnetLib.Http.Parsing
import JnetLib.Http.Reading
import JnetLib.Http.Reception
import JnetLib.Http.Request
import JnetLib.Http.RoundTrip
import JnetLib.Http.Rounds
import JnetLib.Http.Rules
import JnetLib.Http.SectionReader
import JnetLib.Http.Served
import JnetLib.Http.Session
import JnetLib.Http.States
import JnetLib.Http.Tail
import JnetLib.Http.Trailers
import JnetLib.Http.Turn
import JnetLib.Http.Url
import JnetLib.Http.UrlFields
import JnetLib.Http.UrlParts
import JnetLib.Ssl.Continuation
import JnetLib.Ssl.EndOfStream
import JnetLib.Ssl.Engine
import JnetLib.Ssl.Input
import JnetLib.Ssl.Operation
import JnetLib.Ssl.Perform
import JnetLib.Ssl.Receive
import JnetLib.Ssl.Send
