import CppSnippets.As.BodyReading
import CppSnippets.As.OneWriter
import CppSnippets.As.Reader
import CppSnippets.Epoll.BufferRef
import CppSnippets.Epoll.Deadline
import CppSnippets.Epoll.Encoder
import CppSnippets.Epoll.Latency
import CppSnippets.Epoll.QueueHistory
import CppSnippets.Epoll.QueueSafety
import CppSnippets.Epoll.RecvPath
import CppSnippets.Epoll.RecvSpec
import CppSnippets.Epoll.Reset
import CppSnippets.Epoll.Retry
import CppSnippets.Epoll.Robust
import CppSnippets.Epoll.TcpConsume
import CppSnippets.Epoll.TcpReceive
import CppSnippets.Epoll.TcpSend
import CppSnippets.Epoll.TcpVideo
import CppSnippets.Epoll.Timestamp
import CppSnippets.Epoll.UdpEndpoint
import CppSnippets.Epoll.UdpFeedback
import CppSnippets.Epoll.UdpNetwork
import CppSnippets.Epoll.VideoRoundTrip
import CppSnippets.Ildec.DoubleBuffer
import CppSnippets.Js.Exact
import CppSnippets.Js.ReadsOutside
import CppSnippets.Lib.Gather
import CppSnippets.Lib.Header
import CppSnippets.Lib.Heap
import CppSnippets.Lib.LastOf
import CppSnippets.Lib.Loop
import CppSnippets.Push.FirstLine
import CppSnippets.Push.KeepAlive
import CppSnippets.Push.Lines
import CppSnippets.Push.Malformed
import CppSnippets.Push.PathParams
import CppSnippets.Push.WriteMsg
import CppSnippets.PushProxy.Answers
import CppSnippets.PushProxy.Frame
import CppSnippets.PushProxy.InTurn
import CppSnippets.PushProxy.Proxy
import CppSnippets.PushProxy.Relayed
import CppSnippets.PushProxy.Stuck
import CppSnippets.PushProxy.Unhex
import CppSnippets.PushRelay.ReplyMatch
import CppSnippets.Relay.Connections
import CppSnippets.Relay.WriteOrder
import CppSnippets.Render.Bounds
import CppSnippets.Render.Pixels
import CppSnippets.Rtp.Accounting
import CppSnippets.Rtp.Integrity
import CppSnippets.Rtp.Mbuffer
import CppSnippets.Rtp.NaluReader
import CppSnippets.Rtp.Payload
import CppSnippets.Rtp.Player
import CppSnippets.Rtp.Reports
import CppSnippets.Rtp.RoundTrip
import CppSnippets.Rtp.RtcpSession
import CppSnippets.Rtp.SenderReport
import CppSnippets.Rtsp.Answer
import CppSnippets.Rtsp.Connection
import CppSnippets.Rtsp.Session
import CppSnippets.Spirit.RoundTrip
import CppSnippets.Ter.Framing
import CppSnippets.Ter.Http
import CppSnippets.Ter.Login
import CppSnippets.Ter.WriteQueue
import CppSnippets.Tetris.Collapse
import CppSnippets.Tetris.Falling
import CppSnippets.UdpIo2.Pacing
import CppSnippets.UdpIo2.ProtocolTcp
import CppSnippets.Wap.Chunking
import CppSnippets.Wap.Connection
import CppSnippets.Wap.Cookies
import CppSnippets.Wap.Framing
import CppSnippets.Wap.GlexMatch
import CppSnippets.Wap.Halts
import CppSnippets.Wap.Pops
import CppSnippets.Wap.Restart
import CppSnippets.Wap.Scan
import CppSnippets.Wap.Subst
import CppSnippets.Wap.Unescape
import CppSnippets.Wap.Validity
import CppSnippets.Wproc.CheckProcs
import CppSnippets.Wproc.Supervisor
