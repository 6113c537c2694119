import Icl.Cxx.Bytes
import Icl.Cxx.Buffer
import Icl.Cxx.Overlay
import Icl.Cxx.Stream
import Icl.Cxx.OrdMap
import Icl.Cxx.Occurrences
import Icl.Cxx.Double
import Icl.Format.WsFrame
import Icl.Format.Http
import Icl.Format.Json
import Icl.Format.LittleEndian
import Icl.Format.Rfc4648
import Icl.Format.Hex
import Icl.Format.Blocks
import Icl.Format.Fips180
import Icl.Format.Rfc2104
import Icl.Format.Gf128
import Icl.Format.Sp80038d
import Icl.Format.Fips197
import Icl.Format.Brackets
import Icl.Format.Path
import Icl.Transition.Run
import Icl.Transition.Loop
import Icl.Transition.Count
import Icl.Transition.Fair
import Icl.Transition.Mutex
import Icl.Transition.Feed
import Icl.Io.ByteStream
import Icl.Io.Overwrite
import Icl.Io.RandomAccess
import Icl.Io.ByteArray
import Icl.Network.TcpSocket
import Icl.Network.DecodeSafety
import Icl.Network.FrameRoundTrip
import Icl.Util.Util
import Icl.Util.SplitJoin
import Icl.Util.ReplaceCharacter
import Icl.Security.ShaOne
import Icl.Security.Sha1Rounds
import Icl.Security.Sha1Digest
import Icl.Security.Sha256
import Icl.Security.ShaTwo
import Icl.Security.Sha256Digest
import Icl.Security.Base64Util
import Icl.Security.Base64Loop
import Icl.Security.Base64RoundTrip
import Icl.Security.Gcm
import Icl.Security.GcmTables
import Icl.Security.GcmStandard
import Icl.Security.Aes
import Icl.Security.AesStandard
import Icl.Protocol.HttpProtocol
import Icl.Protocol.UrlParameters
import Icl.Protocol.HttpSafety
import Icl.Protocol.HttpRoundTrip
import Icl.Protocol.HttpReplies
import Icl.Protocol.HttpClient
import Icl.Protocol.HttpChunks
import Icl.Protocol.HttpGet
import Icl.Protocol.HttpFileServer
import Icl.Protocol.HttpGetFile
import Icl.Protocol.Http
import Icl.Protocol.HttpSegments
import Icl.Protocol.HttpBounds
import Icl.Protocol.HttpConnection
import Icl.Protocol.HttpCallbacks
import Icl.Protocol.HttpReading
import Icl.Protocol.HttpPipeline
import Icl.Protocol.PartialScan
import Icl.Protocol.Reassembly
import Icl.Protocol.TinyMac
import Icl.Protocol.TinyMacRoundTrip
import Icl.Protocol.TinyMacBounds
import Icl.Protocol.TinyMacSessions
import Icl.Network.TcpServer
import Icl.Network.Sending
import Icl.Network.TlsClient
import Icl.Network.Deliveries
import Icl.Network.LifeCycle
import Icl.Network.EdgeTriggered
import Icl.Network.SelectServer
import Icl.Network.SelectRuns
import Icl.Network.SelectSets
import Icl.Network.TcpClient
import Icl.Network.WebSocketSession
import Icl.Network.Descriptors
import Icl.Network.Release
import Icl.Network.Handshake
import Icl.Util.Pool
import Icl.Util.PoolRuns
import Icl.Network.System
import Icl.Json.JsonValue
import Icl.Json.KeyPath
import Icl.Json.JsonReader
import Icl.Json.Scan
import Icl.Json.Exponent
import Icl.Json.Tokens
import Icl.Json.Safety
import Icl.Json.Frames
import Icl.Json.Reading
import Icl.Json.Meaning
import Icl.Json.Lax
import Icl.Json.Nodes
import Icl.Json.DigitSum
import Icl.Json.Brackets
import Icl.Json.Position
import Icl.Json.Entries
import Icl.Json.Unicode
import Icl.Json.Replace
import Icl.Json.ReplaceExact
import Icl.Json.Lookup
import Icl.Json.Weight
import Icl.Json.WriteRead
import Icl.Json.Integers
import Icl.Util.Jwt
import Icl.Util.TokenExpiry
import Icl.Util.UniqueId
import Icl.Util.UniqueIdRuns
import Icl.Util.HexStrings
import Icl.JsEngine.JSEngine
import Icl.JsEngine.Isolation
import Icl.Util.Semaphore
import Icl.Util.EventLoop
import Icl.Util.Timers
