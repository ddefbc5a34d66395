import ChromiumBase.Base.Containers.CircularDeque.Refinement
import ChromiumBase.Base.Containers.IntrusiveHeap.Operations
import ChromiumBase.Base.Json.Acceptance
import ChromiumBase.Base.Json.RoundTrip
import ChromiumBase.Base.Metrics.PersistentMemoryAllocator.Interleaving
import ChromiumBase.Base.Pickle.RoundTrip
import ChromiumBase.Base.Strings.OffsetAdjuster
import ChromiumBase.Base.Strings.Pattern
import ChromiumBase.Base.Strings.StringUtil
import ChromiumBase.Crypto.P224
import ChromiumBase.Ipc.ChannelReader
import ChromiumBase.Mojo.Bindings.MessageHeaderValidator
import ChromiumBase.Mojo.Core.DataPipe.Elements
import ChromiumBase.Mojo.Ports.ForwardUserMessage
import ChromiumBase.Mojo.Ports.ReadAck
import ChromiumBase.Net.Cert.CtLogVerifier
import ChromiumBase.Net.Cert.PathVerifier.Safety
import ChromiumBase.Net.Cookies.CookieUtil
import ChromiumBase.Net.Cookies.RequestCookies
import ChromiumBase.Net.DiskCache.Blockfile.BlockFile
import ChromiumBase.Net.DiskCache.Blockfile.RankingsRecovery
import ChromiumBase.Net.DiskCache.Memory.SparseData
import ChromiumBase.Net.DiskCache.Simple.SimpleIndex
import ChromiumBase.Net.Dns.AddressListDelta
import ChromiumBase.Net.Dns.AddressSorterPosix
import ChromiumBase.Net.Http.HttpChunkedDecoder
import ChromiumBase.Net.Http.RangeCoverage
import ChromiumBase.Net.Http.RangeResponse
import ChromiumBase.Net.Http.RawHeaders
import ChromiumBase.Net.Http.TransportSecurityState
import ChromiumBase.Net.Spdy.PriorityChain
import ChromiumBase.Net.Tools.Dafsa.FixedSet
import ChromiumBase.Net.WebSockets.FrameParser
import ChromiumBase.Net.WebSockets.Mask
