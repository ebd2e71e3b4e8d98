import Rad.RingBuffer.Theorems
import Rad.RingBuffer.IteratorTheorems
import Rad.RingBuffer.ViewTheorems
import Rad.Hpack.Theorems
import Rad.Hpack.MessageTheorems
import Rad.Hpack.CodingTheorems
import Rad.Hpack.DecoderTheorems
import Rad.Http2.Theorems
import Rad.Http2.Client.Theorems
import Rad.Http2.Client.MessageTheorems
import Rad.Http2.Client.ControlTheorems
import Rad.Http2.Client.RestartTheorems
import Rad.Http2.Client.StreamTheorems
import Rad.Crypto.Theorems
import Rad.Crypto.PaddingTheorems
import Rad.Crypto.AesTheorems
import Rad.Http.HeaderTheorems
import Rad.Http.BodyLength
import Rad.Http.ClientTheorems
import Rad.Crypto.IvTheorems
import Rad.Json.Theorems
import Rad.Json.ChunkTheorems
import Rad.Json.AcceptTheorems
import Rad.Json.ResetTheorems
import Rad.Text.UtfTheorems
import Rad.Http.LineTheorems
import Rad.Http.ParserTheorems
import Rad.Http.ChunkTheorems
import Rad.Text.ConverterTheorems
import Rad.Dns.MessageTheorems
import Rad.Dns.CacheTheorems
import Rad.Strand.StrandTheorems
import Rad.Idna.AsciiTheorems
import Rad.Idna.PunycodeTheorems
import Rad.Url.AddressTheorems
import Rad.Url.BackslashTheorems
import Rad.Url.HostTheorems
import Rad.Url.PercentTheorems
import Rad.Url.ReferenceTheorems
import Rad.Url.RoundTripTheorems
import Rad.Url.TerminationTheorems
import Rad.Json.SaxTheorems
import Rad.Crypto.Base64
import Rad.Cli.LineTheorems
import Rad.Net.AddressTheorems
import Rad.Text.Search
import Rad.RingBuffer.Linearize
import Rad.Dns.NameTheorems
import Rad.Async.TimersTheorems
