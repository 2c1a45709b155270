import VCodec.Library.Run
import VCodec.Library.Ieee
import VCodec.Library.ByteOrder
import VCodec.Library.Utf8
import VCodec.Error
import VCodec.Core.Lower
import VCodec.Cbor.Grammar
import VCodec.Cbor.Options
import VCodec.Cbor.Read
import VCodec.Cbor.Skip
import VCodec.Cbor.Strings
import VCodec.Cbor.WellFormed
import VCodec.Cbor.Write
import VCodec.Cbor.Frames
import VCodec.Cbor.Sequence
import VCodec.Cbor.Api
import VCodec.Cbor.Typed
import VCodec.Cbor.Agreement
import VCodec.Core.Span
import VCodec.Json.Number
import VCodec.Json.Options
import VCodec.Json.Read
import VCodec.Json.Api
import VCodec.Json.Collect
import VCodec.Json.Total
import VCodec.DecodeAll
import VCodec.DecodeInto
import VCodec.Cbor.Reorder
import VCodec.Core.LandsValue
import VCodec.Cbor.Item
import VCodec.ErrorPath
import VCodec.Cbor.Keys
import VCodec.Calls
import VCodec.Cbor.Landing
import VCodec.Cbor.Canonical
import VCodec.Cbor.Tagged
import VCodec.Cbor.Expect
import VCodec.Cbor.Chunks
import VCodec.Cbor.Integers
import VCodec.Json.Expect
import VCodec.Json.Literals
import VCodec.Json.Integers
import VCodec.Json.Reals
import VCodec.Json.Dom
import VCodec.Json.Bytes
import VCodec.Core.KeyFind
import VCodec.Core.Enums
import VCodec.Core.Half
import VCodec.Cbor.Floats
import VCodec.Doubles
import VCodec.Core.Chrono
import VCodec.Cbor.Times
import VCodec.Library.Endian
import VCodec.Cbor.Host
import VCodec.Core.Leaves
import VCodec.Core.Begun
import VCodec.Core.Members
import VCodec.FailedMembers
import VCodec.Cbor.Shortest
import VCodec.Library.Utf8Chars
import VCodec.Core.Utf8
import VCodec.Core.LookupTable
import VCodec.Cbor.Allocated
import VCodec.Library.EditDistance
import VCodec.Core.Suggest
import VCodec.Cbor.MemberOrder
import VCodec.Json.Excerpt
import VCodec.Json.Write
import VCodec.Json.Output
import VCodec.Json.Print
import VCodec.Json.Layout
import VCodec.Json.Landing
import VCodec.Json.Fits
import VCodec.Json.RoundTrip
import VCodec.Json.Portable
import VCodec.Survival
import VCodec.Library.Triple
import VCodec.Core.Reports
import VCodec.Json.Reports
import VCodec.Cbor.Reports
import VCodec.Library.Delimited
import VCodec.Render
import VCodec.Json.Framed
import VCodec.Cbor.HexWindow
import VCodec.PreparedKeys
import VCodec.Core.Schema
import VCodec.Core.Splice
import VCodec.Core.Fields
import VCodec.Core.Accepted
import VCodec.Core.Structs
import VCodec.Core.Access
import VCodec.Core.Audit
import VCodec.Core.Admitted
import VCodec.Audits
import VCodec.Declarations
import VCodec.EnumTexts
