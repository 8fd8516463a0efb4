import Urnest.Snmp.Integers
import Urnest.Snmp.Exchange
import Urnest.Snmp.TableWalk
import Urnest.Snmp.Usm
import Urnest.Cxy.Cdr
import Urnest.Base64.Decode
import Urnest.Hcp.File
import Urnest.Json.Conformance
import Urnest.Pq.Runs
import Urnest.Xju.ByteBuffer
import Urnest.JsonCodec.Defaults
import Urnest.Netflow.Layout
import Urnest.Ip.Header
import Urnest.Net.Streams
import Urnest.Dion.Node
import Urnest.CmClass.Managed
import Urnest.Wtmp.ExactlyOnce
import Urnest.Snmp.OidComponent
import Urnest.Utf8.Original
import Urnest.Snmp.GetBulk
import Urnest.Snmp.Indefinite
import Urnest.Cmc.FilePosition
import Urnest.Cmc.Containers
import Urnest.Hcp.OffsetMap
import Urnest.Xju.Percent
import Urnest.Hcp.ThrowClauses
import Urnest.Hcp.OperatorLess
import Urnest.Ssh.Framing
import Urnest.Ssh.KeyDerivation
import Urnest.Ssh.Negotiation
import Urnest.Http.Chunk
import Urnest.Cxy.BoundedSequence
import Urnest.Ruf.Traversal
import Urnest.Json.Ordering
import Urnest.Xju.Ring
import Urnest.Xju.Array
import Urnest.Xju.NotifyingList
import Urnest.Xju.PingerTimes
import Urnest.JsonCodec.Namespaces
import Urnest.Xml.AttributeValues
import Urnest.Xml.CallerNamespaces
import Urnest.RufParser.CharSet
import Urnest.RufParser.Attempts
import Urnest.Cmc.Chunks
import Urnest.Xju.DiskSpace
import Urnest.Dion.IdSets
import Urnest.Xju.StringToTime
import Urnest.Hcp.IdentifierRef
import Urnest.Xju.JsonSchema
import Urnest.RsDep.Balanced
import Urnest.TypeCode.Copying
import Urnest.RsDep.Modules
import Urnest.Cmc.Restarting
