import Nanom.Defrag.Dropped
import Nanom.Defrag.Release
import Nanom.Decode.Leak
import Nanom.Codec.Snappy
import Nanom.Codec.Lz4
import Nanom.Codec.Fsst.Accept
import Nanom.Codec.Fsst.Sample
import Nanom.Columnar.Hybrid.Truncated
import Nanom.Columnar.ByteStreamSplit
import Nanom.Columnar.ByteArrays
import Nanom.Columnar.Dremel.Shred
import Nanom.Columnar.Dictionary
import Nanom.Tagged.RoundTrip
import Nanom.Proto.Staging
import Nanom.Proto.AnyOrder
import Nanom.Layout.RoundTrip
import Nanom.Nom.LongestMatch
import Nanom.Soa.Delivery
import Nanom.Soa.Parallel
import Nanom.Avro.Agreement
import Nanom.Avro.Schema
import Nanom.Soa.Csv
import Nanom.Decode.ArrivalOrder
import Nanom.Decode.Blocks
import Nanom.Wire.Walks
import Nanom.Wire.Chain
import Nanom.Someip.Faithful
import Nanom.Someip.Locality
