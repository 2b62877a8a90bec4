import Kraken.Basic
import Kraken.Json.Scanner
import Kraken.Json.Decode
import Kraken.Json.Encode
import Kraken.Json.Marshal
import Kraken.Json.Text
import Kraken.Json.Layout
import Kraken.Json.Accept
import Kraken.Json.Grammar
import Kraken.Digest.Sha256
import Kraken.Digest.Core
import Kraken.Distribution.Schema
import Kraken.Distribution.Unmarshal
import Kraken.Distribution.Marshal
import Kraken.Distribution.Canonical
import Kraken.Dockerutil.Parse
import Kraken.Dockerutil.Resolve
import Kraken.Dockerutil.Complete
import Kraken.Dockerutil.NilSlice
import Kraken.Dockerutil.Version
import Kraken.Closers
