import LogCodec.Describe
import LogCodec.Files.Directory
import LogCodec.Main
import LogCodec.Proofs.Message.RoundTrip
import LogCodec.Proofs.Stream.RoundTrip
import LogCodec.Proofs.Reader.Transcript
import LogCodec.Proofs.Reader.Requests
import LogCodec.Proofs.Stream.Feed
import LogCodec.Proofs.Query.Glob
import LogCodec.Proofs.Writer.Calls
import LogCodec.Proofs.Query.Language
import LogCodec.Query.Glob
import LogCodec.Query.Search
import LogCodec.Proofs.Reader.Buffer
import LogCodec.Proofs.Gzip.Outflow
import LogCodec.Proofs.Gzip.Stored
import LogCodec.Proofs.Files.Directory
import LogCodec.Proofs.TextLog
import LogCodec.Proofs.Command.Encode
import LogCodec.Proofs.Reader.Collect
import LogCodec.Proofs.Command.Perform
import LogCodec.Proofs.Command.RoundTrip
import LogCodec.Proofs.Command.Search
import LogCodec.Proofs.Reader.Resume
import LogCodec.Proofs.Message.Tokens
import LogCodec.Proofs.Message.Packing
import LogCodec.Proofs.Message.Representation
import LogCodec.Proofs.Stream.Scan
import LogCodec.Proofs.Stream.Grammar
import LogCodec.Proofs.Message.Integer
import LogCodec.Proofs.Message.Delimiter
import LogCodec.Proofs.Message.Widths
import LogCodec.Proofs.Reader.Refills
import LogCodec.Proofs.Reader.Capacity
import LogCodec.Proofs.Reader.Terminal
import LogCodec.Proofs.Command.Stored
import LogCodec.Proofs.Command.Reference
import LogCodec.Proofs.Command.Reencode
import LogCodec.Proofs.Query.NormalForm
import LogCodec.Proofs.Query.Matcher
import LogCodec.Proofs.Query.Search
import LogCodec.Proofs.Stream.Expansion
import LogCodec.Proofs.Reader.Rounds
import LogCodec.Message.InPlace
import LogCodec.Proofs.Message.InPlace
import LogCodec.Stream.InPlace
import LogCodec.Proofs.Stream.InPlace
import LogCodec.Stream.Cursor.InPlace
import LogCodec.Proofs.Stream.Cursor.InPlace
import LogCodec.Proofs.Reader.Unchecked
import LogCodec.Proofs.Reader.Delivered
