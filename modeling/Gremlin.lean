import Gremlin.Writer.Agreement
import Gremlin.Runtime.Varint
import Gremlin.Reader.Merge
import Gremlin.Reader.Scalars
import Gremlin.Reader.Tags
import Gremlin.Reader.Spans
import Gremlin.Descriptors.Order
import Gremlin.Descriptors.Resolve
import Gremlin.Descriptors.Link
import Gremlin.Descriptors.Idempotence
import Gremlin.Descriptors.Numbers
import Gremlin.Codegen.Consistency
import Gremlin.Codegen.Members
import Gremlin.Codegen.Reserved
import Gremlin.Codegen.Requests
import Gremlin.Descriptors.Atomic
import Gremlin.Descriptors.MapKeys
import Gremlin.Parser.Skipped
import Gremlin.Codegen.Integers
import Gremlin.Codegen.Includes
import Gremlin.Codegen.Strings
import Gremlin.Codegen.Absent
import Gremlin.Runtime.ZigZag
import Gremlin.Descriptors.FullNames
import Gremlin.Descriptors.Options
import Gremlin.Descriptors.Blocks
import Gremlin.Descriptors.Braces
import Gremlin.Descriptors.Prepared
import Gremlin.Printer.Keywords
import Gremlin.Codegen.Contracts
import Gremlin.Codegen.Hoisting
import Gremlin.Reader.References
