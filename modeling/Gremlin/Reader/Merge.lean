import Gremlin.Reader.RoundTrip

/-!
This module contains the reading of two messages one behind the other.
-/

namespace Gremlin

open Codec

variable {S : Schema}

section Append

variable {child child' : MsgId → Addr → List UInt8} {index : Nat}

end Append

section Message

variable {store store' : Store S} {t : MsgId} {a b : Addr}

end Message

end Gremlin
