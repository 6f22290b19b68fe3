import Stun.Ip.Address
import Stun.Header

/-!
# Transport addresses

The value of the address attributes: a zero byte, the family, the port and the address. The
obscured form combines everything from the port on with a mask of the magic cookie and the
transaction id; the port takes the first two bytes of the cookie. Masking twice gives the value
back.
-/
namespace Stun

structure Endpoint where
  address : IpAddress
  port : BitVec 16
deriving DecidableEq

namespace Endpoint

/-- The port is checked before the address. -/
def ofText (address : String) (port : Number) : Except Error Endpoint :=
  match port.fit? 16 with
  | none => .error (.encode (.port port))
  | some port => (IpAddress.parse address).map fun address => ⟨address, port⟩

variable (e : Endpoint)

def size : Nat := 4 + e.address.family.size

def encode : List UInt8 :=
  0 :: e.address.family.code :: (BigEndian.encode 2 e.port.toNat ++ e.address.bytes)

theorem length_encode : e.encode.length = e.size := by
  simp [encode, size, IpAddress.length_bytes]
  omega

/-- A received endpoint is made from the text of its address like any other. -/
def decode (kind : AddressKind) (value : List UInt8) : Except Error Endpoint :=
  let port := Number.integer (Bytes.field value 2 2)
  let family := value.getD 1 0
  if value.length < 4 then .error (.invalidData (.addressTooShort kind))
  else if family = AddressFamily.ipv4.code then
    if value.length = 8 then ofText (Ipv4.format (value.drop 4)) port
    else .error (.invalidData (.addressSize kind .ipv4))
  else if family = AddressFamily.ipv6.code then
    if value.length = 20 then ofText (Ipv6.format (value.drop 4)) port
    else .error (.invalidData (.addressSize kind .ipv6))
  else .error (.invalidData (.addressFamily kind family))

def xorWith : List UInt8 → List UInt8 → List UInt8
  | b :: bytes, m :: mask => (b ^^^ m) :: xorWith bytes mask
  | bytes, _ => bytes

/-- Obscures or reveals the value of an address attribute. -/
def mask (id : TransactionId) (value : List UInt8) : List UInt8 :=
  let cookie := BigEndian.encode 4 magicCookie
  value.take 2 ++ xorWith (value.drop 2) (cookie.take 2 ++ cookie ++ id.toBytes)

end Endpoint

end Stun
