import Stun.Bytes.Window
import Stun.MessageType
import Stun.TransactionId

/-!
# Message headers

Twenty bytes: the message type, the declared length of what follows, the magic cookie and the
transaction id. The declared length is a multiple of four in every header that is read.
-/
namespace Stun

def magicCookie : Nat := 0x2112a442

def headerSize : Nat := 20

structure Header where
  messageClass : MessageClass
  method : Method
  length : BitVec 16
  transactionId : TransactionId
deriving DecidableEq, Repr

namespace Header

/-- The method is checked before the length. -/
def ofNumbers (messageClass : MessageClass) (method : Number) (transactionId : TransactionId)
    (length : Number) : Except Error Header := do
  let method ← method.fit 12
  let length ← length.fit 16
  return ⟨messageClass, method, length, transactionId⟩

def encode (h : Header) : List UInt8 :=
  BigEndian.encode 2 (MessageType.code ⟨h.messageClass, h.method⟩)
    ++ BigEndian.encode 2 h.length.toNat
    ++ BigEndian.encode 4 magicCookie
    ++ h.transactionId.toBytes

/-- Reads the header at the start of the data. Of several faults the first in this order is
reported: size, leading bits, cookie, length. -/
def decode (data : List UInt8) : Except Error Header :=
  let type := Bytes.field data 0 2
  let length := Bytes.field data 2 2
  let cookie := Bytes.field data 4 4
  if data.length < headerSize then .error (.decode (.tooShort data.length))
  else if 2 ^ 14 ≤ type then .error (.decode .leadingBits)
  else if cookie ≠ magicCookie then .error (.decode (.magicCookie cookie))
  else if length % 4 ≠ 0 then .error (.decode (.unalignedLength length))
  else
    let ⟨messageClass, method⟩ := MessageType.ofCode type
    (TransactionId.ofBytes ((data.drop 8).take TransactionId.size)).map fun id =>
      ⟨messageClass, method, BitVec.ofNat 16 length, id⟩

/-- The quick check that tells messages from other traffic: a sound header, and as many bytes as it
declares. -/
def fits (data : List UInt8) : Bool :=
  let length := Bytes.field data 2 2
  decide (headerSize + length ≤ data.length) && decide (Bytes.field data 0 2 < 2 ^ 14)
    && decide (Bytes.field data 4 4 = magicCookie) && decide (length % 4 = 0)

end Header

/-- The bytes up to a position as they read with another declared length, in three pieces: the
message type, the length, and what follows the length field. -/
def withDeclaredLength (data : List UInt8) (stop : Int) (length : BitVec 16) : List (List UInt8) :=
  [Bytes.slice data 0 2, BigEndian.encode 2 length.toNat, Bytes.slice data 4 stop]

end Stun
