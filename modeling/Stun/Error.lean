import Stun.Bytes.Hex
import Stun.Kind
import Stun.Number.Layout

/-!
# What can go wrong

An error carries its cause as data; the wording is in `Error.message` alone. Causes are grouped by
who is at fault: received bytes that are no message, a caller's value that cannot be encoded, an
attribute value that breaks its format, a failed check, or a number too wide for its field. The
groups form a tree, and `ErrorKind.lineage` is the path from its root.
-/
namespace Stun

/-- A number that was offered to a field: a binary64 value, or an integer of any size. -/
inductive Quantity
  | number (value : Number)
  | integer (value : Int)
deriving DecidableEq, Repr

def Quantity.text : Quantity → String
  | .number x => x.text
  | .integer n => toString n

/-- Received bytes are no message. -/
inductive DecodeError
  | transactionIdSize (size : Nat)
  | tooShort (size : Nat)
  | leadingBits
  | magicCookie (found : Nat)
  | unalignedLength (length : Nat)
  | truncated (needed size : Nat)
  | tooManyAttributes (limit : Number)
  | attributeHeaderCut
  | attributeTruncated (type : BitVec 16) (needed left : Nat)
  | other (message : String)
deriving DecidableEq, Repr

/-- A caller's value cannot be written. -/
inductive EncodeError
  | valueSize (type : BitVec 16) (written declared : Nat)
  | textTooLong (kind : TextKind) (size : Nat)
  | errorCode (code : Number)
  | reasonTooLong
  | attributeType (type : Number)
  | port (value : Number)
  | ipv4 (text : String)
  | ipv6 (text : String)
  | other (message : String)
deriving DecidableEq, Repr

/-- A received attribute value breaks the format of its kind. -/
inductive InvalidData
  | textTooLong (kind : TextKind)
  | notUtf8 (kind : TextKind)
  | addressTooShort (kind : AddressKind)
  | addressSize (kind : AddressKind) (family : AddressFamily)
  | addressFamily (kind : AddressKind) (code : UInt8)
  | errorCodeTooShort
  | errorCode (group number : Nat)
  | reasonNotUtf8
  | reasonTooLong
  | unknownAttributesOdd
  | prioritySize
  | useCandidateSize
  | tieBreakerSize (role : Role)
  | fingerprintSize
  | other (message : String)
deriving DecidableEq, Repr

/-- A number outside what an operation takes at all. -/
inductive OutOfRange
  | notIntegral (value : Number)
  | bufferCapacity (capacity : Int)
  | bufferOffset
deriving DecidableEq, Repr

inductive Error
  | decode (cause : DecodeError)
  | encode (cause : EncodeError)
  | invalidData (cause : InvalidData)
  | integrity
  | fingerprint
  | conversion (value : Quantity) (bits : Int)
  | range (cause : OutOfRange)
  | other (message : String)
deriving DecidableEq, Repr

def DecodeError.message : DecodeError → String
  | .transactionIdSize size => s!"Invalid transaction id length: expected 12, got {size}"
  | .tooShort size => s!"Message too short: expected at least 20 bytes, got {size}"
  | .leadingBits => "Invalid message type: leading bits must be zero"
  | .magicCookie found =>
    s!"Invalid magic cookie: expected 0x2112a442, got 0x{Hex.text found}"
  | .unalignedLength length => s!"Invalid message length: {length} is not a multiple of 4"
  | .truncated needed size =>
    s!"Message truncated: header declares {needed} bytes, got {size}"
  | .tooManyAttributes limit => s!"Too many attributes: limit is {limit.text}"
  | .attributeHeaderCut => "Unexpected end of message while reading attribute header"
  | .attributeTruncated type needed left =>
    s!"Attribute 0x{Hex.padded 4 type.toNat} truncated: needs {needed} bytes, {left} left"
  | .other message => message

def EncodeError.message : EncodeError → String
  | .valueSize type written declared =>
    s!"Attribute 0x{Hex.padded 4 type.toNat} wrote {written} bytes, declared {declared}"
  | .textTooLong kind size =>
    s!"{(Kind.text kind).name} must be shorter than {kind.limit} bytes, got {size}"
  | .errorCode code => s!"Invalid error code: {code.text}"
  | .reasonTooLong => s!"Reason phrase must be shorter than {reasonLimit} bytes"
  | .attributeType type => s!"Invalid attribute type: {type.text}"
  | .port value => s!"Invalid port: {value.text}"
  | .ipv4 text => s!"Invalid IPv4 address: {text}"
  | .ipv6 text => s!"Invalid IPv6 address: {text}"
  | .other message => message

def InvalidData.message : InvalidData → String
  | .textTooLong kind => s!"{(Kind.text kind).name} must be shorter than {kind.limit} bytes"
  | .notUtf8 kind => s!"{(Kind.text kind).name} is not valid UTF-8"
  | .addressTooShort kind => s!"{(Kind.address kind).name} value too short"
  | .addressSize kind family =>
    s!"{(Kind.address kind).name} {family.name} value must be {4 + family.size} bytes"
  | .addressFamily kind code => s!"{(Kind.address kind).name} has unknown address family {code}"
  | .errorCodeTooShort => "ERROR-CODE value too short"
  | .errorCode group number => s!"Invalid error code: class {group}, number {number}"
  | .reasonNotUtf8 => "ERROR-CODE reason is not valid UTF-8"
  | .reasonTooLong => s!"Reason phrase must be shorter than {reasonLimit} bytes"
  | .unknownAttributesOdd => "UNKNOWN-ATTRIBUTES length must be even"
  | .prioritySize => "PRIORITY value must be 4 bytes"
  | .useCandidateSize => "USE-CANDIDATE value must be empty"
  | .tieBreakerSize role => s!"{(Kind.tieBreaker role).name} value must be 8 bytes"
  | .fingerprintSize => "fingerprint value must be 4 bytes"
  | .other message => message

def OutOfRange.message : OutOfRange → String
  | .notIntegral value =>
    s!"The number {value.text} cannot be converted to a BigInt because it is not an integer"
  | .bufferCapacity capacity => s!"Invalid typed array length: {capacity}"
  | .bufferOffset => "offset is out of bounds"

def Error.message : Error → String
  | .decode cause => cause.message
  | .encode cause => cause.message
  | .invalidData cause => cause.message
  | .integrity => "failed to verify message integrity"
  | .fingerprint => "failed to verify message fingerprint"
  | .conversion value bits => s!"Value {value.text} does not fit in {bits} bits"
  | .range cause => cause.message
  | .other message => message

/-- The groups of errors; `range` stands outside the tree. -/
inductive ErrorKind
  | general
  | decode
  | encode
  | invalidData
  | integrity
  | fingerprint
  | conversion
  | range
deriving DecidableEq, Repr

/-- A failed check is also invalid data. -/
def ErrorKind.lineage : ErrorKind → List ErrorKind
  | .general => [.general]
  | .range => [.range]
  | .integrity => [.general, .invalidData, .integrity]
  | .fingerprint => [.general, .invalidData, .fingerprint]
  | .decode => [.general, .decode]
  | .encode => [.general, .encode]
  | .invalidData => [.general, .invalidData]
  | .conversion => [.general, .conversion]

def Error.kind : Error → ErrorKind
  | .decode _ => .decode
  | .encode _ => .encode
  | .invalidData _ => .invalidData
  | .integrity => .integrity
  | .fingerprint => .fingerprint
  | .conversion .. => .conversion
  | .range _ => .range
  | .other _ => .general

end Stun
