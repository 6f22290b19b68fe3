import Stun.Attribute.Basic
import Stun.Fingerprint
import Stun.Span

/-!
# Parsed messages

Parsing checks the header and locates the attributes; values are decoded on demand, each from its
own span. The checks of a fingerprint and of an integrity attribute look at what precedes their
span, so nothing added behind it changes the verdict of an integrity check.
-/
namespace Stun

structure Message where
  buffer : Array UInt8
  header : Header
  spans : List Span

namespace Message

def defaultLimit : Number := .integer 64

/-- Bytes behind the declared length are ignored. -/
def parse (limit : Number) (data : List UInt8) : Except Error Message := do
  let header ← Header.decode data
  let stop := headerSize + header.length.toNat
  if data.length < stop then throw (.decode (.truncated stop data.length))
  let bytes := data.take stop
  let spans ← Span.scan limit stop 0 headerSize (bytes.drop headerSize)
  return ⟨bytes.toArray, header, spans⟩

variable (m : Message)

def bytes : List UInt8 := m.buffer.toList

def value (s : Span) : List UInt8 := (m.buffer.extract s.valueStart s.valueStop).toList

def before (s : Span) : List UInt8 := (m.buffer.extract 0 s.start).toList

def find? (type : BitVec 16) : Option Span := m.spans.find? (·.type = type)

def contains (type : BitVec 16) : Bool := (m.find? type).isSome

/-- The digest input of the integrity attribute at a span: what stands before it, with the declared
length set to end with the attribute. -/
def signedBytes (s : Span) : Except Error (List UInt8) :=
  ((Number.integer ((s.stop : Int) - headerSize)).fit 16).map fun length =>
    (withDeclaredLength (m.before s) s.start length).flatten

/-- The size of the tag is checked before the digest input is made. -/
def verify (algorithm : Algorithm) (key : Key) (s : Span) : Except Error Unit :=
  let received := m.value s
  if received.length = algorithm.size then
    m.signedBytes s >>= fun signed =>
      if key.hmac algorithm signed = received then .ok () else .error .integrity
  else .error .integrity

def verifyFingerprint (s : Span) : Except Error Unit :=
  let received := m.value s
  if received.length ≠ 4 then .error (.invalidData .fingerprintSize)
  else if BigEndian.decode received = (fingerprint (m.before s)).toNat then .ok ()
  else .error .fingerprint

/-- Decodes the value at a span as an attribute of a kind, whatever the type of the span. Only the
integrity kinds use the key. -/
def decodeAt (kind : Kind) (key : Key) (s : Span) : Except Error Attribute :=
  let value := m.value s
  let number (size : Nat) (fault : InvalidData) : Except Error Nat :=
    if value.length = size then .ok (BigEndian.decode value) else .error (.invalidData fault)
  match kind with
  | .address .xorMapped =>
    (Endpoint.decode .xorMapped (Endpoint.mask m.header.transactionId value)).map
      (.address .xorMapped)
  | .address kind => (Endpoint.decode kind value).map (.address kind)
  | .text kind => (BoundedText.decode kind value).map (.text kind)
  | .errorCode => (ErrorCode.decode value).map .errorCode
  | .unknownAttributes => (TypeList.decode value).map .unknownAttributes
  | .priority => number 4 .prioritySize >>= fun n => Attribute.ofPriority (.integer n)
  | .useCandidate => (number 0 .useCandidateSize).map fun _ => .useCandidate
  | .tieBreaker role => number 8 (.tieBreakerSize role) >>= fun n => Attribute.ofTieBreaker role n
  | .fingerprint => (m.verifyFingerprint s).map fun _ => .fingerprint
  | .integrity algorithm => (m.verify algorithm key s).map fun _ => .integrity algorithm

def attribute? (kind : Kind) (key : Key) : Except Error (Option Attribute) :=
  match m.find? kind.code with
  | none => .ok none
  | some s => (m.decodeAt kind key s).map some

def attributes (kind : Kind) (key : Key) : Except Error (List Attribute) :=
  (m.spans.filter (·.type = kind.code)).mapM (m.decodeAt kind key)

/-- The types a receiver must understand and does not, each once, in the order of their first
occurrence. -/
def unknownComprehensionRequired (known : List (BitVec 16)) : List (BitVec 16) :=
  ((m.spans.map (·.type)).filter fun t => t.toNat < 0x8000 && !known.contains t).eraseDups

end Message

end Stun
