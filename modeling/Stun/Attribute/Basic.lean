import Stun.Attribute.BoundedText
import Stun.Attribute.ErrorCode
import Stun.Attribute.TypeList
import Stun.Script

/-!
# Attributes

A decoded attribute, or one to be written: its kind with the value that belongs to the kind. The
fingerprint and the integrity attributes carry no value of their own, since theirs is computed from
the message.
-/
namespace Stun

inductive Attribute
  | address (kind : AddressKind) (endpoint : Endpoint)
  | text (kind : TextKind) (value : BoundedText kind)
  | errorCode (value : ErrorCode)
  | unknownAttributes (types : List (BitVec 16))
  | priority (value : BitVec 32)
  | useCandidate
  | tieBreaker (role : Role) (value : BitVec 64)
  | fingerprint
  | integrity (algorithm : Algorithm)
deriving DecidableEq

namespace Attribute

def kind : Attribute → Kind
  | .address kind _ => .address kind
  | .text kind _ => .text kind
  | .errorCode _ => .errorCode
  | .unknownAttributes _ => .unknownAttributes
  | .priority _ => .priority
  | .useCandidate => .useCandidate
  | .tieBreaker role _ => .tieBreaker role
  | .fingerprint => .fingerprint
  | .integrity algorithm => .integrity algorithm

/-- Bytes of the value, before padding. -/
def length : Attribute → Nat
  | .address _ endpoint => endpoint.size
  | .text _ value => value.text.utf8ByteSize
  | .errorCode value => value.size
  | .unknownAttributes types => 2 * types.length
  | .priority _ => 4
  | .useCandidate => 0
  | .tieBreaker _ _ => 8
  | .fingerprint => 4
  | .integrity algorithm => algorithm.size

/-- Only the integrity attributes use the key. -/
def script (key : Key) : Attribute → Script
  | .address .xorMapped endpoint => .appendMasked endpoint .done
  | .address _ endpoint => .append endpoint.encode .done
  | .text _ value => .append (Utf8.encode value.text) .done
  | .errorCode value => .append value.encode .done
  | .unknownAttributes types => .append (Words.encode types) .done
  | .priority value => .append (BigEndian.encode 4 value.toNat) .done
  | .useCandidate => .done
  | .tieBreaker _ value => .append (BigEndian.encode 8 value.toNat) .done
  | .fingerprint => .appendFingerprint .done
  | .integrity algorithm => .sign algorithm key .done

def draft (key : Key) (a : Attribute) : Draft :=
  ⟨.integer a.kind.code.toNat, .integer a.length, a.script key⟩

def ofText (kind : TextKind) (text : String) : Except Error Attribute :=
  (BoundedText.ofString kind text).map (.text kind)

def ofEndpoint (kind : AddressKind) (address : String) (port : Number) : Except Error Attribute :=
  (Endpoint.ofText address port).map (.address kind)

def ofErrorCode (code : Number) (reason : String) : Except Error Attribute :=
  (ErrorCode.ofNumber code reason).map .errorCode

def ofTypes (types : List Number) : Except Error Attribute :=
  (TypeList.ofNumbers types).map .unknownAttributes

def ofPriority (x : Number) : Except Error Attribute := (x.fit 32).map .priority

def ofTieBreaker (role : Role) (n : Int) : Except Error Attribute :=
  (fitInt 64 n).map (.tieBreaker role)

end Attribute

end Stun
