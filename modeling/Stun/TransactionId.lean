import Stun.Bytes.BigEndian
import Stun.Bytes.Hex
import Stun.Field

/-!
# Transaction ids

A transaction id is a 96-bit number, written big-endian in twelve bytes.
-/
namespace Stun

structure TransactionId where
  value : BitVec 96
deriving DecidableEq, Repr

namespace TransactionId

def size : Nat := 12

def ofBytes (bytes : List UInt8) : Except Error TransactionId :=
  if bytes.length = size then .ok ⟨BitVec.ofNat 96 (BigEndian.decode bytes)⟩
  else .error (.decode (.transactionIdSize bytes.length))

def ofInt (n : Int) : Except Error TransactionId := (fitInt 96 n).map mk

/-- Only integers name an id; other numbers are refused before their size is looked at. -/
def ofNumber (x : Number) : Except Error TransactionId :=
  match x with
  | .integer _ => (x.fit 96).map mk
  | _ => .error (.range (.notIntegral x))

def ofQuantity : Quantity → Except Error TransactionId
  | .number x => ofNumber x
  | .integer n => ofInt n

def random {γ : Type} [RandomGen γ] (generator : γ) : TransactionId × γ :=
  let (n, generator) := randNat generator 0 (2 ^ 96 - 1)
  (⟨BitVec.ofNat 96 n⟩, generator)

variable (id : TransactionId)

def toBytes : List UInt8 := BigEndian.encode size id.value.toNat

theorem length_toBytes : id.toBytes.length = 12 := BigEndian.length_encode 12 _

theorem decode_toBytes : BigEndian.decode id.toBytes = id.value.toNat := by
  rw [toBytes, BigEndian.decode_encode]
  exact Nat.mod_eq_of_lt id.value.isLt

/-- The id of twelve bytes is written as these bytes. -/
theorem toBytes_mk_decode {bytes : List UInt8} (hlen : bytes.length = size) :
    toBytes ⟨BitVec.ofNat 96 (BigEndian.decode bytes)⟩ = bytes := by
  have hlt := BigEndian.decode_lt bytes
  have hbytes := BigEndian.encode_decode bytes
  rw [hlen] at hlt hbytes
  rw [toBytes, BitVec.toNat_ofNat]
  exact (congrArg _ (Nat.mod_eq_of_lt hlt)).trans hbytes

/-- Ids are compared byte by byte. -/
instance : BEq TransactionId where
  beq id other := id.toBytes.zipIdx.all fun (byte, place) => other.toBytes[place]? == some byte

def text : String := Hex.ofBytes id.toBytes

end TransactionId

end Stun
