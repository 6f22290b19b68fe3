import Stun.Error
import Stun.Field
import Stun.Text.Utf8

/-!
# Error codes

A code from 300 to 699 and a reason phrase. The value holds the hundreds and the remainder of the
code in bytes of their own, then the phrase. A byte order mark at the start of a received phrase
marks its encoding and is not part of it.
-/
namespace Stun

structure ErrorCode where
  code : Nat
  reason : String
  code_bounds : 300 ≤ code ∧ code ≤ 699
  short : reason.utf8ByteSize < reasonLimit
deriving DecidableEq

namespace ErrorCode

def tryAlternate : Nat := 300
def badRequest : Nat := 400
def unauthorized : Nat := 401
def unknownAttribute : Nat := 420
def staleNonce : Nat := 438
def serverError : Nat := 500

theorem toNat_bounds {n : Int} (bounds : 300 ≤ n ∧ n ≤ 699) :
    300 ≤ n.toNat ∧ n.toNat ≤ 699 := by omega

/-- The code is checked before the phrase. -/
def ofNumber (code : Number) (reason : String) : Except Error ErrorCode :=
  match code with
  | .integer n =>
    if bounds : 300 ≤ n ∧ n ≤ 699 then
      if short : reason.utf8ByteSize < reasonLimit then
        .ok ⟨n.toNat, reason, toNat_bounds bounds, short⟩
      else .error (.encode .reasonTooLong)
    else .error (.encode (.errorCode code))
  | _ => .error (.encode (.errorCode code))

variable (e : ErrorCode)

def size : Nat := 4 + e.reason.utf8ByteSize

def encode : List UInt8 :=
  0 :: 0 :: UInt8.ofNat (e.code / 100) :: UInt8.ofNat (e.code % 100) :: Utf8.encode e.reason

theorem length_encode : e.encode.length = e.size := by
  simp [encode, size]
  omega

/-- Of several faults the first in this order is reported: size, code, encoding of the phrase,
length of the phrase. -/
def decode (value : List UInt8) : Except Error ErrorCode :=
  let group := (value.getD 2 0).toNat % 8
  let number := (value.getD 3 0).toNat
  if value.length < 4 then .error (.invalidData .errorCodeTooShort)
  else if 3 ≤ group ∧ group ≤ 6 ∧ number ≤ 99 then
    match Utf8.decode? (Utf8.dropMark (value.drop 4)) with
    | none => .error (.invalidData .reasonNotUtf8)
    | some reason =>
      if value.length - 4 < reasonLimit then
        ofNumber (.integer (100 * group + number : Nat)) reason
      else .error (.invalidData .reasonTooLong)
  else .error (.invalidData (.errorCode group number))

end ErrorCode

end Stun
