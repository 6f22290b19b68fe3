import Stun.Bytes.Words
import Stun.Field

/-!
# Lists of attribute types

The attribute that names types the sender did not understand holds them as a sequence of words.
-/
namespace Stun.TypeList

def ofNumbers (types : List Number) : Except Error (List (BitVec 16)) :=
  types.mapM fun x =>
    match x.fit? 16 with
    | some type => .ok type
    | none => .error (.encode (.attributeType x))

def decode (value : List UInt8) : Except Error (List (BitVec 16)) :=
  match Words.decode? value with
  | some types => ofNumbers (types.map fun type => .integer type.toNat)
  | none => .error (.invalidData .unknownAttributesOdd)

end Stun.TypeList
