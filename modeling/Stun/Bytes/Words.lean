import Stun.Bytes.BigEndian

/-!
# Sequences of 16-bit words

Words follow each other without gaps, two bytes each, so only an even number of bytes is a sequence.
-/
namespace Stun.Words

def encode (words : List (BitVec 16)) : List UInt8 :=
  words.flatMap fun w => BigEndian.encode 2 w.toNat

@[simp] theorem length_encode (words : List (BitVec 16)) :
    (encode words).length = 2 * words.length := by
  induction words with
  | nil => rfl
  | cons w words ih =>
    simp only [encode, List.flatMap_cons, List.length_append, BigEndian.length_encode,
      List.length_cons] at ih ⊢
    omega

def decode? : List UInt8 → Option (List (BitVec 16))
  | [] => some []
  | [_] => none
  | high :: low :: rest => (decode? rest).map (BitVec.ofNat 16 (BigEndian.decode [high, low]) :: ·)

end Stun.Words
