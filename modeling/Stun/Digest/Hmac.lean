import Stun.Digest.Hash

/-!
# Keyed hashing

HMAC over any of the hash functions. Keys longer than a block are hashed first; shorter ones, the
empty key included, are filled up with zeros.
-/
namespace Stun.Hmac

variable (hash : Hash)

def blockKey (key : List UInt8) : List UInt8 :=
  let key := if Hash.blockSize < key.length then hash.compute key else key
  key ++ List.replicate (Hash.blockSize - key.length) 0

def compute (key message : List UInt8) : List UInt8 :=
  let masked (mask : UInt8) := (blockKey hash key).map (· ^^^ mask)
  hash.compute (masked 0x5c ++ hash.compute (masked 0x36 ++ message))

@[simp] theorem length_compute (key message : List UInt8) :
    (compute hash key message).length = hash.size := hash.length_compute _

end Stun.Hmac
