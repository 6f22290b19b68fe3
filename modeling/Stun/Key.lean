import Stun.Digest.Hmac
import Stun.Digest.Md5
import Stun.Digest.Sha1
import Stun.Digest.Sha256
import Stun.Kind
import Stun.Text.Utf8

/-!
# Keys

A key is a byte string. A short-term key is the password itself; a long-term key is a hash of user,
realm and password with colons between them. Which way a key was made is not part of it.
-/
namespace Stun

structure Key where
  bytes : List UInt8
deriving DecidableEq, Repr

namespace Key

def shortTerm (password : String) : Key := ⟨Utf8.encode password⟩

def longTerm (hash : Hash) (user realm password : String) : Key :=
  ⟨hash.compute (Utf8.encode (user ++ ":" ++ realm ++ ":" ++ password))⟩

end Key

def Algorithm.hash : Algorithm → Hash
  | .sha1 => .sha1
  | .sha256 => .sha256

theorem Algorithm.size_hash (a : Algorithm) : a.hash.size = a.size := by cases a <;> rfl

def Key.hmac (key : Key) (a : Algorithm) (message : List UInt8) : List UInt8 :=
  Hmac.compute a.hash key.bytes message

theorem Key.length_hmac (key : Key) (a : Algorithm) (message : List UInt8) :
    (key.hmac a message).length = a.size := by
  simp [Key.hmac, Algorithm.size_hash]

end Stun
