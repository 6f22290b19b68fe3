/-!
# UTF-8

Texts and their bytes. Decoding accepts well-formed bytes only: no overlong forms, no surrogates,
nothing past U+10FFFF. A byte order mark is a character like any other here.
-/
namespace Stun.Utf8

def encode (text : String) : List UInt8 := text.toByteArray.data.toList

def decode? (bytes : List UInt8) : Option String := String.fromUTF8? bytes.toByteArray

@[simp] theorem length_encode (text : String) : (encode text).length = text.utf8ByteSize := by
  simp only [encode, Array.length_toList]
  rfl

theorem encode_of_decode? {bytes : List UInt8} {text : String} (h : decode? bytes = some text) :
    encode text = bytes := by
  unfold decode? String.fromUTF8? at h
  split at h
  · injection h with h
    subst h
    simp [encode, String.fromUTF8]
  · contradiction

theorem utf8ByteSize_of_decode? {bytes : List UInt8} {text : String}
    (h : decode? bytes = some text) : text.utf8ByteSize = bytes.length := by
  rw [← length_encode, encode_of_decode? h]

/-- The bytes of U+FEFF. -/
def byteOrderMark : List UInt8 := [0xef, 0xbb, 0xbf]

/-- Drops one byte order mark at the start. -/
def dropMark (bytes : List UInt8) : List UInt8 :=
  if byteOrderMark.isPrefixOf bytes then bytes.drop byteOrderMark.length else bytes

theorem length_dropMark_le (bytes : List UInt8) : (dropMark bytes).length ≤ bytes.length := by
  unfold dropMark
  split <;> simp

end Stun.Utf8
