import Stun.Error
import Stun.Text.Utf8

/-!
# Bounded texts

A text attribute holds a text whose UTF-8 form is shorter than the limit of its kind.
-/
namespace Stun

structure BoundedText (kind : TextKind) where
  text : String
  short : text.utf8ByteSize < kind.limit
deriving DecidableEq

namespace BoundedText

def ofString (kind : TextKind) (text : String) : Except Error (BoundedText kind) :=
  if h : text.utf8ByteSize < kind.limit then .ok ⟨text, h⟩
  else .error (.encode (.textTooLong kind text.utf8ByteSize))

/-- The size is checked before the bytes are read as text. -/
def decode (kind : TextKind) (value : List UInt8) : Except Error (BoundedText kind) :=
  if value.length < kind.limit then
    match Utf8.decode? value with
    | some text => ofString kind text
    | none => .error (.invalidData (.notUtf8 kind))
  else .error (.invalidData (.textTooLong kind))

end BoundedText

end Stun
