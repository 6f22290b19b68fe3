import Stun.Bytes.BigEndian
import Stun.Bytes.Padding
import Stun.Error

/-!
# Attribute spans

The attributes of a message follow each other without gaps: a type, a value length, the value, and
padding up to a multiple of four. A span is the place of one of them. The scan goes through the area
behind the header once and succeeds only if the last attribute ends where the area ends.
-/
namespace Stun

/-- `start` is the offset of the attribute header in the message. -/
structure Span where
  type : BitVec 16
  start : Nat
  length : Nat
deriving DecidableEq, Repr

namespace Span

variable (s : Span)

def valueStart : Nat := s.start + 4

def valueStop : Nat := s.valueStart + s.length

def stop : Nat := s.valueStart + padded s.length

/-- Scans an area that lies between two offsets, `count` attributes having been found before it.
The limit on their number is checked before each attribute is looked at. -/
def scan (limit : Number) (stop count start : Nat) (area : List UInt8) :
    Except Error (List Span) :=
  if area = [] then .ok []
  else if limit.reachedBy count then .error (.decode (.tooManyAttributes limit))
  else
    match area with
    | t₁ :: t₀ :: l₁ :: l₀ :: rest =>
      let s : Span := ⟨BitVec.ofNat 16 (BigEndian.decode [t₁, t₀]), start,
        BigEndian.decode [l₁, l₀]⟩
      if stop < s.stop then
        .error (.decode (.attributeTruncated s.type (padded s.length) (stop - s.valueStart)))
      else (scan limit stop (count + 1) s.stop (rest.drop (padded s.length))).map (s :: ·)
    | _ => .error (.decode .attributeHeaderCut)
termination_by area.length
decreasing_by simp only [List.length_drop, List.length_cons]; omega

end Span

end Stun
