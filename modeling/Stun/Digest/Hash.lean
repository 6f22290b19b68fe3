import Stun.Bytes.BigEndian

/-!
# Hash functions over blocks

A hash function maps any message to a digest of a fixed size. Those here share a frame: the message
is padded with a marker bit and its bit length to a multiple of 64 bytes, and cut into blocks of
sixteen 32-bit words, which are compressed into the state one after the other.
-/
namespace Stun

structure Hash where
  size : Nat
  compute : List UInt8 → List UInt8
  length_compute : ∀ message, (compute message).length = size

namespace Hash

def blockSize : Nat := 64

/-- The message, a marker byte, zeros up to eight bytes before the end of a block, and the bit
length as the hash function writes it. -/
def pad (writeLength : Nat → List UInt8) (message : List UInt8) : List UInt8 :=
  let zeros := (119 - message.length % 64) % 64
  message ++ 0x80 :: (List.replicate zeros 0 ++ writeLength (8 * message.length))

/-- Cuts a list into pieces of `n`, the last one possibly shorter. -/
def pieces {α : Type} (n : Nat) : List α → List (List α)
  | [] => []
  | x :: rest => (x :: rest).take n :: pieces n (rest.drop (n - 1))
termination_by xs => xs.length
decreasing_by simp only [List.length_drop, List.length_cons]; omega

def words (readWord : List UInt8 → UInt32) (bytes : List UInt8) : List UInt32 :=
  (pieces 4 bytes).map readWord

def readWord (bytes : List UInt8) : UInt32 := UInt32.ofNat (BigEndian.decode bytes)

def writeWord (w : UInt32) : List UInt8 := BigEndian.encode 4 w.toNat

@[simp] theorem length_writeWord (w : UInt32) : (writeWord w).length = 4 := by simp [writeWord]

def rotateLeft (w n : UInt32) : UInt32 := w <<< n ||| w >>> (32 - n)

end Hash

end Stun
