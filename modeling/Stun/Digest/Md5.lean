import Stun.Digest.Hash

/-!
# MD5

Four words of state and four rounds of sixteen steps. Words and the length are little-endian.
-/
namespace Stun.Md5

structure State where
  a : UInt32
  b : UInt32
  c : UInt32
  d : UInt32

def start : State := ⟨0x67452301, 0xefcdab89, 0x98badcfe, 0x10325476⟩

/-- The constant of step `i` is the whole part of `2 ^ 32 * |sin (i + 1)|`. -/
def constants : Array UInt32 := #[
  0xd76aa478, 0xe8c7b756, 0x242070db, 0xc1bdceee, 0xf57c0faf, 0x4787c62a, 0xa8304613, 0xfd469501,
  0x698098d8, 0x8b44f7af, 0xffff5bb1, 0x895cd7be, 0x6b901122, 0xfd987193, 0xa679438e, 0x49b40821,
  0xf61e2562, 0xc040b340, 0x265e5a51, 0xe9b6c7aa, 0xd62f105d, 0x02441453, 0xd8a1e681, 0xe7d3fbc8,
  0x21e1cde6, 0xc33707d6, 0xf4d50d87, 0x455a14ed, 0xa9e3e905, 0xfcefa3f8, 0x676f02d9, 0x8d2a4c8a,
  0xfffa3942, 0x8771f681, 0x6d9d6122, 0xfde5380c, 0xa4beea44, 0x4bdecfa9, 0xf6bb4b60, 0xbebfbc70,
  0x289b7ec6, 0xeaa127fa, 0xd4ef3085, 0x04881d05, 0xd9d4d039, 0xe6db99e5, 0x1fa27cf8, 0xc4ac5665,
  0xf4292244, 0x432aff97, 0xab9423a7, 0xfc93a039, 0x655b59c3, 0x8f0ccc92, 0xffeff47d, 0x85845dd1,
  0x6fa87e4f, 0xfe2ce6e0, 0xa3014314, 0x4e0811a1, 0xf7537e82, 0xbd3af235, 0x2ad7d2bb, 0xeb86d391]

def rotations : Array UInt32 := #[7, 12, 17, 22, 5, 9, 14, 20, 4, 11, 16, 23, 6, 10, 15, 21]

def step (block : Array UInt32) (s : State) (i : Nat) : State :=
  let (mix, k) : UInt32 × Nat :=
    if i < 16 then (s.b &&& s.c ||| ~~~s.b &&& s.d, i)
    else if i < 32 then (s.d &&& s.b ||| ~~~s.d &&& s.c, (5 * i + 1) % 16)
    else if i < 48 then (s.b ^^^ s.c ^^^ s.d, (3 * i + 5) % 16)
    else (s.c ^^^ (s.b ||| ~~~s.d), 7 * i % 16)
  let sum := s.a + mix + constants.getD i 0 + block.getD k 0
  ⟨s.d, s.b + Hash.rotateLeft sum (rotations.getD (i / 16 * 4 + i % 4) 0), s.b, s.c⟩

def compress (s : State) (block : List UInt32) : State :=
  let t := (List.range 64).foldl (step block.toArray) s
  ⟨s.a + t.a, s.b + t.b, s.c + t.c, s.d + t.d⟩

def readWord (bytes : List UInt8) : UInt32 := Hash.readWord bytes.reverse

def writeWord (w : UInt32) : List UInt8 := (Hash.writeWord w).reverse

def compute (message : List UInt8) : List UInt8 :=
  let bytes := Hash.pad (fun n => (BigEndian.encode 8 n).reverse) message
  let s := (Hash.pieces 16 (Hash.words readWord bytes)).foldl compress start
  writeWord s.a ++ writeWord s.b ++ writeWord s.c ++ writeWord s.d

end Stun.Md5

namespace Stun

def Hash.md5 : Hash where
  size := 16
  compute := Md5.compute
  length_compute _ := by simp [Md5.compute, Md5.writeWord]

end Stun
