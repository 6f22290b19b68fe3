import Stun.Digest.Hash

/-!
# SHA-1

Five words of state and eighty steps over a schedule that extends the sixteen words of the block.
-/
namespace Stun.Sha1

structure State where
  a : UInt32
  b : UInt32
  c : UInt32
  d : UInt32
  e : UInt32

def start : State := ⟨0x67452301, 0xefcdab89, 0x98badcfe, 0x10325476, 0xc3d2e1f0⟩

def extend (w : Array UInt32) (i : Nat) : Array UInt32 :=
  w.push (Hash.rotateLeft
    (w.getD (i + 13) 0 ^^^ w.getD (i + 8) 0 ^^^ w.getD (i + 2) 0 ^^^ w.getD i 0) 1)

def schedule (block : List UInt32) : Array UInt32 := (List.range 64).foldl extend block.toArray

def step (w : Array UInt32) (s : State) (i : Nat) : State :=
  let (mix, constant) : UInt32 × UInt32 :=
    if i < 20 then (s.b &&& s.c ||| ~~~s.b &&& s.d, 0x5a827999)
    else if i < 40 then (s.b ^^^ s.c ^^^ s.d, 0x6ed9eba1)
    else if i < 60 then (s.b &&& s.c ||| s.b &&& s.d ||| s.c &&& s.d, 0x8f1bbcdc)
    else (s.b ^^^ s.c ^^^ s.d, 0xca62c1d6)
  let sum := Hash.rotateLeft s.a 5 + mix + s.e + constant + w.getD i 0
  ⟨sum, s.a, Hash.rotateLeft s.b 30, s.c, s.d⟩

def compress (s : State) (block : List UInt32) : State :=
  let t := (List.range 80).foldl (step (schedule block)) s
  ⟨s.a + t.a, s.b + t.b, s.c + t.c, s.d + t.d, s.e + t.e⟩

def compute (message : List UInt8) : List UInt8 :=
  let bytes := Hash.pad (BigEndian.encode 8) message
  let s := (Hash.pieces 16 (Hash.words Hash.readWord bytes)).foldl compress start
  [s.a, s.b, s.c, s.d, s.e].flatMap Hash.writeWord

end Stun.Sha1

namespace Stun

def Hash.sha1 : Hash where
  size := 20
  compute := Sha1.compute
  length_compute _ := by simp [Sha1.compute]

end Stun
