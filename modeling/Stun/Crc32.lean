/-!
# CRC-32

The reflected CRC-32 with polynomial 0xEDB88320, in a table-driven form that takes a byte per step
and in a plain form that takes a bit per step. A finished checksum can be continued over further
data, so a message may be fed in chunks.
-/
namespace Stun.Crc32

def polynomial : BitVec 32 := 0xEDB88320

/-- Shifts one bit out of the register. -/
def shift (c : BitVec 32) : BitVec 32 :=
  if c.getLsbD 0 then polynomial ^^^ (c >>> 1) else c >>> 1

def shifts : Nat → BitVec 32 → BitVec 32
  | 0, c => c
  | n + 1, c => shifts n (shift c)

def table : Vector (BitVec 32) 256 := Vector.ofFn fun n => shifts 8 (BitVec.ofNat 32 n)

def step (c : BitVec 32) (b : UInt8) : BitVec 32 :=
  let index := BitVec.truncate 8 c ^^^ b.toBitVec
  table.get index.toFin ^^^ (c >>> 8)

/-- Continues a finished checksum over more data. -/
def update (crc : BitVec 32) (data : List UInt8) : BitVec 32 := ~~~(data.foldl step (~~~crc))

def checksum (data : List UInt8) : BitVec 32 := update 0 data

def bits (b : UInt8) : List Bool := (List.range 8).map b.toBitVec.getLsbD

/-- Takes one bit of data into the register. -/
def feed (c : BitVec 32) (bit : Bool) : BitVec 32 :=
  if c.getLsbD 0 ^^ bit then polynomial ^^^ (c >>> 1) else c >>> 1

/-- The checksum bit by bit: all ones to start with, complemented at the end. -/
def bitwise (data : List UInt8) : BitVec 32 :=
  ~~~((data.flatMap bits).foldl feed 0xFFFFFFFF)

end Stun.Crc32
