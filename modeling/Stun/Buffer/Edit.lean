import Stun.Buffer.Basic

/-!
# Edits of a buffer

Edits are the operations of a buffer with numbers as callers give them, and such numbers may move
the end of the content below zero. An end below zero counts from the end of the storage, as
`Bytes.position` does: the content reaches up to there, bytes cannot be appended, and of a word that
is written only what lies at zero or above is kept. Where the end stays at zero or above an edit is
the operation of `Buffer`.
-/
namespace Stun.Buffer

inductive Edit
  | append (bytes : List UInt8)
  | appendZeros (count : Int)
  | append16 (value : Number)
  | truncate (size : Int)
  | set16 (offset : Int) (value : Number)
deriving DecidableEq, Repr

/-- A buffer under edits; the end of a receded one is `Int.negSucc gap`. -/
inductive Edited
  | plain (buffer : Buffer)
  | receded (storage : Array UInt8) (gap : Nat)

def clear (storage : Array UInt8) (start stop : Int) : Array UInt8 :=
  let first := Bytes.position storage.toList start
  let last := Bytes.position storage.toList stop
  writeAt storage first (List.replicate (last - first) 0)

@[simp] theorem size_clear (storage : Array UInt8) (start stop : Int) :
    (clear storage start stop).size = storage.size := size_writeAt _ _ _

namespace Edited

/-- An empty buffer, with a capacity that may be refused. -/
def create : Int → Except Error Edited
  | .ofNat capacity => .ok (.plain (.empty capacity))
  | .negSucc n => .error (.range (.bufferCapacity (.negSucc n)))

def ofEnd (storage : Array UInt8) : (stop : Int) → stop ≤ storage.size → Edited
  | .ofNat size, h => .plain ⟨storage, size, Int.ofNat_le.1 h⟩
  | .negSucc gap, _ => .receded storage gap

variable (s : Edited)

def storage : Edited → Array UInt8
  | .plain b => b.storage
  | .receded storage _ => storage

def size : Edited → Int
  | .plain b => b.size
  | .receded _ gap => .negSucc gap

def toList : Edited → List UInt8
  | .plain b => b.toList
  | .receded storage gap => Bytes.slice storage.toList 0 (.negSucc gap)

@[simp] theorem toList_plain (b : Buffer) : (plain b).toList = b.toList := rfl

@[simp] theorem size_plain (b : Buffer) : (plain b).size = b.size := rfl

def room (extra : Int) : Array UInt8 := grown s.storage s.toList (s.size + extra).toNat

theorem le_size_room (extra : Int) : s.size + extra ≤ (s.room extra).size :=
  Int.le_trans (Int.self_le_toNat _) (Int.ofNat_le.2 (le_size_grown _ _ _))

def reserve (extra : Nat) : Edited → Edited
  | .plain b => .plain (b.reserve extra)
  | .receded storage gap => .receded ((receded storage gap).room extra) gap

/-- Not even an empty string is appended below zero. -/
def append (bytes : List UInt8) : Edited → Except Error Edited
  | .plain b => .ok (.plain (b.append bytes))
  | .receded .. => .error (.range .bufferOffset)

/-- A negative count moves the end back. -/
def appendZeros (s : Edited) (count : Int) : Edited :=
  match s, count with
  | .plain b, .ofNat count => .plain (b.appendZeros count)
  | s, count =>
    ofEnd (clear (s.room count) s.size (s.size + count)) (s.size + count)
      (by simpa using s.le_size_room count)

def append16 (word : BitVec 16) : Edited → Edited
  | .plain b => .plain (b.append (BigEndian.encode 2 word.toNat))
  | s => ofEnd (overwrite (s.room 2) s.size (BigEndian.encode 2 word.toNat)) (s.size + 2)
      (by simpa using s.le_size_room 2)

def truncate (size : Int) : Edited → Edited
  | .plain b => match size with
    | .ofNat size => .plain (b.truncate size)
    | .negSucc gap => .receded b.storage gap
  | .receded storage gap => match size with
    | .ofNat _ => .receded storage gap
    | .negSucc gap' => .receded storage (max gap gap')

def patch (offset : Int) (word : BitVec 16) : Edited → Edited
  | .plain b => .plain (b.patch offset word)
  | .receded storage gap =>
    .receded (overwrite storage offset (BigEndian.encode 2 word.toNat)) gap

/-- The buffer after an edit, and whether the edit succeeded. An append makes its room before it can
fail; any other failure changes nothing. -/
def apply (s : Edited) : Edit → Edited × Except Error Unit
  | .append bytes => match s.append bytes with
    | .ok s => (s, .ok ())
    | .error e => (s.reserve bytes.length, .error e)
  | .appendZeros count => (s.appendZeros count, .ok ())
  | .append16 value => match value.fit 16 with
    | .ok word => (s.append16 word, .ok ())
    | .error e => (s.reserve 2, .error e)
  | .truncate size => (s.truncate size, .ok ())
  | .set16 offset value => match value.fit 16 with
    | .ok word => (s.patch offset word, .ok ())
    | .error e => (s, .error e)

end Edited

end Stun.Buffer
