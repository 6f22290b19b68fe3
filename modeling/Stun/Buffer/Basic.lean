import Stun.Bytes.Window
import Stun.Field

/-!
# A growable buffer

Bytes are appended at the end and those already written can be patched in place. The storage may be
longer than the content and hold old bytes there; `toList` is the content, and all that a buffer
shows.
-/
namespace Stun

structure Buffer where
  storage : Array UInt8
  size : Nat
  size_le : size ≤ storage.size

namespace Buffer

def empty (capacity : Nat) : Buffer := ⟨Array.replicate capacity 0, 0, Nat.zero_le _⟩

def doubled (needed capacity : Nat) (positive : 0 < capacity) : Nat :=
  if needed ≤ capacity then capacity else doubled needed (2 * capacity) (by omega)
termination_by needed - capacity

theorem le_doubled (needed capacity : Nat) (positive : 0 < capacity) :
    needed ≤ doubled needed capacity positive := by
  fun_induction doubled needed capacity positive with
  | case1 => assumption
  | case2 capacity positive h ih => exact ih

/-- Writes bytes from an index on; those past the end of the storage are dropped. -/
def writeAt (storage : Array UInt8) (i : Nat) : List UInt8 → Array UInt8
  | [] => storage
  | b :: bytes => writeAt (storage.setIfInBounds i b) (i + 1) bytes

@[simp] theorem size_writeAt (storage : Array UInt8) (i : Nat) (bytes : List UInt8) :
    (writeAt storage i bytes).size = storage.size := by
  induction bytes generalizing storage i with
  | nil => rfl
  | cons b bytes ih => simp [writeAt, ih]

/-- Writes bytes from an offset on; those outside the storage are dropped. -/
def overwrite (storage : Array UInt8) (offset : Int) (bytes : List UInt8) : Array UInt8 :=
  writeAt storage offset.toNat (bytes.drop (-offset).toNat)

@[simp] theorem size_overwrite (storage : Array UInt8) (offset : Int) (bytes : List UInt8) :
    (overwrite storage offset bytes).size = storage.size := size_writeAt _ _ _

/-- The storage, or a larger one that starts with the content when the storage is too small. -/
def grown (storage : Array UInt8) (content : List UInt8) (needed : Nat) : Array UInt8 :=
  if needed ≤ storage.size then storage
  else
    let capacity := doubled needed (max storage.size 16) (by omega)
    (content ++ List.replicate (capacity - content.length) 0).toArray

theorem le_size_grown (storage : Array UInt8) (content : List UInt8) (needed : Nat) :
    needed ≤ (grown storage content needed).size := by
  unfold grown
  split
  · assumption
  · have := le_doubled needed (max storage.size 16) (by omega)
    simp only [List.size_toArray, List.length_append, List.length_replicate]
    omega

variable (b : Buffer)

def toList : List UInt8 := b.storage.toList.take b.size

@[simp] theorem length_toList : b.toList.length = b.size := by
  simp [toList, Nat.min_eq_left b.size_le]

def byteAt (i : Nat) : UInt8 := if i < b.size then b.storage.getD i 0 else 0

/-- Storage for the content and some bytes more. -/
def room (extra : Nat) : Array UInt8 := grown b.storage b.toList (b.size + extra)

theorem le_size_room (extra : Nat) : b.size + extra ≤ (b.room extra).size :=
  le_size_grown _ _ _

/-- Makes room for more bytes, without changing the content. -/
def reserve (extra : Nat) : Buffer where
  storage := b.room extra
  size := b.size
  size_le := Nat.le_trans (Nat.le_add_right _ _) (b.le_size_room extra)

def append (bytes : List UInt8) : Buffer where
  storage := writeAt (b.room bytes.length) b.size bytes
  size := b.size + bytes.length
  size_le := by simpa using b.le_size_room bytes.length

def appendZeros (count : Nat) : Buffer := b.append (List.replicate count 0)

/-- Drops the content past a size; the storage is kept. -/
def truncate (size : Nat) : Buffer where
  storage := b.storage
  size := min size b.size
  size_le := by have := b.size_le; omega

/-- Overwrites two bytes in place, without moving the end of the content. -/
def patch (offset : Int) (word : BitVec 16) : Buffer where
  storage := overwrite b.storage offset (BigEndian.encode 2 word.toNat)
  size := b.size
  size_le := by simpa using b.size_le

theorem getElem?_writeAt (storage : Array UInt8) (i : Nat) (bytes : List UInt8) (j : Nat) :
    (writeAt storage i bytes)[j]? =
      if i ≤ j ∧ j < i + bytes.length ∧ j < storage.size then bytes[j - i]? else storage[j]? := by
  induction bytes generalizing storage i with
  | nil => rw [writeAt, if_neg (by simp only [List.length_nil]; omega)]
  | cons c bytes ih =>
    rw [writeAt, ih]
    simp only [Array.size_setIfInBounds, Array.getElem?_setIfInBounds, List.length_cons]
    by_cases h : i = j
    · subst h
      rw [if_neg (by omega), if_pos rfl, Nat.sub_self, List.getElem?_cons_zero]
      by_cases hs : i < storage.size
      · rw [if_pos hs, if_pos (by omega)]
      · rw [if_neg hs, if_neg (by omega), Array.getElem?_eq_none (by omega)]
    · rw [if_neg h]
      by_cases hj : i < j
      · have sub : j - i = j - (i + 1) + 1 := by omega
        rw [sub, List.getElem?_cons_succ]
        by_cases hb : j < i + (bytes.length + 1) ∧ j < storage.size
        · rw [if_pos (by omega), if_pos (by omega)]
        · rw [if_neg (by omega), if_neg (by omega)]
      · rw [if_neg (by omega), if_neg (by omega)]

theorem getElem?_overwrite (storage : Array UInt8) (offset : Int) (bytes : List UInt8) (j : Nat) :
    (overwrite storage offset bytes)[j]? =
      if offset ≤ j ∧ (j : Int) < offset + bytes.length ∧ j < storage.size then
        bytes[(j - offset).toNat]?
      else storage[j]? := by
  rw [overwrite, getElem?_writeAt, List.length_drop]
  by_cases h : offset ≤ j ∧ (j : Int) < offset + bytes.length ∧ j < storage.size
  · have sub : (-offset).toNat + (j - offset.toNat) = (j - offset).toNat := by omega
    rw [if_pos h, if_pos (by omega), List.getElem?_drop, sub]
  · rw [if_neg h, if_neg (by omega)]

theorem getElem?_room (extra j : Nat) (h : j < b.size) : (b.room extra)[j]? = b.storage[j]? := by
  unfold room grown
  split
  · rfl
  · have hj : j < b.toList.length := by simpa using h
    rw [List.getElem?_toArray, List.getElem?_append_left hj]
    simp [toList, h]

theorem getElem?_toList (j : Nat) :
    b.toList[j]? = if j < b.size then b.storage[j]? else none := by
  simp [toList, List.getElem?_take]

@[simp] theorem size_append (bytes : List UInt8) :
    (b.append bytes).size = b.size + bytes.length := rfl

@[simp] theorem toList_append (bytes : List UInt8) :
    (b.append bytes).toList = b.toList ++ bytes := by
  apply List.ext_getElem?
  intro j
  have room := b.le_size_room bytes.length
  rw [getElem?_toList, size_append, append, getElem?_writeAt]
  by_cases h : j < b.size
  · have hj : j < b.toList.length := by simpa using h
    rw [List.getElem?_append_left hj, getElem?_toList, getElem?_room _ _ _ h,
      if_pos (by omega), if_neg (by omega), if_pos h]
  · have hj : b.size ≤ j := by omega
    rw [List.getElem?_append_right (by simpa using hj), length_toList]
    by_cases hb : j < b.size + bytes.length
    · rw [if_pos hb, if_pos ⟨by omega, hb, by omega⟩]
    · rw [if_neg hb, List.getElem?_eq_none]
      omega

@[simp] theorem toList_reserve (extra : Nat) : (b.reserve extra).toList = b.toList := by
  apply List.ext_getElem?
  intro j
  rw [getElem?_toList, getElem?_toList]
  by_cases h : j < b.size
  · rw [if_pos h, ← b.getElem?_room extra j h, if_pos (show j < (b.reserve extra).size from h)]
    rfl
  · rw [if_neg h, if_neg (show ¬ j < (b.reserve extra).size from h)]

@[simp] theorem toList_appendZeros (count : Nat) :
    (b.appendZeros count).toList = b.toList ++ List.replicate count 0 := b.toList_append _

@[simp] theorem toList_truncate (size : Nat) : (b.truncate size).toList = b.toList.take size := by
  simp [truncate, toList, List.take_take]

@[simp] theorem toList_patch (offset : Int) (word : BitVec 16) :
    (b.patch offset word).toList =
      Bytes.overlay b.toList offset (BigEndian.encode 2 word.toNat) := by
  apply List.ext_getElem?
  intro j
  have := b.size_le
  rw [getElem?_toList, Bytes.getElem?_overlay, patch, getElem?_overwrite, getElem?_toList,
    length_toList]
  by_cases h : j < b.size
  · rw [if_pos h, if_pos h]
    by_cases inside : offset ≤ j ∧ (j : Int) < offset + (BigEndian.encode 2 word.toNat).length
    · rw [if_pos ⟨inside.1, inside.2, by omega⟩, if_pos ⟨inside.1, inside.2, h⟩]
    · rw [if_neg (by omega), if_neg (by omega)]
  · rw [if_neg h, if_neg h, if_neg (by omega)]

theorem byteAt_eq (i : Nat) : b.byteAt i = b.toList.getD i 0 := by
  have := b.size_le
  rw [byteAt, List.getD_eq_getElem?_getD, getElem?_toList]
  split <;> simp

end Buffer

end Stun
