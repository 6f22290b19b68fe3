import Stun.Bytes.BigEndian

/-!
# Windows of a byte string

Reading and writing at offsets that may lie outside the bytes: what is outside reads as zero and is
dropped when written. `field` is the plain window for offsets known to be inside.
-/
namespace Stun.Bytes

variable (data : List UInt8)

def byteAt (i : Int) : UInt8 := if i < 0 then 0 else data.getD i.toNat 0

def read (width : Nat) (offset : Int) : Nat :=
  BigEndian.decode ((List.range width).map fun (i : Nat) => byteAt data (offset + i))

/-- The data with the bytes from the offset on replaced, as far as they lie inside. -/
def overlay (offset : Int) (bytes : List UInt8) : List UInt8 :=
  data.mapIdx fun i b => if (i : Int) < offset then b else bytes.getD (i - offset).toNat b

def write (width : Nat) (offset value : Int) : List UInt8 :=
  overlay data offset (BigEndian.encode width (value % 256 ^ width).toNat)

/-- Clamps a position to the data; a negative one counts from the end. -/
def position (i : Int) : Nat := min (if i < 0 then data.length + i else i).toNat data.length

/-- The bytes from one position up to another, none if they are out of order. -/
def slice (start stop : Int) : List UInt8 :=
  (data.take (position data stop)).drop (position data start)

/-- The numeral in a window that lies inside the data. -/
def field (offset width : Nat) : Nat := BigEndian.decode ((data.drop offset).take width)

theorem slice_of_le (start stop : Nat) (hstart : start ≤ stop) (hstop : stop ≤ data.length) :
    slice data start stop = (data.take stop).drop start := by
  have hposition {i : Nat} (hi : i ≤ data.length) : position data i = i := by
    rw [position, if_neg (by omega)]
    exact Nat.min_eq_left hi
  rw [slice, hposition hstop, hposition (Nat.le_trans hstart hstop)]

theorem getElem?_overlay (offset : Int) (bytes : List UInt8) (j : Nat) :
    (overlay data offset bytes)[j]? =
      if offset ≤ j ∧ (j : Int) < offset + bytes.length ∧ j < data.length then
        bytes[(j - offset).toNat]?
      else data[j]? := by
  by_cases hj : j < data.length
  · simp only [overlay, List.getElem?_mapIdx, List.getElem?_eq_getElem hj, Option.map_some]
    by_cases below : (j : Int) < offset
    · rw [if_pos below, if_neg (by omega)]
    · rw [if_neg below, List.getD_eq_getElem?_getD]
      by_cases hb : (j : Int) < offset + bytes.length
      · have hk : (j - offset).toNat < bytes.length := by omega
        rw [if_pos ⟨by omega, hb, hj⟩, List.getElem?_eq_getElem hk, Option.getD_some]
      · have hk : bytes.length ≤ (j - offset).toNat := by omega
        rw [if_neg (by omega), List.getElem?_eq_none hk, Option.getD_none]
  · rw [if_neg (by omega), List.getElem?_eq_none (by simpa [overlay] using hj),
      List.getElem?_eq_none (by omega)]

theorem overlay_append (before old new after : List UInt8) (h : old.length = new.length) :
    overlay (before ++ old ++ after) before.length new = before ++ new ++ after := by
  apply List.ext_getElem?
  intro j
  rw [getElem?_overlay, List.append_assoc, List.append_assoc]
  simp only [List.length_append]
  by_cases hbefore : j < before.length
  · rw [if_neg (by omega), List.getElem?_append_left hbefore, List.getElem?_append_left hbefore]
  · have hj : before.length ≤ j := by omega
    by_cases hnew : j - before.length < new.length
    · rw [if_pos (by omega), List.getElem?_append_right hj, List.getElem?_append_left hnew]
      congr 1
      omega
    · rw [if_neg (by omega), List.getElem?_append_right hj, List.getElem?_append_right hj,
        List.getElem?_append_right (by omega), List.getElem?_append_right (by omega), h]

end Stun.Bytes
