import Stun.Buffer.Edit

/-!
# A buffer is a list of bytes

Edits with counts, sizes and offsets from zero up mean something for a plain list of bytes: it is
extended, cut, or two of its bytes are set. A buffer under such edits shows this list after each of
them. What its storage holds behind the content, and how often the storage was replaced by a larger
one, never shows.
-/
namespace Stun.Buffer

namespace Edit

def Natural : Edit → Prop
  | .append _ | .append16 _ => True
  | .appendZeros count => 0 ≤ count
  | .truncate size => 0 ≤ size
  | .set16 offset _ => 0 ≤ offset

/-- A list of bytes after an edit, and the answer to it. Bytes are set inside the list only. -/
def onList (bytes : List UInt8) : Edit → List UInt8 × Except Error Unit
  | .append more => (bytes ++ more, .ok ())
  | .appendZeros count => (bytes ++ List.replicate count.toNat 0, .ok ())
  | .append16 value => match value.fit 16 with
    | .ok w => (bytes ++ [UInt8.ofNat (w.toNat / 256), UInt8.ofNat (w.toNat % 256)], .ok ())
    | .error e => (bytes, .error e)
  | .truncate size => (bytes.take size.toNat, .ok ())
  | .set16 offset value => match value.fit 16 with
    | .ok w => ((bytes.set offset.toNat (UInt8.ofNat (w.toNat / 256))).set (offset.toNat + 1)
        (UInt8.ofNat (w.toNat % 256)), .ok ())
    | .error e => (bytes, .error e)

end Edit

/-- What a caller sees of an edit: the answer, and the bytes and their number afterwards. -/
structure Shown where
  answer : Except Error Unit
  bytes : List UInt8
  length : Int

def Edited.transcript (s : Edited) : List Edit → List Shown
  | [] => []
  | e :: es =>
    ⟨(s.apply e).2, (s.apply e).1.toList, (s.apply e).1.size⟩ :: (s.apply e).1.transcript es

def Edit.transcript (bytes : List UInt8) : List Edit → List Shown
  | [] => []
  | e :: es =>
    ⟨(e.onList bytes).2, (e.onList bytes).1, (e.onList bytes).1.length⟩ ::
      transcript (e.onList bytes).1 es

theorem encode_two_bytes (n : Nat) :
    BigEndian.encode 2 n = [UInt8.ofNat (n / 256), UInt8.ofNat (n % 256)] := by
  have hlow : UInt8.ofNat (n % 256) = UInt8.ofNat n := by
    apply UInt8.toNat_inj.1
    simp only [UInt8.toNat_ofNat']
    omega
  rw [BigEndian.encode_two, hlow]

theorem overlay_pair (data : List UInt8) (i : Nat) (high low : UInt8) :
    Bytes.overlay data i [high, low] = (data.set i high).set (i + 1) low := by
  apply List.ext_getElem?
  intro j
  rw [Bytes.getElem?_overlay, List.getElem?_set, List.getElem?_set, List.length_set]
  simp only [List.length_cons, List.length_nil]
  by_cases hj : j < data.length
  · by_cases hhigh : i = j
    · have hfirst : ((j : Int) - i).toNat = 0 := by omega
      rw [if_pos (by omega), if_neg (by omega), if_pos hhigh, if_pos (by omega), hfirst]
      rfl
    · by_cases hlow : i + 1 = j
      · have hsecond : ((j : Int) - i).toNat = 1 := by omega
        rw [if_pos (by omega), if_pos hlow, if_pos (by omega), hsecond]
        rfl
      · rw [if_neg (by omega), if_neg hlow, if_neg hhigh]
  · have hnone : data[j]? = none := List.getElem?_eq_none (by omega)
    rw [if_neg (by omega), hnone]
    split
    next => rw [if_neg (by omega)]
    next =>
      split
      next => rw [if_neg (by omega)]
      next => rfl

theorem exists_apply_plain (b : Buffer) {e : Edit} (he : e.Natural) :
    ∃ b' : Buffer, (Edited.plain b).apply e = (.plain b', (e.onList b.toList).2) ∧
      b'.toList = (e.onList b.toList).1 := by
  cases e with
  | append bytes => exact ⟨b.append bytes, rfl, b.toList_append bytes⟩
  | appendZeros count =>
    obtain ⟨n, rfl⟩ := Int.eq_ofNat_of_zero_le he
    exact ⟨b.appendZeros n, rfl, b.toList_appendZeros n⟩
  | append16 value =>
    simp only [Edited.apply, Edit.onList]
    cases value.fit 16 with
    | ok w => exact ⟨_, rfl, by rw [toList_append, encode_two_bytes]⟩
    | error e => exact ⟨b.reserve 2, rfl, b.toList_reserve 2⟩
  | truncate size =>
    obtain ⟨n, rfl⟩ := Int.eq_ofNat_of_zero_le he
    exact ⟨b.truncate n, rfl, b.toList_truncate n⟩
  | set16 offset value =>
    obtain ⟨i, rfl⟩ := Int.eq_ofNat_of_zero_le he
    simp only [Edited.apply, Edit.onList]
    cases value.fit 16 with
    | ok w =>
      refine ⟨b.patch i w, rfl, ?_⟩
      rw [toList_patch, encode_two_bytes, overlay_pair]
      rfl
    | error e => exact ⟨b, rfl, rfl⟩

theorem transcript_plain (b : Buffer) {es : List Edit} (hes : ∀ e ∈ es, e.Natural) :
    (Edited.plain b).transcript es = Edit.transcript b.toList es := by
  induction es generalizing b with
  | nil => rfl
  | cons e es ih =>
    obtain ⟨b', happly, hbytes⟩ := exists_apply_plain b (hes e List.mem_cons_self)
    have hrest := ih b' fun e he => hes e (List.mem_cons_of_mem _ he)
    rw [Edited.transcript, Edit.transcript, happly, ← hbytes, hrest, length_toList]
    rfl

theorem exists_doubled (needed capacity : Nat) (positive : 0 < capacity) :
    ∃ turns, doubled needed capacity positive = capacity * 2 ^ turns ∧
      needed ≤ capacity * 2 ^ turns ∧ ∀ k < turns, capacity * 2 ^ k < needed := by
  fun_induction doubled needed capacity positive with
  | case1 capacity positive h => exact ⟨0, (Nat.mul_one _).symm, by omega, fun k hk => by omega⟩
  | case2 capacity positive h ih =>
    obtain ⟨turns, hdoubled, hsuffices, hbefore⟩ := ih
    have hturn (k : Nat) : 2 * capacity * 2 ^ k = capacity * 2 ^ (k + 1) := by
      rw [Nat.pow_succ', Nat.mul_left_comm, Nat.mul_assoc]
    rw [hturn] at hdoubled hsuffices
    refine ⟨turns + 1, hdoubled, hsuffices, fun k hk => ?_⟩
    cases k with
    | zero => simpa using h
    | succ k =>
      rw [← hturn]
      exact hbefore k (by omega)

/-- Whatever capacity a buffer starts with, its edits show what they do to a list that starts empty,
and its storage always stops growing. -/
theorem edits_show_list (capacity : Nat) {es : List Edit} (hes : ∀ e ∈ es, e.Natural) :
    (∃ s, Edited.create capacity = .ok s ∧ s.toList = [] ∧ s.size = 0 ∧
      s.transcript es = Edit.transcript [] es) ∧
    ∀ (needed room : Nat) (positive : 0 < room), ∃ turns,
      doubled needed room positive = room * 2 ^ turns ∧
      needed ≤ room * 2 ^ turns ∧ ∀ k < turns, room * 2 ^ k < needed := by
  refine ⟨⟨.plain (empty capacity), rfl, rfl, rfl, ?_⟩, exists_doubled⟩
  exact transcript_plain (empty capacity) hes

/-- Starting without room: a word over the end of the content, a byte where its second one was left,
a cut, more zeros than there is room for, a number that is no word, and a word behind the end. -/
def straddling : List Edit :=
  [.append [1], .set16 0 (.integer 0x0203), .append [7], .truncate 1, .appendZeros 16,
    .append16 (.integer 0x10000), .set16 17 (.integer 0x0405), .appendZeros 2]

theorem edits_show_list_straddling :
    (∀ e ∈ straddling, e.Natural) ∧ ∃ s, Edited.create 0 = .ok s ∧
      s.transcript straddling =
        [⟨.ok (), [1], 1⟩, ⟨.ok (), [2], 1⟩, ⟨.ok (), [2, 7], 2⟩, ⟨.ok (), [2], 1⟩,
          ⟨.ok (), 2 :: List.replicate 16 0, 17⟩,
          ⟨.error (.conversion (.number (.integer 0x10000)) 16), 2 :: List.replicate 16 0, 17⟩,
          ⟨.ok (), 2 :: List.replicate 16 0, 17⟩, ⟨.ok (), 2 :: List.replicate 18 0, 19⟩] := by
  have hnatural : ∀ e ∈ straddling, e.Natural := by simp [straddling, Edit.Natural]
  obtain ⟨⟨s, hs, -, -, htranscript⟩, -⟩ := edits_show_list 0 hnatural
  exact ⟨hnatural, s, hs, htranscript⟩

end Stun.Buffer
