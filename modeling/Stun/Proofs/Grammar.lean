import Mathlib.Tactic.SplitIfs
import Stun.Message
import Stun.Proofs.HeaderCodec
import Stun.Proofs.Records

/-!
# What is a message

Bytes are a message when a sound header stands at their start, as many bytes follow as it declares,
and these are records one after the other. `Message.parse` accepts exactly this, up to its limit on
the number of attributes, and what stands behind the declared length does not matter.
-/
namespace Stun

namespace Message

/-- The bytes start with a sound header and as many records as fill its declared length. -/
structure WellFormed (data : List UInt8) (records : List Record) : Prop where
  header : Header.Sound data
  stop_le : headerSize + Header.declared data ≤ data.length
  area : (data.drop headerSize).take (Header.declared data) = records.flatMap Record.encode

/-- The message that the bytes stand for. -/
def ofRecords (data : List UInt8) (records : List Record) : Message where
  buffer := (data.take (headerSize + Header.declared data)).toArray
  header := Header.read data
  spans := Record.spans headerSize records

theorem WellFormed.length_area {data : List UInt8} {records : List Record}
    (h : WellFormed data records) :
    (records.flatMap Record.encode).length = Header.declared data := by
  have := h.stop_le
  rw [← h.area, List.length_take, List.length_drop]
  omega

theorem drop_take_stop (data : List UInt8) (n : Nat) :
    (data.take (headerSize + n)).drop headerSize = (data.drop headerSize).take n := by
  rw [List.drop_take, Nat.add_sub_cancel_left]

theorem parse_of_sound {data : List UInt8} (limit : Number) (h : Header.Sound data)
    (hstop : headerSize + Header.declared data ≤ data.length) :
    parse limit data =
      (Span.scan limit (headerSize + Header.declared data) 0 headerSize
        ((data.drop headerSize).take (Header.declared data))).map fun spans =>
          ⟨(data.take (headerSize + Header.declared data)).toArray, Header.read data, spans⟩ := by
  simp only [parse, Header.decode_of_sound h, bind, Except.bind, Header.toNat_length_read,
    drop_take_stop]
  rw [if_neg (by omega)]
  rfl

theorem sound_of_parse {limit : Number} {data : List UInt8} {m : Message}
    (hp : parse limit data = .ok m) :
    Header.Sound data ∧ headerSize + Header.declared data ≤ data.length := by
  cases hd : Header.decode data with
  | error e => simp only [parse, hd, bind, Except.bind] at hp; cases hp
  | ok h =>
    have hsound := Header.sound_of_decode hd
    rw [Header.decode_of_sound hsound] at hd
    cases hd
    simp only [parse, Header.decode_of_sound hsound, bind, Except.bind,
      Header.toNat_length_read] at hp
    split_ifs at hp with hshort
    exact ⟨hsound, by omega⟩

theorem parse_eq_ok_iff {limit : Number} {data : List UInt8} {m : Message} :
    parse limit data = .ok m ↔
      ∃ records, WellFormed data records ∧ limit.Admits records.length ∧
        m = ofRecords data records := by
  constructor
  · intro hp
    obtain ⟨hsound, hstop⟩ := sound_of_parse hp
    have hlen : headerSize + Header.declared data = headerSize +
        ((data.drop headerSize).take (Header.declared data)).length := by
      rw [List.length_take, List.length_drop]; omega
    rw [parse_of_sound limit hsound hstop] at hp
    cases hscan : Span.scan limit (headerSize + Header.declared data) 0 headerSize
        ((data.drop headerSize).take (Header.declared data)) with
    | error e => rw [hscan] at hp; cases hp
    | ok found =>
      rw [hscan] at hp
      cases hp
      obtain ⟨records, harea, hlimit, rfl⟩ := (Span.scan_eq_ok_iff hlen).1 hscan
      exact ⟨records, ⟨hsound, hstop, harea⟩, hlimit, rfl⟩
  · rintro ⟨records, h, hlimit, rfl⟩
    have hlen : headerSize + Header.declared data =
        headerSize + (records.flatMap Record.encode).length := by rw [h.length_area]
    rw [parse_of_sound limit h.header h.stop_le, h.area,
      (Span.scan_eq_ok_iff hlen).2 ⟨records, rfl, hlimit, rfl⟩]
    rfl

theorem parse_error {limit : Number} {data : List UInt8} {e : Error}
    (hp : parse limit data = .error e) : ∃ cause, e = .decode cause := by
  cases hd : Header.decode data with
  | error e' =>
    simp only [parse, hd, bind, Except.bind] at hp
    cases hp
    exact Header.decode_error hd
  | ok h =>
    simp only [parse, hd, bind, Except.bind] at hp
    split_ifs at hp with hshort
    · cases hp
      exact ⟨_, rfl⟩
    · cases hscan : Span.scan limit (headerSize + h.length.toNat) 0 headerSize
          ((data.take (headerSize + h.length.toNat)).drop headerSize) with
      | ok found => rw [hscan] at hp; cases hp
      | error e' =>
        rw [hscan] at hp
        cases hp
        exact Span.scan_error hscan

theorem parse_encode {limit : Number} {h : Header} {records : List Record}
    (hlen : h.length.toNat = (records.flatMap Record.encode).length)
    (hlimit : limit.Admits records.length) :
    parse limit (h.encode ++ records.flatMap Record.encode) =
      .ok ⟨(h.encode ++ records.flatMap Record.encode).toArray, h,
        Record.spans headerSize records⟩ := by
  have haligned := Record.length_flatMap_mod_four records
  have hstop : headerSize + Header.declared (h.encode ++ records.flatMap Record.encode) =
      (h.encode ++ records.flatMap Record.encode).length := by
    rw [Header.declared_encode, hlen, List.length_append, Header.length_encode]
  have harea : (h.encode ++ records.flatMap Record.encode).drop headerSize =
      records.flatMap Record.encode := by
    rw [← Header.length_encode h, List.drop_left]
  refine parse_eq_ok_iff.2 ⟨records, ⟨Header.sound_encode (by omega) _, by omega, ?_⟩,
    hlimit, ?_⟩
  · rw [harea, Header.declared_encode, hlen, List.take_length]
  · rw [ofRecords, hstop, List.take_length, Header.read_encode]

end Message

end Stun
