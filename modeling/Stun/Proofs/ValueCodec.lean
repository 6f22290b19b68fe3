import Stun.Proofs.AddressText
import Stun.Proofs.Runs

/-!
# Reading back values

What each kind of attribute with a value of its own writes is decoded to the same value. The bytes
of an attribute are those that its script appends, so an obscured address is read with the
transaction id it was written with.
-/
namespace Stun

theorem Utf8.decode?_encode (text : String) : decode? (encode text) = some text := by
  have hbytes : (encode text).toByteArray = text.toByteArray := by
    apply ByteArray.ext
    rw [List.data_toByteArray]
    rfl
  rw [decode?, hbytes, String.fromUTF8?, dif_pos text.isValidUTF8]
  rfl

theorem Words.decode?_encode (words : List (BitVec 16)) : decode? (encode words) = some words := by
  induction words with
  | nil => rfl
  | cons w words ih =>
    have hw : BitVec.ofNat 16 (BigEndian.decode (BigEndian.encode 2 w.toNat)) = w := by
      rw [BigEndian.decode_encode_two w.isLt, BitVec.ofNat_toNat, BitVec.setWidth_eq]
    rw [BigEndian.encode_two] at hw
    rw [encode] at ih
    rw [encode, List.flatMap_cons, BigEndian.encode_two]
    simp only [List.cons_append, List.nil_append, decode?, ih, hw, Option.map_some]

theorem Number.fit?_toNat {bits : Nat} (word : BitVec bits) :
    (Number.integer word.toNat).fit? bits = some word :=
  fitInt?_eq_some_iff.2 rfl

namespace TypeList

theorem ofNumbers_toNat (types : List (BitVec 16)) :
    ofNumbers (types.map fun type => .integer type.toNat) = .ok types := by
  induction types with
  | nil => rfl
  | cons type types ih =>
    rw [ofNumbers] at ih
    rw [ofNumbers, List.map_cons, List.mapM_cons, ih, Number.fit?_toNat]
    rfl

theorem decode_encode (types : List (BitVec 16)) : decode (Words.encode types) = .ok types := by
  rw [decode, Words.decode?_encode]
  exact ofNumbers_toNat types

end TypeList

namespace BoundedText

variable {kind : TextKind}

theorem ofString_text (t : BoundedText kind) : ofString kind t.text = .ok t := by
  rw [ofString, dif_pos t.short]

theorem decode_encode (t : BoundedText kind) : decode kind (Utf8.encode t.text) = .ok t := by
  have hshort : (Utf8.encode t.text).length < kind.limit := by
    rw [Utf8.length_encode]
    exact t.short
  rw [decode, if_pos hshort, Utf8.decode?_encode]
  exact ofString_text t

end BoundedText

namespace Endpoint

theorem ofText_text (e : Endpoint) : ofText e.address.text (.integer e.port.toNat) = .ok e := by
  rw [ofText, Number.fit?_toNat, IpAddress.parse_text]
  rfl

theorem field_port (e : Endpoint) : Bytes.field e.encode 2 2 = e.port.toNat := by
  have hfield : (e.encode.drop 2).take 2 = BigEndian.encode 2 e.port.toNat :=
    List.take_left' (BigEndian.length_encode 2 _)
  rw [Bytes.field, hfield, BigEndian.decode_encode_two e.port.isLt]

theorem drop_encode (e : Endpoint) : e.encode.drop 4 = e.address.bytes :=
  List.drop_left' (BigEndian.length_encode 2 _)

theorem decode_encode (kind : AddressKind) (e : Endpoint) : decode kind e.encode = .ok e := by
  have hlength := e.length_encode
  have htext := e.ofText_text
  have hfamily : e.encode.getD 1 0 = e.address.family.code := rfl
  rw [size] at hlength
  rw [decode, field_port, drop_encode, hfamily, if_neg (by omega)]
  cases haddress : e.address with
  | v4 a =>
    rw [haddress] at hlength htext
    exact (if_pos rfl).trans ((if_pos hlength).trans htext)
  | v6 a =>
    rw [haddress] at hlength htext
    have hother : AddressFamily.ipv6.code ≠ AddressFamily.ipv4.code := by decide
    exact (if_neg hother).trans ((if_pos rfl).trans ((if_pos hlength).trans htext))

theorem xorWith_xorWith (bytes mask : List UInt8) : xorWith (xorWith bytes mask) mask = bytes := by
  induction bytes generalizing mask with
  | nil => rfl
  | cons b bytes ih =>
    cases mask with
    | nil => rfl
    | cons m mask => rw [xorWith, xorWith, ih, UInt8.xor_assoc, UInt8.xor_self, UInt8.xor_zero]

/-- The first two bytes are left as they are. -/
theorem mask_mask (id : TransactionId) (value : List UInt8) : mask id (mask id value) = value := by
  by_cases hsize : 2 ≤ value.length
  · have hkept : (value.take 2).length = 2 := by
      rw [List.length_take]
      exact Nat.min_eq_left hsize
    rw [mask, mask, List.take_left' hkept, List.drop_left' hkept, xorWith_xorWith,
      List.take_append_drop]
  · have hrest : value.drop 2 = [] := List.drop_eq_nil_of_le (by omega)
    have hmask : mask id value = value := by
      rw [mask, hrest, List.take_of_length_le (by omega)]
      exact List.append_nil value
    rw [hmask, hmask]

theorem length_xorWith (bytes mask : List UInt8) : (xorWith bytes mask).length = bytes.length := by
  induction bytes generalizing mask with
  | nil => rfl
  | cons b bytes ih =>
    cases mask with
    | nil => rfl
    | cons m mask => rw [xorWith, List.length_cons, List.length_cons, ih]

theorem length_mask (id : TransactionId) (value : List UInt8) :
    (mask id value).length = value.length := by
  rw [mask, List.length_append, length_xorWith, ← List.length_append, List.take_append_drop]

end Endpoint

theorem fitInt_toNat {bits : Nat} (word : BitVec bits) : fitInt bits word.toNat = .ok word := by
  rw [fitInt, fitInt?_eq_some_iff.2 rfl]

/-- The value bytes of an attribute in a message with the given id. Fingerprints and integrity
attributes have none before they are written. -/
def Attribute.wire? (id : TransactionId) : Attribute → Option (List UInt8)
  | .address .xorMapped endpoint => some (Endpoint.mask id endpoint.encode)
  | .address _ endpoint => some endpoint.encode
  | .text _ value => some (Utf8.encode value.text)
  | .errorCode value => some value.encode
  | .unknownAttributes types => some (Words.encode types)
  | .priority value => some (BigEndian.encode 4 value.toNat)
  | .useCandidate => some []
  | .tieBreaker _ value => some (BigEndian.encode 8 value.toNat)
  | .fingerprint | .integrity _ => none

namespace Attribute

variable {a : Attribute} {id : TransactionId} {bytes : List UInt8}

theorem length_wire (h : a.wire? id = some bytes) : bytes.length = a.length := by
  cases a with
  | address kind endpoint =>
    cases kind <;> cases h <;> simp [length, Endpoint.length_mask, Endpoint.length_encode]
  | errorCode value => cases h; exact value.length_encode
  | fingerprint | integrity _ => cases h
  | _ => cases h; simp [length]

theorem appended_script {b : Builder} (key : Key) (h : a.wire? b.transactionId = some bytes) :
    (a.script key).appended b = bytes := by
  cases a with
  | address kind endpoint =>
    cases kind <;> cases h <;> simp only [script, Script.appended, List.append_nil]
  | fingerprint | integrity _ => cases h
  | _ => cases h; simp only [script, Script.appended, List.append_nil]

end Attribute

theorem Builder.transactionId_enter (b : Builder) (f : Frame) :
    (b.enter f).transactionId = b.transactionId := by
  simp only [enter, declare, append]

/-- The value of an attribute that was added is what it stands for on the wire. -/
theorem Record.Writes.value_wire {r : Record} {a : Attribute} {key : Key} {b : Builder}
    {bytes : List UInt8} (hr : r.Writes (a.draft key) b)
    (h : a.wire? b.transactionId = some bytes) : r.value = bytes := by
  by_cases hne : r.value = []
  · -- Nothing was announced, so the bytes are none either.
    have hlength : a.length = r.value.length := Int.ofNat_inj.1 (Number.integer.inj hr.length)
    rw [hne, ← Attribute.length_wire h] at hlength
    rw [hne, List.length_eq_zero_iff.1 hlength]
  · obtain ⟨f, -, hvalue⟩ := hr.exists_frame hne
    rw [← Builder.transactionId_enter b f] at h
    exact hvalue.trans (Attribute.appended_script key h)

theorem Attribute.run_script {a : Attribute} {b : Builder} {id : TransactionId} {bytes : List UInt8}
    (key : Key) (h : a.wire? id = some bytes) : ((a.script key).run b).result = .ok [] := by
  cases a with
  | address kind endpoint => cases kind <;> rfl
  | fingerprint | integrity _ => cases h
  | _ => rfl

/-- An attribute with a value of its own can be added as long as the message has room for it. -/
theorem Builder.add_wire {a : Attribute} {b : Builder} {h : Header} {body bytes : List UInt8}
    (key : Key) (hb : b.Holds h body) (hwire : a.wire? b.transactionId = some bytes)
    (hroom : body.length + (attributeHeaderSize + padded a.length) < 2 ^ 16) :
    ∃ (w : BitVec 16) (body' : List UInt8),
      body'.length = body.length + (attributeHeaderSize + padded a.length) ∧
      (b.add (a.draft key)).result = .ok [] ∧
      (b.add (a.draft key)).builder.Holds (h.redeclare w) body' := by
  refine add_attribute hb a key hroom fun f _ => ⟨Attribute.run_script key hwire, ?_⟩
  rw [← transactionId_enter b f] at hwire
  rw [Attribute.appended_script key hwire, Attribute.length_wire hwire]

theorem BigEndian.decode_encode_toNat {bits width : Nat} (hbits : 2 ^ bits ≤ 256 ^ width)
    (word : BitVec bits) : decode (encode width word.toNat) = word.toNat := by
  rw [decode_encode]
  exact Nat.mod_eq_of_lt (Nat.lt_of_lt_of_le word.isLt hbits)

namespace Attribute

theorem ofPriority_toNat (value : BitVec 32) :
    ofPriority (.integer value.toNat) = .ok (.priority value) := by
  rw [ofPriority, Number.fit_toNat]
  rfl

theorem ofTieBreaker_toNat (role : Role) (value : BitVec 64) :
    ofTieBreaker role value.toNat = .ok (.tieBreaker role value) := by
  rw [ofTieBreaker, fitInt_toNat]
  rfl

end Attribute

namespace Message

variable {m : Message} {s : Span} {key : Key}

/-- All addresses but the obscured ones are read as they stand. -/
theorem decodeAt_address {kind : AddressKind} (hkind : kind ≠ .xorMapped) :
    m.decodeAt (.address kind) key s =
      (Endpoint.decode kind (m.value s)).map (.address kind) := by
  cases kind with
  | xorMapped => exact absurd rfl hkind
  | mapped | alternateServer => rfl

theorem decodeAt_priority (hsize : (m.value s).length = 4) :
    m.decodeAt .priority key s =
      Attribute.ofPriority (.integer (BigEndian.decode (m.value s))) := by
  simp only [decodeAt, if_pos hsize]
  rw [ok_bind]

theorem decodeAt_tieBreaker {role : Role} (hsize : (m.value s).length = 8) :
    m.decodeAt (.tieBreaker role) key s =
      Attribute.ofTieBreaker role (BigEndian.decode (m.value s)) := by
  simp only [decodeAt, if_pos hsize]
  rw [ok_bind]

/-- A value is decoded to the attribute that wrote it, in a message with the same id. -/
theorem decodeAt_wire {a : Attribute} (hcode : a.kind ≠ .errorCode)
    (h : a.wire? m.header.transactionId = some (m.value s)) :
    m.decodeAt a.kind key s = .ok a := by
  cases a with
  | address kind endpoint =>
    have hplain : Endpoint.decode kind endpoint.encode = .ok endpoint :=
      endpoint.decode_encode kind
    cases kind with
    | xorMapped =>
      have hvalue := Option.some.inj h
      rw [Attribute.kind, decodeAt, ← hvalue, Endpoint.mask_mask, hplain]
      rfl
    | mapped | alternateServer =>
      have hvalue := Option.some.inj h
      rw [Attribute.kind, decodeAt_address AddressKind.noConfusion, ← hvalue, hplain]
      rfl
  | text kind value =>
    have hvalue := Option.some.inj h
    rw [Attribute.kind, decodeAt, ← hvalue, BoundedText.decode_encode]
    rfl
  | errorCode value => exact absurd rfl hcode
  | unknownAttributes types =>
    have hvalue := Option.some.inj h
    rw [Attribute.kind, decodeAt, ← hvalue, TypeList.decode_encode]
    rfl
  | priority value =>
    have hvalue := Option.some.inj h
    have hsize : (m.value s).length = 4 := Attribute.length_wire h
    rw [Attribute.kind, decodeAt_priority hsize, ← hvalue,
      BigEndian.decode_encode_toNat (by decide) value, Attribute.ofPriority_toNat]
  | useCandidate =>
    have hvalue := Option.some.inj h
    rw [Attribute.kind, decodeAt, ← hvalue]
    rfl
  | tieBreaker role value =>
    have hvalue := Option.some.inj h
    have hsize : (m.value s).length = 8 := Attribute.length_wire h
    rw [Attribute.kind, decodeAt_tieBreaker hsize, ← hvalue,
      BigEndian.decode_encode_toNat (by decide) value, Attribute.ofTieBreaker_toNat]
  | fingerprint | integrity _ => cases h

open Builder

/-- An attribute that is added between framed runs, where there is room for it, comes back from the
finished message. -/
theorem decodeAt_of_added {messageClass : MessageClass} {number : Number} {id : TransactionId}
    {b : Builder} (hb : create messageClass number id = .ok b) {before after : List Operation}
    (hbefore : ∀ op ∈ before, op.framed) (hafter : ∀ op ∈ after, op.framed) {a : Attribute}
    (hcode : a.kind ≠ .errorCode) {bytes : List UInt8} (hwire : a.wire? id = some bytes)
    (key key' : Key)
    (hroom : (b.after before).length + (attributeHeaderSize + padded a.length) <
      headerSize + 2 ^ 16) {limit : Number}
    (hlimit : limit.Admits (b.additions (before ++ .add (a.draft key) :: after)).length) :
    ((b.after before).add (a.draft key)).result = .ok [] ∧
      ∃ data m s, (b.after (before ++ .add (a.draft key) :: after)).finish.result = .ok data ∧
        parse limit data = .ok m ∧ m.spans[(b.additions before).length]? = some s ∧
        s.type = a.kind.code ∧ m.value s = bytes ∧ m.decodeAt a.kind key' s = .ok a := by
  obtain ⟨method, -, rfl⟩ := create_eq_ok_iff.1 hb
  obtain ⟨w, rs, hsite, -, -⟩ :=
    (holds_fresh messageClass method id).after_framed (by simp) hbefore
  have hid : ((fresh messageClass method id).after before).transactionId = id :=
    hsite.transactionId
  rw [← hid] at hwire
  rw [hsite.length_eq] at hroom
  obtain ⟨-, -, -, hok, -⟩ := add_wire key hsite hwire (by omega)
  obtain ⟨data, m, start, r, rest, hfinish, hparse, hm, hspan, hwrites, hsplit⟩ :=
    exists_span_of_added messageClass method id hbefore hafter hok hlimit
  have hvalue : m.value (r.span start.length) = bytes :=
    (value_span hsplit).trans (hwrites.value_wire hwire)
  have htype : r.type = a.kind.code :=
    (BitVec.eq_of_toNat_eq (Int.ofNat_inj.1 (Number.integer.inj hwrites.type))).symm
  refine ⟨hok, data, m, _, hfinish, hparse, hspan, htype, hvalue, decodeAt_wire hcode ?_⟩
  rw [hvalue, hm, ← hid, hwire]

end Message

end Stun
