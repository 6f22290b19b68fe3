import Stun.Proofs.Entries
import Stun.Proofs.Formats

/-!
# Decoded values written again

An attribute that was decoded is written as it was received, byte for byte. No format admits two
values for one attribute, but for the first byte of an address, which is not looked at and is
written as zero. An error code is another matter: its unused bits and the mark of its reason are
lost.
-/
namespace Stun

namespace Endpoint

theorem encode_of_decode {kind : AddressKind} {value : List UInt8} {e : Endpoint}
    (h : decode kind value = .ok e) : e.encode = 0 :: value.tail := by
  -- The same holds in both families, once the rest of the value is known to be the address.
  have hencode (address : IpAddress) (hbytes : address.bytes = value.drop 4)
      (hfamily : value.getD 1 0 = address.family.code) (hsize : 4 ≤ value.length)
      (htext : ofText address.text (.integer (Bytes.field value 2 2)) = .ok e) :
      e.encode = 0 :: value.tail := by
    rw [ofText_field] at htext
    obtain rfl := Except.ok.inj htext
    match value, hsize with
    | first :: family :: high :: low :: rest, _ =>
      have hport : BigEndian.encode 2 (Bytes.field (first :: family :: high :: low :: rest) 2 2) =
          [high, low] := BigEndian.encode_decode [high, low]
      rw [encode, ← hfamily, hbytes, BitVec.toNat_ofNatLT, hport]
      rfl
  unfold decode at h
  dsimp only at h
  split at h
  next => cases h
  next hsize =>
    split at h
    next hv4 =>
      split at h
      next hlength =>
        have hdrop : (value.drop 4).length = 4 := by rw [List.length_drop, hlength]
        exact hencode (.v4 ⟨value.drop 4, hdrop⟩) rfl hv4 (by omega) h
      next => cases h
    next =>
      split at h
      next hv6 =>
        split at h
        next hlength =>
          have hdrop : (value.drop 4).length = 16 := by rw [List.length_drop, hlength]
          exact hencode (.v6 ⟨value.drop 4, hdrop⟩) rfl hv6 (by omega) h
        next => cases h
      next => cases h

theorem mask_zero_tail_mask (id : TransactionId) (value : List UInt8) :
    mask id (0 :: (mask id value).tail) = 0 :: value.tail := by
  match value with
  | [] => rfl
  | [_] => rfl
  | _ :: family :: rest => exact mask_mask id (0 :: family :: rest)

end Endpoint

theorem BoundedText.encode_of_decode {kind : TextKind} {value : List UInt8} {t : BoundedText kind}
    (h : decode kind value = .ok t) : Utf8.encode t.text = value := by
  unfold decode at h
  split at h
  next =>
    split at h
    next text htext =>
      unfold ofString at h
      split at h
      · cases h
        exact Utf8.encode_of_decode? htext
      · cases h
    next => cases h
  next => cases h

theorem Words.encode_of_decode? {value : List UInt8} {words : List (BitVec 16)}
    (h : decode? value = some words) : encode words = value := by
  fun_induction decode? value generalizing words with
  | case1 =>
    cases h
    rfl
  | case2 => cases h
  | case3 high low rest ih =>
    obtain ⟨tail, htail, rfl⟩ := Option.map_eq_some_iff.1 h
    rw [encode, List.flatMap_cons, BigEndian.encode_word]
    exact congrArg (high :: low :: ·) (ih htail)

theorem TypeList.encode_of_decode {value : List UInt8} {types : List (BitVec 16)}
    (h : decode value = .ok types) : Words.encode types = value := by
  unfold decode at h
  split at h
  next found hfound =>
    rw [ofNumbers_toNat] at h
    cases h
    exact Words.encode_of_decode? hfound
  next => cases h

theorem BigEndian.encode_of_size_eq_ok {value : List UInt8} {size n : Nat} {e : Error}
    (h : (if value.length = size then .ok (decode value) else .error e) = Except.ok n) :
    encode size n = value := by
  split at h
  next hsize =>
    cases h
    rw [← hsize, encode_decode]
  next => cases h

/-- The kinds whose attributes are made of their whole value. -/
def Kind.forwarded : Kind → Bool
  | .errorCode | .fingerprint | .integrity _ => false
  | _ => true

/-- The value that is written for a received one: an address starts with zero. -/
def Kind.rewritten (kind : Kind) (value : List UInt8) : List UInt8 :=
  match kind with
  | .address _ => 0 :: value.tail
  | _ => value

namespace Message

variable {m : Message} {s : Span} {kind : Kind} {key : Key} {a : Attribute}

theorem wire_of_decodeAt (hkind : kind.forwarded) (ha : m.decodeAt kind key s = .ok a) :
    a.wire? m.header.transactionId = some (kind.rewritten (m.value s)) := by
  cases kind with
  | address kind =>
    cases kind with
    | xorMapped =>
      obtain ⟨e, he, rfl⟩ := exists_of_map_eq_ok ha
      rw [Attribute.wire?, Endpoint.encode_of_decode he, Endpoint.mask_zero_tail_mask]
      rfl
    | mapped | alternateServer =>
      obtain ⟨e, he, rfl⟩ := exists_of_map_eq_ok ha
      exact congrArg some (Endpoint.encode_of_decode he)
  | text kind =>
    obtain ⟨t, ht, rfl⟩ := exists_of_map_eq_ok ha
    exact congrArg some (BoundedText.encode_of_decode ht)
  | unknownAttributes =>
    obtain ⟨types, htypes, rfl⟩ := exists_of_map_eq_ok ha
    exact congrArg some (TypeList.encode_of_decode htypes)
  | priority =>
    obtain ⟨n, hn, ha⟩ := exists_of_bind_eq_ok ha
    obtain ⟨word, hword, rfl⟩ := exists_of_map_eq_ok ha
    obtain rfl : n = word.toNat :=
      Int.ofNat_inj.1 (Number.integer.inj (Number.fit_eq_ok_iff.1 hword))
    exact congrArg some (BigEndian.encode_of_size_eq_ok hn)
  | useCandidate =>
    obtain ⟨n, hn, rfl⟩ := exists_of_map_eq_ok ha
    exact congrArg some (BigEndian.encode_of_size_eq_ok hn)
  | tieBreaker role =>
    obtain ⟨n, hn, ha⟩ := exists_of_bind_eq_ok ha
    obtain ⟨word, hword, rfl⟩ := exists_of_map_eq_ok ha
    obtain rfl : n = word.toNat := Int.ofNat_inj.1 (fitInt_eq_ok_iff.1 hword)
    exact congrArg some (BigEndian.encode_of_size_eq_ok hn)
  | errorCode | fingerprint | integrity _ => cases hkind

theorem length_of_decodeAt (hkind : kind.forwarded) (ha : m.decodeAt kind key s = .ok a) :
    a.length = (m.value s).length := by
  have hlength := Attribute.length_wire (wire_of_decodeAt hkind ha)
  cases kind with
  | address kind =>
    obtain ⟨e, rfl⟩ : ∃ e, a = .address kind e := by
      cases kind <;> obtain ⟨e, -, rfl⟩ := exists_of_map_eq_ok ha <;> exact ⟨e, rfl⟩
    rw [Kind.rewritten, List.length_cons, List.length_tail, Attribute.length, Endpoint.size]
      at hlength
    rw [Attribute.length, Endpoint.size]
    omega
  | _ => exact hlength.symm

end Message

theorem Attribute.wire?_congr {a : Attribute} {id id' : TransactionId}
    (h : a.kind = .address .xorMapped → id = id') : a.wire? id = a.wire? id' := by
  cases a with
  | address kind endpoint =>
    cases kind with
    | xorMapped => rw [h rfl]
    | mapped | alternateServer => rfl
  | _ => rfl

namespace Builder

variable {b : Builder}

/-- The message is extended by one attribute and declared to end with it; all else in it stays. -/
structure Gains (b b' : Builder) (type : BitVec 16) (value : List UInt8) : Prop where
  added : b'.bytes.drop b.length =
    BigEndian.encode 2 type.toNat ++ BigEndian.encode 2 value.length ++ value ++
      List.replicate (padded value.length - value.length) 0
  kept : ∀ i, i < 2 ∨ 4 ≤ i ∧ i < b.length → b'.bytes[i]? = b.bytes[i]?
  declared : b'.length = headerSize + b'.declaredLength.toNat

theorem Reachable.add_wire (hb : Reachable b) {a : Attribute} {bytes : List UInt8} (key : Key)
    (hwire : a.wire? b.transactionId = some bytes)
    (hroom : b.length + (attributeHeaderSize + padded bytes.length) < headerSize + 2 ^ 16) :
    (b.add (a.draft key)).result = .ok [] ∧
      b.Gains (b.add (a.draft key)).builder a.kind.code bytes := by
  obtain ⟨h, body, hholds⟩ := hb.exists_holds
  rw [hholds.length_eq, Attribute.length_wire hwire] at hroom
  obtain ⟨-, -, -, hok, -⟩ := Builder.add_wire key hholds hwire (by omega)
  rcases add_cases hholds (a.draft key) with ⟨r, w, notes, -, hwrites, hw, hout⟩ | ⟨e, herr, -⟩
  · have hvalue := hwrites.value_wire hwire
    have htype : a.kind.code = r.type :=
      BitVec.eq_of_toNat_eq (Int.ofNat_inj.1 (Number.integer.inj hwrites.type))
    refine ⟨hok, ?_, fun i hi => ?_, ?_⟩
    · rw [hholds.drop_bytes hout, Record.encode_of_zeros hwrites.padding, hvalue, htype]
    · have hinside : i < (h.encode ++ body).length := by
        rw [List.length_append, Header.length_encode, headerSize]
        rw [hholds.length_eq, headerSize] at hi
        omega
      rw [hout.bytes_eq, Header.getElem?_redeclare h w _ (by omega), hholds.bytes_eq,
        ← List.append_assoc, List.getElem?_append_left hinside]
    · rw [hout.length_eq, hout.declaredLength_eq, ← hw]
      rfl
  · rw [hok] at herr
    cases herr

/-- An attribute that was decoded can be added to any builder with room for the value it was decoded
from, an obscured address to those with the transaction id of its message. The very value is
written, byte for byte; only the first byte of an address becomes zero. -/
theorem decoded_is_written_again {m : Message} {s : Span} {kind : Kind} {key : Key} {a : Attribute}
    (hkind : kind.forwarded) (ha : m.decodeAt kind key s = .ok a) (hb : Reachable b)
    (hid : kind = .address .xorMapped → b.transactionId = m.header.transactionId)
    (hroom : b.length + (attributeHeaderSize + padded (m.value s).length) < headerSize + 2 ^ 16)
    (key' : Key) :
    a.length = (m.value s).length ∧ (b.add (a.draft key')).result = .ok [] ∧
      b.Gains (b.add (a.draft key')).builder kind.code (kind.rewritten (m.value s)) := by
  have hlength := Message.length_of_decodeAt hkind ha
  have hsame := Message.kind_of_decodeAt ha
  have hwire : a.wire? b.transactionId = some (kind.rewritten (m.value s)) := by
    rw [Attribute.wire?_congr fun h => hid (hsame.symm.trans h)]
    exact Message.wire_of_decodeAt hkind ha
  rw [← hlength, ← Attribute.length_wire hwire] at hroom
  obtain ⟨hok, hgains⟩ := hb.add_wire key' hwire hroom
  rw [hsame] at hgains
  exact ⟨hlength, hok, hgains⟩

/-- A name that starts with a byte order mark, padded with bytes that are not looked at. -/
def markedName : Record :=
  ⟨Kind.code (.text .username), [0xef, 0xbb, 0xbf, 0xc3, 0xa9], [1, 2, 3], by decide, rfl⟩

def markedNameMessage : Message :=
  let h : Header := ⟨.request, 1, 12, ⟨123⟩⟩
  ⟨(h.encode ++ [markedName].flatMap Record.encode).toArray, h, [markedName.span headerSize]⟩

theorem decoded_is_written_again_marked_name :
    let b := ((fresh .success 1 ⟨456⟩).perform (.append [9])).builder
    ∃ m s a, Message.parse (.integer 1) m.bytes = .ok m ∧ s ∈ m.spans ∧
      m.decodeAt (.text .username) ⟨[]⟩ s = .ok a ∧ a.length = 5 ∧
      (b.add (a.draft ⟨[]⟩)).result = .ok [] ∧
      (b.add (a.draft ⟨[]⟩)).builder.bytes.drop 21 =
        [0, 6, 0, 5, 0xef, 0xbb, 0xbf, 0xc3, 0xa9, 0, 0, 0] := by
  intro b
  have hp : Message.parse (.integer 1) markedNameMessage.bytes = .ok markedNameMessage :=
    Message.parse_encode rfl (Or.inr rfl)
  have hs : markedName.span headerSize ∈ markedNameMessage.spans := List.mem_singleton_self _
  have hvalue : markedNameMessage.value (markedName.span headerSize) = markedName.value := by decide
  have ha : markedNameMessage.decodeAt (.text .username) ⟨[]⟩ (markedName.span headerSize) =
      .ok (.text .username ⟨"\ufeffé", by decide⟩) :=
    Message.decodeAt_wire (a := .text .username ⟨"\ufeffé", by decide⟩) Kind.noConfusion
      (by rw [hvalue]; decide)
  have hb : Reachable b :=
    (Reachable.create (create_eq_ok_iff.2 ⟨1, rfl, rfl⟩)).perform (.append [9])
  obtain ⟨hlength, hok, hgains⟩ :=
    decoded_is_written_again rfl ha hb Kind.noConfusion (by rw [hvalue]; decide) ⟨[]⟩
  refine ⟨_, _, _, hp, hs, ha, hlength.trans (congrArg List.length hvalue), hok, ?_⟩
  have hadded := hgains.added
  rw [hvalue] at hadded
  exact hadded

end Builder

end Stun
