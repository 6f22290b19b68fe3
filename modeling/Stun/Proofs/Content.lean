import Stun.Builder
import Stun.Proofs.HeaderCodec
import Stun.Proofs.Records

/-!
# The content of a builder

What a builder shows is a header and a body behind it. `Builder.Holds` says which, and each
operation has one lemma that says what it does to the two: appending extends the body, declaring a
length changes the header, restoring cuts the body. A frame is a step of its own: with a value
writer that only appends, it either adds one whole attribute to the body or nothing.
-/
namespace Stun

theorem ok_bind {ε α β : Type} (a : α) (f : α → Except ε β) : (Except.ok a >>= f) = f a := rfl

theorem error_bind {ε α β : Type} (e : ε) (f : α → Except ε β) :
    (Except.error e >>= f) = .error e := rfl

namespace Builder

/-- The content is the header `h` with `body` behind it. -/
structure Holds (b : Builder) (h : Header) (body : List UInt8) : Prop where
  messageClass : b.messageClass = h.messageClass
  method : b.method = h.method
  transactionId : b.transactionId = h.transactionId
  bytes_eq : b.bytes = h.encode ++ body

namespace Holds

variable {b : Builder} {h : Header} {body : List UInt8}

theorem length_eq (hb : b.Holds h body) : b.length = headerSize + body.length := by
  have hlen := congrArg List.length hb.bytes_eq
  rwa [bytes, Buffer.length_toList, List.length_append, Header.length_encode] at hlen

theorem declaredLength_eq (hb : b.Holds h body) : b.declaredLength = h.length := by
  have hbyte (i : Nat) : b.buffer.byteAt i = (h.encode ++ body).getD i 0 := by
    rw [Buffer.byteAt_eq]
    exact congrArg (·.getD i 0) hb.bytes_eq
  have hfield : [(h.encode ++ body).getD 2 0, (h.encode ++ body).getD 3 0] =
      BigEndian.encode 2 h.length.toNat := by
    simp [Header.encode, BigEndian.encode_two]
  rw [declaredLength, hbyte, hbyte, hfield, BigEndian.decode_encode_two h.length.isLt]
  simp

theorem append (hb : b.Holds h body) (bytes : List UInt8) :
    (b.append bytes).Holds h (body ++ bytes) := by
  refine ⟨hb.messageClass, hb.method, hb.transactionId, ?_⟩
  change (b.buffer.append bytes).toList = _
  rw [Buffer.toList_append, ← List.append_assoc]
  exact congrArg (· ++ bytes) hb.bytes_eq

theorem declare (hb : b.Holds h body) (w : BitVec 16) : (b.declare w).Holds (h.redeclare w) body := by
  refine ⟨hb.messageClass, hb.method, hb.transactionId, ?_⟩
  change (b.buffer.patch 2 w).toList = _
  rw [Buffer.toList_patch, ← Header.overlay_encode]
  exact congrArg (Bytes.overlay · 2 _) hb.bytes_eq

theorem restore {bytes : List UInt8} (hb : b.Holds h (body ++ bytes)) (w : BitVec 16) :
    (b.restore (headerSize + body.length) w).Holds (h.redeclare w) body := by
  refine ⟨hb.messageClass, hb.method, hb.transactionId, ?_⟩
  change ((b.buffer.truncate (headerSize + body.length)).patch 2 w).toList = _
  have hcut : b.buffer.toList.take (headerSize + body.length) = h.encode ++ body := by
    have hbytes : b.buffer.toList = h.encode ++ body ++ bytes := by
      rw [List.append_assoc]
      exact hb.bytes_eq
    rw [hbytes, ← Header.length_encode h, ← List.length_append, List.take_left]
  rw [Buffer.toList_patch, Buffer.toList_truncate, hcut, Header.overlay_encode]

/-- What an attribute covers does not depend on its own header. -/
theorem covered {opening : List UInt8} (hb : b.Holds h (body ++ opening))
    (hopening : opening.length = attributeHeaderSize) : b.covered = h.encode ++ body := by
  have hlen : b.length - attributeHeaderSize = (h.encode ++ body).length := by
    rw [hb.length_eq, ← hopening, List.length_append, List.length_append, Header.length_encode]
    omega
  rw [Builder.covered, hb.bytes_eq, hlen, ← List.append_assoc, List.take_left]

end Holds

def fresh (messageClass : MessageClass) (method : Method) (id : TransactionId) : Builder :=
  ⟨messageClass, method, id, (Buffer.empty 128).append (Header.encode ⟨messageClass, method, 0, id⟩)⟩

theorem holds_fresh (messageClass : MessageClass) (method : Method) (id : TransactionId) :
    (fresh messageClass method id).Holds ⟨messageClass, method, 0, id⟩ [] := by
  refine ⟨rfl, rfl, rfl, ?_⟩
  change ((Buffer.empty 128).append _).toList = _
  rw [Buffer.toList_append]
  simp [Buffer.empty, Buffer.toList]

theorem create_eq_ok_iff {messageClass : MessageClass} {number : Number} {id : TransactionId}
    {b : Builder} :
    create messageClass number id = .ok b ↔
      ∃ method : Method, number = .integer method.toNat ∧ b = fresh messageClass method id := by
  have hzero : (Number.integer 0).fit 16 = .ok (0 : BitVec 16) := rfl
  constructor
  · intro hb
    unfold create Header.ofNumbers at hb
    cases hm : number.fit 12 with
    | error e => rw [hm, error_bind, error_bind] at hb; cases hb
    | ok method =>
      rw [hm, ok_bind, hzero, ok_bind] at hb
      cases hb
      exact ⟨method, Number.fit_eq_ok_iff.1 hm, rfl⟩
  · rintro ⟨method, rfl, rfl⟩
    unfold create Header.ofNumbers
    rw [Number.fit_toNat, ok_bind, hzero, ok_bind]
    rfl

/-- The writer extends the body by `added`, whatever it does to the declared length. -/
def Appends {α : Type} (writer : Builder → Outcome α) (added : Builder → List UInt8) : Prop :=
  ∀ ⦃b h body⦄, Holds b h body →
    ∃ w, (writer b).builder.Holds (h.redeclare w) (body ++ added b)

theorem length_opening (f : Frame) :
    (BigEndian.encode 2 f.type.toNat ++ BigEndian.encode 2 f.length.toNat).length =
      attributeHeaderSize := by
  rw [List.length_append, BigEndian.length_encode, BigEndian.length_encode]
  rfl

theorem Holds.enter {b : Builder} {h : Header} {body : List UInt8} (hb : b.Holds h body)
    (f : Frame) :
    (b.enter f).Holds (h.redeclare f.declaredLength)
      (body ++ (BigEndian.encode 2 f.type.toNat ++ BigEndian.encode 2 f.length.toNat)) :=
  (hb.append _).declare f.declaredLength

theorem Holds.leave {b : Builder} {h : Header} {body : List UInt8} (hb : b.Holds h body)
    (f : Frame) :
    (b.leave f).Holds (h.redeclare f.declaredLength)
      (body ++ List.replicate (padded f.length.toNat - f.length.toNat) 0) :=
  (hb.append _).declare f.declaredLength

end Builder

theorem Frame.ofNumbers_eq_ok_iff {start : Nat} {type length : Number} {f : Frame} :
    Frame.ofNumbers start type length = .ok f ↔
      length = .integer f.length.toNat ∧
        start + attributeHeaderSize + padded f.length.toNat = headerSize + f.declaredLength.toNat ∧
        type = .integer f.type.toNat := by
  constructor
  · intro hf
    unfold ofNumbers at hf
    cases hl : length.fit 16 with
    | error e => rw [hl, error_bind] at hf; cases hf
    | ok l =>
      rw [hl, ok_bind] at hf
      dsimp only at hf
      cases hd : (Number.integer (((start + attributeHeaderSize + padded l.toNat : Nat) : Int) -
          headerSize)).fit 16 with
      | error e => rw [hd, error_bind] at hf; cases hf
      | ok d =>
        rw [hd, ok_bind] at hf
        cases ht : type.fit 16 with
        | error e => rw [ht, error_bind] at hf; cases hf
        | ok t =>
          rw [ht, ok_bind] at hf
          cases hf
          have hstop := Number.fit_eq_ok_iff.1 hd
          rw [Number.integer.injEq] at hstop
          dsimp only
          exact ⟨Number.fit_eq_ok_iff.1 hl, by omega, Number.fit_eq_ok_iff.1 ht⟩
  · rintro ⟨rfl, hstop, rfl⟩
    have hd : ((start + attributeHeaderSize + padded f.length.toNat : Nat) : Int) - headerSize =
        f.declaredLength.toNat := by omega
    unfold ofNumbers
    rw [Number.fit_toNat, ok_bind]
    dsimp only
    rw [hd, Number.fit_toNat, ok_bind, Number.fit_toNat, ok_bind]
    rfl

namespace Builder

theorem Appends.written {α : Type} {writer : Builder → Outcome α}
    {added : Builder → List UInt8} (hw : Appends writer added) {b : Builder} {h : Header}
    {body : List UInt8} (hb : b.Holds h body) (f : Frame) :
    (writer (b.enter f)).builder.length - (b.length + attributeHeaderSize) =
      (added (b.enter f)).length := by
  obtain ⟨w, hout⟩ := hw (hb.enter f)
  rw [hout.length_eq, hb.length_eq]
  simp only [List.length_append, BigEndian.length_encode, attributeHeaderSize]
  omega

/-- All that a frame can do: one whole attribute is added, or nothing. -/
theorem frame_cases {α : Type} {writer : Builder → Outcome α} {added : Builder → List UInt8}
    (hw : Appends writer added) {b : Builder} {h : Header} {body : List UInt8}
    (hb : b.Holds h body) (type length : Number) :
    (∃ (f : Frame) (r : Record) (a : α), Frame.ofNumbers b.length type length = .ok f ∧
      (writer (b.enter f)).result = .ok a ∧ (b.frame type length writer).result = .ok a ∧
      r.type = f.type ∧ r.value = added (b.enter f) ∧ r.value.length = f.length.toNat ∧
      r.padding = List.replicate r.padding.length 0 ∧
      (b.frame type length writer).builder.Holds (h.redeclare f.declaredLength)
        (body ++ r.encode)) ∨
    ∃ e, (b.frame type length writer).result = .error e ∧
      (b.frame type length writer).builder.Holds h body := by
  cases hf : Frame.ofNumbers b.length type length with
  | error e =>
    refine Or.inr ⟨e, ?_⟩
    rw [frame, hf]
    exact ⟨rfl, hb⟩
  | ok f =>
    obtain ⟨w, hout⟩ := hw (hb.enter f)
    -- Whatever the writer declared, the length from before the frame is put back.
    have hrestore : ((writer (b.enter f)).builder.restore b.length b.declaredLength).Holds h body := by
      rw [List.append_assoc] at hout
      have hback := hout.restore b.declaredLength
      rw [Header.redeclare_redeclare, Header.redeclare_redeclare, hb.declaredLength_eq,
        Header.redeclare_self] at hback
      rwa [hb.length_eq, hb.declaredLength_eq]
    cases ho : (writer (b.enter f)).result with
    | error e =>
      refine Or.inr ⟨e, ?_⟩
      simp only [frame, hf, ho]
      exact ⟨trivial, hrestore⟩
    | ok a =>
      have hwritten := hw.written hb f
      by_cases hlen : (added (b.enter f)).length = f.length.toNat
      · have hlt := f.length.isLt
        have hle := le_padded f.length.toNat
        refine Or.inl ⟨f, ⟨f.type, added (b.enter f),
          List.replicate (padded f.length.toNat - f.length.toNat) 0, by omega,
          by rw [List.length_replicate, hlen]; omega⟩, a, rfl, ho, ?_, rfl, rfl, hlen, ?_, ?_⟩
        · simp only [frame, hf, ho, hwritten, if_pos hlen]
        · simp
        · simp only [frame, hf, ho, hwritten, if_pos hlen]
          simpa [Record.encode, hlen] using hout.leave f
      · refine Or.inr ⟨.encode (.valueSize f.type (added (b.enter f)).length f.length.toNat), ?_⟩
        simp only [frame, hf, ho, hwritten, if_neg hlen]
        exact ⟨trivial, hrestore⟩

/-- A frame succeeds if its numbers do and its writer appends what was announced. -/
theorem frame_eq_ok_iff {α : Type} {writer : Builder → Outcome α}
    {added : Builder → List UInt8} (hw : Appends writer added) {b : Builder} {h : Header}
    {body : List UInt8} (hb : b.Holds h body) {type length : Number} {a : α} :
    (b.frame type length writer).result = .ok a ↔
      ∃ f, Frame.ofNumbers b.length type length = .ok f ∧ (writer (b.enter f)).result = .ok a ∧
        (added (b.enter f)).length = f.length.toNat := by
  constructor
  · intro hok
    rcases frame_cases hw hb type length with
      ⟨f, r, a', hf, hrun, hok', -, hvalue, hlength, -⟩ | ⟨e, herr, -⟩
    · obtain rfl : a' = a := Except.ok.inj (hok'.symm.trans hok)
      exact ⟨f, hf, hrun, hvalue ▸ hlength⟩
    · rw [hok] at herr
      cases herr
  · rintro ⟨f, hf, hrun, hlen⟩
    have hwritten := hw.written hb f
    rw [hlen] at hwritten
    simp only [frame, hf, hrun, if_pos hwritten]

end Builder

end Stun
