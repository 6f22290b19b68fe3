import Stun.Proofs.Content

/-!
# What a script appends

`Script.appended` collects the bytes that a script appends as it runs, those of nested attributes
with their headers and padding. Running extends the body of the builder by exactly these bytes and
leaves the rest of the message alone, the declared length apart; so an attribute is added whole, its
value being what its script appends, or it is not added at all.
-/
namespace Stun

theorem Record.encode_of_zeros {r : Record}
    (hr : r.padding = List.replicate r.padding.length 0) :
    r.encode = BigEndian.encode 2 r.type.toNat ++ BigEndian.encode 2 r.value.length ++ r.value ++
      List.replicate (padded r.value.length - r.value.length) 0 := by
  have hlen : r.padding.length = padded r.value.length - r.value.length := by
    have := r.length_padding
    omega
  rw [encode, hr, hlen]

namespace Script

def appended : Script → Builder → List UInt8
  | .done, _ => []
  | .append bytes next, b => bytes ++ next.appended (b.append bytes)
  | .setDeclaredLength length next, b =>
    match length.fit 16 with
    | .error _ => []
    | .ok length => next.appended (b.declare length)
  | .add type length body next, b =>
    match Frame.ofNumbers b.length type length, (b.frame type length body.run).result with
    | .ok f, .ok _ =>
      BigEndian.encode 2 f.type.toNat ++ BigEndian.encode 2 f.length.toNat ++
        body.appended (b.enter f) ++ List.replicate (padded f.length.toNat - f.length.toNat) 0 ++
        next.appended (b.frame type length body.run).builder
    | _, _ => []
  | .appendMasked endpoint next, b =>
    let bytes := Endpoint.mask b.transactionId endpoint.encode
    bytes ++ next.appended (b.append bytes)
  | .sign algorithm key next, b =>
    match (Number.integer ((b.length + algorithm.size : Nat) - headerSize)).fit 16 with
    | .error _ => []
    | .ok length =>
      let tag := key.hmac algorithm (b.declare length).covered
      tag ++ next.appended ((b.declare length).append tag)
  | .appendFingerprint next, b =>
    let tag := BigEndian.encode 4 (fingerprint b.covered).toNat
    tag ++ next.appended (b.append tag)
  | .note next, b => next.appended b
  | .fail _, _ => []

theorem run_append_step {next : Script} (ih : Builder.Appends next.run next.appended)
    {b : Builder} {h : Header} {body : List UInt8} (hb : b.Holds h body) (bytes : List UInt8) :
    ∃ w, (next.run (b.append bytes)).builder.Holds (h.redeclare w)
      (body ++ (bytes ++ next.appended (b.append bytes))) := by
  rw [← List.append_assoc]
  exact ih (hb.append bytes)

theorem run_appends (s : Script) : Builder.Appends s.run s.appended := by
  induction s with
  | done =>
    intro b h body hb
    exact ⟨h.length, by simpa [run, appended] using hb⟩
  | append bytes next ih =>
    intro b h body hb
    exact run_append_step ih hb bytes
  | setDeclaredLength length next ih =>
    intro b h body hb
    simp only [run, appended]
    cases length.fit 16 with
    | error e => exact ⟨h.length, by simpa using hb⟩
    | ok w =>
      obtain ⟨w', hout⟩ := ih (hb.declare w)
      exact ⟨w', hout⟩
  | add type length inner next ihInner ihNext =>
    intro b h body hb
    simp only [run, appended]
    rcases Builder.frame_cases ihInner hb type length with
      ⟨f, r, a, hf, -, hok, htype, hvalue, hlength, hpadding, hout⟩ | ⟨e, herr, hout⟩
    · obtain ⟨w, hnext⟩ := ihNext hout
      rw [List.append_assoc, Record.encode_of_zeros hpadding, htype, hlength, hvalue] at hnext
      simp only [hf, hok]
      exact ⟨w, hnext⟩
    · simp only [herr]
      refine ⟨h.length, ?_⟩
      cases Frame.ofNumbers b.length type length <;> simpa using hout
  | appendMasked endpoint next ih =>
    intro b h body hb
    exact run_append_step ih hb _
  | sign algorithm key next ih =>
    intro b h body hb
    simp only [run, appended]
    cases (Number.integer ((b.length + algorithm.size : Nat) - headerSize)).fit 16 with
    | error e => exact ⟨h.length, by simpa using hb⟩
    | ok w =>
      obtain ⟨w', hout⟩ := run_append_step ih (hb.declare w) _
      exact ⟨w', hout⟩
  | appendFingerprint next ih =>
    intro b h body hb
    exact run_append_step ih hb _
  | note next ih => exact fun b h body hb => ih hb
  | fail error =>
    intro b h body hb
    exact ⟨h.length, by simpa [run, appended] using hb⟩

end Script

/-- The bytes that the script of an attribute appends when it is added to a builder. -/
def Draft.valueOn (d : Draft) (b : Builder) : List UInt8 :=
  match Frame.ofNumbers b.length d.type d.length with
  | .error _ => []
  | .ok f => d.script.appended (b.enter f)

/-- The record is the attribute as its draft announces it and its script writes it. -/
structure Record.Writes (r : Record) (d : Draft) (b : Builder) : Prop where
  type : d.type = .integer r.type.toNat
  length : d.length = .integer r.value.length
  value : r.value = d.valueOn b
  padding : r.padding = List.replicate r.padding.length 0

theorem Record.Writes.exists_frame {r : Record} {d : Draft} {b : Builder} (hr : r.Writes d b)
    (hne : r.value ≠ []) :
    ∃ f, Frame.ofNumbers b.length d.type d.length = .ok f ∧
      r.value = d.script.appended (b.enter f) := by
  have hvalue := hr.value
  cases hf : Frame.ofNumbers b.length d.type d.length with
  | error e =>
    rw [Draft.valueOn, hf] at hvalue
    exact absurd hvalue hne
  | ok f =>
    rw [Draft.valueOn, hf] at hvalue
    exact ⟨f, rfl, hvalue⟩

theorem Record.Writes.exists_entered {r : Record} {d : Draft} {b : Builder} {h : Header}
    {body : List UInt8} (hr : r.Writes d b) (hne : r.value ≠ []) (hb : b.Holds h body) :
    ∃ f : Frame, f.declaredLength.toNat = body.length + r.size ∧
      r.value = d.script.appended (b.enter f) ∧
      (b.enter f).covered = (h.redeclare f.declaredLength).encode ++ body := by
  obtain ⟨f, hf, hvalue⟩ := hr.exists_frame hne
  obtain ⟨hlength, hstop, -⟩ := Frame.ofNumbers_eq_ok_iff.1 hf
  have hframe : f.length.toNat = r.value.length :=
    Int.ofNat_inj.1 (Number.integer.inj (hlength.symm.trans hr.length))
  refine ⟨f, ?_, hvalue, (hb.enter f).covered (Builder.length_opening f)⟩
  rw [hb.length_eq, hframe, attributeHeaderSize] at hstop
  rw [Record.size]
  omega

namespace Builder

variable {b : Builder} {h : Header} {body : List UInt8}

theorem add_cases (hb : b.Holds h body) (d : Draft) :
    (∃ (r : Record) (w : BitVec 16) (notes : List Snapshot), (b.add d).result = .ok notes ∧
      r.Writes d b ∧ w.toNat = (body ++ r.encode).length ∧
      (b.add d).builder.Holds (h.redeclare w) (body ++ r.encode)) ∨
    ∃ e, (b.add d).result = .error e ∧ (b.add d).builder.Holds h body := by
  rcases frame_cases d.script.run_appends hb d.type d.length with
    ⟨f, r, notes, hf, -, hok, htype, hvalue, hlength, hpadding, hout⟩ | hfail
  · obtain ⟨hl, hstop, ht⟩ := Frame.ofNumbers_eq_ok_iff.1 hf
    refine Or.inl ⟨r, f.declaredLength, notes, hok, ⟨?_, ?_, ?_, hpadding⟩, ?_, hout⟩
    · rw [htype, ht]
    · rw [hlength, hl]
    · rw [Draft.valueOn, hf, hvalue]
    · rw [hb.length_eq, ← hlength] at hstop
      rw [List.length_append, Record.length_encode, Record.size]
      simp only [attributeHeaderSize] at hstop
      omega
  · exact Or.inr hfail

theorem add_eq_ok (hb : b.Holds h body) {d : Draft} {f : Frame} {notes : List Snapshot}
    (hf : Frame.ofNumbers b.length d.type d.length = .ok f)
    (hrun : (d.script.run (b.enter f)).result = .ok notes)
    (hlen : (d.script.appended (b.enter f)).length = f.length.toNat) :
    (b.add d).result = .ok notes :=
  (frame_eq_ok_iff d.script.run_appends hb).2 ⟨f, hf, hrun, hlen⟩

/-- An attribute can be added as long as the message has room for it, when its script appends what
the attribute announces under the header that declares it. -/
theorem add_attribute (hb : b.Holds h body) (a : Attribute) (key : Key)
    (hroom : body.length + (attributeHeaderSize + padded a.length) < 2 ^ 16)
    (hscript : ∀ f : Frame,
      f.declaredLength.toNat = body.length + (attributeHeaderSize + padded a.length) →
      ((a.script key).run (b.enter f)).result = .ok [] ∧
      ((a.script key).appended (b.enter f)).length = a.length) :
    ∃ (w : BitVec 16) (body' : List UInt8),
      body'.length = body.length + (attributeHeaderSize + padded a.length) ∧
      (b.add (a.draft key)).result = .ok [] ∧
      (b.add (a.draft key)).builder.Holds (h.redeclare w) body' := by
  have hpadded := le_padded a.length
  obtain ⟨w, hw⟩ : ∃ w : BitVec 16,
      w.toNat = body.length + (attributeHeaderSize + padded a.length) :=
    ⟨BitVec.ofNatLT _ hroom, rfl⟩
  obtain ⟨l, hl⟩ : ∃ l : BitVec 16, l.toNat = a.length := ⟨BitVec.ofNatLT a.length (by omega), rfl⟩
  have hf : Frame.ofNumbers b.length (.integer a.kind.code.toNat) (.integer a.length) =
      .ok ⟨a.kind.code, l, w⟩ := by
    refine Frame.ofNumbers_eq_ok_iff.2 ⟨by rw [hl], ?_, rfl⟩
    rw [hl, hw, hb.length_eq]
    omega
  obtain ⟨hrun, hlength⟩ := hscript ⟨a.kind.code, l, w⟩ hw
  have hok : (b.add (a.draft key)).result = .ok [] := add_eq_ok hb hf hrun (hlength.trans hl.symm)
  rcases add_cases hb (a.draft key) with ⟨r, w', notes, -, hwrites, -, hout⟩ | ⟨e, herr, -⟩
  · refine ⟨w', _, ?_, hok, hout⟩
    rw [List.length_append, Record.length_encode, Record.size,
      ← Int.ofNat_inj.1 (Number.integer.inj hwrites.length)]
    rfl
  · rw [hok] at herr
    cases herr

theorem Holds.setDeclaredLength (hb : b.Holds h body) (n : Number) :
    ∃ w, (b.setDeclaredLength n).builder.Holds (h.redeclare w) body := by
  unfold Builder.setDeclaredLength
  cases n.fit 16 with
  | error e => exact ⟨h.length, hb⟩
  | ok w => exact ⟨w, hb.declare w⟩

theorem Holds.finish (hb : b.Holds h body) {w : BitVec 16} (hw : w.toNat = body.length) :
    b.finish.result = .ok ((h.redeclare w).encode ++ body) := by
  have hn : (Number.integer ((b.length : Int) - headerSize)).fit 16 = .ok w := by
    rw [Number.fit_eq_ok_iff, hb.length_eq, hw]
    congr 1
    omega
  simp only [Builder.finish, Builder.setDeclaredLength, hn]
  rw [(hb.declare w).bytes_eq]

end Builder

end Stun
