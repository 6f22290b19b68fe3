import Stun.Proofs.Entries
import Stun.Proofs.Fingerprints
import Stun.Proofs.Signing
import Stun.Proofs.ValueCodec

/-!
# Attributes that fit

Two lengths of an attribute have to fit sixteen bits: that of its value, and the one that the header
declares once the attribute is there. For the attributes of this library nothing else matters, since
their scripts write what they announce wherever they are entered. Any other attribute needs a type
that fits as well, and a program that completes and appends what was announced. What is added is the
same in both cases: the attribute behind the old message, under a header that declares it.
-/
namespace Stun

namespace Builder

/-- What the header declares once an attribute with a value of `n` bytes is there. -/
def lengthWith (b : Builder) (n : Nat) : Int :=
  (b.length + attributeHeaderSize + padded n : Nat) - headerSize

/-- Both lengths of an attribute with a value of `n` bytes fit sixteen bits. -/
def Fits (b : Builder) (n : Nat) : Prop := n ≤ 65535 ∧ b.lengthWith n ≤ 65535

def misfit (b : Builder) (n : Nat) : Int := if n ≤ 65535 then b.lengthWith n else n

def extended (b : Builder) (type : BitVec 16) (value : List UInt8) : List UInt8 :=
  b.bytes.take 2 ++ BigEndian.encode 2 (b.lengthWith value.length).toNat ++ b.bytes.drop 4 ++
    (BigEndian.encode 2 type.toNat ++ BigEndian.encode 2 value.length ++ value ++
      List.replicate (padded value.length - value.length) 0)

def frameFor (b : Builder) (type : BitVec 16) (n : Nat) : Frame :=
  ⟨type, BitVec.ofNat 16 n, BitVec.ofNat 16 (b.lengthWith n).toNat⟩

variable {α : Type} {b : Builder} {h : Header} {body : List UInt8}

theorem Holds.lengthWith_eq (hb : b.Holds h body) (n : Nat) :
    b.lengthWith n = (body.length + (attributeHeaderSize + padded n) : Nat) := by
  rw [lengthWith, hb.length_eq]
  omega

theorem toNat_length_frameFor {n : Nat} (hn : b.Fits n) (type : BitVec 16) :
    (b.frameFor type n).length.toNat = n := by
  have hvalue := hn.1
  rw [frameFor, BitVec.toNat_ofNat]
  omega

theorem toNat_declaredLength_frameFor (hb : b.Holds h body) {n : Nat} (hn : b.Fits n)
    (type : BitVec 16) : ((b.frameFor type n).declaredLength.toNat : Int) = b.lengthWith n := by
  have hmessage := hn.2
  have hlength := hb.lengthWith_eq n
  rw [frameFor, BitVec.toNat_ofNat]
  omega

theorem ofNumbers_eq_ok_iff_fits (hb : b.Holds h body) {type length : Number} {f : Frame} :
    Frame.ofNumbers b.length type length = .ok f ↔
      ∃ (t : BitVec 16) (n : Nat), type = .integer t.toNat ∧ length = .integer n ∧ b.Fits n ∧
        f = b.frameFor t n := by
  constructor
  · intro hf
    obtain ⟨hlength, hstop, htype⟩ := Frame.ofNumbers_eq_ok_iff.1 hf
    have hvalue := f.length.isLt
    have hmessage := f.declaredLength.isLt
    have hwith : b.lengthWith f.length.toNat = f.declaredLength.toNat := by
      rw [lengthWith, hstop]
      omega
    have hfits : b.Fits f.length.toNat := ⟨by omega, by omega⟩
    refine ⟨f.type, f.length.toNat, htype, hlength, hfits, ?_⟩
    rw [frameFor, hwith, Int.toNat_natCast, BitVec.ofNat_toNat, BitVec.ofNat_toNat,
      BitVec.setWidth_eq, BitVec.setWidth_eq]
  · rintro ⟨t, n, rfl, rfl, hn, rfl⟩
    have hlength := toNat_length_frameFor hn t
    have hdeclared := toNat_declaredLength_frameFor hb hn t
    rw [hb.lengthWith_eq] at hdeclared
    refine Frame.ofNumbers_eq_ok_iff.2 ⟨by rw [hlength], ?_, rfl⟩
    rw [hlength, hb.length_eq]
    omega

/-- The length of the value is looked at before that of the message, and the type after both. -/
theorem ofNumbers_of_not_fits {n : Nat} (hn : ¬ b.Fits n) (type : Number) :
    Frame.ofNumbers b.length type (.integer n) =
      .error (.conversion (.number (.integer (b.misfit n))) 16) := by
  by_cases hvalue : n ≤ 65535
  · have hfit : (Number.integer n).fit 16 = .ok (BitVec.ofNatLT n (Nat.lt_succ_of_le hvalue)) :=
      Number.fit_eq_ok_iff.2 rfl
    have hwide : ¬ (Number.integer (b.lengthWith n)).Within 16 := by
      rintro ⟨k, hk, hlt⟩
      refine hn ⟨hvalue, ?_⟩
      rw [Number.integer.inj hk]
      omega
    rw [Frame.ofNumbers, hfit, ok_bind, misfit, if_pos hvalue]
    dsimp only
    rw [BitVec.toNat_ofNatLT, ← lengthWith, Number.fit_of_not_within hwide]
    rfl
  · have hwide : ¬ (Number.integer n).Within 16 := by
      rintro ⟨k, hk, hlt⟩
      have hkn := Number.integer.inj hk
      omega
    rw [Frame.ofNumbers, Number.fit_of_not_within hwide, misfit, if_neg hvalue]
    rfl

theorem frame_of_not_fits {n : Nat} (hn : ¬ b.Fits n) (type : Number)
    (writer : Builder → Outcome α) :
    (b.frame type (.integer n) writer).result =
      .error (.conversion (.number (.integer (b.misfit n))) 16) := by
  rw [frame, ofNumbers_of_not_fits hn]

theorem bytes_of_frame_eq_ok {writer : Builder → Outcome α} {added : Builder → List UInt8}
    (hw : Appends writer added) (hb : b.Holds h body) {type length : Number} {a : α} {f : Frame}
    (hf : Frame.ofNumbers b.length type length = .ok f)
    (hok : (b.frame type length writer).result = .ok a) :
    (b.frame type length writer).builder.bytes = b.extended f.type (added (b.enter f)) := by
  rcases frame_cases hw hb type length with
    ⟨f', r, a', hf', -, -, htype, hvalue, hlength, hpadding, hout⟩ | ⟨e, herr, -⟩
  · obtain rfl : f' = f := Except.ok.inj (hf'.symm.trans hf)
    obtain ⟨t, n, -, -, hn, rfl⟩ := (ofNumbers_eq_ok_iff_fits hb).1 hf
    have hdeclared := toNat_declaredLength_frameFor hb hn t
    rw [toNat_length_frameFor hn] at hlength
    rw [← hvalue, ← htype, extended, hlength, ← hdeclared, Int.toNat_natCast, hb.bytes_eq,
      Header.take_encode_drop, hout.bytes_eq, Record.encode_of_zeros hpadding, hlength,
      ← List.append_assoc (h.redeclare _).encode]
  · rw [hok] at herr
    cases herr

theorem add_of_fits (hb : b.Holds h body) (a : Attribute) (key : Key) (ha : b.Fits a.length) :
    (b.add (a.draft key)).result = .ok [] := by
  have hroom : body.length + (attributeHeaderSize + padded a.length) < 2 ^ 16 := by
    have hmessage := ha.2
    rw [hb.lengthWith_eq] at hmessage
    omega
  cases hwire : a.wire? b.transactionId with
  | some bytes =>
    obtain ⟨-, -, -, hok, -⟩ := add_wire key hb hwire hroom
    exact hok
  | none =>
    cases a with
    | fingerprint =>
      obtain ⟨-, -, -, hok, -⟩ := add_fingerprint key hb hroom
      exact hok
    | integrity algorithm =>
      refine add_integrity algorithm key hb ?_
      rwa [← algorithm.padded_size]
    | address kind endpoint => cases kind <;> cases hwire
    | _ => cases hwire

theorem bytes_add_of_fits (hb : b.Holds h body) (a : Attribute) (key : Key)
    (ha : b.Fits a.length) :
    ((a.draft key).valueOn b).length = a.length ∧
      (b.add (a.draft key)).builder.bytes =
        b.extended a.kind.code ((a.draft key).valueOn b) := by
  have hok := add_of_fits hb a key ha
  have happends := (a.draft key).script.run_appends
  obtain ⟨f, hf, -, hlength⟩ := (frame_eq_ok_iff happends hb).1 hok
  obtain ⟨hannounced, -, htype⟩ := Frame.ofNumbers_eq_ok_iff.1 hf
  have hcode : a.kind.code = f.type :=
    BitVec.eq_of_toNat_eq (Int.ofNat_inj.1 (Number.integer.inj htype))
  have hvalue : (a.draft key).valueOn b = (a.draft key).script.appended (b.enter f) := by
    rw [Draft.valueOn, hf]
  rw [hvalue, hcode]
  refine ⟨?_, bytes_of_frame_eq_ok happends hb hf hok⟩
  rw [hlength]
  exact (Int.ofNat_inj.1 (Number.integer.inj hannounced)).symm

/-- The call's numbers fit, and its program, started behind the header of the attribute, completes
and has appended the value, as many bytes as the call announces. -/
structure Writes (b : Builder) (c : Call) (type : BitVec 16) (value : List UInt8) : Prop where
  type_eq : c.type = .integer type.toNat
  length_eq : c.length = .integer value.length
  fits : b.Fits value.length
  completes : (c.program.run (b.enter (b.frameFor type value.length))).result = .ok ()
  appended : (c.program.run (b.enter (b.frameFor type value.length))).builder.bytes.drop
    (b.enter (b.frameFor type value.length)).length = value

theorem Writes.ofNumbers (hb : b.Holds h body) {c : Call} {type : BitVec 16} {value : List UInt8}
    (hc : b.Writes c type value) :
    Frame.ofNumbers b.length c.type c.length = .ok (b.frameFor type value.length) :=
  (ofNumbers_eq_ok_iff_fits hb).2 ⟨type, value.length, hc.type_eq, hc.length_eq, hc.fits, rfl⟩

theorem frame_call_eq_ok_iff (hb : b.Holds h body) (c : Call) :
    (b.frame c.type c.length c.program.run).result = .ok () ↔
      ∃ type value, b.Writes c type value := by
  rw [frame_eq_ok_iff (appends_drop c.program.run_extends) hb]
  constructor
  · rintro ⟨f, hf, hrun, hlength⟩
    obtain ⟨t, n, htype, hannounced, hn, rfl⟩ := (ofNumbers_eq_ok_iff_fits hb).1 hf
    obtain ⟨value, hvalue⟩ : ∃ value, value = (c.program.run
        (b.enter (b.frameFor t n))).builder.bytes.drop (b.enter (b.frameFor t n)).length := ⟨_, rfl⟩
    rw [toNat_length_frameFor hn, ← hvalue] at hlength
    subst hlength
    exact ⟨t, value, htype, hannounced, hn, hrun, hvalue.symm⟩
  · rintro ⟨t, value, hc⟩
    refine ⟨_, hc.ofNumbers hb, hc.completes, ?_⟩
    rw [hc.appended, toNat_length_frameFor hc.fits]

theorem bytes_of_writes (hb : b.Holds h body) {c : Call} {type : BitVec 16} {value : List UInt8}
    (hc : b.Writes c type value) :
    (b.frame c.type c.length c.program.run).builder.bytes = b.extended type value := by
  have hok := (frame_call_eq_ok_iff hb c).2 ⟨type, value, hc⟩
  have hbytes := bytes_of_frame_eq_ok (appends_drop c.program.run_extends) hb (hc.ofNumbers hb) hok
  rwa [hc.appended] at hbytes

/-- Whatever calls were made before, those of drafts among them (`after_drafts`): an attribute of the
library is added if and only if it fits, and is refused for the length that does not. Any other
attribute is added if and only if it fits and its program writes what it announces. The attribute
stands behind the old message then, and the header declares it. -/
theorem adds_what_fits {messageClass : MessageClass} {method : Number} {id : TransactionId}
    {new : Builder} (hnew : create messageClass method id = .ok new) (cs : List Call) :
    let b := ((Program.calls cs).run new).builder
    (∀ (a : Attribute) (key : Key),
      ((b.add (a.draft key)).result = .ok [] ↔ b.Fits a.length) ∧
      (b.Fits a.length → ((a.draft key).valueOn b).length = a.length ∧
        (b.add (a.draft key)).builder.bytes =
          b.extended a.kind.code ((a.draft key).valueOn b)) ∧
      (¬ b.Fits a.length → (b.add (a.draft key)).result =
        .error (.conversion (.number (.integer (b.misfit a.length))) 16))) ∧
    ∀ c : Call,
      ((b.frame c.type c.length c.program.run).result = .ok () ↔
        ∃ type value, b.Writes c type value) ∧
      ∀ type value, b.Writes c type value →
        (b.frame c.type c.length c.program.run).builder.bytes = b.extended type value := by
  intro b
  obtain ⟨method, -, rfl⟩ := create_eq_ok_iff.1 hnew
  obtain ⟨w, body, hb⟩ := (Program.calls cs).run_extends (holds_fresh messageClass method id)
  refine ⟨fun a key => ⟨⟨fun hok => ?_, add_of_fits hb a key⟩, bytes_add_of_fits hb a key,
    fun ha => frame_of_not_fits ha _ _⟩,
    fun c => ⟨frame_call_eq_ok_iff hb c, fun type value => bytes_of_writes hb⟩⟩
  by_contra ha
  have herr : (b.add (a.draft key)).result = _ := frame_of_not_fits ha _ _
  rw [hok] at herr
  cases herr

def wideList (n : Nat) : Attribute := .unknownAttributes (List.replicate n 0)

theorem length_wideList (n : Nat) : (wideList n).length = 2 * n :=
  congrArg (2 * ·) List.length_replicate

/-- Behind 36 bytes: the longest list that fits, a list that fits but not with what is there, and a
list that is too long for itself. -/
theorem adds_what_fits_wide_list :
    let b := ((Program.calls [restless]).run (fresh .request 1 ⟨123⟩)).builder
    create .request (.integer 1) ⟨123⟩ = .ok (fresh .request 1 ⟨123⟩) ∧ b.length = 36 ∧
      (b.add ((wideList 32756).draft ⟨[]⟩)).result = .ok [] ∧
      (b.add ((wideList 32757).draft ⟨[]⟩)).result =
        .error (.conversion (.number (.integer 65536)) 16) ∧
      (b.add ((wideList 32769).draft ⟨[]⟩)).result =
        .error (.conversion (.number (.integer 65538)) 16) ∧
      ∃ type value, b.Writes restless type value := by
  intro b
  have hnew : create .request (.integer 1) ⟨123⟩ = .ok (fresh .request 1 ⟨123⟩) :=
    create_eq_ok_iff.2 ⟨1, rfl, rfl⟩
  obtain ⟨hlists, hcalls⟩ := adds_what_fits hnew [restless]
  have hlength : b.length = 36 := by decide +kernel
  have hwith (n : Nat) : b.lengthWith n = padded n + 20 := by
    rw [lengthWith, hlength]
    simp only [attributeHeaderSize, headerSize]
    omega
  have hfits (n : Nat) : b.Fits n ↔ padded n ≤ 65515 := by
    have hpadded := le_padded n
    rw [Fits, hwith]
    omega
  have hmisfit (n : Nat) : b.misfit n = if n ≤ 65535 then (padded n : Int) + 20 else n := by
    rw [misfit, hwith]
  refine ⟨hnew, hlength, ?_, ?_, ?_, ?_⟩
  · exact (hlists (wideList 32756) ⟨[]⟩).1.2 ((hfits _).2 (by rw [length_wideList]; decide))
  · have herr := (hlists (wideList 32757) ⟨[]⟩).2.2
      (by rw [hfits, length_wideList]; decide)
    rw [hmisfit, length_wideList] at herr
    exact herr
  · have herr := (hlists (wideList 32769) ⟨[]⟩).2.2
      (by rw [hfits, length_wideList]; decide)
    rw [hmisfit, length_wideList] at herr
    exact herr
  · exact (hcalls restless).1.1 (by decide +kernel)

end Builder

end Stun
