import Stun.Proofs.Runs

/-!
# Signed attributes

The writer of an integrity attribute hashes the message in front of the attribute while the header
declares the attribute as the last one. The reader rebuilds the same bytes from the finished
message, whatever its header declares by then. So a signature verifies with its key wherever it
stands in a run, and several of them do not disturb each other.
-/
namespace Stun

theorem Algorithm.padded_size (a : Algorithm) : padded a.size = a.size := by cases a <;> rfl

theorem Algorithm.size_pos (a : Algorithm) : 0 < a.size := by cases a <;> decide

variable {algorithm : Algorithm} {key : Key} {b : Builder} {h : Header} {body : List UInt8}

theorem Builder.fit_signedLength {opening : List UInt8} {w : BitVec 16}
    (hb : b.Holds h (body ++ opening)) (hopening : opening.length = attributeHeaderSize)
    (hw : w.toNat = body.length + (attributeHeaderSize + algorithm.size)) :
    (Number.integer ((b.length + algorithm.size : Nat) - headerSize)).fit 16 = .ok w := by
  rw [Number.fit_eq_ok_iff, hb.length_eq, List.length_append, hopening, hw]
  congr 1
  omega

theorem Script.appended_sign (key : Key) {opening : List UInt8} {w : BitVec 16}
    (hb : b.Holds h (body ++ opening)) (hopening : opening.length = attributeHeaderSize)
    (hw : w.toNat = body.length + (attributeHeaderSize + algorithm.size)) :
    (Script.sign algorithm key .done).appended b =
      key.hmac algorithm ((h.redeclare w).encode ++ body) := by
  have hfit := Builder.fit_signedLength hb hopening hw
  have hcovered := (hb.declare w).covered hopening
  simp only [Script.appended, hfit, hcovered, List.append_nil]

/-- The value of an integrity attribute is the tag of the message up to it, under a header that
declares the attribute as the last one. -/
theorem Record.Writes.value_integrity {r : Record}
    (hr : r.Writes ((Attribute.integrity algorithm).draft key) b) (hb : b.Holds h body) :
    ∃ w : BitVec 16, w.toNat = body.length + r.size ∧
      r.value = key.hmac algorithm ((h.redeclare w).encode ++ body) := by
  have hsize : r.value.length = algorithm.size :=
    (Int.ofNat_inj.1 (Number.integer.inj hr.length)).symm
  -- The tag is not empty, so the frame of the attribute was accepted.
  have hne : r.value ≠ [] := by
    rw [← List.length_pos_iff, hsize]
    exact algorithm.size_pos
  obtain ⟨f, hf, hvalue⟩ := hr.exists_frame hne
  obtain ⟨hlength, hstop, -⟩ := Frame.ofNumbers_eq_ok_iff.1 hf
  have hframe : f.length.toNat = r.value.length :=
    Int.ofNat_inj.1 (Number.integer.inj (hlength.symm.trans hr.length))
  have hpadded := algorithm.padded_size
  have hdeclared : f.declaredLength.toNat =
      body.length + (attributeHeaderSize + algorithm.size) := by
    rw [hb.length_eq, hframe, hsize, hpadded] at hstop
    omega
  have happended := Script.appended_sign key (hb.enter f) (Builder.length_opening f) hdeclared
  refine ⟨f.declaredLength, ?_, hvalue.trans happended⟩
  rw [hdeclared, Record.size, hsize, hpadded]
  rfl

theorem Builder.add_integrity (algorithm : Algorithm) (key : Key) (hb : b.Holds h body)
    (hroom : body.length + (attributeHeaderSize + algorithm.size) < 2 ^ 16) :
    (b.add ((Attribute.integrity algorithm).draft key)).result = .ok [] := by
  have hscript (f : Frame) (hw : f.declaredLength.toNat =
      body.length + (attributeHeaderSize + padded algorithm.size)) :
      (((Attribute.integrity algorithm).script key).run (b.enter f)).result = .ok [] ∧
        (((Attribute.integrity algorithm).script key).appended (b.enter f)).length =
          algorithm.size := by
    have hopen := hb.enter f
    rw [algorithm.padded_size] at hw
    have hfit := fit_signedLength hopen (length_opening f) hw
    refine ⟨?_, ?_⟩
    · simp only [Attribute.script, Script.run, hfit]
    · rw [Attribute.script, Script.appended_sign key hopen (length_opening f) hw, Key.length_hmac]
  rw [← algorithm.padded_size] at hroom
  obtain ⟨-, -, -, hok, -⟩ := add_attribute hb (.integrity algorithm) key hroom hscript
  exact hok

namespace Message

variable {m : Message} {after : List UInt8} {r : Record} {w : BitVec 16}

theorem signedBytes_span (hm : m.bytes = h.encode ++ body ++ (r.encode ++ after))
    (hw : w.toNat = body.length + r.size) :
    m.signedBytes (r.span (h.encode ++ body).length) = .ok ((h.redeclare w).encode ++ body) := by
  have hdeclared : (Number.integer (((r.span (h.encode ++ body).length).stop : Int) - headerSize)).fit
      16 = .ok w := by
    rw [Number.fit_eq_ok_iff, Record.stop_span, List.length_append, Header.length_encode, hw]
    congr 1
    omega
  rw [signedBytes, before_span hm, hdeclared]
  exact congrArg Except.ok (Header.flatten_withDeclaredLength h body w)

theorem verify_span (hm : m.bytes = h.encode ++ body ++ (r.encode ++ after))
    (hw : w.toNat = body.length + r.size)
    (hvalue : r.value = key.hmac algorithm ((h.redeclare w).encode ++ body)) :
    m.verify algorithm key (r.span (h.encode ++ body).length) = .ok () := by
  have hsize : r.value.length = algorithm.size := by rw [hvalue, Key.length_hmac]
  rw [verify, value_span hm, signedBytes_span hm hw, if_pos hsize]
  exact if_pos hvalue.symm

theorem decodeAt_integrity_span (hm : m.bytes = h.encode ++ body ++ (r.encode ++ after))
    (hw : w.toNat = body.length + r.size)
    (hvalue : r.value = key.hmac algorithm ((h.redeclare w).encode ++ body)) :
    m.decodeAt (.integrity algorithm) key (r.span (h.encode ++ body).length) =
      .ok (.integrity algorithm) := by
  rw [decodeAt, verify_span hm hw hvalue]
  rfl

open Builder

/-- Signatures of a run verify in the finished message, each with its own key, whatever was added
before and behind them. -/
theorem decodeAt_integrity_of_added {messageClass : MessageClass} {number : Number}
    {id : TransactionId} {b : Builder} (hb : create messageClass number id = .ok b)
    {ops : List Operation} (hops : ∀ op ∈ ops, op.framed) {limit : Number}
    (hlimit : limit.Admits (b.additions ops).length) :
    ∃ bytes m, (b.after ops).finish.result = .ok bytes ∧ parse limit bytes = .ok m ∧
      m.spans.length = (b.additions ops).length ∧
      ∀ (i : Nat) (site : Builder) (algorithm : Algorithm) (key : Key),
        (b.additions ops)[i]? = some ⟨site, (Attribute.integrity algorithm).draft key⟩ →
        ∃ s, m.spans[i]? = some s ∧ s.type = (Kind.integrity algorithm).code ∧
          ∀ key' : Key, key'.bytes = key.bytes →
            m.decodeAt (.integrity algorithm) key' s = .ok (.integrity algorithm) := by
  obtain ⟨method, -, rfl⟩ := create_eq_ok_iff.1 hb
  obtain ⟨h, rs, -, -, -, hlen, hfinish, hlaid⟩ := finish_after_framed messageClass method id hops
  have hcount := hlaid.length_eq
  rw [hcount] at hlimit
  refine ⟨_, _, hfinish, parse_encode hlen hlimit,
    (Record.length_spans headerSize rs).trans hcount.symm, ?_⟩
  intro i site algorithm key ha
  obtain ⟨before, r, after, w, rfl, rfl, hwrites, hsite⟩ := hlaid.split ha
  rw [List.nil_append] at hsite
  obtain ⟨w', hw', hvalue⟩ := hwrites.value_integrity hsite
  rw [Header.redeclare_redeclare] at hvalue
  have hm : h.encode ++ (before ++ r :: after).flatMap Record.encode =
      h.encode ++ before.flatMap Record.encode ++ (r.encode ++ after.flatMap Record.encode) := by
    simp only [List.flatMap_append, List.flatMap_cons, List.append_assoc]
  have hspan := Record.getElem?_spans headerSize before r after
  rw [← Header.length_encode h, ← List.length_append] at hspan
  refine ⟨_, hspan, ?_, ?_⟩
  · exact (BitVec.eq_of_toNat_eq (Int.ofNat_inj.1 (Number.integer.inj hwrites.type))).symm
  · intro key' hkey
    obtain rfl : key' = key := by
      cases key'
      cases key
      exact congrArg Key.mk hkey
    exact decodeAt_integrity_span hm hw' hvalue

/-- A signature with the empty key, an attribute that fails, a wrong length, and another
signature. -/
def signedRun : List Operation :=
  [.add ((Attribute.integrity .sha256).draft ⟨[]⟩), .add shortNested,
    .setDeclaredLength (.integer 7), .add ((Attribute.integrity .sha1).draft ⟨[1, 2, 3]⟩)]

theorem decodeAt_integrity_of_added_empty_key :
    ∃ bytes m s, ((fresh .request 1 ⟨123⟩).after signedRun).finish.result = .ok bytes ∧
      parse .nan bytes = .ok m ∧ m.spans[0]? = some s ∧
      m.decodeAt (.integrity .sha256) ⟨[]⟩ s = .ok (.integrity .sha256) := by
  have hnew : create .request (.integer 1) ⟨123⟩ = .ok (fresh .request 1 ⟨123⟩) :=
    create_eq_ok_iff.2 ⟨1, rfl, rfl⟩
  have hops : ∀ op ∈ signedRun, op.framed := by simp [signedRun, Operation.framed]
  have hadd := add_integrity .sha256 ⟨[]⟩ (holds_fresh .request 1 ⟨123⟩) (by decide)
  have hfirst : ((fresh .request 1 ⟨123⟩).additions signedRun)[0]? =
      some ⟨fresh .request 1 ⟨123⟩, (Attribute.integrity .sha256).draft ⟨[]⟩⟩ := by
    rw [signedRun, additions, addition?_of_ok hadd]
    rfl
  obtain ⟨bytes, m, hfinish, hparse, -, hsigned⟩ :=
    decodeAt_integrity_of_added hnew hops (Number.nan_admits _)
  obtain ⟨s, hspan, -, hdecode⟩ := hsigned 0 _ .sha256 ⟨[]⟩ hfirst
  exact ⟨bytes, m, s, hfinish, hparse, hspan, hdecode ⟨[]⟩ rfl⟩

end Message

end Stun
