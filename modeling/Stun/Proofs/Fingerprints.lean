import Stun.Proofs.Checksum
import Stun.Proofs.Runs

/-!
# Fingerprints

A fingerprint is written when the header declares it as the last attribute, and is checked under the
header that the finished message has. The two headers are the same when nothing was added behind it.
Otherwise they differ in the declared length alone, which is a burst, and the checksum detects it. So
a fingerprint verifies as the last attribute of a run and nowhere else, and a verified one stops
verifying when a burst hits what stands before it.
-/
namespace Stun

theorem fingerprint_inj {data data' : List UInt8} :
    fingerprint data = fingerprint data' ↔ Crc32.checksum data = Crc32.checksum data' :=
  BitVec.xor_left_inj _

theorem fingerprint_ne_of_burst {data data' : List UInt8} (hlen : data.length = data'.length)
    (hburst : Crc32.Burst data data') (hne : data ≠ data') : fingerprint data ≠ fingerprint data' :=
  fun h => Crc32.checksum_ne_of_burst hlen hburst hne (fingerprint_inj.1 h)

/-- Another declared length is a burst. -/
theorem Header.burst_redeclare (h : Header) (w : BitVec 16) (body : List UInt8) :
    Crc32.Burst ((h.redeclare w).encode ++ body) (h.encode ++ body) := by
  refine .of_bytes 2 fun i hi => Decidable.not_not.1 fun hout => hi ?_
  rw [List.getD_eq_getElem?_getD, h.getElem?_redeclare w body (by omega),
    List.getD_eq_getElem?_getD]

theorem fingerprint_redeclare_ne {h : Header} {w : BitVec 16} (hw : w ≠ h.length)
    (body : List UInt8) :
    fingerprint ((h.redeclare w).encode ++ body) ≠ fingerprint (h.encode ++ body) := by
  refine fingerprint_ne_of_burst ?_ (h.burst_redeclare w body) fun hsame => hw ?_
  · simp only [List.length_append, Header.length_encode]
  · have hdeclared := congrArg Header.declared hsame
    rw [Header.declared_encode, Header.declared_encode] at hdeclared
    exact BitVec.eq_of_toNat_eq hdeclared

variable {b : Builder} {h : Header} {body : List UInt8}

theorem Record.Writes.value_fingerprint {r : Record} {key : Key}
    (hr : r.Writes (Attribute.fingerprint.draft key) b) (hb : b.Holds h body) :
    ∃ w : BitVec 16, w.toNat = body.length + r.size ∧
      r.value = BigEndian.encode 4 (fingerprint ((h.redeclare w).encode ++ body)).toNat := by
  have hsize : r.value.length = 4 := (Int.ofNat_inj.1 (Number.integer.inj hr.length)).symm
  have hne : r.value ≠ [] := by
    rw [← List.length_pos_iff, hsize]
    decide
  obtain ⟨f, hw, hvalue, hcovered⟩ := hr.exists_entered hne hb
  refine ⟨f.declaredLength, hw, ?_⟩
  rw [hvalue, ← hcovered]
  exact List.append_nil _

theorem Builder.add_fingerprint (key : Key) (hb : b.Holds h body)
    (hroom : body.length + 8 < 2 ^ 16) :
    ∃ (w : BitVec 16) (body' : List UInt8), body'.length = body.length + 8 ∧
      (b.add (Attribute.fingerprint.draft key)).result = .ok [] ∧
      (b.add (Attribute.fingerprint.draft key)).builder.Holds (h.redeclare w) body' := by
  have hscript (f : Frame) : ((Attribute.fingerprint.script key).run (b.enter f)).result = .ok [] ∧
      ((Attribute.fingerprint.script key).appended (b.enter f)).length = 4 :=
    ⟨rfl, (congrArg List.length (List.append_nil _)).trans (BigEndian.length_encode 4 _)⟩
  exact add_attribute hb .fingerprint key hroom fun f _ => hscript f

namespace Message

variable {m m' : Message} {s s' : Span} {key : Key}

theorem decodeAt_fingerprint {tag : BitVec 32} (hvalue : m.value s = BigEndian.encode 4 tag.toNat) :
    m.decodeAt .fingerprint key s =
      if tag = fingerprint (m.before s) then .ok .fingerprint else .error .fingerprint := by
  have hsize : (m.value s).length = 4 := by rw [hvalue, BigEndian.length_encode]
  have hdecode : BigEndian.decode (m.value s) = tag.toNat := by
    rw [hvalue, BigEndian.decode_encode]
    exact Nat.mod_eq_of_lt tag.isLt
  simp only [decodeAt, verifyFingerprint, hsize, hdecode, ne_eq, not_true_eq_false, if_false,
    BitVec.toNat_inj]
  split <;> rfl

theorem value_of_decodeAt_fingerprint {a : Attribute} (hok : m.decodeAt .fingerprint key s = .ok a) :
    m.value s = BigEndian.encode 4 (fingerprint (m.before s)).toNat := by
  simp only [decodeAt, verifyFingerprint] at hok
  split at hok
  next => cases hok
  next hsize =>
    split at hok
    next htag => rw [← htag, ← Decidable.not_not.1 hsize, BigEndian.encode_decode]
    next => cases hok

/-- A verified fingerprint does not verify any more when what stands before it was hit by a burst. -/
theorem burst_breaks_fingerprint {a : Attribute} (hlen : m.bytes.length = m'.bytes.length)
    (hstart : s.start = s'.start) (hvalue : m.value s = m'.value s')
    (hne : m.before s ≠ m'.before s') (hburst : Crc32.Burst (m.before s) (m'.before s'))
    (hok : m.decodeAt .fingerprint key s = .ok a) (key' : Key) :
    m'.decodeAt .fingerprint key' s' = .error .fingerprint := by
  have hbefore : (m.before s).length = (m'.before s').length := by
    rw [before, before, toList_extract, toList_extract, hstart]
    simp only [List.length_take, List.length_drop, hlen]
  have htag := value_of_decodeAt_fingerprint hok
  rw [decodeAt_fingerprint (hvalue.symm.trans htag),
    if_neg (fingerprint_ne_of_burst hbefore hburst hne)]

theorem decodeAt_fingerprint_span {r : Record} {after : List UInt8} {w : BitVec 16}
    (hm : m.bytes = h.encode ++ body ++ (r.encode ++ after))
    (hvalue : r.value = BigEndian.encode 4 (fingerprint ((h.redeclare w).encode ++ body)).toNat) :
    m.decodeAt .fingerprint key (r.span (h.encode ++ body).length) =
      if w = h.length then .ok .fingerprint else .error .fingerprint := by
  rw [decodeAt_fingerprint ((value_span hm).trans hvalue), before_span hm]
  by_cases hw : w = h.length
  · rw [if_pos hw, hw, Header.redeclare_self, if_pos rfl]
  · rw [if_neg hw, if_neg (fingerprint_redeclare_ne hw body)]

def wordRecord (type : BitVec 16) (word : BitVec 32) : Record :=
  ⟨type, BigEndian.encode 4 word.toNat, [], by simp, by simp [padded]⟩

theorem size_wordRecord (type : BitVec 16) (word : BitVec 32) : (wordRecord type word).size = 8 := by
  rw [Record.size, wordRecord, BigEndian.length_encode]
  rfl

def stampedHeader : Header := ⟨.request, 1, 16, ⟨123⟩⟩

def stamp (number : BitVec 32) : Record :=
  wordRecord Kind.fingerprint.code
    (fingerprint (stampedHeader.encode ++ (wordRecord 0x0024 number).encode))

/-- A message that carries one number, with the fingerprint for another. -/
def stamped (number original : BitVec 32) : Message :=
  ⟨(stampedHeader.encode ++
      [wordRecord 0x0024 number, stamp original].flatMap Record.encode).toArray,
    stampedHeader, Record.spans headerSize [wordRecord 0x0024 number, stamp original]⟩

theorem parse_stamped (number original : BitVec 32) :
    parse (.integer 2) (stamped number original).bytes = .ok (stamped number original) := by
  refine parse_encode ?_ (Or.inr rfl)
  simp only [stamp, List.flatMap_cons, List.flatMap_nil, List.length_append, Record.length_encode,
    size_wordRecord]
  rfl

theorem bytes_stamped (number original : BitVec 32) : (stamped number original).bytes =
    stampedHeader.encode ++ (wordRecord 0x0024 number).encode ++ ((stamp original).encode ++ []) := by
  rw [List.append_assoc]
  rfl

theorem length_stamped (number : BitVec 32) :
    (stampedHeader.encode ++ (wordRecord 0x0024 number).encode).length = 28 := by
  rw [List.length_append, Header.length_encode, Record.length_encode, size_wordRecord]
  rfl

theorem mem_spans_stamped (number original : BitVec 32) :
    (stamp original).span 28 ∈ (stamped number original).spans := by
  refine List.mem_cons_of_mem _ (List.mem_singleton.2 ?_)
  rw [size_wordRecord]
  rfl

/-- Two neighbouring bytes of the number changed places. -/
theorem burst_breaks_fingerprint_swapped_bytes :
    ∃ m m' s, parse (.integer 2) m.bytes = .ok m ∧ parse (.integer 2) m'.bytes = .ok m' ∧
      m ≠ m' ∧ s ∈ m.spans ∧ s ∈ m'.spans ∧ m.decodeAt .fingerprint ⟨[]⟩ s = .ok .fingerprint ∧
      m'.decodeAt .fingerprint ⟨[]⟩ s = .error .fingerprint := by
  let before (number : BitVec 32) := stampedHeader.encode ++ (wordRecord 0x0024 number).encode
  let s := (stamp 0x01020304).span 28
  have hbefore (number : BitVec 32) : (stamped number 0x01020304).before s = before number := by
    have hspan := before_span (bytes_stamped number 0x01020304)
    rwa [length_stamped] at hspan
  have hvalue (number : BitVec 32) :
      (stamped number 0x01020304).value s = (stamp 0x01020304).value := by
    have hspan := value_span (bytes_stamped number 0x01020304)
    rwa [length_stamped] at hspan
  have hok : (stamped 0x01020304 0x01020304).decodeAt .fingerprint ⟨[]⟩ s = .ok .fingerprint := by
    rw [decodeAt_fingerprint (hvalue 0x01020304), hbefore]
    exact if_pos rfl
  have hlen : (stamped 0x01020304 0x01020304).bytes.length =
      (stamped 0x01030204 0x01020304).bytes.length := by
    simp only [bytes_stamped, List.length_append, Record.length_encode, size_wordRecord]
  have hne : before 0x01020304 ≠ before 0x01030204 := by decide
  have hburst : Crc32.Burst (before 0x01020304) (before 0x01030204) := by
    have hwindow : ∀ i < 28, (before 0x01020304).getD i 0 ≠ (before 0x01030204).getD i 0 →
        24 ≤ i ∧ i < 28 := by decide
    refine .of_bytes 24 fun i hi => hwindow i (Nat.lt_of_not_le fun hout => hi ?_) hi
    rw [List.getD_eq_getElem?_getD, List.getD_eq_getElem?_getD, List.getElem?_eq_none,
      List.getElem?_eq_none] <;> rwa [length_stamped]
  refine ⟨stamped 0x01020304 0x01020304, stamped 0x01030204 0x01020304, s, parse_stamped _ _,
    parse_stamped _ _, fun heq => hne ?_, mem_spans_stamped _ _, mem_spans_stamped _ _, hok, ?_⟩
  · rw [← hbefore, heq, hbefore]
  · exact burst_breaks_fingerprint hlen rfl ((hvalue _).trans (hvalue _).symm)
      (by rwa [hbefore, hbefore]) (by rwa [hbefore, hbefore]) hok ⟨[]⟩

open Builder

/-- A fingerprint that a run added verifies in the finished message when it is the last attribute.
When it is not, it fails, whatever the other attributes are. -/
theorem decodeAt_fingerprint_of_added {messageClass : MessageClass} {number : Number}
    {id : TransactionId} {b : Builder} (hb : create messageClass number id = .ok b)
    {ops : List Operation} (hops : ∀ op ∈ ops, op.framed) {limit : Number}
    (hlimit : limit.Admits (b.additions ops).length) :
    ∃ bytes m, (b.after ops).finish.result = .ok bytes ∧ parse limit bytes = .ok m ∧
      m.spans.length = (b.additions ops).length ∧
      ∀ (i : Nat) (site : Builder) (key : Key),
        (b.additions ops)[i]? = some ⟨site, Attribute.fingerprint.draft key⟩ →
        ∃ s, m.spans[i]? = some s ∧ s.type = Kind.fingerprint.code ∧ ∀ key' : Key,
          (i + 1 = (b.additions ops).length →
            m.decodeAt .fingerprint key' s = .ok .fingerprint) ∧
          (i + 1 < (b.additions ops).length →
            m.decodeAt .fingerprint key' s = .error .fingerprint) := by
  obtain ⟨method, -, rfl⟩ := create_eq_ok_iff.1 hb
  obtain ⟨h, rs, -, -, -, hlen, hfinish, hlaid⟩ := finish_after_framed messageClass method id hops
  have hcount := hlaid.length_eq
  rw [hcount] at hlimit
  refine ⟨_, _, hfinish, parse_encode hlen hlimit,
    (Record.length_spans headerSize rs).trans hcount.symm, ?_⟩
  intro i site key ha
  obtain ⟨before, r, after, w, rfl, rfl, hwrites, hsite, hm, hspan⟩ := hlaid.locate ha
  obtain ⟨w', hw', hvalue⟩ := hwrites.value_fingerprint hsite
  rw [Header.redeclare_redeclare] at hvalue
  refine ⟨_, hspan, ?_, fun key' => ?_⟩
  · exact (BitVec.eq_of_toNat_eq (Int.ofNat_inj.1 (Number.integer.inj hwrites.type))).symm
  have hverdict : (Message.mk _ h (Record.spans headerSize (before ++ r :: after))).decodeAt
      .fingerprint key' _ = _ := decodeAt_fingerprint_span hm hvalue
  -- The finished header declares the fingerprint and all that was added behind it.
  rw [List.flatMap_append, List.flatMap_cons, List.length_append, List.length_append,
    Record.length_encode] at hlen
  rw [hcount, List.length_append, List.length_cons]
  constructor
  · intro hlast
    obtain rfl : after = [] := List.length_eq_zero_iff.1 (by omega)
    have hdeclared : w' = h.length := BitVec.eq_of_toNat_eq (by rw [hw', hlen]; rfl)
    exact hverdict.trans (if_pos hdeclared)
  · intro hmore
    have hbehind : 0 < (after.flatMap Record.encode).length := by
      refine Record.length_flatMap_pos ?_
      rintro rfl
      exact absurd hmore (Nat.lt_irrefl _)
    have hdeclared : w' ≠ h.length := by
      rintro rfl
      omega
    exact hverdict.trans (if_neg hdeclared)

/-- Between the two fingerprints, an attribute that announces no length and is refused. -/
def fingerprintRun : List Operation :=
  [.add (Attribute.fingerprint.draft ⟨[]⟩), .add ⟨.integer 0x8022, .nan, .done⟩,
    .setDeclaredLength (.integer 7), .add (Attribute.fingerprint.draft ⟨[]⟩)]

theorem decodeAt_fingerprint_of_added_twice :
    ∃ bytes m s s', ((fresh .request 1 ⟨123⟩).after fingerprintRun).finish.result = .ok bytes ∧
      parse (.integer 2) bytes = .ok m ∧ m.spans = [s, s'] ∧
      m.decodeAt .fingerprint ⟨[]⟩ s = .error .fingerprint ∧
      m.decodeAt .fingerprint ⟨[]⟩ s' = .ok .fingerprint := by
  have hnew : create .request (.integer 1) ⟨123⟩ = .ok (fresh .request 1 ⟨123⟩) :=
    create_eq_ok_iff.2 ⟨1, rfl, rfl⟩
  have hops : ∀ op ∈ fingerprintRun, op.framed := by simp [fingerprintRun, Operation.framed]
  obtain ⟨w, body, hlen, hfirst, hout⟩ :=
    add_fingerprint ⟨[]⟩ (holds_fresh .request 1 ⟨123⟩) (by decide)
  have hskip (b₁ : Builder) (op : Operation) :
      b₁.additions [.add ⟨.integer 0x8022, .nan, .done⟩, .setDeclaredLength (.integer 7), op] =
        (b₁.declare 7).additions [op] := rfl
  obtain ⟨b₁, hb₁⟩ : ∃ b₁, b₁ =
      ((fresh .request 1 ⟨123⟩).add (Attribute.fingerprint.draft ⟨[]⟩)).builder := ⟨_, rfl⟩
  rw [← hb₁] at hout
  obtain ⟨-, -, -, hsecond, -⟩ := add_fingerprint ⟨[]⟩ (hout.declare 7) (by rw [hlen]; decide)
  have hadditions : (fresh .request 1 ⟨123⟩).additions fingerprintRun =
      [⟨fresh .request 1 ⟨123⟩, Attribute.fingerprint.draft ⟨[]⟩⟩,
        ⟨b₁.declare 7, Attribute.fingerprint.draft ⟨[]⟩⟩] := by
    rw [fingerprintRun, additions_add_of_ok hfirst, ← hb₁, hskip, additions_add_of_ok hsecond,
      additions]
  have hlimit : (Number.integer 2).Admits
      ((fresh .request 1 ⟨123⟩).additions fingerprintRun).length := by
    rw [hadditions]
    exact Or.inr rfl
  obtain ⟨bytes, m, hfinish, hparse, hcount, hverdicts⟩ :=
    decodeAt_fingerprint_of_added hnew hops hlimit
  rw [hadditions] at hcount hverdicts
  obtain ⟨s, hs, -, hfalse⟩ := hverdicts 0 _ ⟨[]⟩ rfl
  obtain ⟨s', hs', -, htrue⟩ := hverdicts 1 _ ⟨[]⟩ rfl
  have hspans : m.spans = [s, s'] := by
    obtain ⟨t, t', ht⟩ := List.length_eq_two.1 hcount
    rw [ht] at hs hs' ⊢
    cases hs
    cases hs'
    rfl
  exact ⟨bytes, m, s, s', hfinish, hparse, hspans, (hfalse ⟨[]⟩).2 Nat.one_lt_two,
    (htrue ⟨[]⟩).1 rfl⟩

end Message

end Stun
