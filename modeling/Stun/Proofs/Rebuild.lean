import Stun.Proofs.Coverage

/-!
# Building a parsed message again

A message that was parsed can be built again from its header fields and the values at its spans:
each value is added as it stands, and all of them fit. What comes out is the message with zeros in
the place of its padding, so it is the same message when the padding was zero, and it has the same
spans in any case.
-/
namespace Stun

namespace Record

/-- The record with zeros for padding. -/
def cleared (r : Record) : Record where
  type := r.type
  value := r.value
  padding := List.replicate r.padding.length 0
  value_lt := r.value_lt
  length_padding := by
    rw [List.length_replicate]
    exact r.length_padding

@[simp] theorem size_cleared (r : Record) : r.cleared.size = r.size := rfl

theorem cleared_eq_self_iff {r : Record} : r.cleared = r ↔ ∀ b ∈ r.padding, b = 0 := by
  constructor
  · intro h b hb
    rw [← h] at hb
    exact List.eq_of_mem_replicate hb
  · exact fun h => ext_fields rfl rfl (List.eq_replicate_iff.2 ⟨rfl, h⟩).symm

theorem spans_map_cleared (start : Nat) (records : List Record) :
    spans start (records.map cleared) = spans start records := by
  induction records generalizing start with
  | nil => rfl
  | cons r records ih => exact congrArg (r.span start :: ·) (ih (start + r.size))

theorem length_flatMap_cleared (records : List Record) :
    ((records.map cleared).flatMap encode).length = (records.flatMap encode).length := by
  induction records with
  | nil => rfl
  | cons r records ih =>
    simp only [List.map_cons, List.flatMap_cons, List.length_append, length_encode, size_cleared,
      ih]

theorem map_cleared_eq_self_iff {records : List Record} :
    records.map cleared = records ↔ ∀ r ∈ records, ∀ b ∈ r.padding, b = 0 := by
  induction records with
  | nil => exact ⟨fun _ _ h => (nomatch h), fun _ => rfl⟩
  | cons r records ih =>
    rw [List.map_cons, List.cons.injEq, cleared_eq_self_iff, ih, List.forall_mem_cons]

theorem overlay_padding (before : List UInt8) (r : Record) (rest : List UInt8) :
    Bytes.overlay (before ++ (r.encode ++ rest)) (r.span before.length).valueStop
        (List.replicate ((r.span before.length).stop - (r.span before.length).valueStop) 0) =
      before ++ (r.cleared.encode ++ rest) := by
  let start := before ++ (BigEndian.encode 2 r.type.toNat ++ BigEndian.encode 2 r.value.length ++
    r.value)
  have hstop : (r.span before.length).valueStop = start.length := by
    simp only [start, Span.valueStop, Span.valueStart, span, List.length_append,
      BigEndian.length_encode]
    omega
  have hoverlay := Bytes.overlay_append start r.padding (List.replicate r.padding.length 0) rest
    List.length_replicate.symm
  rw [stop_sub_valueStop, hstop]
  simpa only [start, encode, cleared, List.append_assoc] using hoverlay

def addition (r : Record) : Builder.Operation := .add (.raw (.integer r.type.toNat) r.value)

end Record

namespace Builder

variable {b : Builder} {h : Header} {body : List UInt8}

theorem add_raw (hb : b.Holds h body) (r : Record) (hroom : body.length + r.size < 2 ^ 16) :
    (b.add (.raw (.integer r.type.toNat) r.value)).result = .ok [] ∧
      ∃ w, (b.add (.raw (.integer r.type.toNat) r.value)).builder.Holds (h.redeclare w)
        (body ++ r.cleared.encode) := by
  let d : Draft := .raw (.integer r.type.toNat) r.value
  let f : Frame := ⟨r.type, BitVec.ofNatLT r.value.length r.value_lt, BitVec.ofNatLT _ hroom⟩
  have hf : Frame.ofNumbers b.length d.type d.length = .ok f := by
    refine Frame.ofNumbers_eq_ok_iff.2 ⟨rfl, ?_, rfl⟩
    rw [hb.length_eq, Nat.add_assoc, Nat.add_assoc]
    rfl
  have happended : d.script.appended (b.enter f) = r.value := List.append_nil _
  have hok : (b.add d).result = .ok [] := add_eq_ok hb hf rfl (congrArg List.length happended)
  refine ⟨hok, ?_⟩
  rcases add_cases hb d with ⟨r', w, notes, -, hwrites, -, hout⟩ | ⟨e, herr, -⟩
  · have htype : r'.type = r.type :=
      (BitVec.eq_of_toNat_eq (Int.ofNat_inj.1 (Number.integer.inj hwrites.type))).symm
    have hvalue : r'.value = r.value := by
      rw [hwrites.value, Draft.valueOn, hf]
      exact happended
    have hpadding : r'.padding = r.cleared.padding := by
      have hlength := r'.length_padding
      have hlength' := r.length_padding
      rw [hvalue] at hlength
      rw [hwrites.padding]
      exact congrArg (List.replicate · 0) (by omega)
    have hcleared : r' = r.cleared := Record.ext_fields htype hvalue hpadding
    exact ⟨w, hcleared ▸ hout⟩
  · rw [hok] at herr
    cases herr

theorem transcript_add_of_ok {d : Draft} {notes : List Snapshot}
    (hok : (b.add d).result = .ok notes) (ops : List Operation) :
    b.transcript (.add d :: ops) =
      (.ok (.notes notes), (b.add d).builder.bytes) :: (b.add d).builder.transcript ops := by
  rw [transcript, perform, hok]
  rfl

theorem Holds.after_records (hb : b.Holds h body) {records : List Record}
    (hroom : (body ++ records.flatMap Record.encode).length < 2 ^ 16) :
    (∀ answer ∈ b.transcript (records.map Record.addition), answer.1 = .ok (.notes [])) ∧
      ∃ w, (b.after (records.map Record.addition)).Holds (h.redeclare w)
        (body ++ (records.map Record.cleared).flatMap Record.encode) := by
  induction records generalizing b h body with
  | nil => exact ⟨fun _ hmem => (nomatch hmem), h.length, by simpa [after] using hb⟩
  | cons r records ih =>
    rw [List.flatMap_cons, List.length_append, List.length_append, Record.length_encode] at hroom
    obtain ⟨hok, w, hout⟩ := add_raw hb r (by omega)
    have hrest : (body ++ r.cleared.encode ++ records.flatMap Record.encode).length < 2 ^ 16 := by
      simp only [List.length_append, Record.length_encode, Record.size_cleared]
      omega
    obtain ⟨hanswers, w', hafter⟩ := ih hout hrest
    rw [List.map_cons, Record.addition, transcript_add_of_ok hok, after_add]
    refine ⟨List.forall_mem_cons.2 ⟨rfl, hanswers⟩, w', ?_⟩
    rwa [List.append_assoc] at hafter

end Builder

namespace Message

variable {m : Message} {before : List UInt8}

theorem map_spans {α : Type} (f : BitVec 16 → List UInt8 → List UInt8 → α) {records : List Record}
    (hm : m.bytes = before ++ records.flatMap Record.encode) :
    (Record.spans before.length records).map (fun s => f s.type (m.value s) (m.padding s)) =
      records.map fun r => f r.type r.value r.padding := by
  induction records generalizing before with
  | nil => rfl
  | cons r records ih =>
    rw [List.flatMap_cons] at hm
    have hnext : m.bytes = before ++ r.encode ++ records.flatMap Record.encode := by
      rw [hm, List.append_assoc]
    have hrest := ih hnext
    rw [List.length_append, Record.length_encode] at hrest
    rw [Record.spans, List.map_cons, List.map_cons, hrest, value_span hm, padding_span hm]
    rfl

/-- The bytes with zeros in the place of all padding. -/
def clearedBytes (m : Message) : List UInt8 :=
  m.spans.foldl (fun bytes s => Bytes.overlay bytes s.valueStop
    (List.replicate (s.stop - s.valueStop) 0)) m.bytes

theorem foldl_overlay_spans (before : List UInt8) (records : List Record) :
    (Record.spans before.length records).foldl (fun bytes s => Bytes.overlay bytes s.valueStop
        (List.replicate (s.stop - s.valueStop) 0)) (before ++ records.flatMap Record.encode) =
      before ++ (records.map Record.cleared).flatMap Record.encode := by
  induction records generalizing before with
  | nil => rfl
  | cons r records ih =>
    have hrest := ih (before ++ r.cleared.encode)
    rw [List.length_append, Record.length_encode, Record.size_cleared, List.append_assoc,
      List.append_assoc] at hrest
    rw [Record.spans, List.foldl_cons, List.flatMap_cons, Record.overlay_padding, hrest]
    rfl

/-- The additions that build a message again, one for each span. -/
def rebuilding (m : Message) : List Builder.Operation :=
  m.spans.map fun s => .add (.raw (.integer s.type.toNat) (m.value s))

open Builder

theorem exists_records_of_parse {limit : Number} {data : List UInt8}
    (hp : parse limit data = .ok m) :
    ∃ records, m.bytes = m.header.encode ++ records.flatMap Record.encode ∧
      m.header.length.toNat = (records.flatMap Record.encode).length ∧
      m.spans = Record.spans headerSize records ∧ limit.Admits records.length := by
  obtain ⟨records, hwell, hlimit, rfl⟩ := parse_eq_ok_iff.1 hp
  refine ⟨records, ?_, ?_, rfl, hlimit⟩
  · have hheader : (Header.read data).encode = data.take headerSize :=
      Header.encode_read hwell.header
    change data.take (headerSize + Header.declared data) = (Header.read data).encode ++ _
    rw [List.take_add, hwell.area, hheader]
  · rw [hwell.length_area]
    exact Header.toNat_length_read data

/-- A message that was parsed is built again from its header fields and the values at its spans: all
of them are added, and what is finished is the message with its padding cleared. -/
theorem rebuild_of_parse {limit : Number} {data : List UInt8} (hp : parse limit data = .ok m) :
    ∃ b bytes m', create m.header.messageClass (.integer m.header.method.toNat)
        m.header.transactionId = .ok b ∧
      (∀ answer ∈ b.transcript m.rebuilding, answer.1 = .ok (.notes [])) ∧
      (b.after m.rebuilding).finish.result = .ok bytes ∧ bytes = m.clearedBytes ∧
      (bytes = m.bytes ↔ ∀ s ∈ m.spans, ∀ x ∈ m.padding s, x = 0) ∧
      parse limit bytes = .ok m' ∧ m'.spans = m.spans := by
  obtain ⟨records, hbytes, hlength, hspans, hlimit⟩ := exists_records_of_parse hp
  have hsize : headerSize = m.header.encode.length := (Header.length_encode _).symm
  have hrebuilding : m.rebuilding = records.map Record.addition := by
    rw [rebuilding, hspans, hsize]
    exact map_spans (fun type value _ => Operation.add (.raw (.integer type.toNat) value)) hbytes
  have hpadding : m.spans.map m.padding = records.map (·.padding) := by
    rw [hspans, hsize]
    exact map_spans (fun _ _ padding => padding) hbytes
  have hcleared : m.clearedBytes =
      m.header.encode ++ (records.map Record.cleared).flatMap Record.encode := by
    rw [clearedBytes, hspans, hsize, hbytes]
    exact foldl_overlay_spans _ _
  have hroom : ([] ++ records.flatMap Record.encode).length < 2 ^ 16 :=
    hlength ▸ m.header.length.isLt
  have hlength' :
      m.header.length.toNat = ((records.map Record.cleared).flatMap Record.encode).length :=
    hlength.trans (Record.length_flatMap_cleared records).symm
  obtain ⟨hanswers, w, hafter⟩ := (holds_fresh m.header.messageClass m.header.method
    m.header.transactionId).after_records hroom
  have hlimit' : limit.Admits (records.map Record.cleared).length := by rwa [List.length_map]
  have hparse := parse_encode hlength' hlimit'
  refine ⟨_, m.clearedBytes, _, create_eq_ok_iff.2 ⟨_, rfl, rfl⟩, ?_, ?_, rfl, ?_,
    hcleared ▸ hparse, ?_⟩
  · rw [hrebuilding]
    exact hanswers
  · rw [hrebuilding, hcleared]
    exact hafter.finish hlength'
  · have hzero : (∀ s ∈ m.spans, ∀ x ∈ m.padding s, x = 0) ↔
        ∀ r ∈ records, ∀ x ∈ r.padding, x = 0 := by
      rw [← List.forall_mem_map (P := fun padding => ∀ x ∈ padding, x = 0), hpadding,
        List.forall_mem_map]
    rw [hzero, ← Record.map_cleared_eq_self_iff, hcleared, hbytes, List.append_cancel_left_eq]
    exact ⟨Record.flatMap_encode_inj, congrArg _⟩
  · rw [Record.spans_map_cleared, hspans]

/-- A name of one byte with other padding than zeros, and a priority behind it. -/
def paddedRecords : List Record :=
  [⟨0x8022#16, [0x61], [1, 2, 3], by decide, rfl⟩,
    ⟨0x0024#16, [0x6e, 0, 1, 0xff], [], by decide, rfl⟩]

theorem rebuild_of_parse_padded :
    ∃ m b bytes m', parse (.integer 2) m.bytes = .ok m ∧
      create m.header.messageClass (.integer m.header.method.toNat) m.header.transactionId = .ok b ∧
      (b.after m.rebuilding).finish.result = .ok bytes ∧ bytes ≠ m.bytes ∧
      parse (.integer 2) bytes = .ok m' ∧ m'.spans = m.spans := by
  let h : Header := ⟨.request, 1, 16, ⟨123⟩⟩
  let m : Message := ⟨(h.encode ++ paddedRecords.flatMap Record.encode).toArray, h,
    Record.spans headerSize paddedRecords⟩
  have hp : parse (.integer 2) m.bytes = .ok m := parse_encode rfl (Or.inr rfl)
  obtain ⟨b, bytes, m', hcreate, -, hfinish, -, hzero, hparse, hspans⟩ := rebuild_of_parse hp
  have hpadding : ¬ ∀ s ∈ m.spans, ∀ x ∈ m.padding s, x = 0 := by decide
  exact ⟨m, b, bytes, m', hp, hcreate, hfinish, mt hzero.1 hpadding, hparse, hspans⟩

end Message

end Stun
