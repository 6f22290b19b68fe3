import Mathlib.Data.List.Forall2
import Stun.Proofs.Grammar
import Stun.Proofs.Rollback

/-!
# Runs of a builder

As long as no bytes are appended outside attributes, the body of a builder is the records of the
additions that succeeded, in their order. Such a run can be finished, and parsing what it finished
finds each addition at a span of its own, with the value that its script appended and zeros behind
it. Additions that failed could as well be left out.
-/
namespace Stun

namespace Builder

/-- Whether an operation leaves nothing but whole attributes behind the header. -/
def Operation.framed : Operation → Bool
  | .append _ => false
  | _ => true

/-- A draft and the builder to which it was added. -/
structure Addition where
  site : Builder
  draft : Draft

def Operation.addition? (b : Builder) : Operation → Option Addition
  | .add d =>
    match (b.add d).result with
    | .ok _ => some ⟨b, d⟩
    | .error _ => none
  | _ => none

def additions (b : Builder) : List Operation → List Addition
  | [] => []
  | op :: ops => (op.addition? b).toList ++ (b.perform op).builder.additions ops

/-- The records follow `body`, each written by its addition where the ones before it end. -/
inductive Laid (h : Header) : List UInt8 → List Addition → List Record → Prop
  | nil (body : List UInt8) : Laid h body [] []
  | cons {body : List UInt8} {a : Addition} {as : List Addition} {r : Record} {rs : List Record}
    (site : ∃ w, a.site.Holds (h.redeclare w) body) (writes : r.Writes a.draft a.site)
    (rest : Laid h (body ++ r.encode) as rs) : Laid h body (a :: as) (r :: rs)

theorem Laid.length_eq {h : Header} {body : List UInt8} {as : List Addition} {rs : List Record}
    (hl : Laid h body as rs) : as.length = rs.length := by
  induction hl with
  | nil => rfl
  | cons _ _ _ ih => simp [ih]

theorem Laid.redeclare {h : Header} {body : List UInt8} {as : List Addition} {rs : List Record}
    {w : BitVec 16} (hl : Laid (h.redeclare w) body as rs) : Laid h body as rs := by
  induction hl with
  | nil body => exact .nil body
  | cons hsite hwrites _ ih =>
    obtain ⟨w', hsite⟩ := hsite
    exact .cons ⟨w', hsite⟩ hwrites ih

theorem Laid.split {h : Header} {body : List UInt8} {as : List Addition} {rs : List Record}
    (hl : Laid h body as rs) {i : Nat} {a : Addition} (ha : as[i]? = some a) :
    ∃ (before : List Record) (r : Record) (after : List Record) (w : BitVec 16),
      rs = before ++ r :: after ∧ before.length = i ∧ r.Writes a.draft a.site ∧
      a.site.Holds (h.redeclare w) (body ++ before.flatMap Record.encode) := by
  induction hl generalizing i with
  | nil => cases ha
  | @cons body a' as r rs hsite hwrites _ ih =>
    cases i with
    | zero =>
      obtain rfl : a' = a := Option.some.inj ha
      obtain ⟨w, hsite⟩ := hsite
      exact ⟨[], r, rs, w, rfl, rfl, hwrites, by simpa using hsite⟩
    | succ i =>
      obtain ⟨before, r', after, w, rfl, rfl, hwrites', hsite'⟩ := ih ha
      refine ⟨r :: before, r', after, w, rfl, rfl, hwrites', ?_⟩
      rwa [List.flatMap_cons, ← List.append_assoc]

theorem Laid.locate {h : Header} {as : List Addition} {rs : List Record} (hl : Laid h [] as rs)
    {i : Nat} {a : Addition} (ha : as[i]? = some a) :
    ∃ (before : List Record) (r : Record) (after : List Record) (w : BitVec 16),
      rs = before ++ r :: after ∧ before.length = i ∧ r.Writes a.draft a.site ∧
      a.site.Holds (h.redeclare w) (before.flatMap Record.encode) ∧
      h.encode ++ rs.flatMap Record.encode =
        h.encode ++ before.flatMap Record.encode ++ (r.encode ++ after.flatMap Record.encode) ∧
      (Record.spans headerSize rs)[i]? =
        some (r.span (h.encode ++ before.flatMap Record.encode).length) := by
  obtain ⟨before, r, after, w, rfl, rfl, hwrites, hsite⟩ := hl.split ha
  refine ⟨before, r, after, w, rfl, rfl, hwrites, hsite, ?_, ?_⟩
  · simp only [List.flatMap_append, List.flatMap_cons, List.append_assoc]
  · rw [List.length_append, Header.length_encode]
    exact Record.getElem?_spans headerSize before r after

variable {b b' : Builder} {h : Header} {body : List UInt8}

theorem addition?_of_ok {d : Draft} {notes : List Snapshot} (hok : (b.add d).result = .ok notes) :
    (Operation.add d).addition? b = some ⟨b, d⟩ := by
  simp [Operation.addition?, hok]

theorem additions_add_of_ok {d : Draft} {notes : List Snapshot} (hok : (b.add d).result = .ok notes)
    (ops : List Operation) :
    b.additions (.add d :: ops) = ⟨b, d⟩ :: (b.add d).builder.additions ops := by
  rw [additions, addition?_of_ok hok]
  rfl

theorem after_add (b : Builder) (d : Draft) (ops : List Operation) :
    b.after (.add d :: ops) = (b.add d).builder.after ops := by
  rw [after, perform]

theorem additions_append (b : Builder) (ops ops' : List Operation) :
    b.additions (ops ++ ops') = b.additions ops ++ (b.after ops).additions ops' := by
  induction ops generalizing b with
  | nil => rfl
  | cons op ops ih =>
    rw [List.cons_append, additions, additions, ih, List.append_assoc]
    rfl

theorem length_additions_le (b : Builder) (ops : List Operation) :
    (b.additions ops).length ≤ ops.length := by
  induction ops generalizing b with
  | nil => exact Nat.le_refl _
  | cons op ops ih =>
    have hrest := ih (b.perform op).builder
    have hop : (op.addition? b).toList.length ≤ 1 := by
      cases op.addition? b <;> simp
    rw [additions, List.length_append, List.length_cons]
    omega

theorem Holds.perform_framed (hb : b.Holds h body) {op : Operation} (hop : op.framed) :
    (∃ (d : Draft) (r : Record) (w : BitVec 16) (notes : List Snapshot), op = .add d ∧
      (b.add d).result = .ok notes ∧ r.Writes d b ∧ w.toNat = (body ++ r.encode).length ∧
      (b.add d).builder.Holds (h.redeclare w) (body ++ r.encode)) ∨
    (op.addition? b = none ∧ ∃ w, (b.perform op).builder.Holds (h.redeclare w) body) := by
  cases op with
  | add d =>
    rcases add_cases hb d with ⟨r, w, notes, hok, hwrites, hw, hout⟩ | ⟨e, herr, hout⟩
    · exact Or.inl ⟨d, r, w, notes, rfl, hok, hwrites, hw, hout⟩
    · exact Or.inr ⟨by simp [Operation.addition?, herr], h.length, hout⟩
  | append bytes => cases hop
  | setDeclaredLength n => exact Or.inr ⟨rfl, hb.setDeclaredLength n⟩
  | finish => exact Or.inr ⟨rfl, hb.builder_finish⟩

theorem Holds.after_framed (hb : b.Holds h body) (hbody : body.length < 2 ^ 16)
    {ops : List Operation} (hops : ∀ op ∈ ops, op.framed) :
    ∃ (w : BitVec 16) (rs : List Record),
      (b.after ops).Holds (h.redeclare w) (body ++ rs.flatMap Record.encode) ∧
      (body ++ rs.flatMap Record.encode).length < 2 ^ 16 ∧ Laid h body (b.additions ops) rs := by
  induction ops generalizing b h body with
  | nil => exact ⟨h.length, [], by simpa [after] using hb, by simpa using hbody, .nil body⟩
  -- The rest of the run starts behind the record of this operation, if it has one.
  | cons op ops ih =>
    have hrest : ∀ op ∈ ops, op.framed := fun op hop => hops op (List.mem_cons_of_mem _ hop)
    rcases hb.perform_framed (hops op List.mem_cons_self) with
      ⟨d, r, w, notes, rfl, hok, hwrites, hw, hout⟩ | ⟨hadd, w, hout⟩
    · obtain ⟨w', rs, hafter, hlen, hlaid⟩ := ih hout (hw ▸ w.isLt) hrest
      rw [List.append_assoc, ← List.flatMap_cons] at hafter hlen
      refine ⟨w', r :: rs, hafter, hlen, ?_⟩
      rw [additions, addition?_of_ok hok]
      exact .cons ⟨h.length, hb⟩ hwrites hlaid.redeclare
    · obtain ⟨w', rs, hafter, hlen, hlaid⟩ := ih hout hbody hrest
      refine ⟨w', rs, hafter, hlen, ?_⟩
      rw [additions, hadd]
      exact hlaid.redeclare

end Builder

namespace Message

variable {m : Message} {before after : List UInt8} {r : Record}

def padding (m : Message) (s : Span) : List UInt8 := (m.buffer.extract s.valueStop s.stop).toList

theorem toList_extract (m : Message) (i j : Nat) :
    (m.buffer.extract i j).toList = (m.bytes.drop i).take (j - i) := by
  rw [Array.toList_extract, List.extract_eq_take_drop]
  rfl

theorem before_span (hm : m.bytes = before ++ (r.encode ++ after)) :
    m.before (r.span before.length) = before := by
  rw [Message.before, toList_extract, hm]
  simp [Record.span]

theorem drop_valueStart (hm : m.bytes = before ++ (r.encode ++ after)) :
    m.bytes.drop (r.span before.length).valueStart = r.value ++ (r.padding ++ after) := by
  have hsplit : m.bytes = before ++ (BigEndian.encode 2 r.type.toNat ++
      BigEndian.encode 2 r.value.length) ++ (r.value ++ (r.padding ++ after)) := by
    simp only [hm, Record.encode, List.append_assoc]
  have hstart : (r.span before.length).valueStart = (before ++ (BigEndian.encode 2 r.type.toNat ++
      BigEndian.encode 2 r.value.length)).length := by
    simp [Span.valueStart, Record.span]
  rw [hsplit, hstart, List.drop_left]

theorem value_span (hm : m.bytes = before ++ (r.encode ++ after)) :
    m.value (r.span before.length) = r.value := by
  have hlen : (r.span before.length).valueStop - (r.span before.length).valueStart =
      r.value.length := by
    rw [Span.valueStop, Nat.add_sub_cancel_left]
    rfl
  rw [Message.value, toList_extract, drop_valueStart hm, hlen, List.take_left]

theorem padding_span (hm : m.bytes = before ++ (r.encode ++ after)) :
    m.padding (r.span before.length) = r.padding := by
  have hdrop : m.bytes.drop (r.span before.length).valueStop = r.padding ++ after := by
    have hvalue := congrArg (List.drop r.value.length) (drop_valueStart hm)
    rwa [List.drop_drop, List.drop_left] at hvalue
  rw [padding, toList_extract, hdrop, Record.stop_sub_valueStop, List.take_left]

/-- The attribute at the span is the addition: its value is what the script appended, and zeros
fill it up. -/
structure Carries (m : Message) (s : Span) (a : Builder.Addition) : Prop where
  type : a.draft.type = .integer s.type.toNat
  length : a.draft.length = .integer s.length
  value : m.value s = a.draft.valueOn a.site
  padding : m.padding s = List.replicate (s.stop - s.valueStop) 0

theorem carries_span {a : Builder.Addition} (hm : m.bytes = before ++ (r.encode ++ after))
    (hr : r.Writes a.draft a.site) : m.Carries (r.span before.length) a := by
  refine ⟨hr.type, hr.length, (value_span hm).trans hr.value, ?_⟩
  rw [padding_span hm, Record.stop_sub_valueStop]
  exact hr.padding

theorem forall₂_carries {h : Header} {body : List UInt8} {as : List Builder.Addition}
    {rs : List Record} (hl : Builder.Laid h body as rs)
    (hm : m.bytes = before ++ rs.flatMap Record.encode) :
    List.Forall₂ m.Carries (Record.spans before.length rs) as := by
  induction hl generalizing before with
  | nil => exact .nil
  | @cons _ a as r rs _ hwrites _ ih =>
    rw [List.flatMap_cons] at hm
    have hnext : m.bytes = before ++ r.encode ++ rs.flatMap Record.encode := by
      rw [hm, List.append_assoc]
    have hrest := ih hnext
    rw [List.length_append, Record.length_encode] at hrest
    exact .cons (carries_span hm hwrites) hrest

end Message

namespace Builder

variable {b b' : Builder} {h : Header} {body : List UInt8}

theorem Alike.holds (hab : Alike b b') (hb : b.Holds h body) : b'.Holds h body :=
  ⟨hab.messageClass ▸ hb.messageClass, hab.method ▸ hb.method,
    hab.transactionId ▸ hb.transactionId, hab.bytes ▸ hb.bytes_eq⟩

theorem add_redeclared {w : BitVec 16} (hb : b.Holds h body) (hb' : b'.Holds (h.redeclare w) body)
    {d : Draft} {notes : List Snapshot} (hok : (b.add d).result = .ok notes) :
    Alike (b.add d).builder (b'.add d).builder := by
  have hlen : b.length = b'.length := hb.length_eq.trans hb'.length_eq.symm
  simp only [add, frame, hlen] at hok ⊢
  cases hf : Frame.ofNumbers b'.length d.type d.length with
  | error e => rw [hf] at hok; cases hok
  | ok f =>
    have hout := Alike.run d.script ((hb.enter f).alike (hb'.enter f))
    simp only [hf, hout.result, hout.builder.length] at hok ⊢
    cases hr : (d.script.run (b'.enter f)).result with
    | error e => rw [hr] at hok; cases hok
    | ok notes' =>
      simp only [hr] at hok ⊢
      split at hok
      next hwritten =>
        simp only [if_pos hwritten]
        exact hout.builder.leave f
      next => cases hok

theorem finish_redeclared {w w' : BitVec 16} (hb : b.Holds (h.redeclare w) body)
    (hb' : b'.Holds (h.redeclare w') body) : b.finish.result = b'.finish.result := by
  have hlen : b.length = b'.length := hb.length_eq.trans hb'.length_eq.symm
  simp only [finish, setDeclaredLength, hlen]
  cases (Number.integer ((b'.length : Int) - headerSize)).fit 16 with
  | error e => rfl
  | ok declared =>
    dsimp only
    rw [(hb.declare declared).bytes_eq, (hb'.declare declared).bytes_eq]
    rfl

/-- A framed run and the run of its successful additions alone end in the same body. -/
theorem after_additions {w : BitVec 16} (hb : b.Holds h body) (hb' : b'.Holds (h.redeclare w) body)
    {ops : List Operation} (hops : ∀ op ∈ ops, op.framed) :
    ∃ (w₁ w₂ : BitVec 16) (body' : List UInt8),
      (b.after ops).Holds (h.redeclare w₁) body' ∧
      (b'.after ((b.additions ops).map fun a => .add a.draft)).Holds (h.redeclare w₂) body' := by
  induction ops generalizing b b' h body w with
  | nil => exact ⟨h.length, w, body, hb, hb'⟩
  | cons op ops ih =>
    have hrest : ∀ op ∈ ops, op.framed := fun op hop => hops op (List.mem_cons_of_mem _ hop)
    rcases hb.perform_framed (hops op List.mem_cons_self) with
      ⟨d, r, w', notes, rfl, hok, -, -, hout⟩ | ⟨hadd, w', hout⟩
    · have halike := add_redeclared hb hb' hok
      obtain ⟨w₁, w₂, body', hall, honly⟩ := ih hout (halike.holds hout) hrest
      rw [additions, addition?_of_ok hok]
      exact ⟨w₁, w₂, body', hall, honly⟩
    · obtain ⟨w₁, w₂, body', hall, honly⟩ := ih hout hb' hrest
      rw [additions, hadd]
      exact ⟨w₁, w₂, body', hall, honly⟩

theorem finish_after_framed (messageClass : MessageClass) (method : Method) (id : TransactionId)
    {ops : List Operation} (hops : ∀ op ∈ ops, op.framed) :
    ∃ (h : Header) (rs : List Record), h.messageClass = messageClass ∧ h.method = method ∧
      h.transactionId = id ∧ h.length.toNat = (rs.flatMap Record.encode).length ∧
      ((fresh messageClass method id).after ops).finish.result =
        .ok (h.encode ++ rs.flatMap Record.encode) ∧
      Laid h [] ((fresh messageClass method id).additions ops) rs := by
  obtain ⟨w, rs, hafter, hlen, hlaid⟩ :=
    (holds_fresh messageClass method id).after_framed (by simp) hops
  rw [List.nil_append] at hafter hlen
  have hw : (BitVec.ofNatLT _ hlen).toNat = (rs.flatMap Record.encode).length := rfl
  refine ⟨_, rs, rfl, rfl, rfl, hw, hafter.finish hw, ?_⟩
  exact Laid.redeclare (w := 0) hlaid

end Builder

namespace Message

open Builder

/-- What is added between framed runs stands at a span of its own in the finished message. -/
theorem exists_span_of_added (messageClass : MessageClass) (method : Method) (id : TransactionId)
    {before after : List Operation} (hbefore : ∀ op ∈ before, op.framed)
    (hafter : ∀ op ∈ after, op.framed) {d : Draft} {notes : List Snapshot}
    (hok : (((fresh messageClass method id).after before).add d).result = .ok notes)
    {limit : Number} (hlimit : limit.Admits
      ((fresh messageClass method id).additions (before ++ .add d :: after)).length) :
    ∃ (bytes : List UInt8) (m : Message) (start : List UInt8) (r : Record) (rest : List UInt8),
      ((fresh messageClass method id).after (before ++ .add d :: after)).finish.result = .ok bytes ∧
      parse limit bytes = .ok m ∧ m.header.transactionId = id ∧
      m.spans[((fresh messageClass method id).additions before).length]? =
        some (r.span start.length) ∧
      r.Writes d ((fresh messageClass method id).after before) ∧
      m.bytes = start ++ (r.encode ++ rest) := by
  have hops : ∀ op ∈ before ++ .add d :: after, op.framed :=
    List.forall_mem_append.2 ⟨hbefore, List.forall_mem_cons.2 ⟨rfl, hafter⟩⟩
  obtain ⟨h, rs, -, -, hid, hlen, hfinish, hlaid⟩ := finish_after_framed messageClass method id hops
  rw [hlaid.length_eq] at hlimit
  have hadded : ((fresh messageClass method id).additions (before ++ .add d :: after))[
      ((fresh messageClass method id).additions before).length]? =
        some ⟨(fresh messageClass method id).after before, d⟩ := by
    rw [additions_append, additions_add_of_ok hok]
    simp
  obtain ⟨before', r, after', w, -, -, hwrites, -, hm, hspan⟩ := hlaid.locate hadded
  exact ⟨_, _, _, r, _, hfinish, parse_encode hlen hlimit, hid, hspan, hwrites, hm⟩

/-- Whatever framed run comes before it, a finished message parses, its spans carry the additions
that succeeded, one each and nothing else, and the failed ones might as well not have been tried. -/
theorem parse_finish_carries_additions (messageClass : MessageClass) (method : Method)
    (id : TransactionId) {ops : List Operation} (hops : ∀ op ∈ ops, op.framed) {limit : Number}
    (hlimit : limit.Admits ((fresh messageClass method id).additions ops).length) :
    create messageClass (.integer method.toNat) id = .ok (fresh messageClass method id) ∧
    ∃ bytes m, ((fresh messageClass method id).after ops).finish.result = .ok bytes ∧
      parse limit bytes = .ok m ∧
      m.header.messageClass = messageClass ∧ m.header.method = method ∧
      m.header.transactionId = id ∧ m.bytes = bytes ∧
      List.Forall₂ m.Carries m.spans ((fresh messageClass method id).additions ops) ∧
      Span.Chained headerSize bytes.length m.spans ∧
      ((fresh messageClass method id).after (((fresh messageClass method id).additions ops).map
        fun a => .add a.draft)).finish.result = .ok bytes := by
  refine ⟨create_eq_ok_iff.2 ⟨method, rfl, rfl⟩, ?_⟩
  obtain ⟨h, rs, hclass, hmethod, hid, hlen, hfinish, hlaid⟩ :=
    finish_after_framed messageClass method id hops
  have hcount := hlaid.length_eq
  rw [hcount] at hlimit
  have hparse := parse_encode hlen hlimit
  refine ⟨_, _, hfinish, hparse, hclass, hmethod, hid, rfl, ?_, ?_, ?_⟩
  · have hcarries := forall₂_carries hlaid
      (m := ⟨(h.encode ++ rs.flatMap Record.encode).toArray, h, Record.spans headerSize rs⟩) rfl
    rwa [Header.length_encode] at hcarries
  · rw [List.length_append, Header.length_encode]
    exact Record.chained_spans headerSize rs
  · obtain ⟨w, w', body, hall, honly⟩ := after_additions (holds_fresh messageClass method id)
      (holds_fresh messageClass method id : Holds _ (Header.redeclare _ 0) _) hops
    rw [← finish_redeclared hall honly]
    exact hfinish

/-- An attribute, one that fails, a wrong length, and one with an attribute in its value. -/
def sampleRun : List Operation :=
  [.add (.raw (.integer 0x8022) [0x61, 0x62, 0x63]), .add shortNested,
    .setDeclaredLength (.integer 7),
    .add ⟨.integer 0x7001, .integer 9, .append [1] (.add (.integer 0x7002) (.integer 3)
      (.append [2, 3, 4] .done) .done)⟩]

theorem parse_finish_carries_additions_sample :
    ∃ bytes m, ((fresh .request 1 ⟨123⟩).after sampleRun).finish.result = .ok bytes ∧
      parse (.integer 2) bytes = .ok m ∧ m.header.method = 1 ∧ m.spans.length = 2 := by
  have hops : ∀ op ∈ sampleRun, op.framed := by simp [sampleRun, Operation.framed]
  have hcount : ((fresh .request 1 ⟨123⟩).additions sampleRun).length = 2 := by decide +kernel
  have hlimit : (Number.integer 2).Admits ((fresh .request 1 ⟨123⟩).additions sampleRun).length := by
    rw [hcount]
    decide
  obtain ⟨-, bytes, m, hfinish, hparse, -, hmethod, -, -, hcarries, -, -⟩ :=
    parse_finish_carries_additions .request 1 ⟨123⟩ hops hlimit
  exact ⟨bytes, m, hfinish, hparse, hmethod, hcarries.length_eq.trans hcount⟩

end Message

end Stun
