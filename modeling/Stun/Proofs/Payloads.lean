import Mathlib.Data.List.Forall2
import Stun.Proofs.ValueCodec

/-!
# What a receiver gets

A payload is a value as the sender gives it. The attributes of a kind in a finished message have the
payloads that were added under the kind, in their order and each as it was given; an address comes
back in its canonical text. What else was added, or failed, makes no difference.
-/
namespace Stun

theorem exists_of_map_eq_ok {ε α β : Type} {x : Except ε α} {f : α → β} {b : β}
    (h : x.map f = .ok b) : ∃ a, x = .ok a ∧ f a = b := by
  cases x with
  | error e => cases h
  | ok a => exact ⟨a, rfl, Except.ok.inj h⟩

theorem fitInt_eq_ok_iff {bits : Nat} {n : Int} {word : BitVec bits} :
    fitInt bits n = .ok word ↔ n = word.toNat := by
  rw [fitInt, ← fitInt?_eq_some_iff]
  cases fitInt? bits n <;> simp

theorem Number.fit?_eq_some_iff {bits : Nat} {x : Number} {word : BitVec bits} :
    x.fit? bits = some word ↔ x = .integer word.toNat := by
  rw [← fit_eq_ok_iff, fit]
  cases x.fit? bits <;> simp

theorem Endpoint.ofText_eq_ok {address : String} {port : Number} {e : Endpoint}
    (h : ofText address port = .ok e) :
    IpAddress.parse address = .ok e.address ∧ port = .integer e.port.toNat := by
  unfold ofText at h
  split at h
  next => cases h
  next word hword =>
    obtain ⟨ip, hparse, rfl⟩ := exists_of_map_eq_ok h
    exact ⟨hparse, Number.fit?_eq_some_iff.1 hword⟩

theorem TypeList.ofNumbers_eq_ok {numbers : List Number} {types : List (BitVec 16)}
    (h : ofNumbers numbers = .ok types) : numbers = types.map fun type => .integer type.toNat := by
  induction numbers generalizing types with
  | nil => cases h; rfl
  | cons x numbers ih =>
    rw [ofNumbers, List.mapM_cons] at h
    cases hx : x.fit? 16 with
    | none => simp [hx] at h; cases h
    | some type =>
      simp only [hx] at h
      cases hrest : ofNumbers numbers with
      | error e =>
        rw [ofNumbers] at hrest
        rw [hrest] at h
        cases h
      | ok rest =>
        have hnumbers := ih hrest
        rw [ofNumbers] at hrest
        rw [hrest] at h
        cases h
        rw [List.map_cons, ← hnumbers, Number.fit?_eq_some_iff.1 hx]

/-- A value as a sender gives it, with the kind of attribute it is given to. -/
inductive Payload
  | address (kind : AddressKind) (written : String) (port : Number)
  | text (kind : TextKind) (written : String)
  | types (numbers : List Number)
  | priority (value : Number)
  | useCandidate
  | tieBreaker (role : Role) (value : Int)
deriving DecidableEq

namespace Payload

def kind : Payload → Kind
  | .address kind _ _ => .address kind
  | .text kind _ => .text kind
  | .types _ => .unknownAttributes
  | .priority _ => .priority
  | .useCandidate => .useCandidate
  | .tieBreaker role _ => .tieBreaker role

def toAttribute : Payload → Except Error Attribute
  | .address kind written port => Attribute.ofEndpoint kind written port
  | .text kind written => Attribute.ofText kind written
  | .types numbers => Attribute.ofTypes numbers
  | .priority value => Attribute.ofPriority value
  | .useCandidate => .ok .useCandidate
  | .tieBreaker role value => Attribute.ofTieBreaker role value

/-- The same value with the canonical text of its address. -/
def canonical : Payload → Payload
  | .address kind written port =>
    match IpAddress.parse written with
    | .ok ip => .address kind ip.text port
    | .error _ => .address kind written port
  | p => p

end Payload

def Attribute.payload? : Attribute → Option Payload
  | .address kind endpoint =>
    some (.address kind endpoint.address.text (.integer endpoint.port.toNat))
  | .text kind value => some (.text kind value.text)
  | .unknownAttributes types => some (.types (types.map fun type => .integer type.toNat))
  | .priority value => some (.priority (.integer value.toNat))
  | .useCandidate => some .useCandidate
  | .tieBreaker role value => some (.tieBreaker role value.toNat)
  | .errorCode _ | .fingerprint | .integrity _ => none

namespace Payload

theorem payload?_toAttribute {p : Payload} {a : Attribute} (h : p.toAttribute = .ok a) :
    a.kind = p.kind ∧ a.payload? = some p.canonical := by
  cases p with
  | address kind written port =>
    change (Endpoint.ofText written port).map _ = _ at h
    obtain ⟨e, he, rfl⟩ := exists_of_map_eq_ok h
    obtain ⟨hparse, rfl⟩ := Endpoint.ofText_eq_ok he
    refine ⟨rfl, ?_⟩
    simp only [Attribute.payload?, canonical, hparse]
  | text kind text =>
    change (BoundedText.ofString kind text).map _ = _ at h
    obtain ⟨t, ht, rfl⟩ := exists_of_map_eq_ok h
    unfold BoundedText.ofString at ht
    split at ht
    · cases ht
      exact ⟨rfl, rfl⟩
    · cases ht
  | types types =>
    change (TypeList.ofNumbers types).map _ = _ at h
    obtain ⟨ts, hts, rfl⟩ := exists_of_map_eq_ok h
    refine ⟨rfl, ?_⟩
    rw [Attribute.payload?, ← TypeList.ofNumbers_eq_ok hts]
    rfl
  | priority value =>
    change (value.fit 32).map _ = _ at h
    obtain ⟨word, hword, rfl⟩ := exists_of_map_eq_ok h
    refine ⟨rfl, ?_⟩
    rw [Attribute.payload?, ← Number.fit_eq_ok_iff.1 hword]
    rfl
  | useCandidate =>
    cases h
    exact ⟨rfl, rfl⟩
  | tieBreaker role value =>
    change (fitInt 64 value).map _ = _ at h
    obtain ⟨word, hword, rfl⟩ := exists_of_map_eq_ok h
    refine ⟨rfl, ?_⟩
    rw [Attribute.payload?, ← fitInt_eq_ok_iff.1 hword]
    rfl

end Payload

namespace Attribute

variable {a : Attribute} {p : Payload}

theorem exists_wire (h : a.payload? = some p) (id : TransactionId) :
    ∃ bytes, a.wire? id = some bytes := by
  cases a with
  | address kind endpoint => cases kind <;> exact ⟨_, rfl⟩
  | errorCode _ | fingerprint | integrity _ => cases h
  | _ => exact ⟨_, rfl⟩

theorem kind_ne_errorCode (h : a.payload? = some p) : a.kind ≠ .errorCode := by
  cases a with
  | errorCode _ => cases h
  | _ => exact Kind.noConfusion

end Attribute

/-- The attribute that was added is one made of the payload. -/
def Builder.Addition.Gives (a : Builder.Addition) (p : Payload) : Prop :=
  ∃ made key, p.toAttribute = .ok made ∧ a.draft = made.draft key

namespace Message

open Builder

/-- The span has the type of the addition, and whatever payload was added is read there. -/
structure Delivers (m : Message) (s : Span) (a : Addition) : Prop where
  type : a.draft.type = .integer s.type.toNat
  decode : ∀ p, a.Gives p → ∀ key, ∃ found,
    m.decodeAt p.kind key s = .ok found ∧ found.payload? = some p.canonical

variable {m : Message} {before after : List UInt8} {r : Record} {a : Addition}

theorem delivers_span (hm : m.bytes = before ++ (r.encode ++ after))
    (hid : a.site.transactionId = m.header.transactionId) (hr : r.Writes a.draft a.site) :
    m.Delivers (r.span before.length) a := by
  refine ⟨hr.type, ?_⟩
  rintro p ⟨made, key', hmade, hdraft⟩ key
  obtain ⟨hkind, hpayload⟩ := Payload.payload?_toAttribute hmade
  obtain ⟨bytes, hwire⟩ := Attribute.exists_wire hpayload a.site.transactionId
  rw [hdraft] at hr
  have hvalue : m.value (r.span before.length) = bytes :=
    (value_span hm).trans (hr.value_wire hwire)
  refine ⟨made, ?_, hpayload⟩
  rw [← hkind]
  refine decodeAt_wire (Attribute.kind_ne_errorCode hpayload) ?_
  rw [hvalue, ← hid, hwire]

theorem forall₂_delivers {h : Header} {body : List UInt8} {as : List Addition} {rs : List Record}
    (hl : Laid h body as rs) (hm : m.bytes = before ++ rs.flatMap Record.encode)
    (hid : m.header.transactionId = h.transactionId) :
    List.Forall₂ m.Delivers (Record.spans before.length rs) as := by
  induction hl generalizing before with
  | nil => exact .nil
  | @cons _ a as r rs hsite hwrites _ ih =>
    obtain ⟨w, hsite⟩ := hsite
    rw [List.flatMap_cons] at hm
    have hnext : m.bytes = before ++ r.encode ++ rs.flatMap Record.encode := by
      rw [hm, List.append_assoc]
    have hrest := ih hnext
    rw [List.length_append, Record.length_encode] at hrest
    exact .cons (delivers_span hm (hsite.transactionId.trans hid.symm) hwrites) hrest

variable {kind : Kind} {spans : List Span} {as : List Addition}

theorem forall₂_delivers_filter (hd : List.Forall₂ m.Delivers spans as) (type : BitVec 16) :
    List.Forall₂ m.Delivers (spans.filter (·.type = type))
      (as.filter (·.draft.type = .integer type.toNat)) := by
  refine List.rel_filter (fun s a ha => ?_) hd
  simp only [decide_eq_true_eq, ha.type, Number.integer.injEq, Int.ofNat_inj, BitVec.toNat_inj]

theorem mapM_decodeAt (hd : List.Forall₂ m.Delivers spans as) {payloads : List Payload}
    (hgives : List.Forall₂ Addition.Gives as payloads) (hkind : ∀ p ∈ payloads, p.kind = kind)
    (key : Key) :
    ∃ found, spans.mapM (m.decodeAt kind key) = .ok found ∧
      found.map (·.payload?) = payloads.map (some ·.canonical) := by
  induction hd generalizing payloads with
  | nil =>
    cases hgives
    exact ⟨[], rfl, rfl⟩
  | @cons s a spans as hdelivers _ ih =>
    cases hgives with
    | @cons _ p _ payloads hgive hgives =>
      obtain ⟨rest, hrest, hpayloads⟩ :=
        ih hgives fun p hp => hkind p (List.mem_cons_of_mem _ hp)
      obtain ⟨first, hdecode, hpayload⟩ := hdelivers.decode p hgive key
      rw [hkind p List.mem_cons_self] at hdecode
      refine ⟨first :: rest, ?_, ?_⟩
      · rw [List.mapM_cons, hdecode, hrest]
        rfl
      · rw [List.map_cons, List.map_cons, hpayload, hpayloads]

theorem attribute?_of_attributes {key : Key} {found : List Attribute}
    (h : m.attributes kind key = .ok found) : m.attribute? kind key = .ok found.head? := by
  have hfirst : m.find? kind.code = (m.spans.filter (·.type = kind.code)).head? :=
    List.head?_filter.symm
  rw [attributes] at h
  rw [attribute?, hfirst]
  cases hspans : m.spans.filter (·.type = kind.code) with
  | nil =>
    rw [hspans] at h
    cases h
    rfl
  | cons s spans =>
    rw [hspans, List.mapM_cons] at h
    cases hdecode : m.decodeAt kind key s with
    | error e => rw [hdecode] at h; cases h
    | ok first =>
      rw [hdecode, ok_bind] at h
      cases hrest : spans.mapM (m.decodeAt kind key) with
      | error e => rw [hrest] at h; cases h
      | ok rest =>
        rw [hrest] at h
        cases h
        simp only [List.head?_cons, hdecode]
        rfl

/-- When all that was added under the type of a kind are attributes of the kind, a receiver gets
their payloads, each once and in order, and the first of them as the first attribute. -/
theorem attributes_of_added {messageClass : MessageClass} {number : Number} {id : TransactionId}
    {b : Builder} (hb : create messageClass number id = .ok b) {ops : List Operation}
    (hops : ∀ op ∈ ops, op.framed) {limit : Number}
    (hlimit : limit.Admits (b.additions ops).length) :
    ∃ bytes m, (b.after ops).finish.result = .ok bytes ∧ parse limit bytes = .ok m ∧
      ∀ (kind : Kind) (payloads : List Payload), (∀ p ∈ payloads, p.kind = kind) →
        List.Forall₂ Addition.Gives
          ((b.additions ops).filter (·.draft.type = .integer kind.code.toNat)) payloads →
        ∀ key, ∃ found, m.attributes kind key = .ok found ∧
          found.map (·.payload?) = payloads.map (some ·.canonical) ∧
          m.attribute? kind key = .ok found.head? := by
  obtain ⟨method, -, rfl⟩ := create_eq_ok_iff.1 hb
  obtain ⟨h, rs, -, -, -, hlen, hfinish, hlaid⟩ := finish_after_framed messageClass method id hops
  rw [hlaid.length_eq] at hlimit
  refine ⟨_, _, hfinish, parse_encode hlen hlimit, ?_⟩
  intro kind payloads hkind hgives key
  have hdelivers := forall₂_delivers hlaid
    (m := ⟨(h.encode ++ rs.flatMap Record.encode).toArray, h, Record.spans headerSize rs⟩) rfl rfl
  rw [Header.length_encode] at hdelivers
  obtain ⟨found, hfound, hpayloads⟩ :=
    mapM_decodeAt (forall₂_delivers_filter hdelivers kind.code) hgives hkind key
  exact ⟨found, hfound, hpayloads, attribute?_of_attributes hfound⟩

def firstMapped : Attribute :=
  .address .xorMapped
    ⟨.v6 ⟨[0x20, 0x01, 0x0d, 0xb8, 0, 0, 0, 0, 0, 0, 0, 0, 0, 0, 0, 1], rfl⟩, 32853⟩

def secondMapped : Attribute := .address .xorMapped ⟨.v4 ⟨[192, 0, 2, 1], rfl⟩, 80⟩

/-- Between the two addresses, an attribute of their type that announces no length. -/
def mappedRun : List Operation :=
  [.add (firstMapped.draft ⟨[]⟩), .add ⟨.integer 0x0020, .nan, .done⟩,
    .setDeclaredLength (.integer 7), .add (secondMapped.draft ⟨[]⟩)]

def mappedPayloads : List Payload :=
  [.address .xorMapped "[2001:DB8:0:0:0:0:0:1]" (.integer 32853),
    .address .xorMapped "192.0.02.001" (.integer 80)]

theorem attributes_of_added_mapped :
    ∃ bytes m found, ((fresh .request 1 ⟨123⟩).after mappedRun).finish.result = .ok bytes ∧
      parse (.integer 2) bytes = .ok m ∧
      m.attributes (.address .xorMapped) ⟨[]⟩ = .ok found ∧
      found.map (·.payload?) = [some (.address .xorMapped "2001:db8::1" (.integer 32853)),
        some (.address .xorMapped "192.0.2.1" (.integer 80))] ∧
      m.attribute? (.address .xorMapped) ⟨[]⟩ = .ok found.head? := by
  have hnew : create .request (.integer 1) ⟨123⟩ = .ok (fresh .request 1 ⟨123⟩) :=
    create_eq_ok_iff.2 ⟨1, rfl, rfl⟩
  have hops : ∀ op ∈ mappedRun, op.framed := by simp [mappedRun, Operation.framed]
  obtain ⟨w, body, hlen, hfirst, hout⟩ :=
    add_wire ⟨[]⟩ (holds_fresh .request 1 ⟨123⟩) (a := firstMapped) rfl (by decide)
  have hskip (b₁ : Builder) (op : Operation) :
      b₁.additions [.add ⟨.integer 0x0020, .nan, .done⟩, .setDeclaredLength (.integer 7), op] =
        (b₁.declare 7).additions [op] := rfl
  obtain ⟨b₁, hb₁⟩ : ∃ b₁, b₁ =
      ((fresh .request 1 ⟨123⟩).add (firstMapped.draft ⟨[]⟩)).builder := ⟨_, rfl⟩
  rw [← hb₁] at hout
  obtain ⟨-, -, -, hsecond, -⟩ :=
    add_wire ⟨[]⟩ (hout.declare 7) (a := secondMapped) rfl (by rw [hlen]; decide)
  have hadditions : (fresh .request 1 ⟨123⟩).additions mappedRun =
      [⟨fresh .request 1 ⟨123⟩, firstMapped.draft ⟨[]⟩⟩,
        ⟨b₁.declare 7, secondMapped.draft ⟨[]⟩⟩] := by
    rw [mappedRun, additions_add_of_ok hfirst, ← hb₁, hskip, additions_add_of_ok hsecond,
      additions]
  have hlimit : (Number.integer 2).Admits ((fresh .request 1 ⟨123⟩).additions mappedRun).length := by
    rw [hadditions]
    exact Or.inr rfl
  obtain ⟨bytes, m, hfinish, hparse, hdelivered⟩ := attributes_of_added hnew hops hlimit
  rw [hadditions] at hdelivered
  have hkind : ∀ p ∈ mappedPayloads, p.kind = .address .xorMapped := by
    simp [mappedPayloads, Payload.kind]
  have hgives : List.Forall₂ Addition.Gives
      [⟨fresh .request 1 ⟨123⟩, firstMapped.draft ⟨[]⟩⟩, ⟨b₁.declare 7, secondMapped.draft ⟨[]⟩⟩]
      mappedPayloads :=
    .cons ⟨firstMapped, ⟨[]⟩, rfl, rfl⟩ (.cons ⟨secondMapped, ⟨[]⟩, rfl, rfl⟩ .nil)
  obtain ⟨found, hfound, hpayloads, hhead⟩ := hdelivered _ mappedPayloads hkind hgives ⟨[]⟩
  refine ⟨bytes, m, found, hfinish, hparse, hfound, hpayloads.trans ?_, hhead⟩
  rfl

end Message

end Stun
