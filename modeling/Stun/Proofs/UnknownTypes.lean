import Mathlib.Data.List.Perm.Subperm
import Stun.Proofs.Payloads
import Stun.Proofs.Scanning

/-!
# Answering unknown types

The types that a receiver must understand and does not are listed in the order in which they first
occur, each once. A message has room for so few attributes that the list of them always fits into an
attribute of its own, which reads back as the same list.
-/
namespace Stun

section FirstOccurrences

variable {α : Type} [BEq α] [LawfulBEq α]

theorem idxOf_lt_of_filter {p : α → Bool} {l : List α} {a b : α} (ha : p a) (hb : p b)
    (h : (l.filter p).idxOf a < (l.filter p).idxOf b) : l.idxOf a < l.idxOf b := by
  induction l with
  | nil => exact absurd h (Nat.lt_irrefl _)
  | cons c l ih =>
    rw [List.idxOf_cons, List.idxOf_cons]
    by_cases hc : p c
    · rw [List.filter_cons_of_pos hc, List.idxOf_cons, List.idxOf_cons] at h
      cases hca : c == a <;> cases hcb : c == b <;>
        simp only [hca, hcb, cond_true, cond_false] at h ⊢ <;> omega
    · -- The member that is taken out is neither of the two.
      have hne {x : α} (hx : p x) : (c == x) = false :=
        beq_eq_false_iff_ne.2 fun hcx => hc (hcx ▸ hx)
      rw [List.filter_cons_of_neg hc] at h
      rw [hne ha, hne hb, cond_false, cond_false]
      exact Nat.succ_lt_succ (ih h)

theorem pairwise_idxOf_eraseDups (l : List α) :
    l.eraseDups.Pairwise fun a b => l.idxOf a < l.idxOf b := by
  induction hn : l.length using Nat.strongRecOn generalizing l with
  | ind n ih =>
    cases l with
    | nil => exact .nil
    | cons a l =>
      have hshort : (l.filter fun b => !b == a).length < n := by
        rw [← hn, List.length_cons]
        exact Nat.lt_succ_of_le (List.length_filter_le _ _)
      -- Members of the tail differ from the head, which stands before them.
      have hother {b : α} (hb : b ∈ (l.filter fun b => !b == a).eraseDups) :
          (!b == a) = true ∧ (a == b) = false := by
        have hne := (List.mem_filter.1 (List.mem_eraseDups.1 hb)).2
        refine ⟨hne, ?_⟩
        rw [BEq.comm, ← Bool.not_eq_true', hne]
      have htail := ih _ hshort _ rfl
      rw [List.eraseDups_cons]
      refine List.pairwise_cons.2 ⟨fun b hb => ?_, ?_⟩
      · rw [List.idxOf_cons_self, List.idxOf_cons, (hother hb).2, cond_false]
        exact Nat.succ_pos _
      · refine htail.imp_of_mem fun {b c} hb hc hbc => ?_
        have hlt := idxOf_lt_of_filter (p := fun b => !b == a) (hother hb).1 (hother hc).1 hbc
        rw [List.idxOf_cons, List.idxOf_cons, (hother hb).2, (hother hc).2, cond_false, cond_false]
        exact Nat.succ_lt_succ hlt

end FirstOccurrences

/-- The types among the numbers that a caller names. -/
def typesOf (numbers : List Number) : List (BitVec 16) := numbers.filterMap (·.fit? 16)

theorem mem_typesOf {numbers : List Number} {t : BitVec 16} :
    t ∈ typesOf numbers ↔ .integer t.toNat ∈ numbers := by
  simp only [typesOf, List.mem_filterMap, Number.fit?_eq_some_iff, exists_eq_right]

namespace Message

variable {m : Message} {known : List (BitVec 16)} {t : BitVec 16}

theorem mem_unknownComprehensionRequired :
    t ∈ m.unknownComprehensionRequired known ↔
      t.toNat < 0x8000 ∧ (∃ s ∈ m.spans, s.type = t) ∧ t ∉ known := by
  simp only [unknownComprehensionRequired, List.mem_eraseDups, List.mem_filter, List.mem_map,
    Bool.and_eq_true, decide_eq_true_eq, Bool.not_eq_true', List.contains_eq_mem,
    decide_eq_false_iff_not]
  exact and_left_comm

theorem pairwise_unknownComprehensionRequired (m : Message) (known : List (BitVec 16)) :
    (m.unknownComprehensionRequired known).Pairwise fun t t' =>
      (m.spans.map (·.type)).idxOf t < (m.spans.map (·.type)).idxOf t' := by
  refine (pairwise_idxOf_eraseDups _).imp_of_mem fun {t t'} ht ht' hlt => ?_
  exact idxOf_lt_of_filter (List.mem_filter.1 (List.mem_eraseDups.1 ht)).2
    (List.mem_filter.1 (List.mem_eraseDups.1 ht')).2 hlt

theorem nodup_unknownComprehensionRequired (m : Message) (known : List (BitVec 16)) :
    (m.unknownComprehensionRequired known).Nodup :=
  (pairwise_unknownComprehensionRequired m known).imp fun hlt heq => by
    rw [heq] at hlt
    exact Nat.lt_irrefl _ hlt

theorem length_unknownComprehensionRequired_le (m : Message) (known : List (BitVec 16)) :
    (m.unknownComprehensionRequired known).length ≤ m.spans.length := by
  have hsub : m.unknownComprehensionRequired known ⊆ m.spans.map (·.type) := fun t ht =>
    List.mem_map.2 (mem_unknownComprehensionRequired.1 ht).2.1
  have hle := ((nodup_unknownComprehensionRequired m known).subperm hsub).length_le
  rwa [List.length_map] at hle

open Builder

theorem attribute?_of_only_added {messageClass : MessageClass} {number : Number}
    {id : TransactionId} {b : Builder} (hb : create messageClass number id = .ok b) {a : Attribute}
    (hcode : a.kind ≠ .errorCode) {bytes : List UInt8} (hwire : a.wire? id = some bytes)
    (key key' : Key) (hroom : attributeHeaderSize + padded a.length < 2 ^ 16) {limit : Number}
    (hlimit : limit.Admits 1) :
    (b.add (a.draft key)).result = .ok [] ∧
      ∃ data m, (b.add (a.draft key)).builder.finish.result = .ok data ∧ parse limit data = .ok m ∧
        m.attribute? a.kind key' = .ok (some a) := by
  have hlength : b.length = headerSize := by
    obtain ⟨method, -, rfl⟩ := create_eq_ok_iff.1 hb
    exact (holds_fresh messageClass method id).length_eq
  have hnone : ∀ op ∈ ([] : List Operation), op.framed := List.forall_mem_nil _
  obtain ⟨hok, data, m, s, hfinish, hparse, hspan, htype, -, hdecode⟩ :=
    decodeAt_of_added hb hnone hnone hcode hwire key key' (by rw [after, hlength]; omega)
      (hlimit.of_le (length_additions_le b _))
  rw [List.nil_append, after_add, after] at hfinish
  rw [additions, List.length_nil, ← List.head?_eq_getElem?] at hspan
  have hfirst : m.find? a.kind.code = some s := by
    obtain ⟨rest, hrest⟩ : ∃ rest, m.spans = s :: rest := List.head?_eq_some_iff.1 hspan
    rw [find?, hrest]
    exact List.find?_cons_of_pos (decide_eq_true htype)
  refine ⟨hok, data, m, hfinish, hparse, ?_⟩
  simp only [attribute?, hfirst, hdecode, Except.map]

/-- The unknown types of a message are those below 0x8000 that it has and the receiver does not name,
each once and in the order of their first occurrence. However many there are, the attribute that
lists them can be made and be added to a new builder, and the same types are read from the finished
message. -/
theorem unknownComprehensionRequired_answer {limit : Number} {data : List UInt8}
    (hp : parse limit data = .ok m) (known : List Number) :
    let unknown := m.unknownComprehensionRequired (typesOf known)
    (∀ t, t ∈ unknown ↔
      t.toNat < 0x8000 ∧ (∃ s ∈ m.spans, s.type = t) ∧ .integer t.toNat ∉ known) ∧
    unknown.Nodup ∧
    (unknown.Pairwise fun t t' =>
      (m.spans.map (·.type)).idxOf t < (m.spans.map (·.type)).idxOf t') ∧
    Attribute.ofTypes (unknown.map fun t => .integer t.toNat) = .ok (.unknownAttributes unknown) ∧
    ∀ (messageClass : MessageClass) (number : Number) (id : TransactionId) (b : Builder),
      create messageClass number id = .ok b → ∀ (key key' : Key) (limit' : Number),
        limit'.Admits 1 →
        (b.add ((Attribute.unknownAttributes unknown).draft key)).result = .ok [] ∧
        ∃ answer m', (b.add ((Attribute.unknownAttributes unknown).draft key)).builder.finish.result =
            .ok answer ∧
          parse limit' answer = .ok m' ∧
          m'.attribute? .unknownAttributes key' = .ok (some (.unknownAttributes unknown)) := by
  intro unknown
  refine ⟨fun t => ?_, nodup_unknownComprehensionRequired m _,
    pairwise_unknownComprehensionRequired m _, ?_, ?_⟩
  · rw [mem_unknownComprehensionRequired, mem_typesOf]
  · rw [Attribute.ofTypes, TypeList.ofNumbers_toNat]
    rfl
  · intro messageClass number id b hb key key' limit' hlimit'
    -- A type takes two bytes here and took four in the message, whose length is a word.
    have hcount : unknown.length ≤ m.spans.length := length_unknownComprehensionRequired_le m _
    have hspans := four_mul_length_spans_le hp
    have hlength := m.header.length.isLt
    refine attribute?_of_only_added hb Kind.noConfusion rfl key key' ?_ hlimit'
    simp only [Attribute.length, attributeHeaderSize, padded]
    omega

/-- An unknown type that occurs twice, a known one, an optional one, and another unknown one. -/
def strangeRecords : List Record :=
  [⟨0x7ffe#16, [0xa1], [0, 0, 0], by decide, rfl⟩, ⟨0x0006#16, [0xa2], [0, 0, 0], by decide, rfl⟩,
    ⟨0x8022#16, [0xa3], [0, 0, 0], by decide, rfl⟩, ⟨0x0024#16, [0xa4], [0, 0, 0], by decide, rfl⟩,
    ⟨0x7ffe#16, [0xa5], [0, 0, 0], by decide, rfl⟩]

theorem unknownComprehensionRequired_answer_repeated :
    ∃ m answer m', parse (.integer 5) m.bytes = .ok m ∧
      m.unknownComprehensionRequired (typesOf [.nan, .integer 6, .integer (-1)]) =
        [0x7ffe, 0x0024] ∧
      ((fresh .error 1 ⟨123⟩).add
        ((Attribute.unknownAttributes [0x7ffe, 0x0024]).draft ⟨[]⟩)).builder.finish.result =
          .ok answer ∧
      parse (.integer 1) answer = .ok m' ∧
      m'.attribute? .unknownAttributes ⟨[]⟩ =
        .ok (some (.unknownAttributes [0x7ffe, 0x0024])) := by
  let h : Header := ⟨.request, 1, 40, ⟨123⟩⟩
  let m : Message := ⟨(h.encode ++ strangeRecords.flatMap Record.encode).toArray, h,
    Record.spans headerSize strangeRecords⟩
  have hp : parse (.integer 5) m.bytes = .ok m := parse_encode rfl (Or.inr rfl)
  have hunknown : m.unknownComprehensionRequired (typesOf [.nan, .integer 6, .integer (-1)]) =
      [0x7ffe, 0x0024] := by decide
  have hnew : create .error (.integer 1) ⟨123⟩ = .ok (fresh .error 1 ⟨123⟩) :=
    create_eq_ok_iff.2 ⟨1, rfl, rfl⟩
  obtain ⟨-, -, -, -, hanswer⟩ :=
    unknownComprehensionRequired_answer hp [.nan, .integer 6, .integer (-1)]
  rw [hunknown] at hanswer
  obtain ⟨-, answer, m', hfinish, hparse, hread⟩ :=
    hanswer .error (.integer 1) ⟨123⟩ _ hnew ⟨[]⟩ ⟨[]⟩ (.integer 1) (Or.inr rfl)
  exact ⟨m, answer, m', hp, hunknown, hfinish, hparse, hread⟩

end Message

end Stun
