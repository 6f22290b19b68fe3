import Mathlib.Data.List.Basic
import Stun.Proofs.Appended

/-!
# Failed attributes leave no trace

Builders are alike when they show the same; their storages may differ. Every operation takes alike
builders to alike builders with the same answer, so no later run can tell them apart. A failed
addition leaves a builder alike to the one before.
-/
namespace Stun

namespace Builder

/-- The same message under construction, whatever the storage holds behind it. -/
structure Alike (b b' : Builder) : Prop where
  messageClass : b.messageClass = b'.messageClass
  method : b.method = b'.method
  transactionId : b.transactionId = b'.transactionId
  bytes : b.bytes = b'.bytes

end Builder

/-- The same answer, and alike builders afterwards. -/
structure Outcome.Alike {α : Type} (o o' : Outcome α) : Prop where
  result : o.result = o'.result
  builder : o.builder.Alike o'.builder

namespace Builder

variable {b b' : Builder}

theorem Holds.alike {h : Header} {body : List UInt8} (hb : b.Holds h body)
    (hb' : b'.Holds h body) : Alike b b' :=
  ⟨hb.messageClass.trans hb'.messageClass.symm, hb.method.trans hb'.method.symm,
    hb.transactionId.trans hb'.transactionId.symm, hb.bytes_eq.trans hb'.bytes_eq.symm⟩

namespace Alike

theorem length (h : Alike b b') : b.length = b'.length := by
  have hlen := congrArg List.length h.bytes
  rwa [Builder.bytes, Builder.bytes, Buffer.length_toList, Buffer.length_toList] at hlen

theorem declaredLength (h : Alike b b') : b.declaredLength = b'.declaredLength := by
  have hbyte (i : Nat) : b.buffer.byteAt i = b'.buffer.byteAt i := by
    rw [Buffer.byteAt_eq, Buffer.byteAt_eq]
    exact congrArg (·.getD i 0) h.bytes
  rw [Builder.declaredLength, Builder.declaredLength, hbyte, hbyte]

theorem snapshot (h : Alike b b') : b.snapshot = b'.snapshot := by
  rw [Builder.snapshot, Builder.snapshot, h.length, h.declaredLength]

theorem covered (h : Alike b b') : b.covered = b'.covered := by
  rw [Builder.covered, Builder.covered, h.length, h.bytes]

theorem append (h : Alike b b') (bytes : List UInt8) : Alike (b.append bytes) (b'.append bytes) := by
  refine ⟨h.messageClass, h.method, h.transactionId, ?_⟩
  change (b.buffer.append bytes).toList = (b'.buffer.append bytes).toList
  rw [Buffer.toList_append, Buffer.toList_append]
  exact congrArg (· ++ bytes) h.bytes

theorem declare (h : Alike b b') (w : BitVec 16) : Alike (b.declare w) (b'.declare w) := by
  refine ⟨h.messageClass, h.method, h.transactionId, ?_⟩
  change (b.buffer.patch 2 w).toList = (b'.buffer.patch 2 w).toList
  rw [Buffer.toList_patch, Buffer.toList_patch]
  exact congrArg (Bytes.overlay · 2 _) h.bytes

theorem restore (h : Alike b b') (length : Nat) (w : BitVec 16) :
    Alike (b.restore length w) (b'.restore length w) := by
  refine ⟨h.messageClass, h.method, h.transactionId, ?_⟩
  change ((b.buffer.truncate length).patch 2 w).toList = ((b'.buffer.truncate length).patch 2 w).toList
  rw [Buffer.toList_patch, Buffer.toList_patch, Buffer.toList_truncate, Buffer.toList_truncate]
  exact congrArg (fun bytes => Bytes.overlay (bytes.take length) 2 _) h.bytes

theorem enter (h : Alike b b') (f : Frame) : Alike (b.enter f) (b'.enter f) :=
  (h.append _).declare f.declaredLength

theorem leave (h : Alike b b') (f : Frame) : Alike (b.leave f) (b'.leave f) :=
  (h.append _).declare f.declaredLength

theorem frame {α : Type} {writer : Builder → Outcome α}
    (hw : ∀ ⦃b b'⦄, Alike b b' → (writer b).Alike (writer b')) (h : Alike b b')
    (type length : Number) : (b.frame type length writer).Alike (b'.frame type length writer) := by
  simp only [Builder.frame, h.length, h.declaredLength]
  cases Frame.ofNumbers b'.length type length with
  | error e => exact ⟨rfl, h⟩
  | ok f =>
    have hout := hw (h.enter f)
    simp only [hout.result, hout.builder.length]
    cases (writer (b'.enter f)).result with
    | error e => exact ⟨rfl, hout.builder.restore _ _⟩
    | ok a =>
      dsimp only
      split
      · exact ⟨rfl, hout.builder.leave f⟩
      · exact ⟨rfl, hout.builder.restore _ _⟩

theorem run (s : Script) (h : Alike b b') : (s.run b).Alike (s.run b') := by
  induction s generalizing b b' with
  | done => exact ⟨rfl, h⟩
  | append bytes next ih => exact ih (h.append bytes)
  | setDeclaredLength length next ih =>
    simp only [Script.run]
    cases length.fit 16 with
    | error e => exact ⟨rfl, h⟩
    | ok w => exact ih (h.declare w)
  | add type length inner next ihInner ihNext =>
    have hout := h.frame (fun _ _ => ihInner) type length
    simp only [Script.run, hout.result]
    cases (b'.frame type length inner.run).result with
    | error e => exact ⟨rfl, hout.builder⟩
    | ok notes =>
      have hnext := ihNext hout.builder
      exact ⟨by rw [hnext.result], hnext.builder⟩
  | appendMasked endpoint next ih =>
    simp only [Script.run, h.transactionId]
    exact ih (h.append _)
  | sign algorithm key next ih =>
    simp only [Script.run, h.length]
    cases (Number.integer ((b'.length + algorithm.size : Nat) - headerSize)).fit 16 with
    | error e => exact ⟨rfl, h⟩
    | ok w =>
      have hdeclared := h.declare w
      simp only [hdeclared.covered]
      exact ih (hdeclared.append _)
  | appendFingerprint next ih =>
    simp only [Script.run, h.covered]
    exact ih (h.append _)
  | note next ih =>
    have hnext := ih h
    exact ⟨by simp only [Script.run, hnext.result, h.snapshot], hnext.builder⟩
  | fail error => exact ⟨rfl, h⟩

theorem add (h : Alike b b') (d : Draft) : (b.add d).Alike (b'.add d) :=
  h.frame (fun _ _ => run d.script) d.type d.length

theorem setDeclaredLength (h : Alike b b') (n : Number) :
    (b.setDeclaredLength n).Alike (b'.setDeclaredLength n) := by
  unfold Builder.setDeclaredLength
  cases n.fit 16 with
  | error e => exact ⟨rfl, h⟩
  | ok w => exact ⟨rfl, h.declare w⟩

theorem finish (h : Alike b b') : b.finish.Alike b'.finish := by
  have hset := h.setDeclaredLength (.integer ((b'.length : Int) - headerSize))
  simp only [Builder.finish, h.length, hset.result]
  cases (b'.setDeclaredLength (.integer ((b'.length : Int) - headerSize))).result with
  | error e => exact ⟨rfl, hset.builder⟩
  | ok _ => exact ⟨by rw [hset.builder.bytes], hset.builder⟩

end Alike

/-- What a caller does to a builder. -/
inductive Operation
  | add (d : Draft)
  | append (bytes : List UInt8)
  | setDeclaredLength (length : Number)
  | finish

inductive Answer
  | done
  | notes (snapshots : List Snapshot)
  | message (bytes : List UInt8)

def perform (b : Builder) : Operation → Outcome Answer
  | .add d => ⟨(b.add d).builder, (b.add d).result.map .notes⟩
  | .append bytes => ⟨b.append bytes, .ok .done⟩
  | .setDeclaredLength n => ⟨(b.setDeclaredLength n).builder,
      (b.setDeclaredLength n).result.map fun _ => .done⟩
  | .finish => ⟨b.finish.builder, b.finish.result.map .message⟩

def after (b : Builder) : List Operation → Builder
  | [] => b
  | op :: ops => (b.perform op).builder.after ops

/-- All that a run shows: each answer, and the message after it. -/
def transcript (b : Builder) : List Operation → List (Except Error Answer × List UInt8)
  | [] => []
  | op :: ops =>
    let out := b.perform op
    (out.result, out.builder.bytes) :: out.builder.transcript ops

inductive Reachable : Builder → Prop
  | create {messageClass : MessageClass} {method : Number} {id : TransactionId} {b : Builder} :
    create messageClass method id = .ok b → Reachable b
  | perform {b : Builder} (op : Operation) : Reachable b → Reachable (b.perform op).builder

theorem Alike.perform (h : Alike b b') (op : Operation) : (b.perform op).Alike (b'.perform op) := by
  cases op with
  | add d => exact ⟨congrArg (Except.map _) (h.add d).result, (h.add d).builder⟩
  | append bytes => exact ⟨rfl, h.append bytes⟩
  | setDeclaredLength n =>
    exact ⟨congrArg (Except.map _) (h.setDeclaredLength n).result, (h.setDeclaredLength n).builder⟩
  | finish => exact ⟨congrArg (Except.map _) h.finish.result, h.finish.builder⟩

theorem Alike.transcript (h : Alike b b') (ops : List Operation) :
    b.transcript ops = b'.transcript ops := by
  induction ops generalizing b b' with
  | nil => rfl
  | cons op ops ih =>
    have hout := h.perform op
    simp only [Builder.transcript, hout.result, hout.builder.bytes, ih hout.builder]

theorem Holds.builder_finish {h : Header} {body : List UInt8} (hb : b.Holds h body) :
    ∃ w, b.finish.builder.Holds (h.redeclare w) body := by
  have hbuilder : b.finish.builder =
      (b.setDeclaredLength (.integer ((b.length : Int) - headerSize))).builder := by
    unfold Builder.finish
    dsimp only
    split <;> rfl
  rw [hbuilder]
  exact hb.setDeclaredLength _

theorem Holds.perform {h : Header} {body : List UInt8} (hb : b.Holds h body) (op : Operation) :
    ∃ w added, (b.perform op).builder.Holds (h.redeclare w) (body ++ added) := by
  cases op with
  | add d =>
    rcases add_cases hb d with ⟨r, w, notes, -, -, -, hout⟩ | ⟨e, -, hout⟩
    · exact ⟨w, r.encode, hout⟩
    · exact ⟨h.length, [], by rw [List.append_nil]; exact hout⟩
  | append bytes => exact ⟨h.length, bytes, hb.append bytes⟩
  | setDeclaredLength n =>
    obtain ⟨w, hout⟩ := hb.setDeclaredLength n
    exact ⟨w, [], by rw [List.append_nil]; exact hout⟩
  | finish =>
    obtain ⟨w, hout⟩ := hb.builder_finish
    exact ⟨w, [], by rw [List.append_nil]; exact hout⟩

theorem Reachable.exists_holds (hb : Reachable b) : ∃ h body, b.Holds h body := by
  induction hb with
  | create hc =>
    obtain ⟨method, -, rfl⟩ := create_eq_ok_iff.1 hc
    exact ⟨_, _, holds_fresh _ method _⟩
  | perform op _ ih =>
    obtain ⟨h, body, hb⟩ := ih
    obtain ⟨w, added, hout⟩ := hb.perform op
    exact ⟨_, _, hout⟩

/-- A failed addition changes nothing that shows, now or in any later run. -/
theorem failed_add_leaves_no_trace (hb : Reachable b) {d : Draft} {e : Error}
    (hfail : (b.add d).result = .error e) :
    (b.add d).builder.length = b.length ∧ (b.add d).builder.bytes = b.bytes ∧
      (b.add d).builder.declaredLength = b.declaredLength ∧
      ∀ ops, (b.add d).builder.transcript ops = b.transcript ops := by
  obtain ⟨h, body, hholds⟩ := hb.exists_holds
  have halike : Alike (b.add d).builder b := by
    rcases add_cases hholds d with ⟨r, w, notes, hok, -⟩ | ⟨e', -, hout⟩
    · rw [hok] at hfail
      cases hfail
    · exact hout.alike hholds
  exact ⟨halike.length, halike.bytes, halike.declaredLength, halike.transcript⟩

/-- The nested attribute announces two bytes and writes one. -/
def shortNested : Draft where
  type := .integer 0x7005
  length := .integer 8
  script := .append [1, 2, 3] (.setDeclaredLength (.integer 77)
    (.add (.integer 0x7006) (.integer 2) (.append [4] .done) (.append [5] .done)))

theorem failed_add_leaves_no_trace_short_nested :
    let b := ((fresh .request 1 ⟨123⟩).perform (.append [9])).builder
    Reachable b ∧ (b.add shortNested).result = .error (.encode (.valueSize 0x7006 1 2)) ∧
      (b.add shortNested).builder.bytes = b.bytes ∧
      ∀ ops, (b.add shortNested).builder.transcript ops = b.transcript ops := by
  intro b
  have hb : Reachable b :=
    (Reachable.create (create_eq_ok_iff.2 ⟨1, rfl, rfl⟩)).perform (.append [9])
  have hfail : (b.add shortNested).result = .error (.encode (.valueSize 0x7006 1 2)) := by
    decide +kernel
  obtain ⟨-, hbytes, -, hlater⟩ := failed_add_leaves_no_trace hb hfail
  exact ⟨hb, hfail, hbytes, hlater⟩

end Builder

end Stun
