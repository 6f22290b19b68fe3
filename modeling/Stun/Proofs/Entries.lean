import Stun.Proofs.Rollback

/-!
# Entering attributes

`Program` is all that can be done with a builder while an attribute is written: look at it, append,
declare any length, add further attributes, go on after one of them was refused, or give up. Scripts
are programs of this kind. Whatever the programs do, an attribute is entered right behind its own
header, under a declared length that covers it and nothing else, and from call to call the header
declares what stands behind it.
-/
namespace Stun

inductive Program
  | done
  | fail (error : Error)
  | look (next : Builder → Program)
  | append (bytes : List UInt8) (next : Program)
  /-- The program goes on with the answer, whether the length was declared or not. -/
  | setDeclaredLength (length : Number) (next : Except Error Unit → Program)
  /-- The program goes on with the answer, whether the attribute was added or not. -/
  | add (type length : Number) (body : Program) (next : Except Error Unit → Program)

namespace Program

def run : Program → Builder → Outcome Unit
  | .done, b => ⟨b, .ok ()⟩
  | .fail error, b => ⟨b, .error error⟩
  | .look next, b => (next b).run b
  | .append bytes next, b => next.run (b.append bytes)
  | .setDeclaredLength length next, b =>
    (next (b.setDeclaredLength length).result).run (b.setDeclaredLength length).builder
  | .add type length body next, b =>
    (next (b.frame type length body.run).result).run (b.frame type length body.run).builder

/-- An attribute that was entered: the builder on which the addition was called, the attribute's
type and announced length, and the builder on which its program was started. -/
structure Entry where
  site : Builder
  type : Number
  length : Number
  entered : Builder

/-- All attributes that are entered while the program runs, those of attributes within attributes
included, whether they succeed or not. -/
def entries : Program → Builder → List Entry
  | .done, _ => []
  | .fail _, _ => []
  | .look next, b => (next b).entries b
  | .append bytes next, b => next.entries (b.append bytes)
  | .setDeclaredLength length next, b =>
    (next (b.setDeclaredLength length).result).entries (b.setDeclaredLength length).builder
  | .add type length body next, b =>
    (match Frame.ofNumbers b.length type length with
      | .error _ => []
      | .ok f => ⟨b, type, length, b.enter f⟩ :: body.entries (b.enter f)) ++
    (next (b.frame type length body.run).result).entries (b.frame type length body.run).builder

end Program

namespace Builder

variable {α β : Type} {b : Builder} {h : Header} {body : List UInt8}

theorem frame_congr {type length : Number} {writer writer' : Builder → Outcome α}
    (hw : ∀ f, Frame.ofNumbers b.length type length = .ok f →
      writer (b.enter f) = writer' (b.enter f)) :
    b.frame type length writer = b.frame type length writer' := by
  unfold frame
  cases hf : Frame.ofNumbers b.length type length with
  | error e => rfl
  | ok f => simp only [hw f hf]

theorem frame_map (type length : Number) (writer : Builder → Outcome α) (g : α → β) :
    b.frame type length (fun b => ⟨(writer b).builder, (writer b).result.map g⟩) =
      ⟨(b.frame type length writer).builder, (b.frame type length writer).result.map g⟩ := by
  unfold frame
  cases Frame.ofNumbers b.length type length with
  | error e => rfl
  | ok f =>
    dsimp only
    cases (writer (b.enter f)).result with
    | error e => rfl
    | ok a =>
      dsimp only [Except.map]
      split <;> rfl

theorem Holds.drop_bytes {b' : Builder} {h' : Header} {added : List UInt8} (hb : b.Holds h body)
    (hout : b'.Holds h' (body ++ added)) : b'.bytes.drop b.length = added := by
  have hlength : b.length = (h'.encode ++ body).length := by
    rw [hb.length_eq, List.length_append, Header.length_encode]
  rw [hout.bytes_eq, hlength, ← List.append_assoc, List.drop_left]

theorem appends_drop {writer : Builder → Outcome α}
    (hw : ∀ ⦃b h body⦄, Holds b h body →
      ∃ w added, (writer b).builder.Holds (h.redeclare w) (body ++ added)) :
    Appends writer fun b => (writer b).builder.bytes.drop b.length := by
  intro b h body hb
  obtain ⟨w, added, hout⟩ := hw hb
  refine ⟨w, ?_⟩
  rw [← hb.drop_bytes hout] at hout
  exact hout

theorem Holds.extends_self (hb : b.Holds h body) :
    ∃ w added, b.Holds (h.redeclare w) (body ++ added) :=
  ⟨h.length, [], by rw [List.append_nil]; exact hb⟩

theorem Holds.frame_extends {writer : Builder → Outcome α} {added : Builder → List UInt8}
    (hw : Appends writer added) (hb : b.Holds h body) (type length : Number) :
    ∃ w added', (b.frame type length writer).builder.Holds (h.redeclare w) (body ++ added') := by
  rcases frame_cases hw hb type length with
    ⟨f, r, a, -, -, -, -, -, -, -, hout⟩ | ⟨e, -, hout⟩
  · exact ⟨f.declaredLength, r.encode, hout⟩
  · exact hout.extends_self

end Builder

namespace Program

open Builder

variable {b : Builder} {h : Header} {body : List UInt8}

theorem run_extends (p : Program) ⦃b : Builder⦄ ⦃h : Header⦄ ⦃body : List UInt8⦄
    (hb : b.Holds h body) :
    ∃ w added, (p.run b).builder.Holds (h.redeclare w) (body ++ added) := by
  induction p generalizing b h body with
  | done => exact hb.extends_self
  | fail error => exact hb.extends_self
  | look next ih => exact ih b hb
  | append bytes next ih =>
    obtain ⟨w, added, hout⟩ := ih (hb.append bytes)
    rw [List.append_assoc] at hout
    exact ⟨w, _, hout⟩
  | setDeclaredLength length next ih =>
    obtain ⟨w, hset⟩ := hb.setDeclaredLength length
    obtain ⟨w', added, hout⟩ := ih _ hset
    exact ⟨w', added, hout⟩
  | add type length inner next ihInner ihNext =>
    obtain ⟨w, added, hframe⟩ := hb.frame_extends (appends_drop ihInner) type length
    obtain ⟨w', added', hout⟩ := ihNext _ hframe
    rw [List.append_assoc] at hout
    exact ⟨w', _, hout⟩

/-- The message ends with the attribute's header, four bytes behind where the addition found it, and
is declared to end where the attribute and its padding will. -/
structure Entry.Opened (e : Entry) (type length : BitVec 16) : Prop where
  type_eq : e.type = .integer type.toNat
  length_eq : e.length = .integer length.toNat
  length_entered : e.entered.length = e.site.length + attributeHeaderSize
  opening : e.entered.bytes.drop e.site.length =
    BigEndian.encode 2 type.toNat ++ BigEndian.encode 2 length.toNat
  declaredLength : (e.entered.declaredLength.toNat : Int) =
    (e.site.length + attributeHeaderSize + padded length.toNat : Nat) - headerSize

theorem opened_enter (hb : b.Holds h body) {type length : Number} {f : Frame}
    (hf : Frame.ofNumbers b.length type length = .ok f) :
    Entry.Opened ⟨b, type, length, b.enter f⟩ f.type f.length := by
  obtain ⟨hlength, hstop, htype⟩ := Frame.ofNumbers_eq_ok_iff.1 hf
  have hentered := hb.enter f
  refine ⟨htype, hlength, ?_, hb.drop_bytes hentered, ?_⟩
  · rw [hentered.length_eq, List.length_append, length_opening, ← Nat.add_assoc, hb.length_eq]
  · rw [hentered.declaredLength_eq, hstop]
    simp only [Header.redeclare]
    omega

theorem opened_of_mem_entries (p : Program) (hb : b.Holds h body) :
    ∀ e ∈ p.entries b, ∃ type length, e.Opened type length := by
  induction p generalizing b h body with
  | done => exact fun e he => (nomatch he)
  | fail error => exact fun e he => (nomatch he)
  | look next ih => exact ih b hb
  | append bytes next ih => exact ih (hb.append bytes)
  | setDeclaredLength length next ih =>
    obtain ⟨w, hset⟩ := hb.setDeclaredLength length
    exact ih _ hset
  | add type length inner next ihInner ihNext =>
    intro e he
    rcases List.mem_append.1 he with he | he
    · cases hf : Frame.ofNumbers b.length type length with
      | error e' =>
        rw [hf] at he
        cases he
      | ok f =>
        rw [hf] at he
        rcases List.mem_cons.1 he with rfl | he
        · exact ⟨_, _, opened_enter hb hf⟩
        · exact ihInner (hb.enter f) e he
    · obtain ⟨w, added, hframe⟩ :=
        hb.frame_extends (appends_drop inner.run_extends) type length
      exact ihNext _ hframe e he

def guard (P : Entry → Bool) (site : Builder) (type length : Number) (body : Program) : Program :=
  .look fun entered =>
    if P ⟨site, type, length, entered⟩ then body else .fail (.other "entered in another way")

/-- The program with a check in front of each attribute's own program. -/
def guarded (P : Entry → Bool) : Program → Program
  | .done => .done
  | .fail error => .fail error
  | .look next => .look fun b => (next b).guarded P
  | .append bytes next => .append bytes (next.guarded P)
  | .setDeclaredLength length next =>
    .setDeclaredLength length fun answer => (next answer).guarded P
  | .add type length body next =>
    .look fun b => .add type length (guard P b type length (body.guarded P)) fun answer =>
      (next answer).guarded P

/-- Checks that all entries pass make no difference, so `entries` leaves no attribute out. -/
theorem run_guarded {P : Entry → Bool} (p : Program) (hp : ∀ e ∈ p.entries b, P e) :
    (p.guarded P).run b = p.run b := by
  induction p generalizing b with
  | done => rfl
  | fail error => rfl
  | look next ih => exact ih b hp
  | append bytes next ih => exact ih hp
  | setDeclaredLength length next ih => exact ih _ hp
  | add type length inner next ihInner ihNext =>
    rw [entries, List.forall_mem_append] at hp
    obtain ⟨hinner, hnext⟩ := hp
    -- Both frames start their writers on `b.enter f`, where the check looks and lets the rest run.
    have hframe : b.frame type length (guard P b type length (inner.guarded P)).run =
        b.frame type length inner.run := by
      refine frame_congr fun f hf => ?_
      rw [hf, List.forall_mem_cons] at hinner
      rw [guard, run, if_pos hinner.1, ihInner hinner.2]
    rw [guarded, run, run, hframe, run]
    exact ihNext _ hnext

end Program

def Program.orFail (next : Program) : Except Error Unit → Program
  | .ok () => next
  | .error e => .fail e

/-- What a script does, as a program; its notes are left out. -/
def Script.program : Script → Program
  | .done => .done
  | .append bytes next => .append bytes next.program
  | .setDeclaredLength length next => .setDeclaredLength length next.program.orFail
  | .add type length body next => .add type length body.program next.program.orFail
  | .appendMasked endpoint next =>
    .look fun b => .append (Endpoint.mask b.transactionId endpoint.encode) next.program
  | .sign algorithm key next =>
    .look fun b =>
      .setDeclaredLength (.integer ((b.length + algorithm.size : Nat) - headerSize))
        (Program.look fun b => .append (key.hmac algorithm b.covered) next.program).orFail
  | .appendFingerprint next =>
    .look fun b => .append (BigEndian.encode 4 (fingerprint b.covered).toNat) next.program
  | .note next => next.program
  | .fail error => .fail error

def Outcome.mute {α : Type} (out : Outcome α) : Outcome Unit :=
  ⟨out.builder, out.result.map fun _ => ()⟩

theorem Outcome.mute_map {α β : Type} (out : Outcome α) (g : α → β) :
    Outcome.mute ⟨out.builder, out.result.map g⟩ = out.mute := by
  unfold mute
  cases out.result <;> rfl

theorem Script.run_program (s : Script) (b : Builder) : s.program.run b = (s.run b).mute := by
  induction s generalizing b with
  | done => rfl
  | append bytes next ih => exact ih _
  | setDeclaredLength length next ih =>
    simp only [program, Program.run, run, Builder.setDeclaredLength]
    cases length.fit 16 with
    | error e => rfl
    | ok w => exact ih _
  | add type length inner next ihInner ihNext =>
    have hinner : inner.program.run = fun b => (inner.run b).mute := funext ihInner
    have hframe : b.frame type length inner.program.run = (b.frame type length inner.run).mute := by
      rw [hinner]
      exact Builder.frame_map type length inner.run _
    rw [program, Program.run, hframe, run]
    dsimp only [Outcome.mute]
    cases (b.frame type length inner.run).result with
    | error e => rfl
    | ok notes => exact (ihNext _).trans (Outcome.mute_map _ (notes ++ ·)).symm
  | appendMasked endpoint next ih => exact ih _
  | sign algorithm key next ih =>
    simp only [program, Program.run, run, Builder.setDeclaredLength]
    cases (Number.integer ((b.length + algorithm.size : Nat) - headerSize)).fit 16 with
    | error e => rfl
    | ok w => exact ih _
  | appendFingerprint next ih => exact ih _
  | note next ih => exact (ih b).trans (Outcome.mute_map _ (b.snapshot :: ·)).symm
  | fail error => rfl

structure Call where
  type : Number
  length : Number
  program : Program

def Draft.call (d : Draft) : Call := ⟨d.type, d.length, d.script.program⟩

/-- The program that makes the calls one after the other, whatever becomes of each. -/
def Program.calls : List Call → Program
  | [] => .done
  | c :: cs => .add c.type c.length c.program fun _ => calls cs

namespace Builder

variable {b : Builder} {h : Header} {body : List UInt8}

theorem mute_add (b : Builder) (d : Draft) :
    (b.add d).mute = b.frame d.type d.length d.script.program.run := by
  have hscript : d.script.program.run = fun b => (d.script.run b).mute :=
    funext d.script.run_program
  rw [hscript]
  exact (frame_map d.type d.length d.script.run fun _ => ()).symm

theorem after_drafts (b : Builder) (ds : List Draft) :
    b.after (ds.map Operation.add) = ((Program.calls (ds.map Draft.call)).run b).builder := by
  induction ds generalizing b with
  | nil => rfl
  | cons d ds ih =>
    have hframe := congrArg Outcome.builder (b.mute_add d)
    rw [List.map_cons, List.map_cons, Program.calls, Program.run, after, perform, ih]
    exact congrArg (fun b' => ((Program.calls (ds.map Draft.call)).run b').builder) hframe

/-- The message is a header and whole attributes, all of them declared. -/
def InStep (b : Builder) (h : Header) : Prop :=
  ∃ (w : BitVec 16) (body : List UInt8), b.Holds (h.redeclare w) body ∧ w.toNat = body.length ∧
    body.length % 4 = 0

theorem InStep.frame (hb : b.InStep h) (type length : Number) (p : Program) :
    (b.frame type length p.run).builder.InStep h := by
  obtain ⟨w, body, hholds, hw, haligned⟩ := hb
  rcases frame_cases (appends_drop p.run_extends) hholds type length with
    ⟨f, r, a, hf, -, -, -, -, hlength, -, hout⟩ | ⟨e, -, hout⟩
  · obtain ⟨-, hstop, -⟩ := Frame.ofNumbers_eq_ok_iff.1 hf
    have hpadded := padded_mod_four r.value.length
    have hbody : (body ++ r.encode).length = body.length + (4 + padded r.value.length) := by
      rw [List.length_append, Record.length_encode, Record.size]
    rw [hholds.length_eq, ← hlength, attributeHeaderSize] at hstop
    exact ⟨f.declaredLength, body ++ r.encode, hout, by omega, by omega⟩
  · exact ⟨w, body, hout, hw, haligned⟩

theorem InStep.calls (hb : b.InStep h) (cs : List Call) :
    ((Program.calls cs).run b).builder.InStep h := by
  induction cs generalizing b with
  | nil => exact hb
  | cons c cs ih => exact ih (hb.frame c.type c.length c.program)

theorem Holds.calls_refused (hb : b.Holds h body) {P : Program.Entry → Bool}
    (hP : ∀ e type length, e.Opened type length → P e = false) (cs : List Call) :
    (((Program.calls cs).guarded P).run b).builder.Holds h body := by
  induction cs generalizing b with
  | nil => exact hb
  | cons c cs ih =>
    rw [Program.calls, Program.guarded, Program.run, Program.run]
    refine ih ?_
    have hwriter := appends_drop
      (Program.guard P b c.type c.length (c.program.guarded P)).run_extends
    rcases frame_cases hwriter hb c.type c.length with ⟨f, r, a, hf, ho, -⟩ | ⟨e, -, hout⟩
    · -- The check would have let through an entry it fails.
      have hrefused := hP _ _ _ (Program.opened_enter hb hf)
      rw [Program.guard, Program.run, hrefused] at ho
      cases ho
    · exact hout

theorem InStep.bounds (hb : b.InStep h) :
    b.length % 4 = 0 ∧ headerSize ≤ b.length ∧ b.length ≤ 65552 ∧
      b.length = headerSize + b.declaredLength.toNat := by
  obtain ⟨w, body, hholds, hw, haligned⟩ := hb
  have hlt := w.isLt
  have hdeclared : b.declaredLength.toNat = body.length := by
    rw [hholds.declaredLength_eq, ← hw]
    rfl
  rw [hdeclared, hholds.length_eq, headerSize]
  omega

theorem InStep.getElem?_bytes (hb : b.InStep h) {i : Nat} (hi : i < 2 ∨ 4 ≤ i ∧ i < headerSize) :
    b.bytes[i]? = h.encode[i]? := by
  obtain ⟨w, body, hholds, -, -⟩ := hb
  rw [hholds.bytes_eq, Header.getElem?_redeclare h w body (by omega), List.getElem?_append_left]
  rw [Header.length_encode]
  unfold headerSize at hi ⊢
  omega

/-- Whatever is added to a new builder, and whether it is added or refused: the header declares the
message as it is, and the rest of the header stays as it was written at first. Whatever a program
does, each attribute on its way is entered right behind its own header. This is what the attributes'
programs see: a check that passes such entries, made in front of each of them, changes no run, and
one that fails them lets no attribute be added. Adding drafts is making calls. -/
theorem calls_stay_in_step {messageClass : MessageClass} {method : Number} {id : TransactionId}
    (hb : create messageClass method id = .ok b) :
    (∀ cs : List Call, let out := ((Program.calls cs).run b).builder
      (out.length % 4 = 0 ∧ headerSize ≤ out.length ∧ out.length ≤ 65552 ∧
        out.length = headerSize + out.declaredLength.toNat) ∧
      ∀ i, i < 2 ∨ 4 ≤ i ∧ i < headerSize → out.bytes[i]? = b.bytes[i]?) ∧
    (∀ p : Program, (∀ e ∈ p.entries b, ∃ type length, e.Opened type length) ∧
      ∀ P : Program.Entry → Bool, (∀ e type length, e.Opened type length → P e) →
        (p.guarded P).run b = p.run b) ∧
    (∀ P : Program.Entry → Bool, (∀ e type length, e.Opened type length → P e = false) →
      ∀ cs : List Call, (((Program.calls cs).guarded P).run b).builder.bytes = b.bytes) ∧
    ∀ ds : List Draft,
      b.after (ds.map Operation.add) = ((Program.calls (ds.map Draft.call)).run b).builder := by
  obtain ⟨method, -, rfl⟩ := create_eq_ok_iff.1 hb
  have hfresh := holds_fresh messageClass method id
  have hstep : (fresh messageClass method id).InStep ⟨messageClass, method, 0, id⟩ :=
    ⟨0, [], hfresh, rfl, rfl⟩
  refine ⟨fun cs => ?_, fun p => ⟨p.opened_of_mem_entries hfresh, fun P hP => ?_⟩,
    fun P hP cs => ?_, after_drafts _⟩
  · have hout := hstep.calls cs
    refine ⟨hout.bounds, fun i hi => ?_⟩
    rw [hout.getElem?_bytes hi, hstep.getElem?_bytes hi]
  · refine p.run_guarded fun e he => ?_
    obtain ⟨type, length, hopened⟩ := p.opened_of_mem_entries hfresh e he
    exact hP e type length hopened
  · rw [(hfresh.calls_refused hP cs).bytes_eq, hfresh.bytes_eq]

/-- Declares a length of its own, goes on after an attribute that was refused, and adds another one
off the boundary of four. -/
def restless : Call where
  type := .integer 0x7005
  length := .integer 11
  program := .append [1, 2, 3] <| .setDeclaredLength (.integer 77) fun _ =>
    .add (.integer 0x7006) (.integer 2) (.append [4] .done) fun _ =>
      .add (.integer 0x7007) (.integer 1) (.append [5] .done) fun _ => .done

theorem calls_stay_in_step_restless :
    let b := fresh .request 1 ⟨123⟩
    let p := Program.calls [restless]
    let behind (e : Program.Entry) := decide (e.entered.length = e.site.length + 4)
    create .request (.integer 1) ⟨123⟩ = .ok b ∧ (p.run b).builder.length = 36 ∧
      36 = headerSize + (p.run b).builder.declaredLength.toNat ∧ (p.entries b).length = 3 ∧
      (∀ e ∈ p.entries b, ∃ type length, e.Opened type length) ∧
      (p.guarded behind).run b = p.run b ∧
      ((p.guarded fun e => !behind e).run b).builder.bytes = b.bytes := by
  intro b p behind
  have hb : create .request (.integer 1) ⟨123⟩ = .ok b := create_eq_ok_iff.2 ⟨1, rfl, rfl⟩
  obtain ⟨hcalls, hprograms, hrefused, -⟩ := calls_stay_in_step hb
  obtain ⟨⟨-, -, -, hdeclared⟩, -⟩ := hcalls [restless]
  obtain ⟨hentries, hguarded⟩ := hprograms p
  have hbehind (e : Program.Entry) (type length : BitVec 16) (hopened : e.Opened type length) :
      behind e = true :=
    decide_eq_true hopened.length_entered
  have hlength : (p.run b).builder.length = 36 := by decide +kernel
  have hout : ((p.guarded fun e => !behind e).run b).builder.bytes = b.bytes :=
    hrefused _ (fun e type length hopened => by rw [hbehind e type length hopened]; rfl) [restless]
  exact ⟨hb, hlength, hlength.symm.trans hdeclared, by decide +kernel, hentries,
    hguarded behind hbehind, hout⟩

end Builder

end Stun
