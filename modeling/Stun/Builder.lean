import Stun.Attribute.Basic
import Stun.Buffer.Basic
import Stun.Bytes.Padding
import Stun.Fingerprint

/-!
# Building messages

A builder holds a message under construction: header first, then attributes one after the other.
While an attribute is written, the declared length already covers it, so what the attribute hashes
of the message is what a receiver will see. An attribute that fails is taken back: the buffer is cut
to its old length and the declared length is restored.
-/
namespace Stun

structure Builder where
  messageClass : MessageClass
  method : Method
  transactionId : TransactionId
  buffer : Buffer

/-- The builder after an operation, and the result or the error. -/
structure Outcome (α : Type) where
  builder : Builder
  result : Except Error α

/-- What a script notes of the builder it runs on. -/
structure Snapshot where
  length : Nat
  declaredLength : Nat
deriving DecidableEq, Repr

/-- The checked header of an attribute, and the declared length that covers the attribute. -/
structure Frame where
  type : BitVec 16
  length : BitVec 16
  declaredLength : BitVec 16

def attributeHeaderSize : Nat := 4

/-- The value length is checked first, then the length of the message with the attribute, then the
type. -/
def Frame.ofNumbers (start : Nat) (type length : Number) : Except Error Frame := do
  let length ← length.fit 16
  let stop := start + attributeHeaderSize + padded length.toNat
  let declaredLength ← (Number.integer ((stop : Int) - headerSize)).fit 16
  let type ← type.fit 16
  return ⟨type, length, declaredLength⟩

namespace Builder

def create (messageClass : MessageClass) (method : Number) (transactionId : TransactionId) :
    Except Error Builder := do
  let header ← Header.ofNumbers messageClass method transactionId (.integer 0)
  return ⟨messageClass, header.method, transactionId, (Buffer.empty 128).append header.encode⟩

variable {α : Type} (b : Builder)

def length : Nat := b.buffer.size

def bytes : List UInt8 := b.buffer.toList

def declaredLength : BitVec 16 :=
  BitVec.ofNat 16 (BigEndian.decode [b.buffer.byteAt 2, b.buffer.byteAt 3])

def append (bytes : List UInt8) : Builder := { b with buffer := b.buffer.append bytes }

def declare (length : BitVec 16) : Builder := { b with buffer := b.buffer.patch 2 length }

def setDeclaredLength (length : Number) : Outcome Unit :=
  match length.fit 16 with
  | .error e => ⟨b, .error e⟩
  | .ok length => ⟨b.declare length, .ok ()⟩

/-- The finished message. Its length need not be in step with the header when bytes were appended
directly, and is refused when it does not fit. -/
def finish : Outcome (List UInt8) :=
  let out := b.setDeclaredLength (.integer ((b.length : Int) - headerSize))
  match out.result with
  | .error e => ⟨out.builder, .error e⟩
  | .ok () => ⟨out.builder, .ok out.builder.bytes⟩

def snapshot : Snapshot := ⟨b.length, b.declaredLength.toNat⟩

/-- Takes back everything written since the builder had the given lengths. -/
def restore (length : Nat) (declaredLength : BitVec 16) : Builder :=
  { b with buffer := (b.buffer.truncate length).patch 2 declaredLength }

def enter (f : Frame) : Builder :=
  (b.append (BigEndian.encode 2 f.type.toNat ++ BigEndian.encode 2 f.length.toNat)).declare
    f.declaredLength

def leave (f : Frame) : Builder :=
  let zeros := padded f.length.toNat - f.length.toNat
  { b with buffer := b.buffer.appendZeros zeros }.declare f.declaredLength

/-- Writes one attribute whose value is written by `body`, which must append as many bytes as were
announced. -/
def frame (type length : Number) (body : Builder → Outcome α) : Outcome α :=
  match Frame.ofNumbers b.length type length with
  | .error e => ⟨b, .error e⟩
  | .ok f =>
    let start := b.length
    let previous := b.declaredLength
    let out := body (b.enter f)
    match out.result with
    | .error e => ⟨out.builder.restore start previous, .error e⟩
    | .ok a =>
      let written := out.builder.length - (start + attributeHeaderSize)
      if written = f.length.toNat then ⟨out.builder.leave f, .ok a⟩
      else
        ⟨out.builder.restore start previous,
          .error (.encode (.valueSize f.type written f.length.toNat))⟩

def covered : List UInt8 := b.bytes.take (b.length - attributeHeaderSize)

end Builder

namespace Script

def run : Script → Builder → Outcome (List Snapshot)
  | .done, b => ⟨b, .ok []⟩
  | .append bytes next, b => run next (b.append bytes)
  | .setDeclaredLength length next, b =>
    match length.fit 16 with
    | .error e => ⟨b, .error e⟩
    | .ok length => run next (b.declare length)
  | .add type length body next, b =>
    let out := b.frame type length (run body)
    match out.result with
    | .error e => ⟨out.builder, .error e⟩
    | .ok inner =>
      let rest := run next out.builder
      ⟨rest.builder, rest.result.map (inner ++ ·)⟩
  | .appendMasked endpoint next, b =>
    run next (b.append (Endpoint.mask b.transactionId endpoint.encode))
  | .sign algorithm key next, b =>
    match (Number.integer ((b.length + algorithm.size : Nat) - headerSize)).fit 16 with
    | .error e => ⟨b, .error e⟩
    | .ok length =>
      let b := b.declare length
      run next (b.append (key.hmac algorithm b.covered))
  | .appendFingerprint next, b =>
    run next (b.append (BigEndian.encode 4 (fingerprint b.covered).toNat))
  | .note next, b =>
    let noted := b.snapshot
    let rest := run next b
    ⟨rest.builder, rest.result.map (noted :: ·)⟩
  | .fail error, b => ⟨b, .error error⟩

end Script

def Builder.add (b : Builder) (d : Draft) : Outcome (List Snapshot) :=
  b.frame d.type d.length d.script.run

end Stun
