import Stun.Attribute.Endpoint
import Stun.Key

/-!
# Scripts

What an attribute does when it is written to a message, as data. A script appends bytes, overwrites
the declared length, nests whole attributes, signs or checksums what stands before its attribute,
takes notes of the builder's state, or gives up. Running a script is the builder's work.
-/
namespace Stun

inductive Script
  | done
  | append (bytes : List UInt8) (next : Script)
  | setDeclaredLength (length : Number) (next : Script)
  /-- Writes a nested attribute. -/
  | add (type length : Number) (body next : Script)
  /-- Appends an endpoint obscured with the transaction id of the message. -/
  | appendMasked (endpoint : Endpoint) (next : Script)
  /-- Appends the keyed hash of the message up to the attribute header. -/
  | sign (algorithm : Algorithm) (key : Key) (next : Script)
  /-- Appends the fingerprint of the message up to the attribute header. -/
  | appendFingerprint (next : Script)
  /-- Notes the builder's length and declared length. -/
  | note (next : Script)
  | fail (error : Error)
deriving DecidableEq

/-- An attribute about to be written: its type and value length, which are checked when it is
added, and its script. -/
structure Draft where
  type : Number
  length : Number
  script : Script
deriving DecidableEq

def Draft.raw (type : Number) (value : List UInt8) : Draft :=
  ⟨type, .integer value.length, .append value .done⟩

def Script.addDraft (d : Draft) (next : Script) : Script := .add d.type d.length d.script next

end Stun
