import Stun.Error
import Stun.Ip.Fields

/-!
# IPv4 addresses

Four bytes, written as decimal numbers with dots between them. Reading takes exactly four fields of
one to three digits; leading zeros are allowed and do not change the base.
-/
namespace Stun

structure Ipv4 where
  bytes : List UInt8
  size_eq : bytes.length = 4
deriving DecidableEq

namespace Ipv4

def ofOctets? : List (List Char) → Option Ipv4
  | [a, b, c, d] => do
    let a ← Ip.octet? a
    let b ← Ip.octet? b
    let c ← Ip.octet? c
    let d ← Ip.octet? d
    return ⟨[a, b, c, d], rfl⟩
  | _ => none

def parse (text : String) : Except Error Ipv4 :=
  match ofOctets? (Ip.fields '.' text.toList) with
  | some address => .ok address
  | none => .error (.encode (.ipv4 text))

/-- Decimal numbers with dots between them, for any number of bytes. -/
def format (bytes : List UInt8) : String :=
  String.intercalate "." (bytes.map fun b => toString b.toNat)

def text (a : Ipv4) : String := format a.bytes

end Ipv4

end Stun
