import Stun.Ip.V6

/-!
# IP addresses

An address of either family. A text with a colon is read as IPv6, any other as IPv4.
-/
namespace Stun

inductive IpAddress
  | v4 (address : Ipv4)
  | v6 (address : Ipv6)
deriving DecidableEq

namespace IpAddress

def isIpv6Text (text : String) : Bool := text.toList.contains ':'

def parse (text : String) : Except Error IpAddress :=
  if isIpv6Text text then (Ipv6.parse text).map .v6 else (Ipv4.parse text).map .v4

def family : IpAddress → AddressFamily
  | .v4 _ => .ipv4
  | .v6 _ => .ipv6

def bytes : IpAddress → List UInt8
  | .v4 a => a.bytes
  | .v6 a => a.bytes

def text : IpAddress → String
  | .v4 a => a.text
  | .v6 a => a.text

theorem length_bytes (a : IpAddress) : a.bytes.length = a.family.size := by
  cases a with
  | v4 a => exact a.size_eq
  | v6 a => exact a.size_eq

end IpAddress

end Stun
