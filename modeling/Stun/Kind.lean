/-!
# Kinds of attribute

The attributes this library reads and writes, with their type codes, the names they go by in
messages, and the limits of the text ones. Kinds that share a layout share a constructor.
-/
namespace Stun

/-- A byte count that a text must stay below. -/
abbrev Limit := Nat

inductive AddressKind
  | mapped
  | xorMapped
  | alternateServer
deriving DecidableEq, Repr

inductive TextKind
  | username
  | realm
  | nonce
  | software
deriving DecidableEq, Repr

def TextKind.limit : TextKind → Limit
  | .username => 513
  | .realm | .nonce | .software => 763

/-- The role of a connectivity-checking agent. -/
inductive Role
  | controlled
  | controlling
deriving DecidableEq, Repr

/-- The hash an integrity attribute is computed with. -/
inductive Algorithm
  | sha1
  | sha256
deriving DecidableEq, Repr

def Algorithm.size : Algorithm → Nat
  | .sha1 => 20
  | .sha256 => 32

inductive Kind
  | address (kind : AddressKind)
  | text (kind : TextKind)
  | errorCode
  | unknownAttributes
  | priority
  | useCandidate
  | tieBreaker (role : Role)
  | fingerprint
  | integrity (algorithm : Algorithm)
deriving DecidableEq, Repr

namespace Kind

def all : List Kind :=
  [.address .mapped, .text .username, .integrity .sha1, .errorCode, .unknownAttributes,
    .text .realm, .text .nonce, .integrity .sha256, .address .xorMapped, .priority, .useCandidate,
    .text .software, .address .alternateServer, .fingerprint, .tieBreaker .controlled,
    .tieBreaker .controlling]

def code : Kind → BitVec 16
  | .address .mapped => 0x0001
  | .text .username => 0x0006
  | .integrity .sha1 => 0x0008
  | .errorCode => 0x0009
  | .unknownAttributes => 0x000a
  | .text .realm => 0x0014
  | .text .nonce => 0x0015
  | .integrity .sha256 => 0x001c
  | .address .xorMapped => 0x0020
  | .priority => 0x0024
  | .useCandidate => 0x0025
  | .text .software => 0x8022
  | .address .alternateServer => 0x8023
  | .fingerprint => 0x8028
  | .tieBreaker .controlled => 0x8029
  | .tieBreaker .controlling => 0x802a

def name : Kind → String
  | .address .mapped => "MAPPED-ADDRESS"
  | .text .username => "USERNAME"
  | .integrity .sha1 => "MESSAGE-INTEGRITY"
  | .errorCode => "ERROR-CODE"
  | .unknownAttributes => "UNKNOWN-ATTRIBUTES"
  | .text .realm => "REALM"
  | .text .nonce => "NONCE"
  | .integrity .sha256 => "MESSAGE-INTEGRITY-SHA256"
  | .address .xorMapped => "XOR-MAPPED-ADDRESS"
  | .priority => "PRIORITY"
  | .useCandidate => "USE-CANDIDATE"
  | .text .software => "SOFTWARE"
  | .address .alternateServer => "ALTERNATE-SERVER"
  | .fingerprint => "FINGERPRINT"
  | .tieBreaker .controlled => "ICE-CONTROLLED"
  | .tieBreaker .controlling => "ICE-CONTROLLING"

end Kind

def reasonLimit : Limit := 763

inductive AddressFamily
  | ipv4
  | ipv6
deriving DecidableEq, Repr

namespace AddressFamily

def code : AddressFamily → UInt8
  | .ipv4 => 1
  | .ipv6 => 2

def name : AddressFamily → String
  | .ipv4 => "IPv4"
  | .ipv6 => "IPv6"

def size : AddressFamily → Nat
  | .ipv4 => 4
  | .ipv6 => 16

end AddressFamily

end Stun
