import Stun.Bytes.Hex
import Stun.Bytes.Window
import Stun.Bytes.Words
import Stun.Ip.V4

/-!
# IPv6 addresses

Sixteen bytes, read and written as eight hexadecimal groups. A double colon stands for the missing
groups, at least one when it is read. In writing it replaces the leftmost of the longest runs of
two or more zero groups, so each address has one written form. Reading also takes a pair of
brackets around the text, and an IPv4 address behind `::ffff:`.
-/
namespace Stun

structure Ipv6 where
  bytes : List UInt8
  size_eq : bytes.length = 16
deriving DecidableEq

namespace Ipv6

def ofGroups (groups : List (BitVec 16)) (h : groups.length = 8) : Ipv6 :=
  ⟨Words.encode groups, by rw [Words.length_encode, h]⟩

/-- The groups of a text without a double colon; the empty text has none. -/
def groups? (text : List Char) : Option (List (BitVec 16)) :=
  if text = [] then some [] else (Ip.fields ':' text).mapM Ip.group?

def ofHalves? : List (List Char) → Option Ipv6
  | [whole] => do
    let groups ← groups? whole
    if h : groups.length = 8 then some (ofGroups groups h) else none
  | [left, right] => do
    let left ← groups? left
    let right ← groups? right
    if h : left.length + right.length ≤ 7 then
      let missing := List.replicate (8 - left.length - right.length) 0
      some (ofGroups (left ++ missing ++ right) (by simp [missing]; omega))
    else none
  | _ => none

/-- Takes one pair of brackets off, if both are there. -/
def unbracket : List Char → List Char
  | '[' :: rest => if rest.getLast? = some ']' then rest.dropLast else '[' :: rest
  | text => text

/-- The dotted part of an IPv4-mapped text. Its fields may still be too large for bytes. -/
def mappedPart? (text : List Char) : Option (List Char) :=
  let dotted := text.drop 7
  let fields := Ip.fields '.' dotted
  if (text.take 7).map Char.toLower = "::ffff:".toList ∧ fields.length = 4
      ∧ ∀ f ∈ fields, Ip.IsOctetText f then some dotted
  else none

def ofIpv4 (a : Ipv4) : Ipv6 :=
  ⟨List.replicate 10 0 ++ [0xff, 0xff] ++ a.bytes, by simp [a.size_eq]⟩

def parse (text : String) : Except Error Ipv6 :=
  let body := unbracket text.toList
  match mappedPart? body with
  | some dotted => (Ipv4.parse (String.ofList dotted)).map ofIpv4
  | none =>
    match ofHalves? (Ip.doubleColonFields body) with
    | some address => .ok address
    | none => .error (.encode (.ipv6 text))

def zeroRun (groups : List Nat) : Nat := (groups.takeWhile (· = 0)).length

/-- Start and length of the leftmost of the longest runs of zeros. -/
def longestZeroRun : List Nat → Nat × Nat
  | [] => (0, 0)
  | g :: groups =>
    let here := zeroRun (g :: groups)
    let later := longestZeroRun groups
    if later.2 ≤ here then (0, here) else (later.1 + 1, later.2)

def joinGroups (groups : List Nat) : String := String.intercalate ":" (groups.map Hex.text)

def formatGroups (groups : List Nat) : String :=
  let (start, length) := longestZeroRun groups
  if length < 2 then joinGroups groups
  else joinGroups (groups.take start) ++ "::" ++ joinGroups (groups.drop (start + length))

/-- The text of sixteen bytes; missing bytes count as zero. -/
def format (bytes : List UInt8) : String :=
  formatGroups ((List.range 8).map fun (i : Nat) => Bytes.read bytes 2 (2 * i))

def text (a : Ipv6) : String := format a.bytes

end Ipv6

end Stun
