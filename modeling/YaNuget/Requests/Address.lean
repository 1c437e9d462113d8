import YaNuget.Data.Text
import Mathlib.Data.List.Basic

/-!
# Addresses and the peers that are trusted

Addresses are read as the standard library reads them: each reader takes a
prefix of the text, or fails without taking anything, and an address is a text
that is read to its end. A peer is trusted when its address is in one of the
configured networks.
-/
namespace YaNuget

inductive IpAddr where
  | v4 (a b c d : UInt8)
  | v6 (s₀ s₁ s₂ s₃ s₄ s₅ s₆ s₇ : UInt16)
  deriving DecidableEq, Repr

namespace IpAddr

def isIpv4 : IpAddr → Bool
  | v4 _ _ _ _ => true
  | v6 _ _ _ _ _ _ _ _ => false

/-- An IPv4-mapped IPv6 address is the IPv4 address it maps. -/
def toCanonical : IpAddr → IpAddr
  | v6 0 0 0 0 0 0xffff ab cd =>
    v4 (ab >>> 8).toUInt8 ab.toUInt8 (cd >>> 8).toUInt8 cd.toUInt8
  | ip => ip

@[simp] theorem toCanonical_v4 (a b c d : UInt8) : (v4 a b c d).toCanonical = v4 a b c d := rfl

def octets : IpAddr → List UInt8
  | v4 a b c d => [a, b, c, d]
  | v6 s₀ s₁ s₂ s₃ s₄ s₅ s₆ s₇ =>
    [s₀, s₁, s₂, s₃, s₄, s₅, s₆, s₇].flatMap fun s : UInt16 =>
      [(s >>> 8).toUInt8, s.toUInt8]

end IpAddr

abbrev Reader (α : Type) := List Char → Option (α × List Char)

namespace Reader

variable {α : Type}

def parseWith (inner : Reader α) (text : List Char) : Option α :=
  match inner text with
  | some (a, []) => some a
  | _ => none

def givenChar (c : Char) : Reader Unit
  | c' :: rest => if c' = c then some ((), rest) else none
  | [] => none

/-- The separator comes before every part but the first. -/
def separator (sep : Char) (index : ℕ) (inner : Reader α) : Reader α := fun text =>
  if 0 < index then (givenChar sep text).bind fun r => inner r.2 else inner text

def digit (radix : ℕ) (c : Char) : Option ℕ :=
  let value :=
    if c.isDigit then some (c.toNat - '0'.toNat)
    else if 'a' ≤ c ∧ c ≤ 'z' then some (c.toNat - 'a'.toNat + 10)
    else if 'A' ≤ c ∧ c ≤ 'Z' then some (c.toNat - 'A'.toNat + 10)
    else none
  value.filter (· < radix)

def number (radix : ℕ) (maxDigits : Option ℕ) (allowZeroPrefix : Bool) (bound : ℕ) : Reader ℕ :=
  fun text =>
    let digits := text.takeWhile fun c => (digit radix c).isSome
    let value := digits.foldl (fun n c => n * radix + (digit radix c).getD 0) 0
    if digits = [] ∨ maxDigits.any (· < digits.length) then none
    else if !allowZeroPrefix && digits.head? = some '0' && 1 < digits.length then none
    else if value < bound then some (value, text.drop digits.length)
    else none

def ipv4Octets : Reader (ℕ × ℕ × ℕ × ℕ) := fun text => do
  let octet (index : ℕ) := separator '.' index (number 10 (some 3) false (2 ^ 8))
  let (a, text) ← octet 0 text
  let (b, text) ← octet 1 text
  let (c, text) ← octet 2 text
  let (d, text) ← octet 3 text
  pure ((a, b, c, d), text)

def ipv4 : Reader IpAddr := fun text =>
  (ipv4Octets text).map fun r =>
    let (a, b, c, d) := r.1
    (.v4 (.ofNat a) (.ofNat b) (.ofNat c) (.ofNat d), r.2)

/-- Up to `room` groups from number `index` on, and whether an embedded IPv4
address was the last of them. Such an address takes two groups. -/
def ipv6Groups : ℕ → ℕ → List Char → (List ℕ × Bool) × List Char
  | 0, _, text => (([], false), text)
  | room + 1, index, text =>
    let embedded := if 0 < room then separator ':' index ipv4Octets text else none
    match embedded with
    | some ((a, b, c, d), rest) => (([a * 256 + b, c * 256 + d], true), rest)
    | none =>
      match separator ':' index (number 16 (some 4) true (2 ^ 16)) text with
      | some (group, rest) =>
        let ((groups, isIpv4), rest) := ipv6Groups room (index + 1) rest
        ((group :: groups, isIpv4), rest)
      | none => (([], false), text)

def ofGroups (groups : List ℕ) : IpAddr :=
  let g (i : ℕ) : UInt16 := .ofNat (groups.getD i 0)
  .v6 (g 0) (g 1) (g 2) (g 3) (g 4) (g 5) (g 6) (g 7)

/-- Eight groups, or fewer with a `::` for those that are left out. -/
def ipv6 : Reader IpAddr := fun text =>
  let ((head, headIpv4), rest) := ipv6Groups 8 0 text
  if head.length = 8 then some (ofGroups head, rest)
  else if headIpv4 then none
  else do
    let (_, rest) ← givenChar ':' rest
    let (_, rest) ← givenChar ':' rest
    let ((tail, _), rest) := ipv6Groups (8 - (head.length + 1)) 0 rest
    pure (ofGroups (head ++ List.replicate (8 - head.length - tail.length) 0 ++ tail), rest)

def ipAddr : Reader IpAddr := fun text => (ipv4 text).orElse fun _ => ipv6 text

def port : Reader ℕ := fun text =>
  (givenChar ':' text).bind fun r => number 10 none true (2 ^ 16) r.2

def scopeId : Reader ℕ := fun text =>
  (givenChar '%' text).bind fun r => number 10 none true (2 ^ 32) r.2

def socketAddrV4 : Reader IpAddr := fun text => do
  let (ip, text) ← ipv4 text
  let (_, text) ← port text
  pure (ip, text)

def socketAddrV6 : Reader IpAddr := fun text => do
  let (_, text) ← givenChar '[' text
  let (ip, text) ← ipv6 text
  let text := (scopeId text).elim text Prod.snd
  let (_, text) ← givenChar ']' text
  let (_, text) ← port text
  pure (ip, text)

/-- A socket address, of which only the address is kept. -/
def socketAddr : Reader IpAddr := fun text => (socketAddrV4 text).orElse fun _ => socketAddrV6 text

end Reader

/-- An integer's own reader also takes a leading `+`. -/
def parseU8 (text : List Char) : Option ℕ :=
  let digits := if text.head? = some '+' then text.tail else text
  Reader.parseWith (Reader.number 10 none true (2 ^ 8)) digits

def parseIpAddr (text : List Char) : Option IpAddr := Reader.parseWith Reader.ipAddr text

def parseSocketAddr (text : List Char) : Option IpAddr := Reader.parseWith Reader.socketAddr text

/-- A CIDR block. -/
structure Cidr where
  addr : IpAddr
  bits : ℕ
  bits_le : bits ≤ 8 * addr.octets.length
  deriving DecidableEq

/-- Whether the first `bits` bits of two byte lists are the same. -/
def prefixEq (a b : List UInt8) (bits : ℕ) : Bool :=
  let full := bits / 8
  if a.take full ≠ b.take full then false
  else
    let rem := bits % 8
    if rem = 0 then true
    else
      let mask := (0xff : UInt8) <<< (8 - UInt8.ofNat rem)
      (a.getD full 0 &&& mask) == (b.getD full 0 &&& mask)

namespace Cidr

/-- An address, or an address and the number of its bits that count. -/
def parse (spec : String) : Option Cidr := do
  let spec := trim spec.toList
  let text := spec.takeWhile (· ≠ '/')
  let addr ← parseIpAddr text
  let max := 8 * addr.octets.length
  if text = spec then pure ⟨addr, max, Nat.le_refl _⟩
  else do
    let bits ← parseU8 (trim (spec.drop (text.length + 1)))
    if h : bits ≤ max then pure ⟨addr, bits, h⟩ else none

def contains (net : Cidr) (ip : IpAddr) : Bool :=
  net.addr.isIpv4 == ip.isIpv4 && prefixEq net.addr.octets ip.octets net.bits

end Cidr

def privateRanges : List String :=
  ["127.0.0.0/8", "::1/128", "10.0.0.0/8", "172.16.0.0/12", "192.168.0.0/16", "169.254.0.0/16",
    "fc00::/7", "fe80::/10"]

/-- The peers whose forwarding headers are honoured. -/
structure TrustedProxies where
  any : Bool
  nets : List Cidr

namespace TrustedProxies

/-- One configured entry. An entry that cannot be read adds nothing. -/
def add (trusted : TrustedProxies) (spec : String) : TrustedProxies :=
  let spec := String.ofList (trim spec.toList)
  if spec.isEmpty then trusted
  else if ["*", "any", "all"].contains (spec.map Char.toLower) then { trusted with any := true }
  else if ["private", "local"].contains (spec.map Char.toLower) then
    { trusted with nets := trusted.nets ++ privateRanges.filterMap Cidr.parse }
  else { trusted with nets := trusted.nets ++ (Cidr.parse spec).toList }

def new (specs : List String) : TrustedProxies := specs.foldl add ⟨false, []⟩

def trusts (trusted : TrustedProxies) (ip : IpAddr) : Bool :=
  trusted.any || trusted.nets.any fun net => net.contains ip.toCanonical

end TrustedProxies

end YaNuget
