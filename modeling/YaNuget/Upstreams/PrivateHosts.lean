import YaNuget.Internalize.Naming
import YaNuget.Requests.Address

/-!
# Private hosts

A host that a URL names is private when its text is a name for the machine
itself, or an address of a loopback, private, link-local or reserved range. A
name that would have to be resolved counts as public.
-/
namespace YaNuget.Upstreams

open Internalize (rsplitOnce trimEndMatches)

/-- An IPv4-mapped IPv6 address in its IPv4 form. -/
def unmap (ip : IpAddr) : IpAddr := ip.toCanonical

/-- Ranges beyond what the standard library's own predicates cover. -/
def privateV4 : List (List UInt8 × ℕ) :=
  [([0, 0, 0, 0], 8), ([100, 64, 0, 0], 10), ([192, 0, 0, 0], 24), ([198, 18, 0, 0], 15),
    ([224, 0, 0, 0], 4), ([240, 0, 0, 0], 4)]

/-- Ranges that are private in themselves, by their first three groups. -/
def privateV6 : List ((UInt16 × UInt16 × UInt16) × ℕ) :=
  [((0xfc00, 0, 0), 7), ((0xfe80, 0, 0), 10), ((0xfec0, 0, 0), 10), ((0xff00, 0, 0), 8),
    ((0x0064, 0xff9b, 0x0001), 48)]

def isPrivateV4 (a b c d : UInt8) : Bool :=
  let isLoopback := a == 127
  let isPrivate := a == 10 || (a == 172 && 16 ≤ b && b ≤ 31) || (a == 192 && b == 168)
  let isLinkLocal := a == 169 && b == 254
  let isUnspecified := [a, b, c, d] == [0, 0, 0, 0]
  let isBroadcast := [a, b, c, d] == [255, 255, 255, 255]
  isLoopback || isPrivate || isLinkLocal || isUnspecified || isBroadcast ||
    privateV4.any fun net => prefixEq net.1 [a, b, c, d] net.2

/-- The IPv4 address that an IPv6 address carries: mapped, compatible, behind NAT64's well-known
prefix, or 6to4. -/
def embeddedV4 (s₀ s₁ s₂ s₃ s₄ s₅ s₆ s₇ : UInt16) : Option (UInt8 × UInt8 × UInt8 × UInt8) :=
  let pair (s t : UInt16) := ((s >>> 8).toUInt8, s.toUInt8, (t >>> 8).toUInt8, t.toUInt8)
  if [s₀, s₁, s₂, s₃, s₄, s₅] == [0, 0, 0, 0, 0, 0xffff] then some (pair s₆ s₇)
  else if [s₀, s₁, s₂, s₃, s₄, s₅] == [0, 0, 0, 0, 0, 0] && (s₆ != 0 || 1 < s₇) then
    some (pair s₆ s₇)
  else if [s₀, s₁, s₂, s₃, s₄, s₅] == [0x64, 0xff9b, 0, 0, 0, 0] then some (pair s₆ s₇)
  else if s₀ == 0x2002 then some (pair s₁ s₂)
  else none

def isPrivateIp : IpAddr → Bool
  | .v4 a b c d => isPrivateV4 a b c d
  | .v6 s₀ s₁ s₂ s₃ s₄ s₅ s₆ s₇ =>
    match embeddedV4 s₀ s₁ s₂ s₃ s₄ s₅ s₆ s₇ with
    | some (a, b, c, d) => isPrivateV4 a b c d
    | none =>
      let ip := IpAddr.v6 s₀ s₁ s₂ s₃ s₄ s₅ s₆ s₇
      ip == .v6 0 0 0 0 0 0 0 1 || ip == .v6 0 0 0 0 0 0 0 0 ||
        privateV6.any fun net =>
          prefixEq (IpAddr.v6 net.1.1 net.1.2.1 net.1.2.2 0 0 0 0 0).octets ip.octets net.2

/-- Whether an address is one that must not be fetched from. -/
def isPrivateIpAddr (ip : IpAddr) : Bool := isPrivateIp (unmap ip)

/-- The host without the brackets of an address, or without a port. -/
def bareHost (host : Text) : Text :=
  match host with
  | '[' :: rest => rest.takeWhile (· != ']')
  | _ => (((rsplitOnce ':' host).map Prod.fst).filter fun h => !h.contains ':').getD host

/-- A name for the machine itself, or for one next to it. -/
def isLocalName (name : Text) : Bool :=
  name == "localhost".toList || ".localhost".toList.isSuffixOf name ||
    ".local".toList.isSuffixOf name

def isPrivateHost (host : Text) : Bool :=
  let lower := trimEndMatches (· == '.') (Text.lower (bareHost (trim host)))
  isLocalName lower || (parseIpAddr lower).any isPrivateIpAddr

def dottedChars : Text := "0123456789.".toList

def groupChars : Text := "0123456789abcdef:".toList

/-- How a URL writes an address that is its host: numbers with dots between them, or groups
between brackets. -/
inductive Literal : IpAddr → Text → Prop
  | v4 {a b c d : UInt8} {text : Text} (hparse : parseIpAddr text = some (.v4 a b c d))
      (hchars : ∀ c ∈ text, c ∈ dottedChars) (hlast : text.getLast? ≠ some '.') :
      Literal (.v4 a b c d) text
  | v6 {s₀ s₁ s₂ s₃ s₄ s₅ s₆ s₇ : UInt16} {text : Text}
      (hparse : parseIpAddr text = some (.v6 s₀ s₁ s₂ s₃ s₄ s₅ s₆ s₇))
      (hchars : ∀ c ∈ text, c ∈ groupChars) :
      Literal (.v6 s₀ s₁ s₂ s₃ s₄ s₅ s₆ s₇) ('[' :: text ++ [']'])

section Literals

variable {ip : IpAddr} {host text : Text}

theorem isLocalName_eq_false (h : 'l' ∉ text) : isLocalName text = false := by
  have hsuffix (name : Text) (hname : 'l' ∈ name) : name.isSuffixOf text = false := by
    rw [Bool.eq_false_iff]
    intro hsuffix
    exact h ((List.isSuffixOf_iff_suffix.mp hsuffix).subset hname)
  have hname : (text == "localhost".toList) = false := by
    rw [beq_eq_false_iff_ne]
    rintro rfl
    exact h (by decide)
  unfold isLocalName
  rw [hname, hsuffix _ (by decide), hsuffix _ (by decide)]
  rfl

theorem lower_eq_self (h : ∀ c ∈ text, c.toLower = c) : Text.lower text = text := by
  unfold Text.lower
  conv_rhs => rw [← List.map_id text]
  exact List.map_congr_left h

theorem trimEndMatches_eq_self {p : Char → Bool} (h : ∀ c ∈ text.getLast?, p c = false) :
    trimEndMatches p text = text := by
  unfold trimEndMatches
  cases hrev : text.reverse with
  | nil => rw [List.dropWhile_nil, ← hrev, List.reverse_reverse]
  | cons c rest =>
    have hlast : text.getLast? = some c := by rw [← List.head?_reverse, hrev, List.head?_cons]
    rw [List.dropWhile_cons_of_neg (by simp [h c hlast]), ← hrev, List.reverse_reverse]

/-- What is left of the host, if it has no letters of a name, is an address or it is public. -/
theorem isPrivateHost_of_text (hbare : bareHost (trim host) = text)
    (hchars : ∀ c ∈ text, c.toLower = c ∧ c ≠ 'l') (hlast : text.getLast? ≠ some '.') :
    isPrivateHost host = (parseIpAddr text).any isPrivateIpAddr := by
  have hlower : Text.lower text = text := lower_eq_self fun c hc => (hchars c hc).1
  have hend : trimEndMatches (· == '.') text = text := by
    apply trimEndMatches_eq_self
    intro c hc
    rw [beq_eq_false_iff_ne]
    rintro rfl
    exact hlast hc
  unfold isPrivateHost
  simp only [hbare, hlower, hend, isLocalName_eq_false fun hc => (hchars _ hc).2 rfl,
    Bool.false_or]

theorem splitOnce_reverse_eq_none {sep : Char} (h : sep ∉ text) :
    rsplitOnce sep text = none := by
  unfold rsplitOnce
  rw [Text.splitOnce_eq_none.mpr (by simpa using h)]
  rfl

theorem dottedChars_spec : ∀ c ∈ dottedChars,
    isWhitespace c = false ∧ c.toLower = c ∧ c ≠ '[' ∧ c ≠ ':' ∧ c ≠ 'l' := by
  have hall : (dottedChars.all fun c => decide (isWhitespace c = false ∧ c.toLower = c ∧
      c ≠ '[' ∧ c ≠ ':' ∧ c ≠ 'l')) = true := rfl
  intro c hc
  exact of_decide_eq_true (List.all_eq_true.mp hall c hc)

theorem groupChars_spec : ∀ c ∈ groupChars,
    isWhitespace c = false ∧ c.toLower = c ∧ c ≠ ']' ∧ c ≠ '.' ∧ c ≠ 'l' := by
  have hall : (groupChars.all fun c => decide (isWhitespace c = false ∧ c.toLower = c ∧
      c ≠ ']' ∧ c ≠ '.' ∧ c ≠ 'l')) = true := rfl
  intro c hc
  exact of_decide_eq_true (List.all_eq_true.mp hall c hc)

theorem bareHost_eq_self (hbracket : '[' ∉ text) (hcolon : ':' ∉ text) : bareHost text = text := by
  unfold bareHost
  split
  · exact absurd List.mem_cons_self hbracket
  · rw [splitOnce_reverse_eq_none hcolon]
    rfl

theorem bareHost_bracketed (h : ']' ∉ text) : bareHost ('[' :: text ++ [']']) = text := by
  have htake : (text ++ [']']).takeWhile (· != ']') = text := by
    rw [List.takeWhile_append_of_pos fun c hc => by simpa using fun heq : c = ']' => h (heq ▸ hc)]
    simp
  exact htake

/-- A host that is an address is private when the address is. -/
theorem isPrivateHost_literal (h : Literal ip host) : isPrivateHost host = isPrivateIpAddr ip := by
  cases h with
  | v4 hparse hchars hlast =>
    have hspec c (hc : c ∈ host) := dottedChars_spec c (hchars c hc)
    have hbare : bareHost (trim host) = host := by
      rw [Text.trim_eq_self fun c hc => (hspec c hc).1]
      exact bareHost_eq_self (fun hc => (hspec _ hc).2.2.1 rfl) fun hc => (hspec _ hc).2.2.2.1 rfl
    rw [isPrivateHost_of_text hbare (fun c hc => ⟨(hspec c hc).2.1, (hspec c hc).2.2.2.2⟩) hlast,
      hparse, Option.any_some]
  | @v6 s₀ s₁ s₂ s₃ s₄ s₅ s₆ s₇ text hparse hchars =>
    have hspec c (hc : c ∈ text) := groupChars_spec c (hchars c hc)
    have hbare : bareHost (trim ('[' :: text ++ [']'])) = text := by
      have htrim : trim ('[' :: text ++ [']']) = '[' :: text ++ [']'] := by
        apply Text.trim_eq_self
        intro c hc
        rw [List.cons_append, List.mem_cons, List.mem_append, List.mem_singleton] at hc
        rcases hc with rfl | hc | rfl
        · decide
        · exact (hspec c hc).1
        · decide
      rw [htrim, bareHost_bracketed fun hc => (hspec _ hc).2.2.1 rfl]
    have hlast : text.getLast? ≠ some '.' :=
      fun hc => (hspec _ (List.mem_of_getLast? hc)).2.2.2.1 rfl
    rw [isPrivateHost_of_text hbare (fun c hc => ⟨(hspec c hc).2.1, (hspec c hc).2.2.2.2⟩) hlast,
      hparse, Option.any_some]

end Literals

end YaNuget.Upstreams
