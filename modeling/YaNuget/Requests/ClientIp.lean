import YaNuget.Requests.Address

/-!
# The address a client is throttled as

Forwarding headers count when the connection's peer is a trusted proxy. Their
entries are then read from the right, past the hops that are trusted proxies
themselves. What a client sends stands to the left of what the proxy appends,
so it does not matter unless it makes the proxy's line one that is not read.
-/
namespace YaNuget

/-- The bytes a header's value is made of. -/
def isHeaderByte (b : UInt8) : Bool := (32 ≤ b && b != 127) || b == 9

def isVisibleAscii (b : UInt8) : Bool := (32 ≤ b && b < 127) || b == 9

structure HeaderValue where
  bytes : List UInt8
  valid : bytes.all isHeaderByte = true
  deriving DecidableEq

namespace HeaderValue

/-- A value with any byte that is not visible ASCII is no text at all. -/
def toStr (v : HeaderValue) : Option (List Char) :=
  if v.bytes.all isVisibleAscii then some (v.bytes.map Char.ofUInt8) else none

/-- The value a proxy sends on after adding its entry, to the line it received
or as a line of its own. -/
def appended : Option HeaderValue → HeaderValue → HeaderValue
  | none, entry => entry
  | some line, entry =>
    { bytes := line.bytes ++ 44 :: entry.bytes
      valid := by
        rw [List.all_append, List.all_cons, line.valid, entry.valid]
        rfl }

theorem toStr_isSome (v : HeaderValue) : v.toStr.isSome = v.bytes.all isVisibleAscii := by
  unfold toStr
  split <;> simp_all

theorem toStr_appended_some (line entry : HeaderValue) :
    (appended (some line) entry).toStr =
      line.toStr.bind fun before => entry.toStr.map fun text => before ++ ',' :: text := by
  have hc : isVisibleAscii 44 = true := rfl
  by_cases hl : line.bytes.all isVisibleAscii = true <;>
    by_cases he : entry.bytes.all isVisibleAscii = true <;>
    simp only [toStr, appended, List.all_append, List.all_cons, hc, hl, he, Bool.and_true,
      Bool.false_eq_true, Bool.and_false, if_true, if_false, Option.bind_some,
      Option.bind_none, Option.map_some, Option.map_none, List.map_append, List.map_cons]
  rfl

theorem comma_notMem {v : HeaderValue} {text : List Char} (h : v.toStr = some text)
    (hc : 44 ∉ v.bytes) : ',' ∉ text := by
  unfold toStr at h
  split at h
  · cases h
    intro hm
    obtain ⟨b, hb, he⟩ := List.mem_map.1 hm
    have hn : b.toNat = (44 : UInt8).toNat := congrArg Char.toNat he
    exact hc (UInt8.toNat_inj.1 hn ▸ hb)
  · cases h

end HeaderValue

/-- The forwarding headers of a request, in the order of their lines. -/
structure HeaderMap where
  xForwardedFor : List HeaderValue
  xRealIp : List HeaderValue

/-- One entry of the list: an address, optionally with a port. -/
def forwardedAddr (entry : List Char) : Option IpAddr :=
  let entry := trim entry
  ((parseIpAddr entry).orElse fun _ => parseSocketAddr entry).map IpAddr.toCanonical

theorem trim_ne_nil_of_forwardedAddr {entry : List Char} {addr : IpAddr}
    (h : forwardedAddr entry = some addr) : trim entry ≠ [] := by
  intro he
  have hn : forwardedAddr entry = none := by
    unfold forwardedAddr
    rw [he]
    rfl
  rw [hn] at h
  cases h

/-- The entries of all the lines that are text. -/
def forwardedChain (headers : HeaderMap) : List (List Char) :=
  ((headers.xForwardedFor.filterMap HeaderValue.toStr).flatMap (List.splitOn ',')).filter
    fun entry => trim entry ≠ []

/-- The walk past the hops that are trusted, to the first that is not. An
entry that is no address ends it at the last hop that was one. -/
def walkHops (trusted : TrustedProxies) : IpAddr → List (List Char) → IpAddr
  | client, [] => client
  | client, entry :: hops =>
    match forwardedAddr entry with
    | none => client
    | some ip => if trusted.trusts ip then walkHops trusted ip hops else ip

def clientIp (headers : HeaderMap) (peer : Option IpAddr) (trusted : TrustedProxies) :
    Option IpAddr :=
  peer.map fun peer =>
    let peer := peer.toCanonical
    if !trusted.trusts peer then peer
    else if forwardedChain headers ≠ [] then
      walkHops trusted peer (forwardedChain headers).reverse
    else ((headers.xRealIp.head?.bind HeaderValue.toStr).bind forwardedAddr).getD peer

section
variable {trusted : TrustedProxies} {peer addr : IpAddr} {entry : HeaderValue}
  {text : List Char}

theorem splitOn_appended (ht : entry.toStr = some text) (hc : 44 ∉ entry.bytes)
    (before : Option HeaderValue) (hb : ∀ line ∈ before, line.toStr.isSome = true) :
    ∃ line entries, (HeaderValue.appended before entry).toStr = some line ∧
      line.splitOn ',' = entries ++ [text] := by
  have hs : text.splitOn ',' = [text] := List.splitOn_eq_singleton (HeaderValue.comma_notMem ht hc)
  cases before with
  | none => exact ⟨text, [], ht, hs⟩
  | some line =>
    obtain ⟨start, hstart⟩ := Option.isSome_iff_exists.1 (hb line rfl)
    refine ⟨start ++ ',' :: text, start.splitOn ',', ?_, ?_⟩
    · rw [HeaderValue.toStr_appended_some, hstart, ht]
      rfl
    · rw [List.splitOn_append_cons_self, hs]

theorem forwardedChain_appended (ht : entry.toStr = some text) (hc : 44 ∉ entry.bytes)
    (ha : forwardedAddr text = some addr) {before : Option HeaderValue}
    (hb : ∀ line ∈ before, line.toStr.isSome = true) (earlier xRealIp : List HeaderValue) :
    ∃ hops, forwardedChain ⟨earlier ++ [HeaderValue.appended before entry], xRealIp⟩ =
      hops ++ [text] := by
  obtain ⟨line, entries, hline, hsplit⟩ := splitOn_appended ht hc before hb
  refine ⟨forwardedChain ⟨earlier, xRealIp⟩ ++ entries.filter fun entry => trim entry ≠ [], ?_⟩
  have hne : trim text ≠ [] := trim_ne_nil_of_forwardedAddr ha
  simp [forwardedChain, hline, hsplit, hne]

theorem forwardedChain_unread {v : HeaderValue} (hv : v.toStr = none)
    (earlier xRealIp : List HeaderValue) :
    forwardedChain ⟨earlier ++ [v], xRealIp⟩ = forwardedChain ⟨earlier, xRealIp⟩ := by
  simp [forwardedChain, hv]

theorem walkHops_of_untrusted (ha : forwardedAddr text = some addr)
    (hu : trusted.trusts addr = false) (client : IpAddr) (hops : List (List Char)) :
    walkHops trusted client (text :: hops) = addr := by
  simp [walkHops, ha, hu]

/-- The client behind a trusted proxy is the address the proxy appended, for
all lines before and for every `X-Real-IP`, exactly when what the client put on
the proxy's own line is visible ASCII. -/
theorem clientIp_appended_iff (hp : trusted.trusts peer.toCanonical = true)
    (ht : entry.toStr = some text) (hc : 44 ∉ entry.bytes)
    (ha : forwardedAddr text = some addr) (hu : trusted.trusts addr = false)
    (before : Option HeaderValue) :
    (∀ earlier xRealIp : List HeaderValue,
        clientIp ⟨earlier ++ [HeaderValue.appended before entry], xRealIp⟩ (some peer) trusted =
          some addr) ↔
      ∀ line ∈ before, line.bytes.all isVisibleAscii = true := by
  constructor
  · intro h line hline
    cases hline
    by_contra hn
    have hnone : line.toStr = none := by
      rw [← Option.not_isSome_iff_eq_none, HeaderValue.toStr_isSome]
      exact hn
    have hunread : (HeaderValue.appended (some line) entry).toStr = none := by
      rw [HeaderValue.toStr_appended_some, hnone]
      rfl
    have hchain : forwardedChain ⟨[] ++ [HeaderValue.appended (some line) entry], []⟩ = [] :=
      forwardedChain_unread hunread [] []
    have hself : clientIp ⟨[] ++ [HeaderValue.appended (some line) entry], []⟩ (some peer)
        trusted = some peer.toCanonical := by
      simp only [clientIp, hchain, hp, Option.map_some]
      rfl
    rw [h [] []] at hself
    cases hself
    rw [hu] at hp
    cases hp
  · intro hb earlier xRealIp
    have hb' : ∀ line ∈ before, line.toStr.isSome = true := by
      intro line hline
      rw [HeaderValue.toStr_isSome]
      exact hb line hline
    obtain ⟨hops, hchain⟩ := forwardedChain_appended ht hc ha hb' earlier xRealIp
    simp only [clientIp, Option.map_some, hp, Bool.not_true, Bool.false_eq_true, if_false, hchain,
      List.reverse_append, List.reverse_cons, List.reverse_nil, List.nil_append,
      List.cons_append, walkHops_of_untrusted ha hu, ne_eq, List.append_eq_nil_iff,
      List.cons_ne_nil, and_false, not_false_eq_true, if_true]

end

/-- A value whose bytes are checked where it is written down. -/
def HeaderValue.ofBytes (bytes : List UInt8) (valid : bytes.all isHeaderByte = true := by decide) :
    HeaderValue := ⟨bytes, valid⟩

/-- The client sent `198.51.100.7` and `X-Real-IP: 6.6.6.6`, and the proxy
appended ` 203.0.113.9`. -/
theorem clientIp_appended_sample :
    clientIp ⟨[] ++ [HeaderValue.appended
        (some (.ofBytes [49, 57, 56, 46, 53, 49, 46, 49, 48, 48, 46, 55]))
        (.ofBytes [32, 50, 48, 51, 46, 48, 46, 49, 49, 51, 46, 57])],
        [.ofBytes [54, 46, 54, 46, 54, 46, 54]]⟩
      (some (.v4 10 0 0 1)) (.new ["10.0.0.0/8"]) = some (.v4 203 0 113 9) :=
  (clientIp_appended_iff (by decide +kernel)
    (show HeaderValue.toStr _ = some " 203.0.113.9".toList by decide +kernel)
    (by decide) (by decide +kernel) (by decide +kernel) _).2 (fun _ h => by cases h; decide) _ _

/-- The client sent one byte that is not ASCII, and `X-Real-IP: 6.6.6.6`. -/
theorem clientIp_chosen_by_client :
    let trusted := TrustedProxies.new ["10.0.0.0/8"]
    let entry := HeaderValue.ofBytes [32, 50, 48, 51, 46, 48, 46, 49, 49, 51, 46, 57]
    trusted.trusts (.v4 10 0 0 1) = true ∧
      entry.toStr.bind forwardedAddr = some (.v4 203 0 113 9) ∧
      trusted.trusts (.v4 203 0 113 9) = false ∧
      clientIp ⟨[HeaderValue.appended (some (.ofBytes [255])) entry],
          [.ofBytes [54, 46, 54, 46, 54, 46, 54]]⟩ (some (.v4 10 0 0 1)) trusted =
        some (.v4 6 6 6 6) := by
  decide +kernel

end YaNuget
