import YaNuget.Data.Hops
import YaNuget.Upstreams.Clients

/-!
# Outgoing requests

What a client sends for one URL is a walk of vetted hops, wherever the far side
redirects it to.
-/
namespace YaNuget.Upstreams

open Hops

variable {Url : Type} {U : Urls Url}

/-- What the requests of one chain keep to, for a client that may reach some private hosts and
whose credentials are for one origin. -/
structure InBounds (U : Urls Url) (permits : Text → Bool) (home : Option Origin)
    (headers : List Header) (chain : List (Request Url)) : Prop where
  http : ∀ r ∈ chain, U.scheme r.url = "http".toList ∨ U.scheme r.url = "https".toList
  isPublic : ∀ r ∈ chain, ∀ ip, U.literal r.url = some ip → isPrivateIpAddr ip = true →
    ∃ host, U.hostStr r.url = some host ∧ permits host = true
  upward : chain.IsChain fun r r' =>
    ¬ (U.scheme r.url = "https".toList ∧ U.scheme r'.url = "http".toList)
  credentials : ∀ r ∈ chain, r.headers = headers ∨ (home.isSome = true ∧ origin U r.url = home)
  bounded : chain.length ≤ maxRedirects + 1

def Vetted (U : Urls Url) (permits : Text → Bool) (url : Url) : Prop :=
  isHttp (U.scheme url) = true ∧
    ∀ host, U.hostStr url = some host → isPrivateHost host = true → permits host = true

def KeepsCredentials (U : Urls Url) (home : Option Origin) (headers : List Header)
    (r : Request Url) : Prop :=
  r.headers = headers ∨ (home.isSome = true ∧ origin U r.url = home)

variable {allows : Text → Bool} {home : Option Origin} {headers : List Header}
  {chain : List (Request Url)}

abbrev Sends (U : Urls Url) (permits : Text → Bool) (home : Option Origin)
    (headers : List Header) (n : ℕ) (url : Url) (chain : List (Request Url)) : Prop :=
  Walk Request.url (Vetted U permits) (fun current next => downgrades U current next = false)
    (KeepsCredentials U home headers) n url chain

theorem isHttp_iff {scheme : Text} :
    isHttp scheme = true ↔ scheme = "http".toList ∨ scheme = "https".toList := by
  unfold isHttp
  rw [Bool.or_eq_true, beq_iff_eq, beq_iff_eq]

theorem downgrades_eq_false {current next : Url} : downgrades U current next = false ↔
    ¬ (U.scheme current = "https".toList ∧ U.scheme next = "http".toList) := by
  unfold downgrades
  rw [← Bool.not_eq_true, Bool.and_eq_true, beq_iff_eq, beq_iff_eq]

theorem Sends.inBounds (hliterals : U.WritesLiterals) {url : Url}
    (h : Sends U allows home headers (maxRedirects + 1) url chain) :
    InBounds U allows home headers chain where
  http r hr := isHttp_iff.mp (h.forall r hr).1.1
  isPublic r hr ip hip hprivate := by
    obtain ⟨host, hhost, hliteral⟩ := hliterals r.url ip hip
    refine ⟨host, hhost, (h.forall r hr).1.2 host hhost ?_⟩
    rw [isPrivateHost_literal hliteral, hprivate]
  upward := h.isChain.imp fun _ _ => downgrades_eq_false.mp
  credentials r hr := (h.forall r hr).2
  bounded := h.length_le

theorem inBounds_nil : InBounds U allows home headers [] where
  http := by simp
  isPublic := by simp
  upward := .nil
  credentials := by simp
  bounded := Nat.zero_le _

namespace MirrorClient

variable {client : MirrorClient} {what : String}

theorem vetted_of_checkParsed {url : Url} (h : client.checkParsed U what url = .ok ()) :
    Vetted U (fun _ => client.allowPrivateUpstream) url := by
  unfold checkParsed at h
  split_ifs at h with hscheme hprivate
  refine ⟨by simpa using hscheme, fun host hhost hhost' => ?_⟩
  rw [hhost, Option.any_some, hhost', Bool.and_true] at hprivate
  simpa using hprivate

theorem redirectTarget_ok {current next : Url} {location : Text}
    (h : client.redirectTarget U what current location = .ok next) :
    downgrades U current next = false ∧ client.checkParsed U what next = .ok () := by
  unfold redirectTarget at h
  cases hjoin : U.join current location with
  | error e =>
    rw [hjoin] at h
    cases h
  | ok target =>
    rw [hjoin] at h
    change (if downgrades U current target then _ else _) = _ at h
    split_ifs at h with hdown
    cases hcheck : client.checkParsed U what target with
    | error e =>
      rw [hcheck] at h
      cases h
    | ok _ =>
      rw [hcheck] at h
      cases h
      exact ⟨Bool.of_not_eq_true hdown, hcheck⟩

theorem keepsCredentials {current : Url} :
    KeepsCredentials U (some client.upstreamOrigin) [] (client.requestTo U current) := by
  unfold KeepsCredentials requestTo
  split_ifs with hcarries
  · exact .inr ⟨rfl, by simpa [carriesCredentials] using hcarries⟩
  · exact .inl rfl

theorem sends_follow {url : Text} {deadline : Option ℕ} {left : ℕ} {current : Url}
    {hops : ℕ → Hop} (hcurrent : Vetted U (fun _ => client.allowPrivateUpstream) current) :
    Sends U (fun _ => client.allowPrivateUpstream) (some client.upstreamOrigin) [] left current
      (client.follow U what url deadline left current hops).2 := by
  induction left generalizing current hops with
  | zero => exact .none
  | succ left ih =>
    have hlast : Sends U (fun _ => client.allowPrivateUpstream) (some client.upstreamOrigin) []
        (left + 1) current [client.requestTo U current] := .last hcurrent keepsCredentials
    unfold follow
    simp only
    split
    · exact .none
    · split_ifs with hlate
      · exact .none
      · split
        · exact hlast
        · next resp _ =>
          split_ifs with hredirect
          · exact hlast
          · split
            · exact hlast
            · split
              · exact hlast
              · next location _ _ next htarget =>
                obtain ⟨hdown, hcheck⟩ := redirectTarget_ok htarget
                exact .hop hcurrent keepsCredentials hdown (ih (vetted_of_checkParsed hcheck))

theorem inBounds_sendUnrecorded (hliterals : U.WritesLiterals) (url : Text) (deadline : Option ℕ)
    (hops : ℕ → Hop) :
    InBounds U (fun _ => client.allowPrivateUpstream) (some client.upstreamOrigin) []
      (client.sendUnrecorded U what url deadline hops).2 := by
  unfold sendUnrecorded
  split
  · exact inBounds_nil
  · split
    · exact inBounds_nil
    · next hcheck => exact (sends_follow (vetted_of_checkParsed hcheck)).inBounds hliterals

theorem of_build {config : MirrorConfig} {envProxy envProxySet : Bool}
    (h : build U config envProxy envProxySet = .ok client) :
    client.allowPrivateUpstream = config.allowPrivateUpstream ∧
      some client.upstreamOrigin = (U.parse config.upstream).toOption.bind (origin U) := by
  unfold build at h
  split at h
  · cases h
  · next horigin =>
    cases h
    exact ⟨rfl, horigin.symm⟩

end MirrorClient

namespace HttpClient

variable {client : HttpClient} {what : String}

def permits (client : HttpClient) (host : Text) : Bool :=
  client.allowPrivate || allowed client.allowedPrivateHosts host

theorem vetted_of_vet {url : Url} {resolved : Except UnsafeHost Unit}
    (h : client.vet U what url resolved = .ok ()) : Vetted U client.permits url := by
  have hcheck : client.check U what url = .ok () := by
    unfold vet at h
    cases hcheck : client.check U what url with
    | error e =>
      rw [hcheck] at h
      cases h
    | ok _ => rfl
  unfold check at hcheck
  split_ifs at hcheck with hscheme hprivate
  refine ⟨by simpa using hscheme, fun host hhost hhost' => ?_⟩
  rw [hhost, Option.any_some, hhost', Bool.true_and] at hprivate
  unfold permits
  cases hall : client.allowPrivate with
  | true => rfl
  | false => simpa [hall] using hprivate

theorem keepsCredentials {current : Url} {headers : List Header} :
    KeepsCredentials U client.origin headers (client.requestTo U headers current) := by
  unfold KeepsCredentials requestTo
  split_ifs with hcarries
  · exact .inr (by simpa [carriesCredentials] using hcarries)
  · exact .inl rfl

theorem sends_follow {url : Url} {headers : List Header} {left : ℕ} {current : Url}
    {hops : ℕ → Hop} (hcurrent : Vetted U client.permits current) :
    Sends U client.permits client.origin headers left current
      (client.follow U what url headers left current hops).2 := by
  induction left generalizing current hops with
  | zero => exact .none
  | succ left ih =>
    have hlast : Sends U client.permits client.origin headers (left + 1) current
        [client.requestTo U headers current] := .last hcurrent keepsCredentials
    unfold follow
    simp only
    split
    · exact hlast
    · split_ifs with hredirect
      · exact hlast
      · split
        · exact hlast
        · split
          · exact hlast
          · split_ifs with hdown
            · exact hlast
            · split
              · exact hlast
              · next hvet =>
                exact .hop hcurrent keepsCredentials (Bool.of_not_eq_true hdown)
                  (ih (vetted_of_vet hvet))

variable (client what) in
theorem inBounds_send (hliterals : U.WritesLiterals) (url : Url) (headers : List Header)
    (hops : ℕ → Hop) :
    InBounds U client.permits client.origin headers (client.send U what url headers hops).2 := by
  unfold send
  split
  · exact inBounds_nil
  · next hvet => exact (sends_follow (vetted_of_vet hvet)).inBounds hliterals

variable (client what) in
/-- Each try is a chain of its own. -/
theorem inBounds_tries (hliterals : U.WritesLiterals) (url : Url) (headers : List Header)
    (left : ℕ) (meets : ℕ → ℕ → Hop) :
    (∀ chain ∈ (client.tries U what url headers left meets).2,
        InBounds U client.permits client.origin headers chain) ∧
      (client.tries U what url headers left meets).2.length ≤ left + 1 := by
  have hsend := fun hops => inBounds_send client what hliterals url headers hops
  induction left generalizing meets with
  | zero =>
    unfold tries
    refine ⟨fun chain hchain => ?_, le_rfl⟩
    rw [List.mem_singleton.mp hchain]
    exact hsend _
  | succ left ih =>
    obtain ⟨hrest, hlength⟩ := ih fun i => meets (i + 1)
    unfold tries
    simp only
    split_ifs with hretries
    · refine ⟨fun chain hchain => ?_, Nat.succ_le_succ hlength⟩
      rcases List.mem_cons.mp hchain with rfl | hchain
      · exact hsend _
      · exact hrest chain hchain
    · refine ⟨fun chain hchain => ?_, Nat.succ_le_succ (Nat.zero_le _)⟩
      rw [List.mem_singleton.mp hchain]
      exact hsend _

end HttpClient

theorem length_flatten_le {chains : List (List (Request Url))} {n : ℕ}
    (h : ∀ chain ∈ chains, chain.length ≤ n) : chains.flatten.length ≤ chains.length * n := by
  induction chains with
  | nil => exact Nat.zero_le _
  | cons chain chains ih =>
    have hchain := h chain List.mem_cons_self
    have hrest := ih fun c hc => h c (List.mem_cons_of_mem chain hc)
    rw [List.flatten_cons, List.length_append, List.length_cons, Nat.succ_mul]
    omega

/-- The requests of both clients stay in bounds, wherever they are sent and redirected to. -/
theorem outgoing_in_bounds (hliterals : U.WritesLiterals) (what : String) :
    (∀ (config : MirrorConfig) (envProxy envProxySet : Bool) (client : MirrorClient),
      MirrorClient.build U config envProxy envProxySet = .ok client →
      ∀ (url : Text) (deadline : Option ℕ) (hops : ℕ → Hop),
        InBounds U (fun _ => config.allowPrivateUpstream)
          ((U.parse config.upstream).toOption.bind (origin U)) []
          (client.sendUnrecorded U what url deadline hops).2) ∧
    ∀ (options : Options Url) (attempts : ℕ) (url : Url) (headers : List Header)
        (meets : ℕ → ℕ → Hop),
      let client := (HttpClient.withOptions U options).setRetry attempts
      let chains := (client.getWith U what url headers meets).2
      (∀ chain ∈ chains, InBounds U
        (fun host => options.allowPrivate || allowed options.allowedPrivateHosts host)
        (options.origin.bind (origin U)) headers chain) ∧
      chains.flatten.length ≤ max attempts 1 * (maxRedirects + 1) := by
  constructor
  · intro config envProxy envProxySet client hbuild url deadline hops
    obtain ⟨hallow, horigin⟩ := MirrorClient.of_build hbuild
    rw [← hallow, ← horigin]
    exact MirrorClient.inBounds_sendUnrecorded hliterals url deadline hops
  · intro options attempts url headers meets
    obtain ⟨hchains, hlength⟩ := HttpClient.inBounds_tries
      ((HttpClient.withOptions U options).setRetry attempts) what hliterals url headers
      (attempts - 1) meets
    refine ⟨hchains, (length_flatten_le fun chain hchain => (hchains chain hchain).bounded).trans ?_⟩
    have hmax : attempts - 1 + 1 = max attempts 1 := by omega
    exact Nat.mul_le_mul_right _ (hmax ▸ hlength)

structure SampleUrl where
  scheme : Text
  host : Text

namespace SampleUrl

def ofText (text : Text) : SampleUrl :=
  ⟨text.takeWhile (· != ':'), ((text.dropWhile (· != ':')).drop 3).takeWhile (· != '/')⟩

def address (url : SampleUrl) : Option IpAddr :=
  if url.host.all (dottedChars.contains ·) && url.host.getLast? != some '.' then
    (parseIpAddr url.host).filter IpAddr.isIpv4
  else none

def urls : Urls SampleUrl where
  parse text := .ok (ofText text)
  join _ location := .ok (ofText location)
  scheme := scheme
  hostStr url := some url.host
  portOrKnownDefault url := some (if url.scheme = "https".toList then 443 else 80)
  literal := address
  redact url := String.ofList (url.scheme ++ "://".toList ++ url.host)
  redactText := String.ofList

theorem writesLiterals : urls.WritesLiterals := by
  intro url ip hip
  refine ⟨url.host, rfl, ?_⟩
  change address url = some ip at hip
  unfold address at hip
  split_ifs at hip with hchars
  rw [Bool.and_eq_true, List.all_eq_true, bne_iff_ne] at hchars
  rw [Option.filter_eq_some_iff] at hip
  cases ip with
  | v4 a b c d => exact .v4 hip.1 (fun c hc => by simpa using hchars.1 c hc) hchars.2
  | v6 => cases hip.2

def config : MirrorConfig :=
  ⟨"https://feed.example/v3/index.json".toList, [("Authorization".toList, "Bearer t".toList)],
    false, none⟩

def hops : ℕ → Hop
  | 0 => ⟨.ok (), 0, .ok ⟨302, "302 Found", some "https://cdn.example/a.nupkg".toList⟩⟩
  | _ => ⟨.ok (), 0, .ok ⟨302, "302 Found", some "https://169.254.169.254/".toList⟩⟩

def client : MirrorClient :=
  ⟨("https".toList, "feed.example".toList, 443), config.auth, false, false⟩

end SampleUrl

theorem outgoing_in_bounds_sample :
    let sent := (SampleUrl.client.sendUnrecorded SampleUrl.urls "package"
      "https://feed.example/a.nupkg".toList none SampleUrl.hops).2
    sent.map (fun r => (r.url.host, r.headers.length)) =
        [("feed.example".toList, 1), ("cdn.example".toList, 0)] ∧
      InBounds SampleUrl.urls (fun _ => false)
        (some ("https".toList, "feed.example".toList, 443)) [] sent :=
  ⟨by decide +kernel, (outgoing_in_bounds SampleUrl.writesLiterals "package").1 SampleUrl.config
    false false SampleUrl.client rfl "https://feed.example/a.nupkg".toList none SampleUrl.hops⟩

end YaNuget.Upstreams
