import YaNuget.Upstreams.PrivateHosts

/-!
# The HTTP clients

The server's mirror and the internalizer each follow redirects themselves. A
hop is a request of its own: it is vetted like the first URL, it may not lead
from https to http, and it carries the credentials when it goes to the
upstream's own origin.
-/
namespace YaNuget.Upstreams

open Internalize (UpstreamError)

/-- What comes from other packages: URLs, as they are parsed and resolved against each other. -/
structure Urls (Url : Type) where
  parse : Text → Except String Url
  join : Url → Text → Except String Url
  scheme : Url → Text
  hostStr : Url → Option Text
  portOrKnownDefault : Url → Option ℕ
  /-- The host, where it is an address. -/
  literal : Url → Option IpAddr
  /-- The URL without credentials and query, for messages. -/
  redact : Url → String
  redactText : Text → String

/-- The text of a host that is an address is that address. -/
def Urls.WritesLiterals {Url : Type} (U : Urls Url) : Prop :=
  ∀ url ip, U.literal url = some ip → ∃ host, U.hostStr url = some host ∧ Literal ip host

/-- How many redirects one request may follow. -/
def maxRedirects : ℕ := 5

/-- Scheme, host and port. -/
abbrev Origin := Text × Text × ℕ

abbrev Header := Text × Text

/-- The headers of a request, where those added replace others of their names. -/
def replaceHeaders (headers added : List Header) : List Header :=
  (headers.filter fun h => !added.any fun a => a.1 = h.1) ++ added

/-- A request that was sent. -/
structure Request (Url : Type) where
  url : Url
  headers : List Header

/-- The head of a response. -/
structure Response where
  status : ℕ
  /-- The status with its reason, for messages. -/
  shown : String
  /-- The `Location`, if it is text. -/
  location : Option Text

def Response.isRedirection (r : Response) : Bool := 300 ≤ r.status && r.status < 400

/-- Why a host was refused that a proxy would resolve. -/
inductive UnsafeHost where
  | unresolvable (error : String)
  | isPrivate (ip : String)

/-- What one hop meets: how its host resolves here, how much time has passed, and what the far
side answers. -/
structure Hop where
  resolved : Except UnsafeHost Unit
  elapsed : ℕ
  answer : Except String Response

section

variable {Url : Type} (U : Urls Url)

def isHttp (scheme : Text) : Bool := scheme == "http".toList || scheme == "https".toList

def origin (url : Url) : Option Origin := do
  let host ← U.hostStr url
  let port ← U.portOrKnownDefault url
  pure (U.scheme url, Text.lower host, port)

def downgrades (current next : Url) : Bool :=
  U.scheme current == "https".toList && U.scheme next == "http".toList

/-- Resolve the host of a URL that a proxy will fetch. An address passes. -/
def checkResolved (host : Text) (resolved : Except UnsafeHost Unit) : Except UnsafeHost Unit :=
  let bare := Internalize.trimEndMatches (· == ']') (host.dropWhile (· == '['))
  if (parseIpAddr bare).isSome then .ok () else resolved

/-- What is configured of one feed's upstream. -/
structure MirrorConfig where
  upstream : Text
  /-- The headers that the credentials are sent as. -/
  auth : List Header
  allowPrivateUpstream : Bool
  proxy : Option Text

structure MirrorClient where
  upstreamOrigin : Origin
  credentials : List Header
  allowPrivateUpstream : Bool
  /-- A proxy resolves the names itself. -/
  proxied : Bool

namespace MirrorClient

/-- A client that uses the proxy of its environment only if it is told to. -/
def build (config : MirrorConfig) (envProxy envProxySet : Bool) : Except String MirrorClient :=
  match (U.parse config.upstream).toOption.bind (origin U) with
  | none =>
    .error s!"mirror: upstream {U.redactText config.upstream} is not an absolute URL"
  | some upstreamOrigin =>
    .ok
      { upstreamOrigin
        credentials := config.auth
        allowPrivateUpstream := config.allowPrivateUpstream
        proxied := config.proxy.isSome || (envProxy && envProxySet) }

variable (client : MirrorClient) (what : String)

def checkParsed (url : Url) : Except String Unit :=
  if !isHttp (U.scheme url) then
    .error s!"upstream {what} url uses unsupported scheme {reprStr (String.ofList (U.scheme url))}"
  else if !client.allowPrivateUpstream && (U.hostStr url).any isPrivateHost then
    let host := String.ofList ((U.hostStr url).getD [])
    .error (s!"upstream {what} url points at the private address {host}; " ++
      "set allow_private_upstream = true to permit it")
  else .ok ()

def checkProxied (url : Url) (hop : Hop) : Except String Unit :=
  match U.hostStr url with
  | none => .ok ()
  | some host =>
    if !client.proxied || client.allowPrivateUpstream then .ok ()
    else
      (checkResolved host hop.resolved).mapError fun why =>
        let reason := match why with
          | .isPrivate ip => s!"resolves to the private address {ip}"
          | .unresolvable e => s!"cannot be resolved here to check its address ({e}); behind a " ++
              "proxy every host is also resolved locally"
        s!"upstream {what} {U.redact url}: refused, since {String.ofList host} {reason}; " ++
          "set allow_private_upstream = true to permit it"

def carriesCredentials (url : Url) : Bool := origin U url == some client.upstreamOrigin

def requestTo (url : Url) : Request Url where
  url
  headers := if client.carriesCredentials U url then replaceHeaders [] client.credentials else []

/-- Where a redirect leads, if it may be followed at all. -/
def redirectTarget (current : Url) (location : Text) : Except String Url := do
  let next ← (U.join current location).mapError fun e =>
    s!"upstream {what} {U.redact current} redirected to an invalid url: {e}"
  if downgrades U current next then
    .error (s!"upstream {what} {U.redact current} redirected from https to http " ++
      s!"({U.redact next}); refusing the downgrade")
  else do
    client.checkParsed U what next
    pure next

/-- The hops that may still be made from a URL, and the requests they send. -/
def follow (url : Text) (deadline : Option ℕ) :
    ℕ → Url → (ℕ → Hop) → Except String Response × List (Request Url)
  | 0, _, _ =>
    (.error s!"upstream {what} {U.redactText url} redirected more than {maxRedirects} times", [])
  | left + 1, current, hops =>
    let hop := hops 0
    match client.checkProxied U what current hop with
    | .error e => (.error e, [])
    | .ok () =>
      let request := client.requestTo U current
      if deadline.any (· - hop.elapsed = 0) then
        (.error s!"upstream {what} {U.redact current} timed out", [])
      else
        match hop.answer with
        | .error e =>
          (.error s!"upstream request to {U.redact current} failed: {e}", [request])
        | .ok resp =>
          if !resp.isRedirection then (.ok resp, [request])
          else
            match resp.location with
            | none => (.error (s!"upstream {what} {U.redact current} answered {resp.shown} " ++
                "without a usable Location"), [request])
            | some location =>
              match client.redirectTarget U what current location with
              | .error e => (.error e, [request])
              | .ok next =>
                let (result, requests) := follow url deadline left next fun i => hops (i + 1)
                (result, request :: requests)

def sendUnrecorded (url : Text) (deadline : Option ℕ) (hops : ℕ → Hop) :
    Except String Response × List (Request Url) :=
  match U.parse url with
  | .error e => (.error s!"upstream {what} url is invalid: {e}", [])
  | .ok current =>
    match client.checkParsed U what current with
    | .error e => (.error e, [])
    | .ok () => client.follow U what url deadline (maxRedirects + 1) current hops

end MirrorClient

/-- What a client is for, and how it may reach out. -/
structure Options (Url : Type) where
  label : String
  /-- The base URL whose origin gets the credentials, and nothing else does. -/
  origin : Option Url
  credentials : List Header
  allowPrivate : Bool
  allowedPrivateHosts : List Text
  proxy : Option Text
  hint : String

structure HttpClient where
  label : String
  origin : Option Origin
  credentials : List Header
  allowPrivate : Bool
  allowedPrivateHosts : List Text
  proxied : Bool
  hint : String
  /-- Tries in all, the first one included. -/
  attempts : ℕ

/-- The host as it is compared on the allow-list, without brackets or case. -/
def bareAllowed (host : Text) : Text :=
  Text.lower (Internalize.trimEndMatches (· == ']') (host.dropWhile (· == '[')))

def allowed (hosts : List Text) (host : Text) : Bool :=
  hosts.any fun h => bareAllowed h = bareAllowed host

namespace HttpClient

def withOptions (options : Options Url) : HttpClient where
  label := options.label
  origin := options.origin.bind (Upstreams.origin U)
  credentials := options.credentials
  allowPrivate := options.allowPrivate
  allowedPrivateHosts := options.allowedPrivateHosts
  proxied := options.proxy.isSome
  hint := options.hint
  attempts := 5

def setRetry (client : HttpClient) (attempts : ℕ) : HttpClient := { client with attempts }

variable (client : HttpClient) (what : String)

/-- Whether a URL may be fetched at all. -/
def check (url : Url) : Except UpstreamError Unit :=
  if !isHttp (U.scheme url) then
    .error (.refused (s!"{client.label} {what} {U.redact url} uses the scheme " ++
      reprStr (String.ofList (U.scheme url))))
  else if !client.allowPrivate &&
      (U.hostStr url).any (fun h => isPrivateHost h && !allowed client.allowedPrivateHosts h) then
    let host := String.ofList ((U.hostStr url).getD [])
    .error (.refused (s!"{client.label} {what} {U.redact url} points at the private address " ++
      s!"{host}; {client.hint}"))
  else .ok ()

/-- The check, and behind a proxy the host's addresses as well. -/
def vet (url : Url) (resolved : Except UnsafeHost Unit) : Except UpstreamError Unit := do
  client.check U what url
  match U.hostStr url with
  | none => pure ()
  | some host =>
    if !client.proxied || client.allowPrivate || allowed client.allowedPrivateHosts host then
      pure ()
    else
      (checkResolved host resolved).mapError fun why =>
        .refused <| match why with
          | .unresolvable e =>
            s!"{client.label} {what} {U.redact url}: cannot resolve {String.ofList host} here to " ++
              s!"check its address ({e}); behind a proxy every host is also resolved locally"
          | .isPrivate ip =>
            s!"{client.label} {what} {U.redact url}: {String.ofList host} resolves to the " ++
              s!"private address {ip}; {client.hint}"

def carriesCredentials (url : Url) : Bool :=
  client.origin.isSome && Upstreams.origin U url == client.origin

def requestTo (headers : List Header) (url : Url) : Request Url where
  url
  headers := if client.carriesCredentials U url then replaceHeaders headers client.credentials
    else headers

/-- The hops that may still be made from a URL that was vetted. -/
def follow (url : Url) (headers : List Header) :
    ℕ → Url → (ℕ → Hop) → Except UpstreamError Response × List (Request Url)
  | 0, _, _ =>
    (.error (.invalid (s!"{client.label} {what} {U.redact url} redirected more than " ++
      s!"{maxRedirects} times")), [])
  | left + 1, current, hops =>
    let request := client.requestTo U headers current
    match (hops 0).answer with
    | .error e =>
      (.error (.http s!"{client.label} {what} {U.redact current}: {e}"), [request])
    | .ok resp =>
      if !resp.isRedirection then (.ok resp, [request])
      else
        match resp.location with
        | none => (.error (.invalid (s!"{client.label} {what} {U.redact current} answered " ++
            s!"{resp.shown} without a usable Location")), [request])
        | some location =>
          match U.join current location with
          | .error e => (.error (.invalid (s!"{client.label} {what} {U.redact current} redirected " ++
              s!"to an invalid URL: {e}")), [request])
          | .ok next =>
            if downgrades U current next then
              (.error (.refused (s!"{client.label} {what} {U.redact current} redirected from " ++
                "https to http; refusing the downgrade")), [request])
            else
              match client.vet U what next (hops 1).resolved with
              | .error e => (.error e, [request])
              | .ok () =>
                let (result, requests) := follow url headers left next fun i => hops (i + 1)
                (result, request :: requests)

def send (url : Url) (headers : List Header) (hops : ℕ → Hop) :
    Except UpstreamError Response × List (Request Url) :=
  match client.vet U what url (hops 0).resolved with
  | .error e => (.error e, [])
  | .ok () => client.follow U what url headers (maxRedirects + 1) url hops

def isHttpError : UpstreamError → Bool
  | .http _ => true
  | _ => false

/-- Whether another try is made after this one. -/
def retries : Except UpstreamError Response → Bool
  | .ok resp => resp.status = 429 || resp.status = 503
  | .error e => isHttpError e

/-- The tries that may still be made after the next one, and the requests of each. -/
def tries (url : Url) (headers : List Header) :
    ℕ → (ℕ → ℕ → Hop) → Except UpstreamError Response × List (List (Request Url))
  | 0, meets =>
    let (result, requests) := client.send U what url headers (meets 0)
    (result, [requests])
  | left + 1, meets =>
    let (result, requests) := client.send U what url headers (meets 0)
    if retries result then
      let (result, chains) := tries url headers left fun i => meets (i + 1)
      (result, requests :: chains)
    else (result, [requests])

/-- Retrying `429`, `503` and transport errors. -/
def getWith (url : Url) (headers : List Header) (meets : ℕ → ℕ → Hop) :
    Except UpstreamError Response × List (List (Request Url)) :=
  client.tries U what url headers (client.attempts - 1) meets

end HttpClient

end

end YaNuget.Upstreams
