import YaNuget.Concurrency.Machine
import YaNuget.Data.Table
import YaNuget.Requests.ClientIp

/-!
# The rate limiter

Requests are counted by client in windows of a fixed length. A second, smaller
budget counts the answers `401` to requests that carried a credential: whether
it is used up is looked at before such a request reaches its handler, and the
answer is counted after.
-/
namespace YaNuget

open Concurrency

structure Bucket where
  windowStart : ℕ
  count : ℕ
  deriving DecidableEq

/-- At most `max` requests of a client in `window`. -/
structure RateLimiter where
  max : ℕ
  window : ℕ
  max_pos : 0 < max

/-- What the requests share. Expired buckets are swept once there are as many
as `sweepAt`. -/
structure Buckets where
  buckets : Table IpAddr Bucket
  sweepAt : ℕ

/-- An IPv6 client counts as its /64. -/
def bucketKey (ip : IpAddr) : IpAddr :=
  match ip.toCanonical with
  | .v6 s₀ s₁ s₂ s₃ _ _ _ _ => .v6 s₀ s₁ s₂ s₃ 0 0 0 0
  | v4 => v4

namespace RateLimiter

def new (maxRequests window : ℕ) : RateLimiter :=
  ⟨Max.max maxRequests 1, window, by omega⟩

variable (L : RateLimiter)

def isExhausted (inner : Buckets) (ip : IpAddr) (now : ℕ) : Bool :=
  (inner.buckets.row (bucketKey ip)).any fun b =>
    now - b.windowStart < L.window && L.max ≤ b.count

def sweep (inner : Buckets) (now : ℕ) : Buckets :=
  if inner.sweepAt ≤ inner.buckets.keys.card then
    let kept := inner.buckets.modify fun _ b =>
      if now - b.windowStart < L.window then some b else none
    ⟨kept, kept.keys.card * 2 + 64⟩
  else inner

def current (inner : Buckets) (ip : IpAddr) (now : ℕ) : Bucket :=
  let bucket := (inner.buckets.row (bucketKey ip)).getD ⟨now, 0⟩
  if L.window ≤ now - bucket.windowStart then ⟨now, 0⟩ else bucket

def checkAt (inner : Buckets) (ip : IpAddr) (now : ℕ) : Bool × Buckets :=
  let inner := L.sweep inner now
  let bucket := L.current inner ip now
  if L.max ≤ bucket.count then
    (false, { inner with buckets := inner.buckets.insert (bucketKey ip) bucket })
  else
    (true, { inner with
      buckets := inner.buckets.insert (bucketKey ip) { bucket with count := bucket.count + 1 } })

variable {L : RateLimiter} {inner : Buckets} {now : ℕ}

theorem row_sweep (k : IpAddr) :
    (L.sweep inner now).buckets.row k = inner.buckets.row k ∨
      (L.sweep inner now).buckets.row k = none ∧
        ∀ b, inner.buckets.row k = some b → L.window ≤ now - b.windowStart := by
  unfold sweep
  split
  · cases hb : inner.buckets.row k with
    | none => simp [hb]
    | some b =>
      by_cases hlive : now - b.windowStart < L.window
      · simp [hb, hlive]
      · have hout : L.window ≤ now - b.windowStart := Nat.le_of_not_lt hlive
        simp [hb, hlive, hout]
  · exact .inl rfl

theorem row_checkAt (ip k : IpAddr) :
    (L.checkAt inner ip now).2.buckets.row k =
      if k = bucketKey ip then
        some (let b := L.current (L.sweep inner now) ip now
          if L.max ≤ b.count then b else { b with count := b.count + 1 })
      else (L.sweep inner now).buckets.row k := by
  simp only [checkAt]
  split <;> simp

end RateLimiter

structure RateLimitConfig where
  maxRequests : ℕ
  windowSecs : ℕ
  maxFailedAuth : ℕ

/-- The general budget, the budget of failed authentications, and who may
speak for a client. -/
structure Throttle where
  requests : RateLimiter
  authFailures : Option RateLimiter
  trusted : TrustedProxies

/-- No failed authentication is counted where the configured number is 0. -/
def RateLimitConfig.throttle (cfg : RateLimitConfig) (trusted : TrustedProxies) : Throttle where
  requests := .new cfg.maxRequests cfg.windowSecs
  authFailures :=
    if 0 < cfg.maxFailedAuth then some (.new cfg.maxFailedAuth cfg.windowSecs) else none
  trusted := trusted

structure Request where
  headers : HeaderMap
  peer : Option IpAddr
  hasAuthorization : Bool
  hasApiKey : Bool

def Request.carriesCredential (req : Request) : Bool := req.hasAuthorization || req.hasApiKey

inductive Budget where
  | requests
  | authFailures
  deriving DecidableEq

/-- The atomic steps of the middleware. A request's instant is read before the
buckets are locked. -/
inductive ThrottleCall where
  | now
  | isExhausted (ip : IpAddr) (now : ℕ)
  | checkAt (budget : Budget) (ip : IpAddr) (now : ℕ)
  | next (req : Request)

abbrev ThrottleAnswer : ThrottleCall → Type
  | .now => ℕ
  | .isExhausted _ _ => Bool
  | .checkAt _ _ _ => Bool
  | .next _ => ℕ

abbrev Middleware (α : Type) := Program ThrottleCall ThrottleAnswer α

def Middleware.perform (c : ThrottleCall) : Middleware (ThrottleAnswer c) := Program.perform c

namespace Throttle

def check (budget : Budget) (ip : IpAddr) : Middleware Bool := do
  let now ← Middleware.perform .now
  Middleware.perform (.checkAt budget ip now)

def exhausted (ip : IpAddr) : Middleware Bool := do
  let now ← Middleware.perform .now
  Middleware.perform (.isExhausted ip now)

variable (throttle : Throttle)

/-- The handler behind the budget of failed authentications. -/
def guarded (ip : IpAddr) (req : Request) : Middleware ℕ := do
  let out ← exhausted ip
  if out then pure 429
  else
    let status ← Middleware.perform (.next req)
    if status = 401 then
      let _ ← check .authFailures ip
      pure status
    else pure status

def enforce (req : Request) : Middleware ℕ :=
  match clientIp req.headers req.peer throttle.trusted with
  | none => Middleware.perform (.next req)
  | some ip => do
    let within ← check .requests ip
    if within then
      if throttle.authFailures.isSome && req.carriesCredential then guarded ip req
      else Middleware.perform (.next req)
    else pure 429

end Throttle

/-- The clock and the buckets of both budgets. -/
structure ThrottleState where
  clock : ℕ
  requests : Buckets
  authFailures : Buckets

/-- The server's requests: `status t` is what the handler answers request `t`.
A call's choice is the time that passes before it. -/
def throttleMachine {T : Type} (throttle : Throttle) (status : T → ℕ) :
    Machine T ThrottleCall ThrottleAnswer ℕ ThrottleState where
  exec t call elapsed s :=
    let s := { s with clock := s.clock + elapsed }
    match call with
    | .now => some (s.clock, s)
    | .isExhausted ip now =>
      throttle.authFailures.map fun L => (L.isExhausted s.authFailures ip now, s)
    | .checkAt .requests ip now =>
      let (within, inner) := throttle.requests.checkAt s.requests ip now
      some (within, { s with requests := inner })
    | .checkAt .authFailures ip now =>
      throttle.authFailures.map fun L =>
        let (within, inner) := L.checkAt s.authFailures ip now
        (within, { s with authFailures := inner })
    | .next _ => some (status t, s)

end YaNuget
