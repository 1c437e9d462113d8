import YaNuget.Concurrency.EventCounts
import YaNuget.Requests.Throttle

/-!
# The budget of failed authentications

A request that passes the look at the budget is counted only after its answer,
so the budget holds when those in flight still fit into it. Each client is
followed through one window: from a time when it has no bucket that still
counts, for as long as none that it is given since has run out.
-/
namespace YaNuget

open Concurrency Protocol

abbrev ThrottleEvent (T : Type) := Event T ThrottleCall ThrottleAnswer ℕ

abbrev ThrottleWorld (T : Type) := World T ThrottleCall ThrottleAnswer ℕ ThrottleState

def Throttle.clientKey (throttle : Throttle) (req : Request) : Option IpAddr :=
  (clientIp req.headers req.peer throttle.trusted).map bucketKey

section Events

variable {T : Type} (throttle : Throttle) (status : T → ℕ) (k : IpAddr)

/-- A request of client `k` with a credential reached the handler, and was
answered `401`. -/
def answeredUnauthorized : ThrottleEvent T → Bool
  | ⟨_, .next req, _, answer⟩ =>
    req.carriesCredential && decide (throttle.clientKey req = some k) && answer == 401
  | _ => false

/-- A request of client `k` that will be answered `401` finds budget left. -/
def passedLook : ThrottleEvent T → Bool
  | ⟨t, .isExhausted ip _, _, out⟩ => decide (bucketKey ip = k) && !out && status t == 401
  | _ => false

/-- An answer to client `k` is counted. -/
def counted : ThrottleEvent T → Bool
  | ⟨_, .checkAt .authFailures ip _, _, _⟩ => decide (bucketKey ip = k)
  | _ => false

/-- The requests of client `k` past the look at the budget whose `401` is not
counted yet. -/
def inFlight (past : List (ThrottleEvent T)) : ℕ :=
  past.countP (passedLook status k) - past.countP (counted k)

end Events

namespace RateLimiter

variable (L : RateLimiter) (k : IpAddr)

/-- What client `k` has used of the budget. -/
def used (s : ThrottleState) : ℕ :=
  match s.authFailures.buckets.row k with
  | some b => if s.clock - b.windowStart < L.window then b.count else 0
  | none => 0

/-- Client `k` has no bucket that still counts. -/
def Fresh (s : ThrottleState) : Prop :=
  ∀ b, s.authFailures.buckets.row k = some b → b.windowStart + L.window ≤ s.clock

/-- No bucket that client `k` was given from `start` on has run out. -/
def InWindow (start : ℕ) (s : ThrottleState) : Prop :=
  ∀ b, s.authFailures.buckets.row k = some b → start ≤ b.windowStart →
    s.clock < b.windowStart + L.window

instance (start : ℕ) (s : ThrottleState) : Decidable (L.InWindow k start s) :=
  decidable_of_iff
    ((s.authFailures.buckets.row k).all (fun b =>
      decide (start ≤ b.windowStart → s.clock < b.windowStart + L.window)) = true)
    (by simp [InWindow, Option.all_eq_true, imp_iff_not_or])

/-- The client's bucket holds `n` answers since `start`. -/
def Accounted (start clock : ℕ) (row : Option Bucket) (n : ℕ) : Prop :=
  (n = 0 ∧ ∀ b, row = some b → b.windowStart + L.window ≤ start) ∨
    ∃ b, row = some b ∧ start ≤ b.windowStart ∧ b.windowStart ≤ clock ∧ b.count = n ∧
      clock < b.windowStart + L.window

end RateLimiter

/-- Each request that is going to be answered `401` and finds budget left finds
enough of it for those of its client in flight. -/
def RoomForInFlight {T : Type} (L : RateLimiter) (status : T → ℕ) (k : IpAddr)
    (w : ThrottleWorld T) (e : ThrottleEvent T) : Prop :=
  passedLook status k e = true → inFlight status k w.past + L.used k w.state < L.max

instance {T : Type} (L : RateLimiter) (status : T → ℕ) (k : IpAddr) (w : ThrottleWorld T)
    (e : ThrottleEvent T) : Decidable (RoomForInFlight L status k w e) :=
  inferInstanceAs (Decidable (_ → _))

namespace RateLimiter.Accounted

variable {L : RateLimiter} {k : IpAddr} {start clock clock' now n : ℕ} {row : Option Bucket}
  {inner : Buckets}

theorem used_eq {s : ThrottleState} (hs : start ≤ s.clock)
    (h : L.Accounted start s.clock (s.authFailures.buckets.row k) n) : L.used k s = n := by
  unfold used
  rcases h with ⟨rfl, hold⟩ | ⟨b, hb, -, hle, hn, hlive⟩
  · split
    · next b hb =>
      have := hold b hb
      rw [if_neg (by omega)]
    · rfl
  · rw [hb]
    simp only
    rw [if_pos (by omega), hn]

theorem later (hclock : clock ≤ clock') (h : L.Accounted start clock row n)
    (hw : ∀ b, row = some b → start ≤ b.windowStart → clock' < b.windowStart + L.window) :
    L.Accounted start clock' row n := by
  rcases h with h | ⟨b, hb, hstart, hle, hn, -⟩
  · exact .inl h
  · exact .inr ⟨b, hb, hstart, hle.trans hclock, hn, hw b hb hstart⟩

theorem sweep (hnow : now ≤ clock) (h : L.Accounted start clock (inner.buckets.row k) n) :
    L.Accounted start clock ((L.sweep inner now).buckets.row k) n := by
  rcases @row_sweep L inner now k with heq | ⟨hnone, hout⟩
  · rwa [heq]
  · rcases h with ⟨hn, -⟩ | ⟨b, hb, hstart, hle, -, hlive⟩
    · exact .inl ⟨hn, by simp [hnone]⟩
    · have := hout b hb
      omega

/-- An answer is counted while there is budget left. -/
theorem count (ip : IpAddr) (hstart : start ≤ now) (hnow : now ≤ clock) (hmax : n < L.max)
    (h : L.Accounted start clock (inner.buckets.row (bucketKey ip)) n)
    (hw : ∀ b, (L.checkAt inner ip now).2.buckets.row (bucketKey ip) = some b →
      start ≤ b.windowStart → clock < b.windowStart + L.window) :
    L.Accounted start clock ((L.checkAt inner ip now).2.buckets.row (bucketKey ip)) (n + 1) := by
  have hcur : ∃ b, L.current (L.sweep inner now) ip now = b ∧ start ≤ b.windowStart ∧
      b.windowStart ≤ clock ∧ b.count = n := by
    rcases h.sweep hnow with ⟨rfl, hold⟩ | ⟨b, hb, hs, hle, hn, hlive⟩
    · refine ⟨⟨now, 0⟩, ?_, hstart, hnow, rfl⟩
      unfold current
      cases hrow : (L.sweep inner now).buckets.row (bucketKey ip) with
      | none => simp
      | some b =>
        have := hold b hrow
        simp only [Option.getD_some]
        rw [if_pos (by omega)]
    · refine ⟨b, ?_, hs, hle, hn⟩
      unfold current
      rw [hb]
      simp only [Option.getD_some]
      rw [if_neg (by omega)]
  obtain ⟨b, hb, hs, hle, hn⟩ := hcur
  have hrow : (L.checkAt inner ip now).2.buckets.row (bucketKey ip) =
      some { b with count := b.count + 1 } := by
    rw [row_checkAt, if_pos rfl, hb]
    simp only
    rw [if_neg (by omega)]
  refine .inr ⟨_, hrow, hs, hle, ?_, hw _ hrow hs⟩
  simp [hn]

theorem other (ip : IpAddr) (hk : k ≠ bucketKey ip) (hnow : now ≤ clock)
    (h : L.Accounted start clock (inner.buckets.row k) n) :
    L.Accounted start clock ((L.checkAt inner ip now).2.buckets.row k) n := by
  rw [row_checkAt, if_neg hk]
  exact h.sweep hnow

end RateLimiter.Accounted

section Kept

variable {T : Type} [DecidableEq T]

/-- What holds of client `k`'s requests since `start`. -/
structure AuthBudgetKept (throttle : Throttle) (L : RateLimiter) (status : T → ℕ) (k : IpAddr)
    (start : ℕ) (w : ThrottleWorld T) : Prop where
  clock : start ≤ w.state.clock
  accounted : L.Accounted start w.state.clock (w.state.authFailures.buckets.row k)
    (w.past.countP (counted k))
  passed : w.past.countP (passedLook status k) ≤ L.max
  answered : ∀ t, madeBy t (answeredUnauthorized throttle k) w.past ≤
    madeBy t (passedLook status k) w.past
  counted : ∀ t, madeBy t (counted k) w.past ≤ madeBy t (passedLook status k) w.past

/-- A request's own events for client `k`. -/
structure Stage (throttle : Throttle) (status : T → ℕ) (k : IpAddr) (t : T) (passed answered
    charged : ℕ) (w : ThrottleWorld T) : Prop where
  passed : madeBy t (passedLook status k) w.past = passed
  answered : madeBy t (answeredUnauthorized throttle k) w.past = answered
  charged : madeBy t (counted k) w.past = charged

def failedAuth (throttle : Throttle) (L : RateLimiter) (status : T → ℕ) (k : IpAddr) (start : ℕ) :
    Protocol T ThrottleCall ThrottleAnswer ℕ ThrottleState where
  inv := AuthBudgetKept throttle L status k start
  guar _ w w' := w.state.clock ≤ w'.state.clock
  allow w e w' := L.InWindow k start w'.state ∧ RoomForInFlight L status k w e

variable {throttle : Throttle} {L : RateLimiter} {status : T → ℕ} {k : IpAddr} {start : ℕ}
  {t : T} {w w' : ThrottleWorld T} {e : ThrottleEvent T} {a b c : ℕ}

theorem madeBy_le_of_step {p : ThrottleEvent T → Bool}
    (h : ∀ u, madeBy u p w.past ≤ madeBy u (passedLook status k) w.past)
    (hpast : w'.past = e :: w.past)
    (hown : madeBy e.thread p w'.past ≤ madeBy e.thread (passedLook status k) w'.past) (u : T) :
    madeBy u p w'.past ≤ madeBy u (passedLook status k) w'.past := by
  by_cases hu : e.thread = u
  · subst hu
    exact hown
  · rw [hpast, madeBy_cons_of_ne hu, madeBy_cons_of_ne hu]
    exact h u

theorem AuthBudgetKept.step (h : AuthBudgetKept throttle L status k start w)
    (hpast : w'.past = e :: w.past) (hclock : w.state.clock ≤ w'.state.clock)
    (hacc : L.Accounted start w'.state.clock (w'.state.authFailures.buckets.row k)
      (w'.past.countP (YaNuget.counted k)))
    (hpassed : w'.past.countP (passedLook status k) ≤ L.max)
    (hstage : Stage throttle status k e.thread a b c w') (hb : b ≤ a) (hc : c ≤ a) :
    AuthBudgetKept throttle L status k start w' where
  clock := h.clock.trans hclock
  accounted := hacc
  passed := hpassed
  answered := madeBy_le_of_step h.answered hpast (by rwa [hstage.answered, hstage.passed])
  counted := madeBy_le_of_step h.counted hpast (by rwa [hstage.charged, hstage.passed])

/-- A step that is none of client `k`'s events. -/
theorem Stage.quiet (h : Stage throttle status k t a b c w) (hpast : w'.past = e :: w.past)
    (hp : passedLook status k e = false) (ha : answeredUnauthorized throttle k e = false)
    (hc : counted k e = false) : Stage throttle status k t a b c w' := by
  refine ⟨?_, ?_, ?_⟩ <;> rw [hpast, madeBy_cons_of_neg (by assumption)]
  · exact h.passed
  · exact h.answered
  · exact h.charged

theorem AuthBudgetKept.quiet (h : AuthBudgetKept throttle L status k start w)
    (hstage : Stage throttle status k e.thread a b c w) (hb : b ≤ a) (hca : c ≤ a)
    (hpast : w'.past = e :: w.past) (hclock : w.state.clock ≤ w'.state.clock)
    (hp : passedLook status k e = false) (ha : answeredUnauthorized throttle k e = false)
    (hc : YaNuget.counted k e = false)
    (hacc : L.Accounted start w'.state.clock (w'.state.authFailures.buckets.row k)
      (w.past.countP (YaNuget.counted k))) :
    AuthBudgetKept throttle L status k start w' := by
  refine h.step hpast hclock ?_ ?_ (hstage.quiet hpast hp ha hc) hb hca
  · rw [hpast, List.countP_cons_of_neg (by simp [hc])]
    exact hacc
  · rw [hpast, List.countP_cons_of_neg (by simp [hp])]
    exact h.passed

theorem stable_stage (P : Protocol T ThrottleCall ThrottleAnswer ℕ ThrottleState) :
    Stable (throttleMachine throttle status) P t (Stage throttle status k t a b c) := by
  intro u hu w w' hm h
  exact ⟨stable_madeBy _ a u hu w w' hm h.passed, stable_madeBy _ b u hu w w' hm h.answered,
    stable_madeBy _ c u hu w w' hm h.charged⟩

theorem stable_clock (now : ℕ) :
    Stable (throttleMachine throttle status) (failedAuth throttle L status k start) t
      fun w => start ≤ now ∧ now ≤ w.state.clock := by
  rintro u - w w' ⟨-, -, -, -, -, -, -, hguar⟩ ⟨hs, hn⟩
  exact ⟨hs, hn.trans hguar⟩

/-- Whether thread `t`'s requests are counted for client `k`. -/
def Counts (status : T → ℕ) (k : IpAddr) (t : T) (ip : IpAddr) : Prop :=
  bucketKey ip = k ∧ status t = 401

section Calls

variable {Q : ℕ → ThrottleWorld T → Prop} {ip : IpAddr} {now : ℕ}

theorem safe_now {next : ℕ → Middleware ℕ} (hw : Stage throttle status k t a b c w)
    (hb : b ≤ a) (hc : c ≤ a)
    (h : ∀ now w, Stage throttle status k t a b c w → start ≤ now ∧ now ≤ w.state.clock →
      Safe (throttleMachine throttle status) (failedAuth throttle L status k start) t (next now)
        Q w) :
    Safe (throttleMachine throttle status) (failedAuth throttle L status k start) t
      (.call .now next) Q w := by
  refine Safe.call (stable_stage _) hw fun w hw hinv o r w' hp ha => ?_
  obtain ⟨hexec, hpast⟩ := (Machine.perform_eq_some _).1 hp
  simp only [throttleMachine, Option.some.injEq, Prod.mk.injEq] at hexec
  obtain ⟨rfl, hs⟩ := hexec
  have hclock : w'.state.clock = w.state.clock + o := by rw [← hs]
  have hrow : w'.state.authFailures = w.state.authFailures := by rw [← hs]
  have hle : w.state.clock ≤ w'.state.clock := by omega
  have hacc := hinv.accounted.later hle fun b hb => ha.1 b (by rw [hrow, hb])
  have hstage := hw.quiet hpast rfl rfl rfl
  refine ⟨hinv.quiet hw hb hc hpast hle rfl rfl rfl (hrow ▸ hacc), hle, h _ w' hstage ?_⟩
  have := hinv.clock
  omega

/-- The request is counted in the general budget. -/
theorem safe_check_requests {next : Bool → Middleware ℕ}
    (hw : Stage throttle status k t a b c w) (hb : b ≤ a) (hc : c ≤ a)
    (h : ∀ within w, Stage throttle status k t a b c w →
      Safe (throttleMachine throttle status) (failedAuth throttle L status k start) t
        (next within) Q w) :
    Safe (throttleMachine throttle status) (failedAuth throttle L status k start) t
      (.call (.checkAt .requests ip now) next) Q w := by
  refine Safe.call (stable_stage _) hw fun w hw hinv o r w' hp ha => ?_
  obtain ⟨hexec, hpast⟩ := (Machine.perform_eq_some _).1 hp
  simp only [throttleMachine, Option.some.injEq, Prod.mk.injEq] at hexec
  obtain ⟨-, hs⟩ := hexec
  have hclock : w'.state.clock = w.state.clock + o := by rw [← hs]
  have hrow : w'.state.authFailures = w.state.authFailures := by rw [← hs]
  have hle : w.state.clock ≤ w'.state.clock := by omega
  have hacc := hinv.accounted.later hle fun b hb => ha.1 b (by rw [hrow, hb])
  exact ⟨hinv.quiet hw hb hc hpast hle rfl rfl rfl (hrow ▸ hacc), hle,
    h r w' (hw.quiet hpast rfl rfl rfl)⟩

variable (hL : throttle.authFailures = some L)

include hL

/-- The budget is looked at. -/
theorem safe_isExhausted {next : Bool → Middleware ℕ} (hw : Stage throttle status k t 0 0 0 w)
    (hyes : ∀ w, Stage throttle status k t 0 0 0 w →
      Safe (throttleMachine throttle status) (failedAuth throttle L status k start) t (next true)
        Q w)
    (hno : ∀ w, (Counts status k t ip → Stage throttle status k t 1 0 0 w) →
      (¬ Counts status k t ip → Stage throttle status k t 0 0 0 w) →
      Safe (throttleMachine throttle status) (failedAuth throttle L status k start) t (next false)
        Q w) :
    Safe (throttleMachine throttle status) (failedAuth throttle L status k start) t
      (.call (.isExhausted ip now) next) Q w := by
  refine Safe.call (stable_stage _) hw fun w hw hinv o r w' hp ha => ?_
  obtain ⟨hexec, hpast⟩ := (Machine.perform_eq_some _).1 hp
  simp only [throttleMachine, hL, Option.map_some, Option.some.injEq, Prod.mk.injEq] at hexec
  obtain ⟨-, hs⟩ := hexec
  have hclock : w'.state.clock = w.state.clock + o := by rw [← hs]
  have hrow : w'.state.authFailures = w.state.authFailures := by rw [← hs]
  have hle : w.state.clock ≤ w'.state.clock := by omega
  have hacc := hinv.accounted.later hle fun b hb => ha.1 b (by rw [hrow, hb])
  cases hpass : passedLook status k ⟨t, .isExhausted ip now, o, r⟩ with
  | false =>
    have hstage := hw.quiet hpast hpass rfl rfl
    refine ⟨hinv.quiet hw le_rfl le_rfl hpast hle hpass rfl rfl (hrow ▸ hacc), hle, ?_⟩
    cases r with
    | true => exact hyes w' hstage
    | false =>
      refine hno w' (fun hcount => ?_) fun _ => hstage
      simp [passedLook, hcount.1, hcount.2] at hpass
  | true =>
    have hcount : r = false ∧ Counts status k t ip := by
      cases r <;> simp_all [passedLook, Counts]
    obtain ⟨rfl, hcount⟩ := hcount
    have hstage : Stage throttle status k t 1 0 0 w' := by
      refine ⟨?_, ?_, ?_⟩
      · rw [hpast, madeBy_cons, hw.passed, if_pos ⟨rfl, hpass⟩]
      · rw [hpast, madeBy_cons_of_neg rfl, hw.answered]
      · rw [hpast, madeBy_cons_of_neg rfl, hw.charged]
    refine ⟨hinv.step hpast hle ?_ ?_ hstage (by omega) (by omega), hle,
      hno w' (fun _ => hstage) fun hn => absurd hcount hn⟩
    · rw [hpast, List.countP_cons_of_neg (by simp [counted])]
      exact hrow ▸ hacc
    · have hroom := ha.2 hpass
      rw [hinv.accounted.used_eq hinv.clock, inFlight] at hroom
      rw [hpast, List.countP_cons_of_pos hpass]
      omega

/-- An answer is counted after its request has passed the look. -/
theorem safe_count {next : Bool → Middleware ℕ}
    (hstart : start ≤ now) (hnow : now ≤ w.state.clock)
    (hw : Stage throttle status k t 1 1 0 w) (hkey : bucketKey ip = k)
    (h : ∀ within w, Safe (throttleMachine throttle status) (failedAuth throttle L status k start) t
        (next within) Q w) :
    Safe (throttleMachine throttle status) (failedAuth throttle L status k start) t
      (.call (.checkAt .authFailures ip now) next) Q w := by
  refine Safe.call (Stable.and (stable_stage _) (stable_clock now)) ⟨hw, hstart, hnow⟩
    fun w hw hinv o r w' hp ha => ?_
  obtain ⟨hw, hstart, hnow⟩ := hw
  obtain ⟨hexec, hpast⟩ := (Machine.perform_eq_some _).1 hp
  simp only [throttleMachine, hL, Option.map_some, Option.some.injEq, Prod.mk.injEq] at hexec
  obtain ⟨-, hs⟩ := hexec
  have hclock : w'.state.clock = w.state.clock + o := by rw [← hs]
  have hrow : w'.state.authFailures = (L.checkAt w.state.authFailures ip now).2 := by rw [← hs]
  have hle : w.state.clock ≤ w'.state.clock := by omega
  have hev : counted k ⟨t, .checkAt .authFailures ip now, o, r⟩ = true := by simp [counted, hkey]
  have hstage : Stage throttle status k t 1 1 1 w' := by
    refine ⟨?_, ?_, ?_⟩
    · rw [hpast, madeBy_cons_of_neg rfl, hw.passed]
    · rw [hpast, madeBy_cons_of_neg rfl, hw.answered]
    · rw [hpast, madeBy_cons, hw.charged, if_pos ⟨rfl, hev⟩]
  have hpassed : w'.past.countP (passedLook status k) ≤ L.max := by
    rw [hpast, List.countP_cons_of_neg (by simp [passedLook])]
    exact hinv.passed
  have hroom : w.past.countP (counted k) < L.max := by
    have hall := countP_le_of_madeBy (madeBy_le_of_step hinv.counted hpast
      (by rw [hstage.charged, hstage.passed]))
    rw [hpast, List.countP_cons_of_pos hev, ← hpast] at hall
    omega
  subst hkey
  have hwin := ha.1
  rw [RateLimiter.InWindow, hrow] at hwin
  have hlater := hinv.accounted.count ip hstart hnow hroom fun b hb hs => by
    have := hwin b hb hs
    omega
  refine ⟨hinv.step hpast hle ?_ hpassed hstage le_rfl le_rfl, hle, h r w'⟩
  rw [hrow, hpast, List.countP_cons_of_pos hev]
  exact hlater.later hle hwin

/-- Another client's answer is counted. -/
theorem safe_count_other {next : Bool → Middleware ℕ}
    (hstart : start ≤ now) (hnow : now ≤ w.state.clock)
    (hw : Stage throttle status k t 0 0 0 w) (hkey : bucketKey ip ≠ k)
    (h : ∀ within w, Safe (throttleMachine throttle status) (failedAuth throttle L status k start) t
        (next within) Q w) :
    Safe (throttleMachine throttle status) (failedAuth throttle L status k start) t
      (.call (.checkAt .authFailures ip now) next) Q w := by
  refine Safe.call (Stable.and (stable_stage _) (stable_clock now)) ⟨hw, hstart, hnow⟩
    fun w hw hinv o r w' hp ha => ?_
  obtain ⟨hw, hstart, hnow⟩ := hw
  obtain ⟨hexec, hpast⟩ := (Machine.perform_eq_some _).1 hp
  simp only [throttleMachine, hL, Option.map_some, Option.some.injEq, Prod.mk.injEq] at hexec
  obtain ⟨-, hs⟩ := hexec
  have hclock : w'.state.clock = w.state.clock + o := by rw [← hs]
  have hrow : w'.state.authFailures = (L.checkAt w.state.authFailures ip now).2 := by rw [← hs]
  have hle : w.state.clock ≤ w'.state.clock := by omega
  have hwin := ha.1
  rw [RateLimiter.InWindow, hrow] at hwin
  have hacc := (hinv.accounted.other ip (Ne.symm hkey) hnow).later hle hwin
  exact ⟨hinv.quiet hw le_rfl le_rfl hpast hle rfl rfl (by simp [counted, hkey]) (hrow ▸ hacc),
    hle, h r w'⟩

omit hL in
/-- The handler answers. -/
theorem safe_next {req : Request} {next : ℕ → Middleware ℕ}
    (hw : Stage throttle status k t a 0 0 w)
    (hone : req.carriesCredential = true → throttle.clientKey req = some k → status t = 401 →
      a = 1)
    (h : ∀ b w, (b = 1 ↔ req.carriesCredential = true ∧ throttle.clientKey req = some k ∧
      status t = 401) → b ≤ 1 → Stage throttle status k t a b 0 w →
      Safe (throttleMachine throttle status) (failedAuth throttle L status k start) t
        (next (status t)) Q w) :
    Safe (throttleMachine throttle status) (failedAuth throttle L status k start) t
      (.call (.next req) next) Q w := by
  refine Safe.call (stable_stage _) hw fun w hw hinv o r w' hp ha => ?_
  obtain ⟨hexec, hpast⟩ := (Machine.perform_eq_some _).1 hp
  simp only [throttleMachine, Option.some.injEq, Prod.mk.injEq] at hexec
  obtain ⟨rfl, hs⟩ := hexec
  have hclock : w'.state.clock = w.state.clock + o := by rw [← hs]
  have hrow : w'.state.authFailures = w.state.authFailures := by rw [← hs]
  have hle : w.state.clock ≤ w'.state.clock := by omega
  have hacc := hinv.accounted.later hle fun b hb => ha.1 b (by rw [hrow, hb])
  cases hans : answeredUnauthorized throttle k ⟨t, .next req, o, status t⟩ with
  | false =>
    refine ⟨hinv.quiet hw (by omega) (by omega) hpast hle rfl hans rfl (hrow ▸ hacc), hle,
      h 0 w' ?_ (by omega) (hw.quiet hpast rfl hans rfl)⟩
    simpa [answeredUnauthorized] using hans
  | true =>
    obtain ⟨⟨hcred, hkey⟩, h401⟩ : (req.carriesCredential = true ∧
        throttle.clientKey req = some k) ∧ status t = 401 := by
      simpa [answeredUnauthorized] using hans
    have ha1 := hone hcred hkey h401
    have hstage : Stage throttle status k t a 1 0 w' := by
      refine ⟨?_, ?_, ?_⟩
      · rw [hpast, madeBy_cons_of_neg rfl, hw.passed]
      · rw [hpast, madeBy_cons, hw.answered, if_pos ⟨rfl, hans⟩]
      · rw [hpast, madeBy_cons_of_neg rfl, hw.charged]
    refine ⟨hinv.step hpast hle ?_ ?_ hstage (by omega) (by omega), hle,
      h 1 w' (by simp [hcred, hkey, h401]) le_rfl hstage⟩
    · rw [hpast, List.countP_cons_of_neg (by simp [counted])]
      exact hrow ▸ hacc
    · rw [hpast, List.countP_cons_of_neg (by simp [passedLook])]
      exact hinv.passed

end Calls

section Enforce

variable {req : Request} {ip : IpAddr}

theorem Throttle.clientKey_eq {throttle : Throttle} {req : Request} {ip : IpAddr}
    (h : clientIp req.headers req.peer throttle.trusted = some ip) :
    throttle.clientKey req = some (bucketKey ip) := by
  simp [Throttle.clientKey, h]

variable (hL : throttle.authFailures = some L)

include hL

theorem safe_guarded (hip : clientIp req.headers req.peer throttle.trusted = some ip)
    (hcred : req.carriesCredential = true) (hw : Stage throttle status k t 0 0 0 w) :
    Safe (throttleMachine throttle status) (failedAuth throttle L status k start) t
      (Throttle.guarded ip req) (fun _ _ => True) w := by
  refine safe_now hw le_rfl le_rfl fun now w hw _ => ?_
  refine safe_isExhausted hL hw (fun w _ => trivial) fun w hpass hskip => ?_
  have hkey := Throttle.clientKey_eq hip
  by_cases hcounts : Counts status k t ip
  · have ⟨hk, h401⟩ := hcounts
    refine safe_next (hpass hcounts) (fun _ _ _ => rfl) fun b w hb _ hw => ?_
    obtain rfl : b = 1 := hb.2 ⟨hcred, by rw [hkey, hk], h401⟩
    simp only [Program.bind, h401, if_true]
    exact safe_now hw le_rfl (by omega) fun now w hw hnow =>
      safe_count hL hnow.1 hnow.2 hw hk fun _ _ => trivial
  · have hnot : throttle.clientKey req = some k → status t ≠ 401 := by
      intro hk h401
      exact hcounts ⟨Option.some.inj (hkey.symm.trans hk), h401⟩
    refine safe_next (hskip hcounts) (fun _ hk h401 => absurd h401 (hnot hk))
      fun b w hb hle hw => ?_
    obtain rfl : b = 0 := by
      have : b ≠ 1 := fun h => hnot (hb.1 h).2.1 (hb.1 h).2.2
      omega
    simp only [Program.bind]
    split
    · next h401 =>
      have hk : bucketKey ip ≠ k := fun hk => hcounts ⟨hk, h401⟩
      exact safe_now hw le_rfl le_rfl fun now w hw hnow =>
        safe_count_other hL hnow.1 hnow.2 hw hk fun _ _ => trivial
    · trivial

/-- Every request keeps the budget. -/
theorem safe_enforce (hw : Stage throttle status k t 0 0 0 w) :
    Safe (throttleMachine throttle status) (failedAuth throttle L status k start) t
      (throttle.enforce req) (fun _ _ => True) w := by
  unfold Throttle.enforce
  split
  · next hip =>
    have hkey : throttle.clientKey req ≠ some k := by simp [Throttle.clientKey, hip]
    exact safe_next hw (fun _ hk => absurd hk hkey) fun _ _ _ _ _ => trivial
  · next ip hip =>
    refine safe_now hw le_rfl le_rfl fun now w hw _ => ?_
    refine safe_check_requests hw le_rfl le_rfl fun within w hw => ?_
    cases within with
    | false => trivial
    | true =>
      simp only [hL, Option.isSome_some, Bool.true_and]
      split
      · next hcred => exact safe_guarded hL hip hcred hw
      · next hcred =>
        exact safe_next hw (fun hc => absurd hc hcred) fun _ _ _ _ _ => trivial

end Enforce

end Kept

/-- In a window of a client, the requests with a credential that are answered
`401` are no more than the configured number, as long as each that finds budget
left finds enough of it for those in flight. -/
theorem failed_auth_within_budget {T : Type} [DecidableEq T] {cfg : RateLimitConfig}
    {trusted : TrustedProxies} (hon : 0 < cfg.maxFailedAuth) {status : T → ℕ} {req : T → Request}
    {k : IpAddr} {s : ThrottleState}
    (hfresh : (RateLimiter.new cfg.maxFailedAuth cfg.windowSecs).Fresh k s)
    {c : Config T ThrottleCall ThrottleAnswer ℕ ThrottleState}
    (hr : (throttleMachine (cfg.throttle trusted) status).Reaches
      (fun w e w' => (RateLimiter.new cfg.maxFailedAuth cfg.windowSecs).InWindow k s.clock w'.state ∧
        RoomForInFlight (RateLimiter.new cfg.maxFailedAuth cfg.windowSecs) status k w e)
      ⟨⟨s, []⟩, fun t => do let _ ← (cfg.throttle trusted).enforce (req t)⟩ c) :
    c.world.past.countP (answeredUnauthorized (cfg.throttle trusted) k) ≤ cfg.maxFailedAuth := by
  have hL : (cfg.throttle trusted).authFailures =
      some (RateLimiter.new cfg.maxFailedAuth cfg.windowSecs) := by
    simp [RateLimitConfig.throttle, hon]
  have hstart : Keeps (throttleMachine (cfg.throttle trusted) status)
      (failedAuth (cfg.throttle trusted) (RateLimiter.new cfg.maxFailedAuth cfg.windowSecs) status k
        s.clock)
      ⟨⟨s, []⟩, fun t => do let _ ← (cfg.throttle trusted).enforce (req t)⟩ := by
    refine ⟨⟨le_rfl, .inl ⟨rfl, hfresh⟩, Nat.zero_le _, fun _ => le_rfl, fun _ => le_rfl⟩,
      fun t => ?_⟩
    exact Safe.bind (Safe.mono (fun _ _ _ => trivial) (safe_enforce hL ⟨rfl, rfl, rfl⟩))
  have hkept := (hstart.reaches hr).1
  calc c.world.past.countP (answeredUnauthorized (cfg.throttle trusted) k)
      ≤ c.world.past.countP (passedLook status k) := countP_le_of_madeBy hkept.answered
    _ ≤ (RateLimiter.new cfg.maxFailedAuth cfg.windowSecs).max := hkept.passed
    _ = cfg.maxFailedAuth := Nat.max_eq_left hon

section Samples

/-- One failed authentication in 60 seconds. -/
def oneGuess : RateLimitConfig := ⟨10, 60, 1⟩

def guess : Request := ⟨⟨[], []⟩, some (.v4 203 0 113 9), false, true⟩

def guessers : Config Bool ThrottleCall ThrottleAnswer ℕ ThrottleState :=
  ⟨⟨⟨0, ⟨.empty, 0⟩, ⟨.empty, 0⟩⟩, []⟩, fun _ => do
    let _ ← (oneGuess.throttle (.new [])).enforce guess⟩

theorem guessers_fresh :
    (RateLimiter.new 1 60).Fresh (.v4 203 0 113 9) guessers.world.state := by
  intro b hb
  simp [guessers] at hb

/-- One after the other, the second guess is refused. -/
theorem failed_auth_within_budget_sample :
    ∃ c, (throttleMachine (oneGuess.throttle (.new [])) fun _ : Bool => 401).run guessers
        (List.replicate 7 (false, 1) ++ List.replicate 4 (true, 1)) = some c ∧
      c.world.past.countP
        (answeredUnauthorized (oneGuess.throttle (.new [])) (.v4 203 0 113 9)) ≤ 1 := by
  let allowed : ThrottleWorld Bool → ThrottleEvent Bool → ThrottleWorld Bool → Bool :=
    fun w e w' => decide ((RateLimiter.new 1 60).InWindow (.v4 203 0 113 9) 0 w'.state ∧
      RoomForInFlight (RateLimiter.new 1 60) (fun _ => 401) (.v4 203 0 113 9) w e)
  have passed : (throttleMachine (oneGuess.throttle (.new [])) fun _ : Bool => 401).runs allowed
      guessers (List.replicate 7 (false, 1) ++ List.replicate 4 (true, 1)) = true := by
    decide +kernel
  obtain ⟨c, hrun, hreach⟩ := Machine.Reaches.of_runs (fun _ _ _ => of_decide_eq_true) passed
  exact ⟨c, hrun, failed_auth_within_budget (by decide) guessers_fresh hreach⟩

/-- Both guesses look at the budget before either is counted. -/
theorem failed_auth_over_budget :
    ∃ c, (throttleMachine (oneGuess.throttle (.new [])) fun _ : Bool => 401).Reaches
        (fun _ _ w' => (RateLimiter.new 1 60).InWindow (.v4 203 0 113 9) 0 w'.state) guessers c ∧
      oneGuess.maxFailedAuth < c.world.past.countP
        (answeredUnauthorized (oneGuess.throttle (.new [])) (.v4 203 0 113 9)) := by
  let schedule : List (Bool × ℕ) := List.replicate 4 (false, 1) ++ List.replicate 4 (true, 1) ++
    [(false, 1), (true, 1)]
  let allowed : ThrottleWorld Bool → ThrottleEvent Bool → ThrottleWorld Bool → Bool :=
    fun _ _ w' => decide ((RateLimiter.new 1 60).InWindow (.v4 203 0 113 9) 0 w'.state)
  have passed : (throttleMachine (oneGuess.throttle (.new [])) fun _ : Bool => 401).runs allowed
      guessers schedule = true := by decide +kernel
  obtain ⟨c, hrun, hreach⟩ := Machine.Reaches.of_runs (fun _ _ _ => of_decide_eq_true) passed
  have answers : ((throttleMachine (oneGuess.throttle (.new [])) fun _ : Bool => 401).run guessers
      schedule).map (fun c => c.world.past.countP
        (answeredUnauthorized (oneGuess.throttle (.new [])) (.v4 203 0 113 9))) = some 2 := by
    decide +kernel
  simp only [hrun, Option.map_some, Option.some.injEq] at answers
  refine ⟨c, hreach, ?_⟩
  rw [answers]
  decide

end Samples

end YaNuget
