import YaNuget.Data.Windows
import YaNuget.Requests.Throttle

/-!
# Rate limits apart

All clients share one table of buckets, which is swept as it grows. What the
limiter decides for a client is still what it would decide if there were no other:
the first requests of each of the client's windows.
-/
namespace YaNuget

namespace RateLimiter

open Windows

variable (L : RateLimiter)

/-- The decisions on requests, one after the other. -/
def decided : Buckets → List (IpAddr × ℕ) → List ((IpAddr × ℕ) × Bool)
  | _, [] => []
  | inner, r :: rs =>
    (r, (L.checkAt inner r.1 r.2).1) :: decided (L.checkAt inner r.1 r.2).2 rs

/-- A limiter that has not seen a request. -/
def unused : Buckets := ⟨.empty, 0⟩

/-- The request counts in the bucket `k`. -/
def isFor (k : IpAddr) (r : IpAddr × ℕ) : Bool := bucketKey r.1 = k

def spend (b : Option Bucket) (now : ℕ) : Bool × Bucket :=
  let bucket := b.getD ⟨now, 0⟩
  let bucket := if L.window ≤ now - bucket.windowStart then ⟨now, 0⟩ else bucket
  if L.max ≤ bucket.count then (false, bucket)
  else (true, { bucket with count := bucket.count + 1 })

def spent : Option Bucket → List (IpAddr × ℕ) → List ((IpAddr × ℕ) × Bool)
  | _, [] => []
  | b, r :: rs => (r, (L.spend b r.2).1) :: spent (L.spend b r.2).2 rs

def Closed (now : ℕ) (b : Option Bucket) : Prop :=
  ∀ bucket ∈ b, L.window ≤ now - bucket.windowStart

/-- The buckets are equal, but for closed ones. -/
def Same (now : ℕ) (b b' : Option Bucket) : Prop := b = b' ∨ L.Closed now b ∧ L.Closed now b'

variable {L} {inner : Buckets} {now now' : ℕ} {b b' b'' : Option Bucket} {k : IpAddr}

theorem Closed.later (h : L.Closed now b) (hle : now ≤ now') : L.Closed now' b := by
  intro bucket hbucket
  have hout := h bucket hbucket
  omega

theorem Same.later (h : L.Same now b b') (hle : now ≤ now') : L.Same now' b b' :=
  h.imp id fun ⟨hb, hb'⟩ => ⟨hb.later hle, hb'.later hle⟩

theorem Same.trans (h : L.Same now b b') (h' : L.Same now b' b'') : L.Same now b b'' := by
  rcases h with rfl | ⟨hb, hb'⟩
  · exact h'
  · rcases h' with rfl | ⟨-, hb''⟩
    · exact .inr ⟨hb, hb'⟩
    · exact .inr ⟨hb, hb''⟩

theorem spend_of_closed (h : L.Closed now b) : L.spend b now = (true, ⟨now, 1⟩) := by
  have hmax := L.max_pos
  unfold spend
  cases b with
  | none => simp [Nat.not_le.mpr hmax]
  | some bucket => simp [h bucket rfl, Nat.not_le.mpr hmax]

theorem Same.spend_eq (h : L.Same now b b') : L.spend b now = L.spend b' now := by
  rcases h with rfl | ⟨hb, hb'⟩
  · rfl
  · rw [spend_of_closed hb, spend_of_closed hb']

theorem same_sweep (inner : Buckets) (now : ℕ) (k : IpAddr) :
    L.Same now ((L.sweep inner now).buckets.row k) (inner.buckets.row k) := by
  have hsweep : (L.sweep inner now).buckets.row k = _ ∨ _ := row_sweep k
  rcases hsweep with hsame | ⟨hnone, hclosed⟩
  · exact .inl hsame
  · rw [hnone]
    exact .inr ⟨by simp [Closed], hclosed⟩

theorem row_sweep_of_open {bucket : Bucket} (hrow : inner.buckets.row k = some bucket)
    (hopen : now - bucket.windowStart < L.window) :
    (L.sweep inner now).buckets.row k = some bucket := by
  rcases same_sweep (L := L) inner now k with hsame | ⟨-, hclosed⟩
  · exact hsame.trans hrow
  · exact absurd hopen (Nat.not_lt.mpr (hclosed bucket hrow))

theorem spend_row (ip : IpAddr) : L.spend (inner.buckets.row (bucketKey ip)) now =
    if L.max ≤ (L.current inner ip now).count then (false, L.current inner ip now)
    else (true, ⟨(L.current inner ip now).windowStart, (L.current inner ip now).count + 1⟩) := rfl

/-- A request is decided by its own bucket, and leaves the others alone. -/
theorem checkAt_spec (inner : Buckets) (r : IpAddr × ℕ) :
    (L.checkAt inner r.1 r.2).1 = (L.spend (inner.buckets.row (bucketKey r.1)) r.2).1 ∧
      (L.checkAt inner r.1 r.2).2.buckets.row (bucketKey r.1) =
        some (L.spend (inner.buckets.row (bucketKey r.1)) r.2).2 ∧
      ∀ k, bucketKey r.1 ≠ k →
        L.Same r.2 ((L.checkAt inner r.1 r.2).2.buckets.row k) (inner.buckets.row k) := by
  have hsame := same_sweep (L := L) inner r.2 (bucketKey r.1)
  rw [← hsame.spend_eq]
  refine ⟨?_, ?_, fun k hk => ?_⟩
  · rw [spend_row]
    unfold checkAt
    simp only
    split <;> rfl
  · rw [row_checkAt, if_pos rfl, spend_row]
    simp only
    split <;> rfl
  · rw [row_checkAt, if_neg hk.symm]
    exact same_sweep inner r.2 k

/-- The decisions for a bucket are those of a limiter that has no other. -/
theorem decided_filter {rs : List (IpAddr × ℕ)} (hsorted : rs.Pairwise fun r r' => r.2 ≤ r'.2)
    (hnow : ∀ r ∈ rs, now ≤ r.2) (hrow : L.Same now (inner.buckets.row k) b) :
    (L.decided inner rs).filter (fun d => isFor k d.1) = L.spent b (rs.filter (isFor k)) := by
  induction rs generalizing inner now b with
  | nil => rfl
  | cons r rs ih =>
    obtain ⟨hfirst, hrest⟩ := List.pairwise_cons.mp hsorted
    obtain ⟨hdecision, hown, hother⟩ := checkAt_spec (L := L) inner r
    have hrow := hrow.later (hnow r List.mem_cons_self)
    rw [decided]
    by_cases hk : bucketKey r.1 = k
    · have hfor : isFor k r = true := decide_eq_true hk
      rw [hk, hrow.spend_eq] at hdecision hown
      simp only [List.filter_cons, hfor, if_true, spent, hdecision]
      rw [ih hrest hfirst (.inl hown)]
    · have hnot : isFor k r = false := decide_eq_false hk
      simp only [List.filter_cons, hnot, Bool.false_eq_true, if_false]
      exact ih hrest hfirst ((hother k hk).trans hrow)

/-- The first `n` of a window are allowed. -/
def admitted (n : ℕ) (win : List (IpAddr × ℕ)) : List ((IpAddr × ℕ) × Bool) :=
  (win.take n).map (·, true) ++ (win.drop n).map (·, false)

theorem countP_admitted_le (n : ℕ) (win : List (IpAddr × ℕ)) :
    (admitted n win).countP (fun d => d.2) ≤ n := by
  have hrest : ((win.drop n).map (·, false)).countP (fun d => d.2) = 0 := by
    rw [List.countP_eq_zero]
    intro d hd
    obtain ⟨r, -, rfl⟩ := List.mem_map.mp hd
    exact Bool.false_ne_true
  unfold admitted
  rw [List.countP_append, hrest, Nat.add_zero]
  refine List.countP_le_length.trans ?_
  rw [List.length_map, List.length_take]
  exact Nat.min_le_left n _

/-- In an open window the limit is used up, one request after the other. -/
theorem spent_open {start c : ℕ} {win : List (IpAddr × ℕ)} (rest : List (IpAddr × ℕ))
    (hc : c ≤ L.max) (hopen : ∀ r ∈ win, r.2 - start < L.window) :
    ∃ c', L.spent (some ⟨start, c⟩) (win ++ rest) =
      admitted (L.max - c) win ++ L.spent (some ⟨start, c'⟩) rest := by
  induction win generalizing c with
  | nil => exact ⟨c, by simp [admitted]⟩
  | cons r win ih =>
    have hin : ¬ L.window ≤ r.2 - start := Nat.not_le.mpr (hopen r List.mem_cons_self)
    have hwin : ∀ r' ∈ win, r'.2 - start < L.window := fun r' hr' =>
      hopen r' (List.mem_cons_of_mem r hr')
    rw [List.cons_append, spent]
    rcases hc.eq_or_lt with rfl | hlt
    · obtain ⟨c', hrest⟩ := ih le_rfl hwin
      have hspend : L.spend (some ⟨start, L.max⟩) r.2 = (false, ⟨start, L.max⟩) := by
        simp [spend, hin]
      refine ⟨c', ?_⟩
      rw [hspend, hrest]
      simp [admitted]
    · obtain ⟨c', hrest⟩ := ih (Nat.succ_le_of_lt hlt) hwin
      have hspend : L.spend (some ⟨start, c⟩) r.2 = (true, ⟨start, c + 1⟩) := by
        simp [spend, hin, Nat.not_le.mpr hlt]
      have hleft : L.max - c = (L.max - (c + 1)) + 1 := by omega
      refine ⟨c', ?_⟩
      rw [hspend, hrest, hleft]
      simp [admitted]

theorem spent_eq {rs : List (IpAddr × ℕ)} (hclosed : ∀ r ∈ rs.head?, L.Closed r.2 b) :
    L.spent b rs = (windows Prod.snd L.window rs).flatMap (admitted L.max) := by
  induction rs using windows.induct Prod.snd L.window generalizing b with
  | case1 => simp [windows, spent]
  | case2 r rs ih =>
    have hopen : ∀ r' ∈ rs.takeWhile fun r' => r'.2 - r.2 < L.window, r'.2 - r.2 < L.window :=
      fun r' hr' => by simpa using List.mem_takeWhile_imp hr'
    obtain ⟨c', hwin⟩ := spent_open (rs.dropWhile fun r' => r'.2 - r.2 < L.window) L.max_pos hopen
    rw [List.takeWhile_append_dropWhile] at hwin
    rw [windows, List.flatMap_cons, spent, spend_of_closed (hclosed r rfl), hwin, ih]
    · obtain ⟨m, hm⟩ := Nat.exists_eq_add_of_lt L.max_pos
      rw [hm]
      simp [admitted]
    · intro r' hr' bucket hbucket
      obtain rfl : _ = bucket := by simpa using hbucket
      have hout := List.head?_dropWhile_not (fun r' : IpAddr × ℕ => decide (r'.2 - r.2 < L.window)) rs
      rw [Option.mem_def.mp hr'] at hout
      simpa using hout

theorem mem_of_mem_admitted {n : ℕ} {win : List (IpAddr × ℕ)} {d : (IpAddr × ℕ) × Bool}
    (h : d ∈ admitted n win) : d.1 ∈ win := by
  rcases List.mem_append.mp h with h | h
  · obtain ⟨r, hr, rfl⟩ := List.mem_map.mp h
    exact List.mem_of_mem_take hr
  · obtain ⟨r, hr, rfl⟩ := List.mem_map.mp h
    exact List.mem_of_mem_drop hr

/-- The request was allowed, and came in the window that opened at `start`. -/
def allowedWithin (L : RateLimiter) (start : ℕ) (d : (IpAddr × ℕ) × Bool) : Bool :=
  d.2 && (start ≤ d.1.2 && d.1.2 < start + L.window)

/-- No more than the limit is allowed while a window is open. -/
theorem countP_allowedWithin_le {rs win : List (IpAddr × ℕ)} {first : IpAddr × ℕ}
    (hsorted : rs.Pairwise fun r r' => r.2 ≤ r'.2) (hwin : win ∈ windows Prod.snd L.window rs)
    (hfirst : first ∈ win.head?) :
    ((windows Prod.snd L.window rs).flatMap (admitted L.max)).countP
      (L.allowedWithin first.2) ≤ L.max := by
  have hspans : ∀ w ∈ windows Prod.snd L.window rs, Spans Prod.snd L.window w :=
    spans_of_mem hsorted
  have hapart : (windows Prod.snd L.window rs).Pairwise _ := windows_apart hsorted
  obtain ⟨before, after, hsplit⟩ := List.append_of_mem hwin
  rw [hsplit] at hspans hapart ⊢
  obtain ⟨-, hlater, hbefore⟩ := List.pairwise_append.mp hapart
  have hnone : (before.flatMap (admitted L.max)).countP (L.allowedWithin first.2) = 0 := by
    rw [List.countP_eq_zero]
    intro d hd
    obtain ⟨w, hw, hd⟩ := List.mem_flatMap.mp hd
    obtain ⟨x, xs, rfl, hin⟩ := hspans w (List.mem_append_left _ hw)
    have hgap := hbefore _ hw win List.mem_cons_self x rfl first (List.mem_of_mem_head? hfirst)
    have htime : d.1.2 = x.2 ∨ d.1.2 < x.2 + L.window := by
      rcases List.mem_cons.mp (mem_of_mem_admitted hd) with heq | hmem
      · exact .inl (congrArg Prod.snd heq)
      · exact .inr (hin d.1 hmem).2
    simp only [allowedWithin, Bool.and_eq_true, decide_eq_true_eq]
    omega
  have hnone' : (after.flatMap (admitted L.max)).countP (L.allowedWithin first.2) = 0 := by
    rw [List.countP_eq_zero]
    intro d hd
    obtain ⟨w, hw, hd⟩ := List.mem_flatMap.mp hd
    have hgap := (List.pairwise_cons.mp hlater).1 w hw first hfirst d.1 (mem_of_mem_admitted hd)
    simp only [allowedWithin, Bool.and_eq_true, decide_eq_true_eq]
    omega
  rw [List.flatMap_append, List.flatMap_cons, List.countP_append, List.countP_append, hnone, hnone',
    Nat.zero_add, Nat.add_zero]
  refine (List.countP_mono_left fun d _ hd => ?_).trans (countP_admitted_le L.max win)
  exact (Bool.and_eq_true_iff.mp hd).1

theorem map_fst_decided (rs : List (IpAddr × ℕ)) : (L.decided inner rs).map Prod.fst = rs := by
  induction rs generalizing inner with
  | nil => rfl
  | cons r rs ih => rw [decided, List.map_cons, ih]

/-- A client is decided on as if it were the only one: in each of its windows the first requests
are allowed, as many as the limit is. No sweep takes a bucket whose window is open. -/
theorem clients_isolated (L : RateLimiter) {rs : List (IpAddr × ℕ)}
    (hsorted : rs.Pairwise fun r r' => r.2 ≤ r'.2) (k : IpAddr) :
    (L.decided unused rs).filter (fun d => isFor k d.1) =
      L.decided unused (rs.filter (isFor k)) ∧
    L.decided unused (rs.filter (isFor k)) =
      (windows Prod.snd L.window (rs.filter (isFor k))).flatMap (admitted L.max) ∧
    (∀ win ∈ windows Prod.snd L.window (rs.filter (isFor k)), ∀ first ∈ win.head?,
      ((L.decided unused rs).filter fun d => isFor k d.1).countP (L.allowedWithin first.2) ≤
        L.max) ∧
    ∀ (inner : Buckets) (now : ℕ) (b : Bucket), inner.buckets.row k = some b →
      now - b.windowStart < L.window → (L.sweep inner now).buckets.row k = some b := by
  have hown := hsorted.filter (isFor k)
  have hnone : L.Same 0 (unused.buckets.row k) none := .inl rfl
  have hwindows : L.spent none (rs.filter (isFor k)) = _ := spent_eq (by simp [Closed])
  have halone : L.decided unused (rs.filter (isFor k)) = L.spent none (rs.filter (isFor k)) := by
    have hfilter := decided_filter hown (fun _ _ => Nat.zero_le _) hnone
    rw [List.filter_filter] at hfilter
    simp only [Bool.and_self] at hfilter
    have hself : (L.decided unused (rs.filter (isFor k))).filter (fun d => isFor k d.1) =
        L.decided unused (rs.filter (isFor k)) := by
      rw [List.filter_eq_self]
      intro d hd
      have hmem := List.mem_map_of_mem (f := Prod.fst) hd
      rw [map_fst_decided] at hmem
      exact (List.mem_filter.mp hmem).2
    exact hself.symm.trans hfilter
  have hboth : (L.decided unused rs).filter (fun d => isFor k d.1) =
      L.spent none (rs.filter (isFor k)) :=
    decided_filter hsorted (fun _ _ => Nat.zero_le _) hnone
  refine ⟨hboth.trans halone.symm, halone.trans hwindows, ?_, ?_⟩
  · intro win hwin first hfirst
    rw [hboth, hwindows]
    exact countP_allowedWithin_le hown hwin hfirst
  · intro inner now b hb hopen
    exact row_sweep_of_open hb hopen

theorem clients_isolated_sample :
    ((RateLimiter.new 1 60).decided unused
        [(.v4 192 0 2 1, 3), (.v4 192 0 2 7, 4), (.v4 192 0 2 1, 5), (.v4 192 0 2 1, 70)]).filter
      (fun d => isFor (.v4 192 0 2 1) d.1) =
      [((.v4 192 0 2 1, 3), true), ((.v4 192 0 2 1, 5), false), ((.v4 192 0 2 1, 70), true)] := by
  rw [(clients_isolated (.new 1 60) (by decide) (.v4 192 0 2 1)).1]
  decide +kernel

end RateLimiter

end YaNuget
