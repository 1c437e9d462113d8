import YaNuget.Store.SpaceGuard

/-!
# What a volume keeps

Every step keeps that shares back the writes, that checks have read what is so up
to what they missed, and that all that is outstanding fits beside the reserve, up
to what the last check that let a write through has missed.
-/
namespace YaNuget.Space

namespace Volume

/-- A share covers what its write may still write, what a row has lent it, and what it has written
and not reported. -/
structure Backed (w : Writer) (share : Option Reservation) : Prop where
  covered : w.allowed + w.lent + w.unreported ≤ countedFor share
  taking : ∀ r ∈ share, r.taking.getD 0 ≤ w.unreported
  bounded : countedFor share ≤ maxShare
  untouched : w.check.decided = false →
    w.allowed = 0 ∧ w.unreported = 0 ∧ countedFor share = min w.incoming maxShare

/-- The free space that was measured is there, but for what was missed. -/
structure Measured (s : Volume) (seen : Seen) : Prop where
  small : seen.available ≤ maxShare
  settled : seen.settled ≤ s.settled
  free : seen.available + s.pending + seen.settled ≤
    s.free + s.unreported + seen.late + s.settled

/-- And rows hold no more than was counted, but for what they were given since. -/
structure Counted (s : Volume) (seen : Seen) (resumable raised : ℕ) : Prop
    extends Measured s seen where
  since : raised ≤ s.raised
  rows : s.resumable + raised ≤ resumable + s.raised

def Reading (s : Volume) : Check → Prop
  | .measured seen => Measured s seen
  | .counted seen resumable raised => Counted s seen resumable raised
  | .waiting | .passed | .refused => True

/-- The total is exact, shares back the writes, checks have read what is so up to what they missed,
and all that is outstanding fits beside the reserve. -/
structure Sound (reserve : ℕ) (s : Volume) : Prop where
  exact : s.pool.promised = s.pool.outstanding
  fits : s.pool.outstanding < wordSize
  length : s.writers.length = s.pool.shares.length
  backed : ∀ (i : ℕ) w share, s.writers[i]? = some w → s.pool.shares[i]? = some share →
    Backed w share
  small : s.free ≤ maxShare
  rests : ∀ r ∈ s.rows, r.rest ≤ maxShare
  reading : ∀ w ∈ s.writers, Reading s w.check
  kept : reserve + s.outstanding + s.pending ≤ s.free + s.missed

section Sums

variable {s : Volume} {i : ℕ} {w : Writer}

theorem outstanding_setWriter (w' : Writer) (h : s.writers[i]? = some w) :
    (s.setWriter i w').outstanding + (w.allowed + w.lent) =
      s.outstanding + (w'.allowed + w'.lent) := by
  have hsum : ((s.writers.set i w').map fun w => w.allowed + w.lent).sum + (w.allowed + w.lent) =
      (s.writers.map fun w => w.allowed + w.lent).sum + (w'.allowed + w'.lent) :=
    Reservations.sum_set (fun w : Writer => w.allowed + w.lent) w' h
  simp only [outstanding, setWriter, resumable]
  omega

theorem unreported_setWriter (w' : Writer) (h : s.writers[i]? = some w) :
    (s.setWriter i w').unreported + w.unreported = s.unreported + w'.unreported :=
  Reservations.sum_set (fun w : Writer => w.unreported) w' h

/-- A sum over a list is at most that over another one that is as long, if each term is. -/
theorem sum_le_of_getElem {α β : Type} {f : α → ℕ} {g : β → ℕ} {xs : List α} {ys : List β}
    (hlength : xs.length = ys.length)
    (h : ∀ (i : ℕ) x y, xs[i]? = some x → ys[i]? = some y → f x ≤ g y) :
    (xs.map f).sum ≤ (ys.map g).sum := by
  induction xs generalizing ys with
  | nil => exact Nat.zero_le _
  | cons x xs ih =>
    cases ys with
    | nil => simp at hlength
    | cons y ys =>
      have hhead := h 0 x y rfl rfl
      have htail : (xs.map f).sum ≤ (ys.map g).sum :=
        ih (by simpa using hlength) fun i => h (i + 1)
      simp only [List.map_cons, List.sum_cons]
      omega

/-- What is promised covers what may be written, what is lent and what is not reported. -/
theorem covered_le (hlength : s.writers.length = s.pool.shares.length)
    (hbacked : ∀ (i : ℕ) w share, s.writers[i]? = some w → s.pool.shares[i]? = some share →
      Backed w share) :
    (s.writers.map fun w => w.allowed + w.lent).sum + s.unreported ≤ s.pool.outstanding := by
  have hsum : (s.writers.map fun w => w.allowed + w.lent + w.unreported).sum ≤
      s.pool.outstanding :=
    sum_le_of_getElem hlength fun i w share hw hshare => (hbacked i w share hw hshare).covered
  have hsplit : (s.writers.map fun w => w.allowed + w.lent + w.unreported).sum =
      (s.writers.map fun w => w.allowed + w.lent).sum + s.unreported := List.sum_map_add
  omega

end Sums

section Steps

variable {s s' : Volume} {reserve i : ℕ} {w : Writer}

/-- What a check has read stays what it was, up to what has been missed since. -/
theorem Reading.mono {check : Check} (h : Reading s check) (hsettled : s.settled ≤ s'.settled)
    (hraised : s.raised ≤ s'.raised)
    (hfree : s'.pending + (s.free + s.unreported + s.settled) ≤
      s.pending + (s'.free + s'.unreported + s'.settled))
    (hrows : s'.resumable + s.raised ≤ s.resumable + s'.raised) : Reading s' check := by
  have measured : ∀ seen, Measured s seen → Measured s' seen := by
    intro seen hm
    have hfree' := hm.free
    exact ⟨hm.small, hm.settled.trans hsettled, by omega⟩
  cases check with
  | waiting => trivial
  | passed => trivial
  | refused => trivial
  | measured seen => exact measured seen h
  | counted seen resumable raised =>
    have hrows' := h.rows
    have hraised' := h.since
    exact ⟨measured seen h.toMeasured, hraised'.trans hraised, by omega⟩

theorem Sound.backed_set (w' : Writer) (hs : Sound reserve s) (hw : s.writers[i]? = some w)
    (hbacked : ∀ share, Backed w share → Backed w' share) (j : ℕ) (v : Writer)
    (share : Option Reservation) (hv : (s.writers.set i w')[j]? = some v)
    (hshare : s.pool.shares[j]? = some share) : Backed v share := by
  rw [List.getElem?_set] at hv
  split_ifs at hv with hij hi
  · cases hv
    subst hij
    exact hbacked share (hs.backed i w share hw hshare)
  · exact hs.backed j v share hv hshare

/-- A step that changes one writer, and nothing of what is promised. -/
theorem Sound.of_writer (w' : Writer) (hs : Sound reserve s) (hw : s.writers[i]? = some w)
    (hsame : s'.pool = s.pool ∧ s'.writers = s.writers.set i w')
    (hbacked : ∀ share, Backed w share → Backed w' share) (hsmall : s'.free ≤ maxShare)
    (hrests : ∀ r ∈ s'.rows, r.rest ≤ maxShare)
    (hreads : ∀ check, Reading s check → Reading s' check)
    (hreading : w'.check = w.check ∨ Reading s' w'.check)
    (hkept : reserve + s'.outstanding + s'.pending ≤ s'.free + s'.missed) : Sound reserve s' where
  exact := by rw [hsame.1]; exact hs.exact
  fits := by rw [hsame.1]; exact hs.fits
  length := by
    rw [hsame.1, hsame.2, List.length_set]
    exact hs.length
  backed := by
    rw [hsame.1, hsame.2]
    exact hs.backed_set w' hw hbacked
  small := hsmall
  rests := hrests
  reading := by
    intro v hv
    rw [hsame.2] at hv
    rcases List.mem_or_eq_of_mem_set hv with hv | rfl
    · exact hreads _ (hs.reading v hv)
    · rcases hreading with hcheck | hreading
      · rw [hcheck]
        exact hreads _ (hs.reading w (List.mem_of_getElem? hw))
      · exact hreading
  kept := hkept

/-- A check goes on, and nothing else changes. -/
theorem Sound.of_check (check : Check) (hs : Sound reserve s) (hw : s.writers[i]? = some w)
    (hundecided : w.check.decided = false) (hnot : check ≠ .passed)
    (hreading : Reading (s.setWriter i { w with check := check }) check) :
    Sound reserve (s.setWriter i { w with check := check }) := by
  have hpassed : w.check ≠ .passed := by
    intro h
    simp [h, Check.decided] at hundecided
  have hlent : Writer.lent { w with check := check } = w.lent := by
    simp only [Writer.lent, hnot, hpassed, if_false]
  have hout := outstanding_setWriter { w with check := check } hw
  have hunr := unreported_setWriter { w with check := check } hw
  have hkept := hs.kept
  rw [hlent] at hout
  apply hs.of_writer { w with check := check } hw
  · exact ⟨rfl, rfl⟩
  · intro share hb
    exact ⟨by rw [hlent]; exact hb.covered, hb.taking, hb.bounded,
      fun _ => hb.untouched hundecided⟩
  · exact hs.small
  · exact hs.rests
  · intro c hc
    exact hc.mono le_rfl le_rfl (by simp only [setWriter] at hunr ⊢; omega) le_rfl
  · exact .inr hreading
  · simp only [setWriter] at hout ⊢
    omega

theorem Sound.measure (hs : Sound reserve s) (hw : s.writers[i]? = some w)
    (hcheck : w.check = .waiting) :
    Sound reserve (s.setWriter i { w with check := .measured s.seen }) := by
  have hunr := unreported_setWriter { w with check := .measured s.seen } hw
  apply hs.of_check _ hw (by rw [hcheck]; rfl) (by simp)
  constructor
  · exact hs.small
  · exact le_rfl
  · simp only [seen, setWriter] at hunr ⊢
    omega

theorem Sound.count {seen : Seen} (hs : Sound reserve s) (hw : s.writers[i]? = some w)
    (hcheck : w.check = .measured seen) :
    Sound reserve (s.setWriter i { w with check := .counted seen s.resumable s.raised }) := by
  have hunr := unreported_setWriter { w with check := .counted seen s.resumable s.raised } hw
  have hreading := hs.reading w (List.mem_of_getElem? hw)
  rw [hcheck] at hreading
  have hfree := hreading.free
  apply hs.of_check _ hw (by rw [hcheck]; rfl) (by simp)
  constructor
  · constructor
    · exact hreading.small
    · exact hreading.settled
    · simp only [setWriter] at hunr ⊢
      omega
  · exact le_rfl
  · exact le_rfl

theorem Sound.refuse (hs : Sound reserve s) (hw : s.writers[i]? = some w)
    (hundecided : w.check.decided = false) :
    Sound reserve (s.setWriter i { w with check := .refused }) :=
  hs.of_check .refused hw hundecided (by simp) trivial

/-- What a check counts covers all that is outstanding, but for what it has missed. -/
theorem Sound.outstanding_le {seen : Seen} {resumable raised : ℕ} (hs : Sound reserve s)
    (hw : s.writers[i]? = some w) (hcheck : w.check = .counted seen resumable raised) :
    s.outstanding + s.unreported + raised ≤ s.pool.promised + resumable + s.raised := by
  have hcovered := covered_le hs.length hs.backed
  have hreading := hs.reading w (List.mem_of_getElem? hw)
  rw [hcheck] at hreading
  have hrows := hreading.rows
  have hexact := hs.exact
  unfold outstanding
  omega

/-- A write is let through: with it, all that is outstanding fits beside the reserve. -/
theorem Sound.letThrough {seen : Seen} {resumable raised : ℕ} (hreserve : 0 < reserve)
    (hs : Sound reserve s) (hw : s.writers[i]? = some w)
    (hcheck : w.check = .counted seen resumable raised)
    (hverdict :
      verdict reserve w.incoming (some seen.available) resumable s.pool.promised = .ok ()) :
    Sound reserve { s.setWriter i { w with check := .passed, allowed := w.incoming } with
      missed := s.missedBy seen raised } := by
  have hundecided : w.check.decided = false := by
    rw [hcheck]
    rfl
  have hreading := hs.reading w (List.mem_of_getElem? hw)
  rw [hcheck] at hreading
  have hfits := fits_of_verdict hreserve hreading.small hverdict
  have hsmall := hreading.small
  have hbacked : ∀ share, Backed w share →
      Backed { w with check := .passed, allowed := w.incoming } share := by
    intro share hb
    obtain ⟨-, hunreported, hcounted⟩ := hb.untouched hundecided
    constructor
    · simp only [Writer.lent, if_true, hunreported, hcounted]
      omega
    · exact hb.taking
    · exact hb.bounded
    · intro h
      simp [Check.decided] at h
  have hcovered := covered_le
    (s := s.setWriter i { w with check := .passed, allowed := w.incoming })
    ((List.length_set ..).trans hs.length) (hs.backed_set _ hw hbacked)
  have hunr := unreported_setWriter { w with check := .passed, allowed := w.incoming } hw
  have hexact := hs.exact
  have hfree := hreading.free
  have hrows := hreading.rows
  have hsince := hreading.since
  have hsettled := hreading.settled
  simp only [setWriter, Volume.unreported, Volume.resumable] at *
  apply hs.of_writer { w with check := .passed, allowed := w.incoming } hw
  · exact ⟨rfl, rfl⟩
  · exact hbacked
  · exact hs.small
  · exact hs.rests
  · intro check hcheck
    exact hcheck.mono le_rfl le_rfl (by simp only [Volume.unreported]; omega) le_rfl
  · exact .inr trivial
  · simp only [Volume.outstanding, Volume.resumable, missedBy]
    omega

theorem Sound.write {n : ℕ} (hs : Sound reserve s) (hw : s.writers[i]? = some w)
    (hn : n ≤ w.allowed) :
    Sound reserve { s.setWriter i { w with
      allowed := w.allowed - n, unreported := w.unreported + n } with
      pending := s.pending + n } := by
  have hout := outstanding_setWriter
    { w with allowed := w.allowed - n, unreported := w.unreported + n } hw
  have hunr := unreported_setWriter
    { w with allowed := w.allowed - n, unreported := w.unreported + n } hw
  have hkept := hs.kept
  have hlent : Writer.lent { w with
    allowed := w.allowed - n, unreported := w.unreported + n } = w.lent := rfl
  rw [hlent] at hout
  simp only [setWriter, Volume.outstanding, Volume.unreported, Volume.resumable] at hout hunr hkept
  apply hs.of_writer { w with allowed := w.allowed - n, unreported := w.unreported + n } hw
  · exact ⟨rfl, rfl⟩
  · intro share hb
    have hcovered := hb.covered
    constructor
    · rw [hlent]
      simp only
      omega
    · exact fun r hr => (hb.taking r hr).trans (Nat.le_add_right _ _)
    · exact hb.bounded
    · intro hundecided
      obtain ⟨hallowed, hunreported, hcounted⟩ := hb.untouched hundecided
      exact ⟨by simp only; omega, by simp only; omega, hcounted⟩
  · exact hs.small
  · exact hs.rests
  · intro check hcheck
    exact hcheck.mono le_rfl le_rfl (by simp only [setWriter, Volume.unreported]; omega) le_rfl
  · exact .inl rfl
  · simp only [setWriter, Volume.outstanding, Volume.resumable]
    omega

/-- A step that changes neither the writers nor what is promised. -/
theorem Sound.of_same (hs : Sound reserve s)
    (hsame : s'.pool = s.pool ∧ s'.writers = s.writers) (hsmall : s'.free ≤ maxShare)
    (hrests : ∀ r ∈ s'.rows, r.rest ≤ maxShare)
    (hreads : ∀ check, Reading s check → Reading s' check)
    (hkept : reserve + s'.outstanding + s'.pending ≤ s'.free + s'.missed) : Sound reserve s' where
  exact := by rw [hsame.1]; exact hs.exact
  fits := by rw [hsame.1]; exact hs.fits
  length := by rw [hsame.1, hsame.2]; exact hs.length
  backed := by rw [hsame.1, hsame.2]; exact hs.backed
  small := hsmall
  rests := hrests
  reading := by rw [hsame.2]; exact fun v hv => hreads v.check (hs.reading v hv)
  kept := hkept

/-- A step that changes only what is free, and what is written and not shown as used. -/
theorem Sound.of_space {free pending : ℕ} (hs : Sound reserve s) (hsmall : free ≤ maxShare)
    (hfree : s.free + pending ≤ free + s.pending) :
    Sound reserve { s with free := free, pending := pending } := by
  have hkept := hs.kept
  simp only [Volume.outstanding] at hkept
  apply hs.of_same
  · exact ⟨rfl, rfl⟩
  · exact hsmall
  · exact hs.rests
  · intro check hcheck
    exact hcheck.mono le_rfl le_rfl (by simp only [Volume.unreported]; omega) le_rfl
  · simp only [Volume.outstanding, Volume.resumable] at hkept ⊢
    omega

theorem Sound.land {n : ℕ} (hs : Sound reserve s) (hn : n ≤ s.pending) :
    Sound reserve { s with pending := s.pending - n, free := s.free - n } :=
  hs.of_space ((Nat.sub_le _ _).trans hs.small) (by omega)

theorem Sound.lose (n : ℕ) (hs : Sound reserve s) :
    Sound reserve { s with pending := s.pending - n } :=
  hs.of_space hs.small (by omega)

theorem Sound.release {n : ℕ} (hs : Sound reserve s) (hn : s.free + n ≤ maxShare) :
    Sound reserve { s with free := s.free + n } :=
  hs.of_space hn (by omega)

theorem hold_le (r : Row) : r.hold ≤ r.rest := by
  unfold Row.hold
  split_ifs
  · exact le_rfl
  · exact Nat.zero_le _

theorem rests_set {j : ℕ} {r : Row} (h : ∀ r ∈ s.rows, r.rest ≤ maxShare)
    (hr : r.rest ≤ maxShare) : ∀ q ∈ s.rows.set j r, q.rest ≤ maxShare := by
  intro q hq
  rcases List.mem_or_eq_of_mem_set hq with hq | rfl
  · exact h q hq
  · exact hr

/-- A row that holds nothing any more. -/
theorem resumable_unheld {j : ℕ} {r : Row} (hr : s.rows[j]? = some r) :
    ((s.rows.set j { r with held := false }).map Row.hold).sum + r.hold = s.resumable :=
  Reservations.sum_set Row.hold { r with held := false } hr

theorem resumable_setRow_le (j : ℕ) (r : Row) :
    ((s.rows.set j r).map Row.hold).sum ≤ s.resumable + r.hold := by
  cases hj : s.rows[j]? with
  | none =>
    rw [List.set_eq_of_length_le (List.getElem?_eq_none_iff.mp hj)]
    exact Nat.le_add_right _ _
  | some q =>
    have hsum := Reservations.sum_set Row.hold r hj
    unfold resumable
    omega

theorem Sound.lapse {j : ℕ} {r : Row} (hs : Sound reserve s) (hr : s.rows[j]? = some r) :
    Sound reserve { s with rows := s.rows.set j { r with held := false } } := by
  have hkept := hs.kept
  have hsum := resumable_unheld hr
  simp only [Volume.outstanding] at hkept
  apply hs.of_same
  · exact ⟨rfl, rfl⟩
  · exact hs.small
  · exact rests_set hs.rests (hs.rests r (List.mem_of_getElem? hr))
  · intro check hcheck
    exact hcheck.mono le_rfl le_rfl le_rfl (by simp only [Volume.resumable] at hsum ⊢; omega)
  · simp only [Volume.outstanding, Volume.resumable] at hsum hkept ⊢
    omega

/-- The hold of a row goes over to the share of a write that has promised as much. -/
theorem Sound.giveUp {j : ℕ} {r : Row} (hs : Sound reserve s) (hw : s.writers[i]? = some w)
    (hr : s.rows[j]? = some r) (hcheck : w.check = .waiting) (hrow : w.row = none)
    (hrest : w.incoming = r.rest) :
    Sound reserve { s.setWriter i { w with row := some (j, r) } with
      rows := s.rows.set j { r with held := false } } := by
  have hout := outstanding_setWriter { w with row := some (j, r) } hw
  have hunr := unreported_setWriter { w with row := some (j, r) } hw
  have hkept := hs.kept
  have hhold := hold_le r
  have hsmall := hs.rests r (List.mem_of_getElem? hr)
  have hsum := resumable_unheld hr
  have hlent : w.lent = 0 := by simp [Writer.lent, hrow]
  have hlent' : Writer.lent { w with row := some (j, r) } = r.hold := by
    simp [Writer.lent, hcheck]
  rw [hlent, hlent'] at hout
  simp only [setWriter, Volume.outstanding, Volume.unreported, Volume.resumable] at *
  apply hs.of_writer { w with row := some (j, r) } hw
  · exact ⟨rfl, rfl⟩
  · intro share hb
    obtain ⟨hallowed, hunreported, hcounted⟩ := hb.untouched (by rw [hcheck]; rfl)
    constructor
    · rw [hlent']
      simp only [hallowed, hunreported, hcounted]
      omega
    · exact hb.taking
    · exact hb.bounded
    · exact fun _ => ⟨hallowed, hunreported, hcounted⟩
  · exact hs.small
  · exact rests_set hs.rests hsmall
  · intro check hcheck
    exact hcheck.mono le_rfl le_rfl (by simp only [Volume.unreported]; omega)
      (by simp only [Volume.resumable]; omega)
  · exact .inl rfl
  · simp only [Volume.outstanding, Volume.resumable]
    omega

/-- A write ends or is refused, and its row holds what the write could still have used. -/
theorem Sound.handBack {j : ℕ} {r : Row} (w' : Writer) (hs : Sound reserve s)
    (hw : s.writers[i]? = some w) (hcheck : w'.check = w.check)
    (hbacked : ∀ share, Backed w share → Backed w' share)
    (hunreported : w'.unreported = w.unreported) (hrest : r.rest ≤ maxShare)
    (hhold : w'.allowed + w'.lent + r.hold ≤ w.allowed + w.lent) :
    Sound reserve ((s.setRow j r).setWriter i w') := by
  have hout := outstanding_setWriter w' hw
  have hunr := unreported_setWriter w' hw
  have hkept := hs.kept
  have hrows := resumable_setRow_le (s := s) j r
  simp only [setWriter, Volume.outstanding, Volume.unreported, Volume.resumable] at *
  apply hs.of_writer w' hw
  · exact ⟨rfl, rfl⟩
  · exact hbacked
  · exact hs.small
  · exact rests_set hs.rests hrest
  · intro check hcheck
    exact hcheck.mono le_rfl (Nat.le_add_right _ _)
      (by simp only [Volume.unreported, setRow]; omega)
      (by simp only [Volume.resumable, setRow]; omega)
  · exact .inl hcheck
  · simp only [Volume.outstanding, Volume.resumable, setRow]
    omega

theorem Sound.restore {j : ℕ} {r was : Row} (hs : Sound reserve s) (hw : s.writers[i]? = some w)
    (hrow : w.row = some (j, was)) (hr : s.rows[j]? = some r) (hcheck : w.check = .refused)
    (hrest : r.rest = was.rest) :
    Sound reserve
      ((s.setRow j { r with held := was.held }).setWriter i { w with row := none }) := by
  have hlent : w.lent = was.hold := by simp [Writer.lent, hrow, hcheck]
  have hlent' : Writer.lent { w with row := none } = 0 := by simp [Writer.lent]
  have hhold : Row.hold { r with held := was.held } = was.hold := by simp only [Row.hold, hrest]
  apply hs.handBack { w with row := none } hw rfl
  · intro share hb
    have hcovered := hb.covered
    constructor
    · rw [hlent']
      simp only
      omega
    · exact hb.taking
    · exact hb.bounded
    · exact hb.untouched
  · rfl
  · exact hs.rests r (List.mem_of_getElem? hr)
  · rw [hlent, hlent', hhold]
    simp only
    omega

/-- A write that may write no more keeps the rest of its share until it is dropped. -/
theorem Backed.finished {share : Option Reservation} (hb : Backed w share) :
    Backed { w with allowed := 0 } share := by
  have hcovered := hb.covered
  have hlent : Writer.lent { w with allowed := 0 } = w.lent := rfl
  constructor
  · rw [hlent]
    simp only
    omega
  · exact hb.taking
  · exact hb.bounded
  · intro hundecided
    obtain ⟨-, hunreported, hcounted⟩ := hb.untouched hundecided
    exact ⟨rfl, hunreported, hcounted⟩

theorem Sound.allowed_le (hs : Sound reserve s) (hw : s.writers[i]? = some w) :
    w.allowed ≤ maxShare := by
  have hi := (List.getElem?_eq_some_iff.mp hw).1
  have hb := hs.backed i w _ hw (List.getElem?_eq_getElem (hs.length ▸ hi))
  have hcovered := hb.covered
  have hbounded := hb.bounded
  omega

theorem Sound.record (j : ℕ) (hs : Sound reserve s) (hw : s.writers[i]? = some w) :
    Sound reserve ((s.setRow j ⟨w.allowed, true⟩).setWriter i { w with allowed := 0 }) := by
  have hlent : Writer.lent { w with allowed := 0 } = w.lent := rfl
  apply hs.handBack { w with allowed := 0 } hw rfl
  · exact fun _ => Backed.finished
  · rfl
  · exact hs.allowed_le hw
  · rw [hlent]
    simp only [Row.hold, if_true]
    omega

theorem Sound.create (hs : Sound reserve s) (hw : s.writers[i]? = some w) :
    Sound reserve { s.setWriter i { w with allowed := 0 } with
      rows := s.rows ++ [⟨w.allowed, true⟩], raised := s.raised + w.allowed } := by
  have hlent : Writer.lent { w with allowed := 0 } = w.lent := rfl
  have hallowed := hs.allowed_le hw
  have hout := outstanding_setWriter { w with allowed := 0 } hw
  have hunr := unreported_setWriter { w with allowed := 0 } hw
  have hkept := hs.kept
  have hrows : ((s.rows ++ [Row.mk w.allowed true]).map Row.hold).sum =
      (s.rows.map Row.hold).sum + w.allowed := by simp [Row.hold]
  have hrests : ∀ q ∈ s.rows ++ [Row.mk w.allowed true], q.rest ≤ maxShare := by
    intro q hq
    rcases List.mem_append.mp hq with hq | hq
    · exact hs.rests q hq
    · rw [List.mem_singleton.mp hq]
      exact hallowed
  rw [hlent] at hout
  simp only [setWriter, Volume.outstanding, Volume.unreported, Volume.resumable] at hout hunr hkept
  apply hs.of_writer { w with allowed := 0 } hw
  · exact ⟨rfl, rfl⟩
  · exact fun _ => Backed.finished
  · exact hs.small
  · exact hrests
  · intro check hcheck
    exact hcheck.mono le_rfl (Nat.le_add_right _ _)
      (by simp only [Volume.unreported, setWriter]; omega)
      (by simp only [Volume.resumable]; omega)
  · exact .inl rfl
  · simp only [setWriter, Volume.outstanding, Volume.resumable]
    omega

/-- The total stays exact as long as no promise makes it wrap. -/
theorem exact_of_step {pool pool' : Reservations} {a : Action} (h : pool.step a = some pool')
    (hexact : pool.promised = pool.outstanding) (hlt : pool.outstanding < wordSize)
    (hfits : pool.outstanding + Reservations.added a < wordSize) :
    pool'.promised = pool'.outstanding ∧ pool'.outstanding < wordSize := by
  have hsum := Reservations.outstanding_step h
  have hlt' : pool'.outstanding < wordSize := by omega
  have hmod := Reservations.promised_step h (hexact.trans (Nat.mod_eq_of_lt hlt).symm)
  exact ⟨hmod.trans (Nat.mod_eq_of_lt hlt'), hlt'⟩

theorem Sound.promise {bytes : ℕ} {pool : Reservations} (hs : Sound reserve s)
    (hpool : s.pool.step (.reserve bytes) = some pool) (hfits : s.pool.Fits (.reserve bytes)) :
    Sound reserve { s with
      pool := pool, writers := s.writers ++ [{ incoming := bytes }] } := by
  obtain ⟨hexact, hlt⟩ := exact_of_step hpool hs.exact hs.fits hfits
  obtain rfl : s.pool.reserve bytes = pool := by simpa [Reservations.step] using hpool
  have hkept := hs.kept
  have hlength := hs.length
  constructor
  · exact hexact
  · exact hlt
  · simp [Reservations.reserve, hlength]
  · intro j w share hw hshare
    simp only [Reservations.reserve, List.getElem?_append, List.getElem?_singleton] at hw hshare
    rw [← hlength] at hshare
    split_ifs at hw hshare with hj hzero
    · exact hs.backed j w share hw hshare
    · cases hw
      cases hshare
      exact ⟨by simp [Writer.lent, countedFor], by simp, by simp [countedFor],
        fun _ => ⟨rfl, rfl, by simp [countedFor]⟩⟩
  · exact hs.small
  · exact hs.rests
  · intro w hw
    rcases List.mem_append.mp hw with hw | hw
    · exact (hs.reading w hw).mono le_rfl le_rfl (by simp [Volume.unreported]) le_rfl
    · rw [List.mem_singleton.mp hw]
      trivial
  · simpa [Volume.outstanding, Volume.resumable, Writer.lent] using hkept

/-- The share of a write is replaced, and with it what the write is. -/
theorem Sound.of_share {pool : Reservations} (w' : Writer) (share' : Option Reservation)
    (settled : ℕ) (hs : Sound reserve s) (hw : s.writers[i]? = some w)
    (hexact : pool.promised = pool.outstanding ∧ pool.outstanding < wordSize)
    (hshares : pool.shares = s.pool.shares.set i share')
    (hbacked : ∀ share, s.pool.shares[i]? = some share → Backed w share → Backed w' share')
    (hunreported : w'.unreported + settled = w.unreported)
    (hallowed : w'.allowed + w'.lent ≤ w.allowed + w.lent)
    (hcheck : w'.check = w.check ∨ w'.check = .refused) :
    Sound reserve { s.setWriter i w' with pool := pool, settled := s.settled + settled } := by
  have hout := outstanding_setWriter w' hw
  have hunr := unreported_setWriter w' hw
  have hkept := hs.kept
  have hi := (List.getElem?_eq_some_iff.mp hw).1
  have hreads : ∀ check, Reading s check → Reading
      { s.setWriter i w' with pool := pool, settled := s.settled + settled } check := by
    intro check hcheck
    simp only [setWriter, Volume.unreported] at hunr
    exact hcheck.mono (Nat.le_add_right _ _) le_rfl
      (by simp only [Volume.unreported, setWriter]; omega) le_rfl
  constructor
  · exact hexact.1
  · exact hexact.2
  · simp only [setWriter, hshares, List.length_set]
    exact hs.length
  · intro j v share hv hshare
    simp only [setWriter, hshares, List.getElem?_set] at hv hshare
    split_ifs at hv hshare with hij
    · cases hv
      cases hshare
      subst hij
      have hold := List.getElem?_eq_getElem (l := s.pool.shares) (hs.length ▸ hi)
      exact hbacked _ hold (hs.backed i w _ hw hold)
    · exact hs.backed j v share hv hshare
  · exact hs.small
  · exact hs.rests
  · intro v hv
    rcases List.mem_or_eq_of_mem_set hv with hv | rfl
    · exact hreads _ (hs.reading v hv)
    · rcases hcheck with hcheck | hcheck
      · rw [hcheck]
        exact hreads _ (hs.reading w (List.mem_of_getElem? hw))
      · rw [hcheck]
        trivial
  · simp only [setWriter, Volume.outstanding, Volume.resumable] at hout hkept ⊢
    omega

theorem Sound.take {n : ℕ} {pool : Reservations} (hs : Sound reserve s)
    (hw : s.writers[i]? = some w) (hn : n ≤ w.unreported)
    (hpool : s.pool.step (.take i n) = some pool) : Sound reserve { s with pool := pool } := by
  have hexact := exact_of_step hpool hs.exact hs.fits hs.fits
  obtain ⟨bytes, ha, -⟩ | ⟨j, m, held, ha, hshare, rfl⟩ | ⟨j, held, m, ha, -⟩ | ⟨j, held, ha, -⟩ :=
    Reservations.step_cases hpool
  · cases ha
  · cases ha
    have hsame : s.writers.set i w = s.writers := by
      obtain ⟨hi, rfl⟩ := List.getElem?_eq_some_iff.mp hw
      exact List.set_getElem_self hi
    have hsound := hs.of_share w (some ⟨held - min n held, some (min n held)⟩) 0 hw hexact rfl
      (fun share hold hb => ?_) rfl le_rfl (.inl rfl)
    · simpa only [setWriter, hsame, add_zero] using hsound
    · obtain rfl : some ⟨held, none⟩ = share := by
        rw [hshare] at hold
        exact Option.some.inj hold
      have hcovered := hb.covered
      have hbounded := hb.bounded
      have hcounted : countedFor (some ⟨held - min n held, some (min n held)⟩) =
          countedFor (some ⟨held, none⟩) := by
        simp only [countedFor, Option.getD_some, Option.getD_none]
        omega
      constructor
      · rw [hcounted]
        exact hcovered
      · intro r hr
        cases hr
        exact (Nat.min_le_left _ _).trans hn
      · rw [hcounted]
        exact hbounded
      · rw [hcounted]
        exact hb.untouched
  · cases ha
  · cases ha

theorem Sound.settle {n held : ℕ} {pool : Reservations} (hs : Sound reserve s)
    (hw : s.writers[i]? = some w) (hshare : s.pool.shares[i]? = some (some ⟨held, some n⟩))
    (hpool : s.pool.step (.settle i) = some pool) :
    Sound reserve { s.setWriter i { w with unreported := w.unreported - n } with
      pool := pool, settled := s.settled + n } := by
  have hexact := exact_of_step hpool hs.exact hs.fits hs.fits
  have htaking : n ≤ w.unreported := (hs.backed i w _ hw hshare).taking _ rfl
  have hlent : Writer.lent { w with unreported := w.unreported - n } = w.lent := rfl
  obtain rfl : ⟨fetchSub s.pool.promised n, s.pool.shares.set i (some ⟨held, none⟩)⟩ = pool := by
    simpa [Reservations.step, hshare] using hpool
  apply hs.of_share { w with unreported := w.unreported - n } (some ⟨held, none⟩) n hw hexact rfl
  · intro share hold hb
    obtain rfl : some ⟨held, some n⟩ = share := by
      rw [hshare] at hold
      exact Option.some.inj hold
    have hcovered := hb.covered
    have hbounded := hb.bounded
    simp only [countedFor, Option.getD_some] at hcovered hbounded
    constructor
    · rw [hlent]
      simp only [countedFor, Option.getD_none]
      omega
    · intro r hr
      cases hr
      exact Nat.zero_le _
    · simp only [countedFor, Option.getD_none]
      omega
    · intro hundecided
      obtain ⟨hallowed, hunreported, hcounted⟩ := hb.untouched hundecided
      simp only [countedFor, Option.getD_some, Option.getD_none] at hcounted ⊢
      exact ⟨hallowed, by omega, by omega⟩
  · exact Nat.sub_add_cancel htaking
  · rw [hlent]
  · exact .inl rfl

theorem Sound.drop {pool : Reservations} (hs : Sound reserve s) (hw : s.writers[i]? = some w)
    (hunreported : w.unreported = 0) (hpool : s.pool.step (.drop i) = some pool) :
    Sound reserve { s.setWriter i { incoming := 0, check := .refused } with pool := pool } := by
  have hexact := exact_of_step hpool hs.exact hs.fits hs.fits
  have hlent : Writer.lent { incoming := 0, check := .refused } = 0 := rfl
  obtain ⟨bytes, ha, -⟩ | ⟨j, m, held, ha, -⟩ | ⟨j, held, m, ha, -⟩ | ⟨j, held, ha, -, rfl⟩ :=
    Reservations.step_cases hpool
  · cases ha
  · cases ha
  · cases ha
  · cases ha
    apply hs.of_share { incoming := 0, check := .refused } none 0 hw hexact rfl
    · intro share _ _
      constructor
      · rw [hlent]
        exact le_rfl
      · intro r hr
        cases hr
      · exact Nat.zero_le _
      · intro hundecided
        simp [Check.decided] at hundecided
    · exact hunreported.symm
    · rw [hlent]
      exact Nat.zero_le _
    · exact .inr rfl

/-- What a step does, and what it has found. -/
inductive Does (reserve : ℕ) (s : Volume) : Event → Volume → Prop
  | reserves {bytes : ℕ} {pool : Reservations} : s.pool.step (.reserve bytes) = some pool →
      Does reserve s (.reserve bytes)
        { s with pool := pool, writers := s.writers ++ [{ incoming := bytes }] }
  | measures {i : ℕ} {w : Writer} : s.writers[i]? = some w → w.check = .waiting →
      Does reserve s (.measure i) (s.setWriter i { w with check := .measured s.seen })
  | passes {i : ℕ} {w : Writer} : s.writers[i]? = some w → w.check = .waiting →
      Does reserve s (.unmeasured i)
        (s.setWriter i { w with check := .passed, allowed := w.incoming })
  | counts {i : ℕ} {w : Writer} {seen : Seen} : s.writers[i]? = some w →
      w.check = .measured seen → Does reserve s (.count i)
        (s.setWriter i { w with check := .counted seen s.resumable s.raised })
  | fails {i : ℕ} {w : Writer} {seen : Seen} : s.writers[i]? = some w →
      w.check = .measured seen → Does reserve s (.fail i)
        (s.setWriter i { w with check := .refused })
  | refuses {i : ℕ} {w : Writer} {seen : Seen} {resumable raised : ℕ} : s.writers[i]? = some w →
      w.check = .counted seen resumable raised → Does reserve s (.decide i)
        (s.setWriter i { w with check := .refused })
  | letsThrough {i : ℕ} {w : Writer} {seen : Seen} {resumable raised : ℕ} :
      s.writers[i]? = some w → w.check = .counted seen resumable raised →
      verdict reserve w.incoming (some seen.available) resumable s.pool.promised = .ok () →
      Does reserve s (.decide i)
        { s.setWriter i { w with check := .passed, allowed := w.incoming } with
          missed := s.missedBy seen raised }
  | writes {i n : ℕ} {w : Writer} : s.writers[i]? = some w → n ≤ w.allowed →
      Does reserve s (.write i n)
        { s.setWriter i { w with
          allowed := w.allowed - n, unreported := w.unreported + n } with
          pending := s.pending + n }
  | lands {n : ℕ} : n ≤ s.pending →
      Does reserve s (.land n) { s with pending := s.pending - n, free := s.free - n }
  | loses (n : ℕ) : Does reserve s (.lose n) { s with pending := s.pending - n }
  | takes {i n : ℕ} {w : Writer} {pool : Reservations} : s.writers[i]? = some w →
      n ≤ w.unreported → s.pool.step (.take i n) = some pool →
      Does reserve s (.take i n) { s with pool := pool }
  | settles {i n held : ℕ} {w : Writer} {pool : Reservations} : s.writers[i]? = some w →
      s.pool.shares[i]? = some (some ⟨held, some n⟩) → s.pool.step (.settle i) = some pool →
      Does reserve s (.settle i)
        { s.setWriter i { w with unreported := w.unreported - n } with
          pool := pool, settled := s.settled + n }
  | drops {i : ℕ} {w : Writer} {pool : Reservations} : s.writers[i]? = some w →
      w.unreported = 0 → s.pool.step (.drop i) = some pool → Does reserve s (.drop i)
        { s.setWriter i { incoming := 0, check := .refused } with pool := pool }
  | releases {n : ℕ} : s.free + n ≤ maxShare →
      Does reserve s (.release n) { s with free := s.free + n }
  | givesUp {i j : ℕ} {w : Writer} {r : Row} : s.writers[i]? = some w → s.rows[j]? = some r →
      w.check = .waiting → w.row = none → w.incoming = r.rest → Does reserve s (.giveUp i j)
        { s.setWriter i { w with row := some (j, r) } with
          rows := s.rows.set j { r with held := false } }
  | restores {i j : ℕ} {w : Writer} {r was : Row} : s.writers[i]? = some w →
      w.row = some (j, was) → s.rows[j]? = some r → w.check = .refused → r.rest = was.rest →
      Does reserve s (.restore i)
        ((s.setRow j { r with held := was.held }).setWriter i { w with row := none })
  | creates {i : ℕ} {w : Writer} : s.writers[i]? = some w → Does reserve s (.create i)
      { s.setWriter i { w with allowed := 0 } with
        rows := s.rows ++ [⟨w.allowed, true⟩], raised := s.raised + w.allowed }
  | records {i : ℕ} (j : ℕ) {w : Writer} : s.writers[i]? = some w → Does reserve s (.record i)
      ((s.setRow j ⟨w.allowed, true⟩).setWriter i { w with allowed := 0 })
  | lapses {j : ℕ} {r : Row} : s.rows[j]? = some r →
      Does reserve s (.lapse j) { s with rows := s.rows.set j { r with held := false } }

theorem withPool_eq_some {a : Action} {f : Reservations → Volume}
    (h : s.withPool a f = some s') : ∃ pool, s.pool.step a = some pool ∧ f pool = s' :=
  Option.map_eq_some_iff.mp h

theorem step_does {e : Event} (h : s.step reserve e = some s') : Does reserve s e s' := by
  cases e with
  | reserve bytes =>
    obtain ⟨pool, hpool, rfl⟩ := withPool_eq_some h
    exact .reserves hpool
  | measure i =>
    simp only [Volume.step] at h
    split at h
    next w hw =>
      split_ifs at h with hcheck
      cases h
      exact .measures hw hcheck
    next => cases h
  | unmeasured i =>
    simp only [Volume.step] at h
    split at h
    next w hw =>
      split_ifs at h with hcheck
      cases h
      exact .passes hw hcheck
    next => cases h
  | count i =>
    simp only [Volume.step] at h
    split at h
    next w hw =>
      split at h
      next seen hcheck =>
        cases h
        exact .counts hw hcheck
      next => cases h
    next => cases h
  | fail i =>
    simp only [Volume.step] at h
    split at h
    next w hw =>
      split at h
      next seen hcheck =>
        cases h
        exact .fails hw hcheck
      next => cases h
    next => cases h
  | decide i =>
    simp only [Volume.step] at h
    split at h
    next w hw =>
      split at h
      next seen resumable raised hcheck =>
        split at h
        next hverdict =>
          cases h
          exact .refuses hw hcheck
        next hverdict =>
          cases h
          exact .letsThrough hw hcheck hverdict
      next => cases h
    next => cases h
  | write i n =>
    simp only [Volume.step] at h
    split at h
    next w hw =>
      split_ifs at h with hn
      cases h
      exact .writes hw hn
    next => cases h
  | land n =>
    simp only [Volume.step] at h
    split_ifs at h with hn
    cases h
    exact .lands hn
  | lose n =>
    cases h
    exact .loses n
  | take i n =>
    simp only [Volume.step] at h
    split at h
    next w hw =>
      split_ifs at h with hn
      obtain ⟨pool, hpool, rfl⟩ := withPool_eq_some h
      exact .takes hw hn hpool
    next => cases h
  | settle i =>
    simp only [Volume.step] at h
    split at h
    next w held n hw hshare =>
      obtain ⟨pool, hpool, rfl⟩ := withPool_eq_some h
      exact .settles hw hshare hpool
    next => cases h
  | drop i =>
    simp only [Volume.step] at h
    split at h
    next w hw =>
      split_ifs at h with hunreported
      obtain ⟨pool, hpool, rfl⟩ := withPool_eq_some h
      exact .drops hw hunreported hpool
    next => cases h
  | release n =>
    simp only [Volume.step] at h
    split_ifs at h with hn
    cases h
    exact .releases hn
  | giveUp i j =>
    simp only [Volume.step] at h
    split at h
    next w r hw hr =>
      split_ifs at h with hcond
      obtain ⟨hcheck, hrow, hrest⟩ := hcond
      cases h
      exact .givesUp hw hr hcheck hrow hrest
    next => cases h
  | restore i =>
    simp only [Volume.step] at h
    split at h
    next w hw =>
      split at h
      next j was hrow =>
        split at h
        next r hr =>
          split_ifs at h with hcond
          obtain ⟨hcheck, hrest⟩ := hcond
          cases h
          exact .restores hw hrow hr hcheck hrest
        next => cases h
      next => cases h
    next => cases h
  | create i =>
    simp only [Volume.step] at h
    split at h
    next w hw =>
      split_ifs at h
      cases h
      exact .creates hw
    next => cases h
  | record i =>
    simp only [Volume.step] at h
    split at h
    next w hw =>
      split at h
      next j was hrow =>
        split_ifs at h
        cases h
        exact .records j hw
      next => cases h
    next => cases h
  | lapse j =>
    simp only [Volume.step] at h
    split at h
    next r hr =>
      cases h
      exact .lapses hr
    next => cases h

/-- The volume can be measured, and no promise makes the total wrap. -/
def Guarded (s : Volume) : Event → Prop
  | .reserve bytes => s.pool.Fits (.reserve bytes)
  | .unmeasured _ => False
  | _ => True

theorem Sound.step {e : Event} (hreserve : 0 < reserve) (h : s.step reserve e = some s')
    (hguarded : s.Guarded e) (hs : Sound reserve s) : Sound reserve s' := by
  cases step_does h with
  | reserves hpool => exact hs.promise hpool hguarded
  | measures hw hcheck => exact hs.measure hw hcheck
  | passes => exact hguarded.elim
  | counts hw hcheck => exact hs.count hw hcheck
  | fails hw hcheck | refuses hw hcheck => exact hs.refuse hw (by rw [hcheck]; rfl)
  | letsThrough hw hcheck hverdict => exact hs.letThrough hreserve hw hcheck hverdict
  | writes hw hn => exact hs.write hw hn
  | lands hn => exact hs.land hn
  | loses n => exact hs.lose n
  | takes hw hn hpool => exact hs.take hw hn hpool
  | settles hw hshare hpool => exact hs.settle hw hshare hpool
  | drops hw hunreported hpool => exact hs.drop hw hunreported hpool
  | releases hn => exact hs.release hn
  | givesUp hw hr hcheck hrow hrest => exact hs.giveUp hw hr hcheck hrow hrest
  | restores hw hrow hr hcheck hrest => exact hs.restore hw hrow hr hcheck hrest
  | creates hw => exact hs.create hw
  | records j hw => exact hs.record j hw
  | lapses hr => exact hs.lapse hr

end Steps

end Volume

end YaNuget.Space
