import YaNuget.Store.SpaceSteps

/-!
# The reserve over whole runs

The events of any number of writes come in any order. The reserve is kept as far
as the checks that let writes through have missed nothing between their reads.
-/
namespace YaNuget.Space

namespace Volume

section Runs

open Runs

variable {reserve : ℕ} {s₀ : Volume} {events : List Event}

/-- No write is in progress, and what rows hold fits beside the reserve. -/
structure Starts (reserve : ℕ) (s : Volume) : Prop where
  pool : s.pool = {}
  writers : s.writers = []
  small : s.free ≤ maxShare
  rests : ∀ r ∈ s.rows, r.rest ≤ maxShare
  kept : reserve + s.resumable + s.pending ≤ s.free
  missed : s.missed = 0

theorem Starts.sound (h : Starts reserve s₀) : Sound reserve s₀ where
  exact := by simp [h.pool, Reservations.outstanding]
  fits := by
    rw [h.pool]
    norm_num [Reservations.outstanding, wordSize]
  length := by simp [h.pool, h.writers]
  backed := by
    intro i w share hw
    simp [h.writers] at hw
  small := h.small
  rests := h.rests
  reading := by simp [h.writers]
  kept := by
    have hkept := h.kept
    simp only [outstanding, h.writers, List.map_nil, List.sum_nil]
    omega

/-- Every event of a run meets a condition in the state before it. -/
def Along (C : Volume → Event → Prop) (reserve : ℕ) (s₀ : Volume) (events : List Event) : Prop :=
  ∀ before e, before ++ [e] <+: events →
    ∀ s, run (Volume.step reserve) s₀ before = some s → C s e

theorem sound_run (hreserve : 0 < reserve) (hstart : Starts reserve s₀)
    (hguarded : Along Guarded reserve s₀ events) :
    ∀ before, before <+: events →
      ∀ s, run (Volume.step reserve) s₀ before = some s → Sound reserve s :=
  run_keeps_of (fun _ _ _ hstep hguarded hs => hs.step hreserve hstep hguarded) hstart.sound
    hguarded

/-- A check that lets a write through has missed nothing. -/
def Quiet (reserve : ℕ) (s : Volume) : Event → Prop
  | .decide i => ∀ w ∈ s.writers[i]?, ∀ seen resumable raised,
      w.check = .counted seen resumable raised →
      verdict reserve w.incoming (some seen.available) resumable s.pool.promised = .ok () →
      s.missedBy seen raised = 0
  | _ => True

theorem missed_step {s s' : Volume} {e : Event} (h : s.step reserve e = some s') :
    s'.missed = s.missed ∨ ∃ i w seen resumable raised, e = .decide i ∧ s.writers[i]? = some w ∧
      w.check = .counted seen resumable raised ∧
      verdict reserve w.incoming (some seen.available) resumable s.pool.promised = .ok () ∧
      s'.missed = s.missedBy seen raised := by
  cases step_does h with
  | letsThrough hw hcheck hverdict => exact .inr ⟨_, _, _, _, _, rfl, hw, hcheck, hverdict, rfl⟩
  | _ => exact .inl rfl

theorem missed_quiet (hstart : Starts reserve s₀)
    (hquiet : Along (Quiet reserve) reserve s₀ events) :
    ∀ before, before <+: events →
      ∀ s, run (Volume.step reserve) s₀ before = some s → s.missed = 0 := by
  apply run_keeps_of (I := fun s => s.missed = 0) (C := Quiet reserve) ?_ hstart.missed hquiet
  intro s e s' hstep hquiet hs
  obtain hsame | ⟨i, w, seen, resumable, raised, rfl, hw, hcheck, hverdict, hmissed⟩ :=
    missed_step hstep
  · exact hsame.trans hs
  · exact hmissed.trans (hquiet w hw seen resumable raised hcheck hverdict)

/-- Whatever writes and rows do in between: what is free covers the reserve and all that writes may
still write and rows hold, but for what the last check that let a write through has missed. As long
as checks miss nothing, the reserve is kept. -/
theorem reserve_kept (hreserve : 0 < reserve) (hstart : Starts reserve s₀)
    (hguarded : Along Guarded reserve s₀ events) :
    ∀ before, before <+: events → ∀ s, run (Volume.step reserve) s₀ before = some s →
      reserve + s.outstanding + s.pending ≤ s.free + s.missed ∧
      (Along (Quiet reserve) reserve s₀ events → reserve + s.outstanding + s.pending ≤ s.free) := by
  intro before hbefore s hrun
  have hkept := (sound_run hreserve hstart hguarded before hbefore s hrun).kept
  constructor
  · exact hkept
  · intro hquiet
    have hmissed := missed_quiet hstart hquiet before hbefore s hrun
    omega

/-- A volume of 100 bytes, with an upload that has 20 to receive. -/
def sampleVolume : Volume := { rows := [⟨20, true⟩], free := 100 }

/-- The upload is resumed and stays unfinished, and 50 more bytes are pushed meanwhile. -/
def sampleEvents : List Event :=
  [.reserve 20, .giveUp 0 0, .measure 0, .count 0, .decide 0, .write 0 15, .land 15, .take 0 15,
    .settle 0, .reserve 50, .measure 1, .count 1, .decide 1, .write 1 50, .record 0, .drop 0,
    .land 50, .take 1 50, .settle 1, .drop 1]

instance (s : Volume) (e : Event) : Decidable (s.Guarded e) :=
  match e with
  | .reserve bytes =>
    inferInstanceAs
      (Decidable (s.pool.outstanding + Reservations.added (.reserve bytes) < wordSize))
  | .unmeasured _ => inferInstanceAs (Decidable False)
  | .measure _ | .count _ | .fail _ | .decide _ | .write _ _ | .land _ | .lose _ | .take _ _
  | .settle _ | .drop _ | .release _ | .giveUp _ _ | .restore _ | .create _ | .record _
  | .lapse _ => inferInstanceAs (Decidable True)

theorem sampleVolume_starts : Starts 10 sampleVolume := by
  constructor <;> decide +kernel

theorem sampleEvents_guarded :
    (∃ s, run (Volume.step 10) sampleVolume sampleEvents = some s) ∧
      Along Guarded 10 sampleVolume sampleEvents := by
  have passed : runs (Volume.step 10) (fun s e => decide (s.Guarded e)) sampleVolume sampleEvents =
      true := by
    decide +kernel
  obtain ⟨hrun, hguarded⟩ := run_of_runs passed
  exact ⟨hrun, fun before e hbefore s hs => of_decide_eq_true (hguarded before e hbefore s hs)⟩

theorem reserve_kept_sample :
    ∃ s, run (Volume.step 10) sampleVolume sampleEvents = some s ∧
      10 + s.outstanding + s.pending ≤ s.free + s.missed ∧ s.free = 35 ∧ s.outstanding = 5 := by
  obtain ⟨⟨s, hrun⟩, hguarded⟩ := sampleEvents_guarded
  have final : (run (Volume.step 10) sampleVolume sampleEvents).map
      (fun s => (s.free, s.outstanding)) = some (35, 5) := by
    decide +kernel
  rw [hrun] at final
  simp only [Option.map_some, Option.some.injEq, Prod.mk.injEq] at final
  have hkept := reserve_kept (by decide) sampleVolume_starts hguarded sampleEvents
    List.prefix_rfl s hrun
  exact ⟨s, hrun, hkept.1, final.1, final.2⟩

/-- A write that is let through while another one's bytes go from its promise to the disk: between
the two reads they are missed, and 85 bytes are promised where 40 are left. -/
example :
    (run (Volume.step 10) { free := 100 } [.reserve 60, .measure 0, .count 0, .decide 0,
      .reserve 85, .measure 1, .write 0 60, .land 60, .take 0 60, .settle 0, .count 1,
      .decide 1]).map
        (fun s => (s.free, s.outstanding, s.missed)) = some (40, 85, 60) := by
  decide +kernel

/-- When a check decides, it has counted all that others may still write and what rows hold, up to
what rows were given since they were read; and what it takes for free is, up to what was reported
before the free space showed it and what was taken off the promises since. -/
theorem counted_covers (hreserve : 0 < reserve) (hstart : Starts reserve s₀)
    (hguarded : Along Guarded reserve s₀ events) :
    ∀ before, before <+: events → ∀ s, run (Volume.step reserve) s₀ before = some s →
      ∀ w ∈ s.writers, ∀ seen resumable raised, w.check = .counted seen resumable raised →
        s.outstanding + s.unreported ≤ s.pool.promised + resumable + (s.raised - raised) ∧
        seen.available + s.pending ≤
          s.free + s.unreported + seen.late + (s.settled - seen.settled) := by
  intro before hbefore s hrun w hw seen resumable raised hcheck
  have hs := sound_run hreserve hstart hguarded before hbefore s hrun
  obtain ⟨i, hi⟩ := List.getElem?_of_mem hw
  have hcovers := hs.outstanding_le hi hcheck
  have hreading := hs.reading w hw
  rw [hcheck] at hreading
  have hfree := hreading.free
  have hsettled := hreading.settled
  have hsince := hreading.since
  constructor
  · omega
  · omega

/-- The check of the push, of which it knows all three numbers. -/
theorem counted_covers_sample :
    ∃ s, run (Volume.step 10) sampleVolume (sampleEvents.take 12) = some s ∧
      ∃ w ∈ s.writers, w.check = .counted ⟨85, 0, 15⟩ 0 0 ∧
        s.outstanding + s.unreported ≤ s.pool.promised := by
  have hguarded := sampleEvents_guarded.2
  have hread : (run (Volume.step 10) sampleVolume (sampleEvents.take 12)).map
      (fun s => (s.writers[1]?.map (·.check), s.raised)) =
        some (some (.counted ⟨85, 0, 15⟩ 0 0), 0) := by
    decide +kernel
  obtain ⟨s, hrun, hs⟩ := Option.map_eq_some_iff.mp hread
  obtain ⟨hchecks, hraised⟩ := Prod.mk.inj hs
  obtain ⟨w, hw, hcheck⟩ := Option.map_eq_some_iff.mp hchecks
  have hcovers := counted_covers (by decide) sampleVolume_starts hguarded (sampleEvents.take 12)
    (List.take_prefix 12 _) s hrun w (List.mem_of_getElem? hw) _ _ _ hcheck
  exact ⟨s, hrun, w, List.mem_of_getElem? hw, hcheck, by omega⟩

end Runs

end Volume

end YaNuget.Space
