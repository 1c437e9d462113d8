import YaNuget.Data.Outcomes
import YaNuget.Internalize.Resuming

/-!
# Resumed downloads are whole files

What is stored begins some file of the host after every attempt, and is all of
it after the last one, when every part that is appended continues what is stored.
-/
namespace YaNuget.Internalize.Resuming

open Outcomes

/-- The versions of a host's file, and the one that each validator names. -/
structure Host where
  Version : Type
  content : Version → Bytes
  named : HeaderValue → Version

/-- A response of the host. A `200` brings the whole of a version, a `206` a slice of it that
starts where its `Content-Range` says; each may break off anywhere. -/
structure Sent (host : Host) where
  response : Response
  version : host.Version
  start : ℕ
  stop : ℕ
  validated : ∀ v ∈ response.validator, host.named v = version
  whole : response.status = 200 → start = 0 ∧ stop = (host.content version).length
  ranged : response.status = 206 →
    ∀ offset, startsAt response.contentRange offset = true → offset = start
  slice : response.status = 200 ∨ response.status = 206 →
    response.chunks.flatten <+: ((host.content version).take stop).drop start
  ended : response.status = 200 ∨ response.status = 206 → response.broke = none →
    response.chunks.flatten = ((host.content version).take stop).drop start

/-- What the host answers at each attempt. -/
abbrev Sending (host : Host) :=
  ℕ → Option (Text × HeaderValue) → Except UpstreamError (Sent host)

def Sending.answers {host : Host} (sending : Sending host) : Answers := fun n request =>
  (sending n request).map (·.response)

/-- A response taken for the rest of the file is of a version that begins with what is stored, and
ends where that version does when it does not break off. -/
def Continues {host : Host} (p : Progress) (sent : Sent host) : Prop :=
  p.resumed sent.response = true →
    p.file <+: host.content sent.version ∧
      (sent.response.broke = none → sent.stop = (host.content sent.version).length)

/-- What the download has when an attempt begins. -/
inductive Reached (s : Setup) (answers : Answers) : ℕ → Progress → Prop
  | start (h : s.disk.create = none) : Reached s answers 1 s.start
  | next {n : ℕ} {p p' : Progress} {why : String} (h : Reached s answers n p)
      (hleft : n ≤ s.resumeAttempts) (hattempt : s.attempt answers n p = .ok (p', some why)) :
      Reached s answers (n + 1) p'

/-- The hashes, the size and the first bytes are those of the file. -/
structure Progress.Exact (p : Progress) : Prop where
  hashed : p.hashed = p.file
  written : p.written = p.file.length
  head : p.head = p.file.take headBytes

variable {s : Setup} {n : ℕ} {p p' : Progress} {r : Response}

theorem keepHead_take (file bytes : Bytes) :
    keepHead (file.take headBytes) bytes = (file ++ bytes).take headBytes := by
  rw [keepHead, List.take_append, List.length_take]
  congr 2
  omega

theorem start_exact (s : Setup) : s.start.Exact where
  hashed := rfl
  written := rfl
  head := rfl

theorem restart_spec (hp : p.Exact) (h : s.restart n p = .ok p') : p'.file = [] ∧ p'.Exact := by
  unfold Setup.restart at h
  split_ifs at h with hpos
  · cases htruncate : s.disk.truncate n with
    | some err => simp [htruncate] at h
    | none =>
      simp only [htruncate, Except.ok.injEq] at h
      subst h
      exact ⟨rfl, rfl, rfl, rfl⟩
  · cases h
    have hzero : p.file.length = 0 := by
      rw [← hp.written]
      omega
    exact ⟨List.length_eq_zero_iff.mp hzero, hp⟩

/-- A response that is not appended is a whole file, and begins the file again. -/
theorem takeUp_cases (hp : p.Exact) (h : s.takeUp n p r = .ok p') :
    (p.resumed r = true ∧ r.status = 206 ∧ p' = p) ∨
      (r.status = 200 ∧ p'.file = [] ∧ p'.Exact ∧ ∀ v ∈ p'.validator, r.validator = some v) := by
  by_cases hresumed : p.resumed r = true
  · left
    have hstatus := hresumed
    simp only [Progress.resumed, Bool.and_eq_true, decide_eq_true_eq] at hstatus
    rw [Setup.takeUp, if_pos hresumed] at h
    cases h
    exact ⟨hresumed, hstatus.1.2, rfl⟩
  · right
    rw [Setup.takeUp, if_neg hresumed] at h
    by_cases hstatus : r.status = 200
    · rw [if_neg (not_not_intro hstatus)] at h
      obtain ⟨q, hrestart, h⟩ := bind_eq_ok.mp h
      obtain ⟨hfile, hexact⟩ := restart_spec hp hrestart
      split_ifs at h with hlarge hranges
      · cases h
        exact ⟨hstatus, hfile, ⟨hexact.hashed, hexact.written, hexact.head⟩, fun v hv => hv⟩
      · cases h
        exact ⟨hstatus, hfile, ⟨hexact.hashed, hexact.written, hexact.head⟩, fun v hv => by cases hv⟩
    · rw [if_pos hstatus] at h
      simp at h

theorem receive_spec {chunks : List Bytes} (h : s.receive n chunks p = .ok p') :
    p'.file = p.file ++ chunks.flatten ∧ p'.validator = p.validator ∧ (p.Exact → p'.Exact) := by
  induction chunks generalizing p with
  | nil =>
    cases h
    simp
  | cons chunk rest ih =>
    unfold Setup.receive at h
    split_ifs at h
    cases hwrite : s.disk.write n p.written with
    | some err => simp [hwrite] at h
    | none =>
      simp only [hwrite] at h
      obtain ⟨hfile, hvalidator, hexact⟩ := ih h
      constructor
      · rw [hfile]
        simp
      · use hvalidator
        intro hp
        apply hexact
        constructor
        · exact congrArg (· ++ chunk) hp.hashed
        · simp [hp.written]
        · rw [hp.head, keepHead_take]

/-- What one attempt leaves: what was stored, or nothing, and the body behind it. -/
theorem attempt_cases {answers : Answers} {broke : Option String} (hp : p.Exact)
    (h : s.attempt answers n p = .ok (p', broke)) :
    ∃ r, answers n p.request = .ok r ∧ r.broke = broke ∧ p'.Exact ∧
      ((p.resumed r = true ∧ r.status = 206 ∧ p'.file = p.file ++ r.chunks.flatten ∧
          p'.validator = p.validator) ∨
        (r.status = 200 ∧ p'.file = r.chunks.flatten ∧
          ∀ v ∈ p'.validator, r.validator = some v)) := by
  unfold Setup.attempt at h
  cases hanswer : answers n p.request with
  | error err => simp [hanswer] at h
  | ok r =>
    simp only [hanswer] at h
    obtain ⟨q, htake, h⟩ := bind_eq_ok.mp h
    obtain ⟨q', hreceive, h⟩ := bind_eq_ok.mp h
    cases h
    obtain ⟨hfile, hvalidator, hexact⟩ := receive_spec hreceive
    use r, rfl, rfl
    rcases takeUp_cases hp htake with ⟨hresumed, hstatus, rfl⟩ | ⟨hstatus, hempty, hq, hnew⟩
    · exact ⟨hexact hp, Or.inl ⟨hresumed, hstatus, hfile, hvalidator⟩⟩
    · rw [hempty] at hfile
      rw [← hvalidator] at hnew
      exact ⟨hexact hq, Or.inr ⟨hstatus, hfile, hnew⟩⟩

theorem prefix_append_slice {a b content : Bytes} {stop : ℕ} (ha : a <+: content)
    (hb : b <+: (content.take stop).drop a.length) : a ++ b <+: content := by
  obtain ⟨t, rfl⟩ := ha
  have hdrop : ((a ++ t).take stop).drop a.length <+: t := by
    rw [List.drop_take, List.drop_left]
    exact List.take_prefix _ _
  obtain ⟨u, hu⟩ := hb.trans hdrop
  exact ⟨u, by rw [List.append_assoc, hu]⟩

section Hosts

variable {host : Host} {sending : Sending host}

theorem Sending.answers_ok {request : Option (Text × HeaderValue)}
    (h : sending.answers n request = .ok r) :
    ∃ sent, sending n request = .ok sent ∧ sent.response = r := by
  unfold Sending.answers at h
  cases hsending : sending n request with
  | error err => simp [hsending, Except.map] at h
  | ok sent =>
    rw [hsending] at h
    cases h
    exact ⟨sent, rfl, rfl⟩

/-- The body of a response, behind what is stored when it is taken for the rest of the file, begins
the version it is of, and is all of it when it did not break off. -/
theorem Continues.file {sent : Sent host} (hp : p.Exact) (hcontinues : Continues p sent)
    (hcases : (p.resumed sent.response = true ∧ sent.response.status = 206 ∧
        p'.file = p.file ++ sent.response.chunks.flatten) ∨
      (sent.response.status = 200 ∧ p'.file = sent.response.chunks.flatten)) :
    p'.file <+: host.content sent.version ∧
      (sent.response.broke = none → p'.file = host.content sent.version) := by
  rcases hcases with ⟨hresumed, hstatus, hfile⟩ | ⟨hstatus, hfile⟩
  · obtain ⟨hshort, hstop⟩ := hcontinues hresumed
    have hstart : p.file.length = sent.start := by
      rw [← hp.written]
      simp only [Progress.resumed, Bool.and_eq_true, decide_eq_true_eq] at hresumed
      exact sent.ranged hstatus _ hresumed.2
    rw [hfile]
    constructor
    · apply prefix_append_slice hshort
      rw [hstart]
      exact sent.slice (Or.inr hstatus)
    · intro hbroke
      obtain ⟨t, ht⟩ := hshort
      rw [sent.ended (Or.inr hstatus) hbroke, hstop hbroke, List.take_length, ← hstart, ← ht,
        List.drop_left]
  · obtain ⟨hstart, hstop⟩ := sent.whole hstatus
    have hall : ((host.content sent.version).take sent.stop).drop sent.start =
        host.content sent.version := by
      rw [hstart, hstop, List.take_length, List.drop_zero]
    rw [hfile]
    constructor
    · rw [← hall]
      exact sent.slice (Or.inl hstatus)
    · intro hbroke
      rw [sent.ended (Or.inl hstatus) hbroke, hall]

theorem Reached.exact {answers : Answers} (h : Reached s answers n p) : p.Exact := by
  induction h with
  | start _ => exact start_exact s
  | next _ _ hattempt ih =>
    obtain ⟨r, -, -, hexact, -⟩ := attempt_cases ih hattempt
    exact hexact

/-- After an attempt that continues what is stored, some version begins with what is stored, and
is all of it when the attempt did not break off. -/
theorem attempt_prefix {broke : Option String} (hp : p.Exact)
    (hcontinues : ∀ sent, sending n p.request = .ok sent → Continues p sent)
    (h : s.attempt sending.answers n p = .ok (p', broke)) :
    p'.Exact ∧ ∃ v, p'.file <+: host.content v ∧ (broke = none → p'.file = host.content v) := by
  obtain ⟨r, hanswer, rfl, hexact, hcases⟩ := attempt_cases hp h
  obtain ⟨sent, hsent, rfl⟩ := Sending.answers_ok hanswer
  use hexact, sent.version
  apply (hcontinues sent hsent).file hp
  rcases hcases with ⟨hresumed, hstatus, hfile, -⟩ | ⟨hstatus, hfile, -⟩
  · exact Or.inl ⟨hresumed, hstatus, hfile⟩
  · exact Or.inr ⟨hstatus, hfile⟩

/-- A run that ends does so with an attempt that did not break off. -/
theorem run_ends {answers : Answers} {left : ℕ} (hreached : Reached s answers n p)
    (hleft : n + left = s.resumeAttempts + 1) (h : s.run answers left n p = .ok p') :
    ∃ m q, Reached s answers m q ∧ s.attempt answers m q = .ok (p', none) := by
  induction left generalizing n p with
  | zero =>
    unfold Setup.run at h
    cases hattempt : s.attempt answers n p with
    | error err => simp [hattempt] at h
    | ok result =>
      obtain ⟨q, broke⟩ := result
      cases broke with
      | none =>
        simp only [hattempt, Except.ok.injEq] at h
        subst h
        exact ⟨n, p, hreached, hattempt⟩
      | some why => simp [hattempt] at h
  | succ left ih =>
    unfold Setup.run at h
    cases hattempt : s.attempt answers n p with
    | error err => simp [hattempt] at h
    | ok result =>
      obtain ⟨q, broke⟩ := result
      cases broke with
      | none =>
        simp only [hattempt, Except.ok.injEq] at h
        subst h
        exact ⟨n, p, hreached, hattempt⟩
      | some why =>
        simp only [hattempt] at h
        exact ih (hreached.next (by omega) hattempt) (by omega) h

/-- What a download reports is what its file has, and its declared checksum matches. -/
theorem finish_spec {d : Downloaded} (hp : p.Exact) (h : s.finish p = .ok d) :
    d = downloadedOf s.T ⟨p.file, some p.finalUrl, p.contentDisposition⟩ s.declared ∧
      ∀ sum ∈ s.declared, checksumOf s.T sum.kind p.file = sum.hex := by
  unfold Setup.finish at h
  split at h
  · cases h
  · split at h
    · cases h
    · rename_i hsum
      split at h
      · cases h
      · cases h
        constructor
        · simp only [downloadedOf, hp.hashed, hp.written, hp.head]
        · intro sum hdeclared
          rw [hp.hashed] at hsum
          simpa using Option.filter_eq_none_iff.mp hsum sum hdeclared

/-- A download that succeeds stores one whole version of the host's file, reports its size and its
digest, and has matched the declared checksum against it, when in each attempt what is appended
continues what is stored. -/
theorem download_whole (s : Setup) (sending : Sending host)
    (hcontinues : ∀ n p, Reached s sending.answers n p →
      ∀ sent, sending n p.request = .ok sent → Continues p sent)
    {d : Downloaded} (h : s.download sending.answers = .ok d) :
    ∃ v url disposition,
      d = downloadedOf s.T ⟨host.content v, some url, disposition⟩ s.declared ∧
        ∀ sum ∈ s.declared, checksumOf s.T sum.kind (host.content v) = sum.hex := by
  unfold Setup.download at h
  cases hcreate : s.disk.create with
  | some err => simp [hcreate] at h
  | none =>
    rw [hcreate] at h
    obtain ⟨q, hrun, h⟩ := bind_eq_ok.mp h
    obtain ⟨m, p, hreached, hlast⟩ := run_ends (.start hcreate) (Nat.add_comm _ _) hrun
    obtain ⟨hexact, v, -, hwhole⟩ :=
      attempt_prefix hreached.exact (hcontinues m p hreached) hlast
    obtain ⟨hd, hsums⟩ := finish_spec hexact h
    rw [hwhole rfl] at hd hsums
    exact ⟨v, q.finalUrl, q.contentDisposition, hd, hsums⟩

/-- A response taken for the rest of the file carries the validator that the rest was asked for
under, and ends where its version does when it does not break off. -/
def Validates (p : Progress) (sent : Sent host) : Prop :=
  p.resumed sent.response = true →
    (∃ v, p.validator = some v ∧ sent.response.validator = some v) ∧
      (sent.response.broke = none → sent.stop = (host.content sent.version).length)

def Recorded (host : Host) (p : Progress) : Prop :=
  ∀ v ∈ p.validator, p.file <+: host.content (host.named v)

theorem Validates.continues {sent : Sent host} (h : Validates p sent) (hp : Recorded host p) :
    Continues p sent := by
  intro hresumed
  obtain ⟨⟨v, hasked, hcarried⟩, hstop⟩ := h hresumed
  have hversion := sent.validated v hcarried
  constructor
  · rw [← hversion]
    exact hp v hasked
  · exact hstop

/-- Where each response taken for the rest of the file carries the validator recorded, what is
stored begins the version that this validator names. -/
theorem Reached.recorded (hvalidates : ∀ n p, Reached s sending.answers n p →
    ∀ sent, sending n p.request = .ok sent → Validates p sent)
    (h : Reached s sending.answers n p) : Recorded host p := by
  induction h with
  | start _ =>
    intro v hv
    cases hv
  | next hreached _ hattempt ih =>
    obtain ⟨r, hanswer, -, -, hcases⟩ := attempt_cases hreached.exact hattempt
    obtain ⟨sent, hsent, rfl⟩ := Sending.answers_ok hanswer
    have hvalid := hvalidates _ _ hreached sent hsent
    have hcontinues := hvalid.continues ih
    intro v hv
    rcases hcases with ⟨hresumed, hstatus, hbody, hsame⟩ | ⟨hstatus, hbody, hnew⟩
    · obtain ⟨⟨w, hasked, hcarried⟩, -⟩ := hvalid hresumed
      rw [hsame, hasked] at hv
      cases hv
      rw [sent.validated v hcarried]
      exact (hcontinues.file hreached.exact (Or.inl ⟨hresumed, hstatus, hbody⟩)).1
    · rw [sent.validated v (hnew v hv)]
      exact (hcontinues.file hreached.exact (Or.inr ⟨hstatus, hbody⟩)).1

/-- Responses that carry the validator they were asked for under continue what is stored. -/
theorem continues_of_validates (hvalidates : ∀ n p, Reached s sending.answers n p →
    ∀ sent, sending n p.request = .ok sent → Validates p sent) :
    ∀ n p, Reached s sending.answers n p →
      ∀ sent, sending n p.request = .ok sent → Continues p sent := by
  intro n p hreached sent hsent
  exact (hvalidates n p hreached sent hsent).continues (hreached.recorded hvalidates)

end Hosts

/-! A sample: a file of six bytes, and the one of three bytes that takes its place. Its transfer
breaks off after two bytes. -/

def sampleHost : Host where
  Version := Bool
  content newer := if newer then [7, 8, 9] else [1, 2, 3, 4, 5, 6]
  named v := decide (v = utf8 "\"v2\"".toList)

/-- The SHA-256 of what the sample downloads store. -/
def sampleDigests : List (Bytes × Bytes) :=
  [([1, 2, 3, 4, 5, 6],
    [113, 146, 56, 92, 60, 6, 5, 222, 85, 187, 148, 118, 206, 29, 144, 116, 129, 144, 236, 179, 42,
      142, 237, 127, 82, 7, 179, 12, 246, 161, 254, 137]),
  ([1, 2, 3, 4],
    [159, 100, 167, 71, 225, 185, 127, 19, 31, 171, 182, 180, 71, 41, 108, 155, 111, 2, 1, 231, 159,
      179, 197, 53, 110, 108, 119, 232, 155, 106, 128, 106]),
  ([1, 2, 9],
    [25, 180, 246, 203, 10, 61, 50, 102, 140, 68, 111, 72, 120, 158, 221, 52, 79, 227, 141, 242, 25,
      205, 18, 9, 245, 107, 148, 153, 250, 52, 215, 90])]

def sampleSetup : Setup where
  T := {
    md5 := fun _ => []
    sha1 := fun _ => []
    sha256 := fun bytes => (sampleDigests.lookup bytes).getD []
    sha512 := fun _ => []
    scheme := fun url => url.takeWhile (· != ':')
    pathSegments := fun url => some ((url.splitOn '/').drop 3)
    redact := String.ofList }
  maxBytes := 100
  resumeAttempts := 2
  statusText n := toString n
  disk := ⟨none, fun _ => none, fun _ _ => none, none, none⟩
  url := "https://example.com/setup.exe".toList
  declared := none

def sampleResponse (status : ℕ) (range : Option String) (etag : String) (body : Bytes)
    (broke : Option String) : Response where
  status := status
  url := sampleSetup.url
  contentLength := none
  acceptRanges := some (utf8 "bytes".toList)
  contentRange := range.map fun r => utf8 r.toList
  etag := some (utf8 etag.toList)
  lastModified := none
  contentDisposition := none
  chunks := [body]
  broke := broke

/-- The first response, which breaks off. -/
def sampleFirst : Sent sampleHost where
  response := sampleResponse 200 none "\"v1\"" [1, 2] (some "reset")
  version := false
  start := 0
  stop := 6
  validated := by
    rintro v ⟨⟩
    rfl
  whole _ := ⟨rfl, rfl⟩
  ranged h := absurd h (by decide)
  slice _ := ⟨[3, 4, 5, 6], rfl⟩
  ended _ h := absurd h (by decide)

/-- The rest of the file, or a part of it that ends before the file does. -/
def sampleRest (short : Bool) : Sent sampleHost where
  response := sampleResponse 206 (some (if short then "bytes 2-3/6" else "bytes 2-5/6")) "\"v1\""
    (if short then [3, 4] else [3, 4, 5, 6]) none
  version := false
  start := 2
  stop := if short then 4 else 6
  validated := by
    rintro v ⟨⟩
    rfl
  whole h := absurd h (by decide : ¬206 = 200)
  ranged _ offset h := by
    have hstart : rangeStart ((some (if short then "bytes 2-3/6" else "bytes 2-5/6")).map
        fun r => utf8 r.toList) = some 2 := by
      cases short <;> decide
    rw [sampleResponse, startsAt, hstart] at h
    exact (Option.some.inj (of_decide_eq_true h)).symm
  slice _ := by cases short <;> exact List.prefix_rfl
  ended _ _ := by cases short <;> rfl

/-- The end of the file that has taken the place of the first one. -/
def sampleNewer : Sent sampleHost where
  response := sampleResponse 206 (some "bytes 2-2/3") "\"v2\"" [9] none
  version := true
  start := 2
  stop := 3
  validated := by
    rintro v ⟨⟩
    rfl
  whole h := absurd h (by decide : ¬206 = 200)
  ranged _ offset h := by
    have hstart : rangeStart (some (utf8 "bytes 2-2/3".toList)) = some 2 := by decide
    rw [sampleResponse, Option.map_some, startsAt, hstart] at h
    exact (Option.some.inj (of_decide_eq_true h)).symm
  slice _ := List.prefix_rfl
  ended _ _ := rfl

def sampleSending (second : Sent sampleHost) : Sending sampleHost := fun n _ =>
  .ok (if n = 1 then sampleFirst else second)

/-- What the download has after the first attempt. -/
def sampleBroken : Progress where
  file := [1, 2]
  hashed := [1, 2]
  written := 2
  head := [1, 2]
  validator := some (utf8 "\"v1\"".toList)
  finalUrl := sampleSetup.url
  contentDisposition := none

theorem sample_reached {short : Bool} {n : ℕ} {p : Progress}
    (h : Reached sampleSetup (sampleSending (sampleRest short)).answers n p) :
    (n = 1 ∧ p = sampleSetup.start) ∨ (n = 2 ∧ p = sampleBroken) := by
  have hfirst : sampleSetup.attempt (sampleSending (sampleRest short)).answers 1
      sampleSetup.start = .ok (sampleBroken, some "reset") := rfl
  have hsecond : ∃ q, sampleSetup.attempt (sampleSending (sampleRest short)).answers 2
      sampleBroken = .ok (q, none) := by
    cases short <;> exact ⟨_, rfl⟩
  induction h with
  | start _ => exact Or.inl ⟨rfl, rfl⟩
  | next _ _ hattempt ih =>
    rcases ih with ⟨rfl, rfl⟩ | ⟨rfl, rfl⟩
    · rw [hfirst] at hattempt
      cases hattempt
      exact Or.inr ⟨rfl, rfl⟩
    · obtain ⟨q, hq⟩ := hsecond
      rw [hq] at hattempt
      cases hattempt

theorem download_whole_sample :
    ∃ d, sampleSetup.download (sampleSending (sampleRest false)).answers = .ok d ∧
      ∃ v url disposition,
        d = downloadedOf sampleSetup.T ⟨sampleHost.content v, some url, disposition⟩ none ∧
          ∀ sum ∈ (none : Option Checksum),
            checksumOf sampleSetup.T sum.kind (sampleHost.content v) = sum.hex := by
  refine ⟨_, rfl, download_whole sampleSetup (sampleSending (sampleRest false)) ?_ rfl⟩
  apply continues_of_validates
  intro n p hreached sent hsent hresumed
  rcases sample_reached hreached with ⟨rfl, rfl⟩ | ⟨rfl, rfl⟩
  · simp [Progress.resumed, Setup.start] at hresumed
  · cases hsent
    exact ⟨⟨_, rfl, rfl⟩, fun _ => rfl⟩

/-- A slice that ends before its file does is taken for the rest of it, and so is the end of a file
that another validator names. -/
theorem download_not_whole :
    (∃ d, sampleSetup.download (sampleSending (sampleRest true)).answers = .ok d ∧
      ∀ v, d.file ≠ sampleHost.content v) ∧
    ∃ d, sampleSetup.download (sampleSending sampleNewer).answers = .ok d ∧
      ∀ v, d.file ≠ sampleHost.content v := by
  constructor
  · refine ⟨_, rfl, ?_⟩
    rintro (_ | _) <;> decide
  · refine ⟨_, rfl, ?_⟩
    rintro (_ | _) <;> decide

end YaNuget.Internalize.Resuming
