import YaNuget.Retention.TiedVersions

/-!
# Deleting what was shown

A preview is sent back as a fingerprint of the versions it shows, and a run
deletes nothing unless the plan still has it. The preview shows what a sweep
deletes exactly where no place among versions that compare equal decides.
-/
namespace YaNuget.Retention

open Std Versions Orderings Sorting

section Fingerprint

variable {Digest : Type}

def Planned.line (p : Planned) : Text :=
  canonicalId p.id ++ '\x00' :: p.version.normalized

/-- What is hashed: the planned versions in order, one a line. -/
def Preview.message (p : Preview) : Text :=
  (sortBy compare (p.planned.map Planned.line)).flatMap (· ++ ['\n'])

def Preview.fingerprint (hash : Text → Digest) (p : Preview) : Digest := hash p.message

def Preview.keys (p : Preview) : Set RowKey := {key | key ∈ p.planned.map Planned.key}

end Fingerprint

namespace Feed

variable (feed : Feed)

theorem deletePlanned_sublist (rows : List FeedVersion) (key : RowKey) :
    (deletePlanned rows key).Sublist rows := by
  unfold deletePlanned
  split
  · exact List.Sublist.refl _
  · split_ifs
    · exact List.filter_sublist
    · exact List.Sublist.refl _

def delete (key : RowKey) : Feed where
  rows := deletePlanned feed.rows key
  keyed := feed.keyed.sublist (deletePlanned_sublist _ _)
  ids v hv := feed.ids v ((deletePlanned_sublist _ _).subset hv)
  stored v hv := feed.stored v ((deletePlanned_sublist _ _).subset hv)

end Feed

/-- One planned version's turn: the feed right before, and right after. -/
structure Turn where
  planned : Planned
  before : Feed
  after : Feed

def Turn.deletedKeys (t : Turn) : Set RowKey := {key | key ∈ t.before.keys ∧ key ∉ t.after.keys}

/-- Delete the versions of a plan one by one. `meanwhile` is what others do to the feed before
each turn. -/
def apply (meanwhile : ℕ → Feed → Feed) : ℕ → List Planned → Feed → List Turn × Feed
  | _, [], feed => ([], feed)
  | n, p :: rest, feed =>
    let before := meanwhile n feed
    let after := before.delete p.key
    let run := apply meanwhile (n + 1) rest after
    (⟨p, before, after⟩ :: run.1, run.2)

/-- A cleanup of exactly what was shown: `none` while another one runs, and the new plan where
it is another one. -/
def runShown {Digest : Type} [DecidableEq Digest] (hash : Text → Digest) (engine : Engine)
    (policy : RetentionPolicy) (now : Instant) (meanwhile : ℕ → Feed → Feed) (running : Bool)
    (feed : Feed) (fingerprint : Digest) : Option (Except Preview (List Turn × Feed)) :=
  if running then none
  else
    let plan := preview engine policy now feed.rows
    if plan.fingerprint hash ≠ fingerprint then some (.error plan)
    else some (.ok (apply meanwhile 0 plan.planned feed))

section Messages

/-- Lines are told apart by their ends. -/
theorem lines_injective {l l' : List Text} (h : ∀ t ∈ l, '\n' ∉ t) (h' : ∀ t ∈ l', '\n' ∉ t)
    (heq : l.flatMap (· ++ ['\n']) = l'.flatMap (· ++ ['\n'])) : l = l' := by
  induction l generalizing l' with
  | nil =>
    cases l' with
    | nil => rfl
    | cons t l' => simp at heq
  | cons t l ih =>
    cases l' with
    | nil => simp at heq
    | cons t' l' =>
      have hcut := congrArg (Text.splitOnce '\n') heq
      simp only [List.flatMap_cons, List.append_assoc, List.singleton_append] at hcut
      rw [Text.splitOnce_append (h t List.mem_cons_self),
        Text.splitOnce_append (h' t' List.mem_cons_self)] at hcut
      obtain ⟨rfl, hrest⟩ := Prod.mk.inj (Option.some.inj hcut)
      rw [ih (fun u hu => h u (List.mem_cons_of_mem _ hu))
        (fun u hu => h' u (List.mem_cons_of_mem _ hu)) hrest]

theorem compare_ne_of_nodup {l : List Text} (h : l.Nodup) :
    l.Pairwise fun a b => compare a b ≠ .eq :=
  h.imp fun hne heq => hne (LawfulEqCmp.eq_of_compare heq)

/-- A line of a key, whose parts do not hold what ends them. -/
def line (key : RowKey) : Text := key.1 ++ '\x00' :: key.2

def Plain (key : RowKey) : Prop := '\x00' ∉ key.1 ∧ '\n' ∉ key.1 ∧ '\n' ∉ key.2

theorem line_injective {key key' : RowKey} (h : Plain key) (h' : Plain key')
    (heq : line key = line key') : key = key' := by
  have hcut := congrArg (Text.splitOnce '\x00') heq
  unfold line at hcut
  rw [Text.splitOnce_append h.1, Text.splitOnce_append h'.1] at hcut
  exact Option.some.inj hcut

theorem newline_not_mem_line {key : RowKey} (h : Plain key) : '\n' ∉ line key := by
  unfold line
  intro hmem
  rcases List.mem_append.mp hmem with hmem | hmem
  · exact h.2.1 hmem
  · rcases List.mem_cons.mp hmem with hmem | hmem
    · exact absurd hmem (by decide)
    · exact h.2.2 hmem

theorem lines_planned (p : Preview) :
    p.planned.map Planned.line = (p.planned.map Planned.key).map line := by
  rw [List.map_map]
  rfl

/-- Plans with distinct plain keys have one message exactly if they name the same keys. -/
theorem message_eq_iff {p q : Preview} (hp : ∀ key ∈ p.keys, Plain key)
    (hq : ∀ key ∈ q.keys, Plain key) (hp' : (p.planned.map Planned.key).Nodup)
    (hq' : (q.planned.map Planned.key).Nodup) : p.message = q.message ↔ p.keys = q.keys := by
  unfold Preview.message
  rw [lines_planned, lines_planned]
  have hplain {p : Preview} (hp : ∀ key ∈ p.keys, Plain key) :
      ∀ t ∈ sortBy compare ((p.planned.map Planned.key).map line), '\n' ∉ t := by
    intro t ht
    obtain ⟨key, hkey, rfl⟩ := List.mem_map.mp (mem_sortBy.mp ht)
    exact newline_not_mem_line (hp key hkey)
  constructor
  · intro heq
    have hsorted := lines_injective (hplain hp) (hplain hq) heq
    have hmem {p q : Preview} (hp : ∀ key ∈ p.keys, Plain key) (hq : ∀ key ∈ q.keys, Plain key)
        (hsorted : sortBy compare ((p.planned.map Planned.key).map line) =
          sortBy compare ((q.planned.map Planned.key).map line)) {key : RowKey}
        (hkey : key ∈ p.keys) : key ∈ q.keys := by
      have hline : line key ∈ sortBy compare ((q.planned.map Planned.key).map line) := by
        rw [← hsorted]
        exact mem_sortBy.mpr (List.mem_map_of_mem hkey)
      obtain ⟨key', hkey', hsame⟩ := List.mem_map.mp (mem_sortBy.mp hline)
      obtain rfl := line_injective (hq key' hkey') (hp key hkey) hsame
      exact hkey'
    ext key
    exact ⟨hmem hp hq hsorted, hmem hq hp hsorted.symm⟩
  · intro hkeys
    have hperm : (p.planned.map Planned.key).Perm (q.planned.map Planned.key) :=
      (List.perm_ext_iff_of_nodup hp' hq').mpr fun key => Set.ext_iff.mp hkeys key
    have hlines : ((p.planned.map Planned.key).map line).Nodup := by
      apply List.Nodup.map_on _ hp'
      intro key hkey key' hkey' hsame
      exact line_injective (hp key hkey) (hp key' hkey') hsame
    rw [sortBy_perm (hperm.map line) (compare_ne_of_nodup hlines)]

end Messages

section Plain

variable {engine : Engine} {policy : RetentionPolicy} {now : Instant}

theorem not_mem_canonicalId {id : Text} {c : Char} (h : id.all isIdChar = true)
    (hc : isIdChar c = false) (hlow : c.toNat < 97) : c ∉ canonicalId id := by
  intro hmem
  obtain ⟨d, hd, rfl⟩ := List.mem_map.mp hmem
  rcases Text.toLower_cases d with ⟨h₁, -, h₃⟩ | ⟨-, heq⟩
  · omega
  · rw [heq, List.all_eq_true.mp h d hd] at hc
    simp at hc

theorem isWritten_of_stored {v : Versions.NuGetVersion} (h : v.IsStored) {c : Char}
    (hc : c ∈ v.normalized) : IsWritten c := by
  have hpre : ∀ id ∈ v.canonical.pre, IsIdentifier id := h.canonical.pre
  have hfull : v.normalized = v.canonical.coreString ++ v.canonical.label := by
    rw [← NuGetVersion.toFullString_canonical]
    simp [NuGetVersion.toFullString, NuGetVersion.canonical, NuGetVersion.label]
  rw [hfull] at hc
  exact NuGetVersion.isWritten_labelled hpre hc

theorem plain_key (feed : Feed) {v : FeedVersion} (hv : v ∈ feed.rows) : Plain v.key := by
  have hid := feed.ids v hv
  refine ⟨not_mem_canonicalId hid (by decide) (by decide),
    not_mem_canonicalId hid (by decide) (by decide), fun hmem => ?_⟩
  have hwritten : IsWritten '\n' := isWritten_of_stored (feed.stored v hv) hmem
  exact absurd hwritten (by decide)

/-- What is planned is a version of the feed, each once. -/
theorem keys_preview (feed : Feed) (engine : Engine) (policy : RetentionPolicy) (now : Instant) :
    (∀ key ∈ (preview engine policy now feed.rows).keys, Plain key) ∧
      ((preview engine policy now feed.rows).planned.map Planned.key).Nodup := by
  obtain ⟨listing, hlisting, heq⟩ := preview_eq engine feed.rows
  have hkeys : (preview engine policy now feed.rows).planned.map Planned.key =
      (lowerIds feed.rows).flatMap fun id => planKeys policy now (listing id) := by
    rw [heq, List.map_flatMap]
    rfl
  have hids {id : Text} (hid : id ∈ lowerIds feed.rows) : ∀ v ∈ listing id, v.lowerId = id :=
    fun v hv => ((hlisting id hid).mem_iff.mp hv).2
  unfold Preview.keys
  rw [hkeys]
  constructor
  · intro key hkey
    obtain ⟨id, hid, hkey⟩ := List.mem_flatMap.mp hkey
    obtain ⟨v, hv, rfl, -⟩ := mem_planKeys (hids hid) hkey
    exact plain_key feed ((hlisting id hid).mem_iff.mp hv).1
  · rw [List.nodup_flatMap]
    constructor
    · intro id hid
      apply nodup_planKeys (hids hid)
      rw [((hlisting id hid).map FeedVersion.key).nodup_iff]
      exact List.Nodup.sublist (List.filter_sublist.map _) (List.pairwise_map.mpr feed.keyed)
    · apply List.Pairwise.imp_of_mem _ nodup_lowerIds
      intro id id' hid hid' hne key hkey hkey'
      obtain ⟨v, hv, rfl, -⟩ := mem_planKeys (hids hid) hkey
      obtain ⟨w, hw, hsame, -⟩ := mem_planKeys (hids hid') hkey'
      apply hne
      rw [← hids hid v hv, ← hids hid' w hw]
      exact (congrArg Prod.fst hsame).symm

end Plain

section Turns

variable {meanwhile : ℕ → Feed → Feed} {feed : Feed} {n : ℕ} {plan : List Planned}

/-- A turn deletes the version it is about, if it is there and nothing keeps it. -/
theorem deletedKeys_turn (before : Feed) (p : Planned) :
    (Turn.mk p before (before.delete p.key)).deletedKeys =
      {key | key = p.key ∧ ∃ v ∈ before.rows, v.key = key ∧ v.isPrunable = true} := by
  ext key
  change key ∈ before.rows.map FeedVersion.key ∧
    key ∉ (deletePlanned before.rows p.key).map FeedVersion.key ↔ _
  unfold deletePlanned
  cases hfound : before.rows.find? fun v => v.key = p.key with
  | none =>
    have hnone := List.find?_eq_none.mp hfound
    constructor
    · rintro ⟨hmem, hgone⟩
      exact (hgone hmem).elim
    · rintro ⟨rfl, v, hv, hkey, -⟩
      exact (hnone v hv (by simpa using hkey)).elim
  | some v =>
    have hv := List.mem_of_find?_eq_some hfound
    have hkey : v.key = p.key := by simpa using List.find?_some hfound
    cases hprunable : v.isPrunable with
    | false =>
      simp only [hprunable, Bool.false_eq_true, if_false]
      constructor
      · rintro ⟨hmem, hgone⟩
        exact (hgone hmem).elim
      · rintro ⟨rfl, w, hw, hsame, hw'⟩
        obtain rfl := eq_of_key before.keyed hw hv (hsame.trans hkey.symm)
        simp [hprunable] at hw'
    | true =>
      simp only [hprunable, if_true]
      constructor
      · rintro ⟨hmem, hgone⟩
        obtain ⟨w, hw, rfl⟩ := List.mem_map.mp hmem
        by_cases hsame : w.key = p.key
        · exact ⟨hsame, v, hv, hkey.trans hsame.symm, hprunable⟩
        · exact (hgone (List.mem_map_of_mem (List.mem_filter.mpr ⟨hw, by simpa using hsame⟩))).elim
      · rintro ⟨rfl, -⟩
        refine ⟨hkey ▸ List.mem_map_of_mem hv, fun hmem => ?_⟩
        obtain ⟨w, hw, hsame⟩ := List.mem_map.mp hmem
        have hne := List.of_mem_filter hw
        simp [hsame] at hne

theorem planned_apply (meanwhile : ℕ → Feed → Feed) (n : ℕ) (plan : List Planned) (feed : Feed) :
    (apply meanwhile n plan feed).1.map Turn.planned = plan := by
  induction plan generalizing n feed with
  | nil => rfl
  | cons p rest ih =>
    unfold apply
    simp only [List.map_cons]
    rw [ih]

theorem turn_of_apply {t : Turn} (h : t ∈ (apply meanwhile n plan feed).1) :
    t = ⟨t.planned, t.before, t.before.delete t.planned.key⟩ := by
  induction plan generalizing n feed with
  | nil => simp [apply] at h
  | cons p rest ih =>
    unfold apply at h
    rcases List.mem_cons.mp h with rfl | h
    · rfl
    · exact ih h

/-- Where nobody else changes the feed, a run leaves what was not planned. -/
theorem apply_alone (h : Prunable (plan.map Planned.key) feed.rows) :
    (apply (fun _ feed => feed) n plan feed).2.rows =
      withoutKeys (plan.map Planned.key) feed.rows := by
  have hfold (n : ℕ) (plan : List Planned) (feed : Feed) :
      (apply (fun _ feed => feed) n plan feed).2.rows =
        (plan.map Planned.key).foldl deletePlanned feed.rows := by
    induction plan generalizing n feed with
    | nil => rfl
    | cons p rest ih =>
      unfold apply
      simp only [List.map_cons, List.foldl_cons]
      rw [ih]
      rfl
  rw [hfold, foldl_deletePlanned h]

theorem prunable_preview (feed : Feed) (engine : Engine) (policy : RetentionPolicy) (now : Instant) :
    Prunable ((preview engine policy now feed.rows).planned.map Planned.key) feed.rows := by
  obtain ⟨listing, hlisting, heq⟩ := preview_eq engine feed.rows
  intro v hv hkey
  rw [heq, List.map_flatMap, List.mem_flatMap] at hkey
  obtain ⟨id, hid, hkey⟩ := hkey
  exact prunable_planKeys feed.keyed (hlisting id hid) v hv hkey

end Turns

section Exact

variable {Digest : Type}

def TellsApart (hash : Text → Digest) (p q : Preview) : Prop :=
  hash p.message = hash q.message → p.message = q.message

/-- What the preview of a feed shows is what a sweep deletes and what a run of it deletes, and
fingerprints stand for it. -/
structure PreviewExact [DecidableEq Digest] (hash : Text → Digest) (feed : Feed) (policy : RetentionPolicy)
    (now : Instant) : Prop where
  /-- However the database orders the rows, a sweep deletes what is shown. -/
  swept : ∀ engine engine', (preview engine policy now feed.rows).keys =
    feed.sweptKeys engine' policy now
  /-- The fingerprint is another preview's exactly if that one shows the same versions. -/
  fingerprint : ∀ engine engine' (feed' : Feed) policy' now',
    let shown := preview engine' policy' now' feed'.rows
    let plan := preview engine policy now feed.rows
    TellsApart hash plan shown →
      (plan.fingerprint hash = shown.fingerprint hash ↔ plan.keys = shown.keys)
  /-- A run with the fingerprint of what was shown gives each version shown one turn, which
  deletes it unless it is gone, pinned, pending or disabled by then. It deletes nothing else. -/
  run : ∀ engine engine' (feed' : Feed) policy' now' meanwhile turns left,
    let shown := preview engine' policy' now' feed'.rows
    TellsApart hash (preview engine policy now feed.rows) shown →
      runShown hash engine policy now meanwhile false feed (shown.fingerprint hash) =
        some (.ok (turns, left)) →
      (∀ key, key ∈ shown.keys ↔ ∃ t ∈ turns, t.planned.key = key) ∧
      (turns.map fun t => t.planned.key).Nodup ∧
      ∀ t ∈ turns, t.deletedKeys = {key | key = t.planned.key ∧
        ∃ v ∈ t.before.rows, v.key = key ∧ v.pinned = false ∧ v.pending = false ∧
          v.enabled = true}
  /-- Where nobody else changes the feed, the run leaves the versions that were not shown. -/
  alone : ∀ engine engine' (feed' : Feed) policy' now' turns (left : Feed),
    let shown := preview engine' policy' now' feed'.rows
    TellsApart hash (preview engine policy now feed.rows) shown →
      runShown hash engine policy now (fun _ feed => feed) false feed (shown.fingerprint hash) =
        some (.ok (turns, left)) →
      ∀ v, v ∈ left.rows ↔ v ∈ feed.rows ∧ v.key ∉ shown.keys

variable {hash : Text → Digest} {feed : Feed} {policy : RetentionPolicy} {now : Instant}

/-- Where no place decides, sweeps delete what previews show. -/
theorem keys_preview_of_unsplit (h : ¬ feed.Split policy now) (engine engine' : Engine) :
    (preview engine policy now feed.rows).keys = feed.sweptKeys engine' policy now := by
  obtain ⟨listing, hlisting, heq⟩ := preview_eq engine feed.rows
  obtain ⟨listing', hread, hmem⟩ := mem_sweptKeys feed engine' policy now
  ext key
  rw [hmem]
  change key ∈ (preview engine policy now feed.rows).planned.map Planned.key ↔ _
  rw [heq, List.map_flatMap, List.mem_flatMap, List.mem_flatMap]
  apply exists_congr
  intro id
  apply and_congr_right
  intro hid
  have hlisting' := (hread id hid).isListing (canonicalId_of_mem hid)
  rw [mem_planKeys_of_unsplit h hlisting']
  exact mem_planKeys_of_unsplit h (hlisting id hid)

theorem fingerprint_iff (engine engine' : Engine) (feed' : Feed) (policy' : RetentionPolicy)
    (now' : Instant) (h : TellsApart hash (preview engine policy now feed.rows)
      (preview engine' policy' now' feed'.rows)) :
    (preview engine policy now feed.rows).fingerprint hash =
      (preview engine' policy' now' feed'.rows).fingerprint hash ↔
    (preview engine policy now feed.rows).keys =
      (preview engine' policy' now' feed'.rows).keys := by
  obtain ⟨hplain, hnodup⟩ := keys_preview feed engine policy now
  obtain ⟨hplain', hnodup'⟩ := keys_preview feed' engine' policy' now'
  rw [← message_eq_iff hplain hplain' hnodup hnodup']
  exact ⟨h, congrArg hash⟩

variable [DecidableEq Digest]

/-- A run goes by the plan it made, whose fingerprint is the one given. -/
theorem runShown_eq {engine : Engine} {meanwhile : ℕ → Feed → Feed} {turns : List Turn}
    {left : Feed} {fingerprint : Digest}
    (h : runShown hash engine policy now meanwhile false feed fingerprint =
      some (.ok (turns, left))) :
    (preview engine policy now feed.rows).fingerprint hash = fingerprint ∧
      apply meanwhile 0 (preview engine policy now feed.rows).planned feed = (turns, left) := by
  unfold runShown at h
  simp only [Bool.false_eq_true, if_false] at h
  split_ifs at h with hsame
  · simp at h
  · exact ⟨not_not.mp hsame, by simpa using h⟩

/-- A preview shows what is deleted exactly where no place among versions that compare equal
decides. -/
theorem preview_exact_iff (hash : Text → Digest) (feed : Feed) (policy : RetentionPolicy)
    (now : Instant) : PreviewExact hash feed policy now ↔ ¬ feed.Split policy now := by
  constructor
  · intro h hsplit
    obtain ⟨engine, engine', key, hin, hout⟩ := swept_differ hsplit
    rw [← h.swept engine engine] at hin
    rw [← h.swept engine engine'] at hout
    exact hout hin
  · intro h
    refine ⟨keys_preview_of_unsplit h, ?_, ?_, ?_⟩
    · intro engine engine' feed' policy' now'
      exact fingerprint_iff engine engine' feed' policy' now'
    · intro engine engine' feed' policy' now' meanwhile turns left shown happart hrun
      obtain ⟨hprint, hrun⟩ := runShown_eq hrun
      have hkeys := (fingerprint_iff engine engine' feed' policy' now' happart).mp hprint
      have hturns : turns.map Turn.planned = (preview engine policy now feed.rows).planned := by
        rw [← planned_apply meanwhile 0 (preview engine policy now feed.rows).planned feed, hrun]
      have hturnKeys : turns.map (fun t => t.planned.key) =
          (preview engine policy now feed.rows).planned.map Planned.key := by
        rw [← hturns, List.map_map]
        rfl
      refine ⟨fun key => ?_, ?_, ?_⟩
      · rw [← hkeys, ← List.mem_map, hturnKeys]
        rfl
      · rw [hturnKeys]
        exact (keys_preview feed engine policy now).2
      · intro t ht
        have hmem : t ∈ (apply meanwhile 0 (preview engine policy now feed.rows).planned feed).1 := by
          rw [hrun]
          exact ht
        rw [turn_of_apply hmem, deletedKeys_turn]
        simp [FeedVersion.isPrunable, and_assoc]
    · intro engine engine' feed' policy' now' turns left shown happart hrun v
      obtain ⟨hprint, hrun⟩ := runShown_eq hrun
      have hkeys := (fingerprint_iff engine engine' feed' policy' now' happart).mp hprint
      have hleft := apply_alone (n := 0) (prunable_preview feed engine policy now)
      rw [hrun] at hleft
      rw [hleft, ← hkeys]
      simp [withoutKeys, Preview.keys]

end Exact

/-! Two pre-releases that compare equal, stored when leading zeros were accepted, where one is kept. -/

def tiedRow (pre : List Text) : FeedVersion :=
  ⟨⟨"Sample.Package".toList, ⟨1, 0, 0, 0, pre, none, []⟩⟩, true, false, false,
    .epoch⟩

def tiedFeed : Feed where
  rows := [tiedRow [], tiedRow [['0', '1']], tiedRow [['1']]]
  keyed := by decide +kernel
  ids := by decide +kernel
  stored v hv := by
    simp only [List.mem_cons, List.not_mem_nil, or_false] at hv
    rcases hv with rfl | rfl | rfl
    all_goals exact ⟨by decide, by unfold IsIdentifier; decide⟩

/-- A sweep deletes another version than the one shown. -/
theorem tied_versions_differ : ¬ PreviewExact (fun message => message) tiedFeed
    ⟨none, some 1, none, []⟩ .epoch := by
  intro h
  have hsame := h.swept (Engine.putting fun _ => true) (Engine.putting (· = tiedRow [['1']]))
  have hshown : ("sample.package".toList, "1.0.0-1".toList) ∈
      (preview (Engine.putting fun _ => true) ⟨none, some 1, none, []⟩ .epoch
        tiedFeed.rows).planned.map Planned.key := by decide +kernel
  have hkept : ("sample.package".toList, "1.0.0-1".toList) ∈
      (pruneAll (Engine.putting (· = tiedRow [['1']])) ⟨none, some 1, none, []⟩
        .epoch tiedFeed.rows).map FeedVersion.key := by decide +kernel
  exact (Set.ext_iff.mp hsame _ |>.mp hshown).2 hkept

end YaNuget.Retention
