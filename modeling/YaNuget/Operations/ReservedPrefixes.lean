import Mathlib.Data.List.Pairwise
import YaNuget.Data.Outcomes
import YaNuget.Data.Text
import YaNuget.Operations.Indexing

/-!
# Prefixes of package ids that a feed reserves

A feed may reserve prefixes of package ids, and each feed refuses what the
others reserved. A configuration in which two feeds reserve overlapping
prefixes is refused, so an id is under the prefixes of one feed at most.
-/
namespace YaNuget

open Policy Outcomes

/-- The settings of a feed that deciding on its reservations reads. -/
structure FeedConfig where
  name : FeedName
  reservedIdPrefixes : List String := []
  /-- `retention.exclude_id_prefixes`, if the feed has a retention of its own. -/
  excludeIdPrefixes : Option (List String) := none
  /-- What the check of the mirror's settings finds wrong. -/
  mirrorProblem : Option String := none
  promotesTo : Option FeedName := none
  deriving DecidableEq, Repr

structure FeedsConfig where
  feeds : List FeedConfig := []
  /-- The global `retention.exclude_id_prefixes`. -/
  excludeIdPrefixes : List String := []
  deriving DecidableEq, Repr

structure ResolvedFeed where
  name : FeedName
  /-- Where the feed is mounted. -/
  mount : String
  promotesTo : Option FeedName
  reservedIdPrefixes : List String
  reservedElsewhere : List ReservedPrefix
  deriving DecidableEq, Repr

def defaultFeed : FeedName := "default"

/-- Route path segments a feed may not shadow. -/
def reservedFeedNames : List String :=
  ["health", "admin", "docs", "packages", "stats", "settings", "v3", "api", "download", "metrics",
    "_assets", "tags", "files"]

def validateFeedName (name : FeedName) : Except Error Unit :=
  let text := name.toList
  if text.isEmpty || !text.all (fun c => c.isAlphanum || c ∈ ['-', '_', '.']) then
    .error (.badRequest ("invalid feed name " ++ quoted name ++
      ": use only letters, digits, '-', '_' or '.'"))
  else if text.all (· = '.') then
    .error (.badRequest ("invalid feed name " ++ quoted name ++
      ": a name of only dots is a relative path"))
  else if toAsciiLowercase name ∈ reservedFeedNames then
    .error (.badRequest ("feed name " ++ quoted name ++ " is reserved: it would shadow the /" ++
      toAsciiLowercase name ++ " route"))
  else .ok ()

def maxPackageIdLength : ℕ := 100

/-- A prefix made of package-id characters, which a real id can begin with. -/
def validPrefix (t : Text) : Bool :=
  t.head?.any (fun c => c.isAlphanum || c == '_') &&
    t.all (fun c => c.isAlphanum || c ∈ ['_', '.', '-']) && Text.byteLen t ≤ maxPackageIdLength

def idPrefixes (raw : List String) (feed : FeedName) (key : String) : Except Error (List String) :=
  raw.mapM fun entry =>
    let trimmed := Policy.trim entry
    if validPrefix trimmed.toList then .ok trimmed
    else .error (.badRequest
      ("feed " ++ quoted feed ++ ": invalid " ++ key ++ " entry " ++ quoted entry))

def checkUnseen (seen : List String) (name : FeedName) : Except Error Unit :=
  if toAsciiLowercase name ∈ seen then .error (.badRequest ("duplicate feed name: " ++ name))
  else .ok ()

def checkMirror (f : FeedConfig) : Except Error Unit :=
  match f.mirrorProblem with
  | some problem => .error (.badRequest ("feed " ++ quoted f.name ++ ": " ++ problem))
  | none => .ok ()

/-- The feeds in the order of the configuration, each with the names before it. -/
def resolveEach (config : FeedsConfig) : List String → List FeedConfig →
    Except Error (List ResolvedFeed)
  | _, [] => .ok []
  | seen, f :: rest => do
    validateFeedName f.name
    checkUnseen seen f.name
    checkMirror f
    let _ ← idPrefixes (f.excludeIdPrefixes.getD config.excludeIdPrefixes) f.name
      "retention.exclude_id_prefixes"
    let reserved ← idPrefixes f.reservedIdPrefixes f.name "reserved_id_prefixes"
    let others ← resolveEach config (toAsciiLowercase f.name :: seen) rest
    pure (⟨f.name, "/" ++ f.name, f.promotesTo, reserved, []⟩ :: others)

/-- Two feeds reserve prefixes of which one covers the other. -/
def ReservedPrefix.overlaps (a b : ReservedPrefix) : Bool :=
  a.feed ≠ b.feed && (a.covers b.pfx || b.covers a.pfx || eqIgnoreAsciiCase a.pfx b.pfx)

/-- The first overlap, in the order the pairs are looked at. -/
def firstOverlap : List ReservedPrefix → Option (ReservedPrefix × ReservedPrefix)
  | [] => none
  | a :: rest =>
    match rest.find? a.overlaps with
    | some b => some (a, b)
    | none => firstOverlap rest

def allReserved (feeds : List ResolvedFeed) : List ReservedPrefix :=
  feeds.flatMap fun f => f.reservedIdPrefixes.map fun p => ⟨p, f.name⟩

def checkApart (all : List ReservedPrefix) : Except Error Unit :=
  match firstOverlap all with
  | some (a, b) =>
    .error (.badRequest ("feeds " ++ quoted a.feed ++ " and " ++ quoted b.feed ++
      " reserve overlapping id prefixes " ++ quoted a.pfx ++ " and " ++ quoted b.pfx))
  | none => .ok ()

def checkTargets (feeds : List ResolvedFeed) : Except Error Unit :=
  match feeds.find? fun f => f.promotesTo.any fun t => feeds.all fun o => o.name ≠ t with
  | some f =>
    .error (.badRequest ("feed " ++ quoted f.name ++ " promotes_to unknown feed " ++
      quoted (f.promotesTo.getD "")))
  | none => .ok ()

def withReserved (feeds : List ResolvedFeed) : List ResolvedFeed :=
  feeds.map fun f =>
    { f with reservedElsewhere := (allReserved feeds).filter fun r => r.feed ≠ f.name }

/-- Resolve the hosted feeds: the configured ones, or the one there is by default. -/
def resolvedFeeds (config : FeedsConfig) : Except Error (List ResolvedFeed) :=
  if config.feeds.isEmpty then do
    let _ ← idPrefixes config.excludeIdPrefixes defaultFeed "retention.exclude_id_prefixes"
    pure [⟨defaultFeed, "", none, [], []⟩]
  else do
    let resolved ← resolveEach config [] config.feeds
    checkApart (allReserved resolved)
    checkTargets (withReserved resolved)
    pure (withReserved resolved)

/-- The feed reserved a prefix that `id` is under. -/
def ResolvedFeed.reserves (f : ResolvedFeed) (id : String) : Bool :=
  f.reservedIdPrefixes.any fun p => idHasPrefix id p

section Covers

variable {id p q : String} {a b : ReservedPrefix}

theorem idHasPrefix_iff : idHasPrefix id p = true ↔
    Text.lower p.toList <+: Text.lower id.toList ∨
      Text.lower p.toList = Text.lower id.toList ++ ['.'] := by
  have hlower : ∀ s : String, (toAsciiLowercase s).toList = Text.lower s.toList := by
    intro s
    simp [toAsciiLowercase, Text.lower]
  simp only [idHasPrefix, hlower, Bool.or_eq_true, List.isPrefixOf_iff_prefix, Bool.and_eq_true,
    beq_iff_eq]
  apply or_congr_right
  constructor
  · rintro ⟨hlast, hid⟩
    rw [hid]
    exact (List.dropLast_append_getLast? _ hlast).symm
  · intro h
    rw [h]
    simp

theorem covers_of_common (ha : idHasPrefix id p = true) (hb : idHasPrefix id q = true) :
    idHasPrefix q p = true ∨ idHasPrefix p q = true := by
  rw [idHasPrefix_iff] at ha hb
  rw [idHasPrefix_iff, idHasPrefix_iff]
  rcases ha with ha | ha
  · rcases hb with hb | hb
    · rcases List.prefix_or_prefix_of_prefix ha hb with h | h
      · exact .inl (.inl h)
      · exact .inr (.inl h)
    · exact .inl (.inl (hb ▸ ha.trans (List.prefix_append _ _)))
  · rcases hb with hb | hb
    · exact .inr (.inl (ha ▸ hb.trans (List.prefix_append _ _)))
    · exact .inl (.inl (ha ▸ hb ▸ List.prefix_rfl))

theorem overlaps_symm (h : a.overlaps b = false) : b.overlaps a = false := by
  have heq : eqIgnoreAsciiCase b.pfx a.pfx = eqIgnoreAsciiCase a.pfx b.pfx := Bool.beq_comm
  rw [← h]
  simp only [ReservedPrefix.overlaps, heq, ne_comm, Bool.or_comm]

theorem feed_eq_of_covers (h : a.overlaps b = false) (ha : a.covers id = true)
    (hb : b.covers id = true) : a.feed = b.feed := by
  by_contra hne
  rcases covers_of_common ha hb with hcovers | hcovers
  · simp [ReservedPrefix.overlaps, hne, ReservedPrefix.covers, hcovers] at h
  · simp [ReservedPrefix.overlaps, hne, ReservedPrefix.covers, hcovers] at h

theorem firstOverlap_eq_none {all : List ReservedPrefix} (h : firstOverlap all = none) :
    ∀ a ∈ all, ∀ b ∈ all, a.overlaps b = false := by
  have hpairs : all.Pairwise fun a b => a.overlaps b = false := by
    induction all with
    | nil => exact .nil
    | cons a rest ih =>
      rw [firstOverlap] at h
      split at h
      next => cases h
      next hnone =>
        have hfree : ∀ b ∈ rest, a.overlaps b = false := by simpa using hnone
        exact List.pairwise_cons.mpr ⟨hfree, ih h⟩
  have hsymm : Std.Symm fun a b : ReservedPrefix => a.overlaps b = false :=
    ⟨fun _ _ h => overlaps_symm h⟩
  have hself : ∀ a ∈ all, a.overlaps a = false := by
    intro a _
    simp [ReservedPrefix.overlaps]
  intro a ha b hb
  exact hpairs.forall_of_forall hself ha hb

end Covers

section Resolved

variable {config : FeedsConfig} {feeds : List ResolvedFeed} {id : String}

/-- What is true of feeds that were resolved together. -/
structure Resolved (feeds : List ResolvedFeed) : Prop where
  ne_nil : feeds ≠ []
  names : (feeds.map (·.name)).Nodup
  elsewhere : ∀ f ∈ feeds, f.reservedElsewhere = (allReserved feeds).filter fun r => r.feed ≠ f.name
  apart : ∀ a ∈ allReserved feeds, ∀ b ∈ allReserved feeds, a.overlaps b = false

theorem resolveEach_names {seen : List String} {configs : List FeedConfig}
    (h : resolveEach config seen configs = .ok feeds) :
    (feeds.map fun f => toAsciiLowercase f.name).Nodup ∧
      (∀ f ∈ feeds, toAsciiLowercase f.name ∉ seen) ∧ feeds.length = configs.length := by
  induction configs generalizing seen feeds with
  | nil =>
    obtain rfl := Except.ok.inj h
    simp
  | cons f rest ih =>
    simp only [resolveEach, bind_eq_ok] at h
    obtain ⟨_, -, _, hnew, _, -, _, -, reserved, -, others, hothers, h⟩ := h
    obtain rfl := Except.ok.inj h
    obtain ⟨hnodup, hseen, hlength⟩ := ih hothers
    have hunseen : toAsciiLowercase f.name ∉ seen := by
      intro hmem
      simp [checkUnseen, hmem] at hnew
    refine ⟨List.nodup_cons.mpr ⟨?_, hnodup⟩, ?_, by simp [hlength]⟩
    · intro hmem
      obtain ⟨g, hg, hname⟩ := List.mem_map.mp hmem
      exact hseen g hg (hname ▸ List.mem_cons_self)
    · intro g hg
      rcases List.mem_cons.mp hg with rfl | hg
      · exact hunseen
      · exact fun hmem => hseen g hg (List.mem_cons_of_mem _ hmem)

theorem allReserved_withReserved (feeds : List ResolvedFeed) :
    allReserved (withReserved feeds) = allReserved feeds := by
  unfold allReserved withReserved
  rw [List.flatMap_map]

theorem resolved_of_ok (h : resolvedFeeds config = .ok feeds) : Resolved feeds := by
  unfold resolvedFeeds at h
  split at h
  · rw [bind_eq_ok] at h
    obtain ⟨-, -, h⟩ := h
    obtain rfl := Except.ok.inj h
    constructor <;> simp [allReserved]
  next hconfigured =>
    simp only [bind_eq_ok] at h
    obtain ⟨resolved, hresolved, _, hapart, _, -, h⟩ := h
    obtain rfl := Except.ok.inj h
    obtain ⟨hnodup, -, hlength⟩ := resolveEach_names hresolved
    constructor
    · intro hnil
      rw [withReserved, List.map_eq_nil_iff] at hnil
      rw [hnil, List.length_nil] at hlength
      exact hconfigured (by simpa using List.length_eq_zero_iff.mp hlength.symm)
    · rw [withReserved, List.map_map]
      apply List.Nodup.of_map toAsciiLowercase
      rw [List.map_map]
      exact hnodup
    · intro f hf
      obtain ⟨g, -, rfl⟩ := List.mem_map.mp hf
      rw [allReserved_withReserved]
    · rw [allReserved_withReserved]
      apply firstOverlap_eq_none
      unfold checkApart at hapart
      split at hapart
      next => cases hapart
      next hnone => exact hnone

namespace Resolved

variable (hs : Resolved feeds) {f g : ResolvedFeed}

theorem mem_allReserved {r : ReservedPrefix} :
    r ∈ allReserved feeds ↔ ∃ f ∈ feeds, r.pfx ∈ f.reservedIdPrefixes ∧ r.feed = f.name := by
  simp only [allReserved, List.mem_flatMap, List.mem_map]
  constructor
  · rintro ⟨f, hf, p, hp, rfl⟩
    exact ⟨f, hf, hp, rfl⟩
  · rintro ⟨f, hf, hp, hfeed⟩
    exact ⟨f, hf, r.pfx, hp, by rw [← hfeed]⟩

theorem exists_reserved (hf : f ∈ feeds) (h : f.reserves id = true) :
    ∃ r ∈ allReserved feeds, r.feed = f.name ∧ r.covers id = true := by
  obtain ⟨p, hp, hcovers⟩ := List.any_eq_true.mp h
  exact ⟨⟨p, f.name⟩, mem_allReserved.mpr ⟨f, hf, hp, rfl⟩, rfl, hcovers⟩

include hs

theorem eq_of_name (hf : f ∈ feeds) (hg : g ∈ feeds) (h : f.name = g.name) : f = g :=
  List.inj_on_of_nodup_map hs.names hf hg h

theorem reserved_once (hf : f ∈ feeds) (hg : g ∈ feeds) (hid : f.reserves id = true)
    (hid' : g.reserves id = true) : f = g := by
  obtain ⟨r, hr, hfeed, hcovers⟩ := exists_reserved hf hid
  obtain ⟨r', hr', hfeed', hcovers'⟩ := exists_reserved hg hid'
  apply hs.eq_of_name hf hg
  rw [← hfeed, ← hfeed']
  exact feed_eq_of_covers (hs.apart r hr r' hr') hcovers hcovers'

/-- The other feeds refuse what a feed reserved, and the feed itself does not. -/
theorem refused_iff (hf : f ∈ feeds) :
    (∃ r ∈ f.reservedElsewhere, r.covers id = true) ↔ ∃ g ∈ feeds, g ≠ f ∧ g.reserves id = true := by
  rw [hs.elsewhere f hf]
  constructor
  · rintro ⟨r, hr, hcovers⟩
    rw [List.mem_filter] at hr
    obtain ⟨g, hg, hp, hfeed⟩ := mem_allReserved.mp hr.1
    refine ⟨g, hg, ?_, List.any_eq_true.mpr ⟨r.pfx, hp, hcovers⟩⟩
    rintro rfl
    simp [hfeed] at hr
  · rintro ⟨g, hg, hne, hid⟩
    obtain ⟨r, hr, hfeed, hcovers⟩ := exists_reserved hg hid
    refine ⟨r, List.mem_filter.mpr ⟨hr, ?_⟩, hcovers⟩
    have hname : g.name ≠ f.name := fun h => hne (hs.eq_of_name hg hf h)
    simpa [hfeed] using hname

theorem exists_taking (id : String) : ∃ f ∈ feeds, ∀ r ∈ f.reservedElsewhere, r.covers id = false := by
  have htakes : ∀ f ∈ feeds, (∀ g ∈ feeds, g.reserves id = true → g = f) →
      ∀ r ∈ f.reservedElsewhere, r.covers id = false := by
    intro f hf hall r hr
    by_contra hcovers
    obtain ⟨g, hg, hne, hid⟩ := (hs.refused_iff hf).mp ⟨r, hr, by simpa using hcovers⟩
    exact hne (hall g hg hid)
  by_cases hreserved : ∃ f ∈ feeds, f.reserves id = true
  · obtain ⟨f, hf, hid⟩ := hreserved
    exact ⟨f, hf, htakes f hf fun g hg hid' => hs.reserved_once hg hf hid' hid⟩
  · obtain ⟨f, hf⟩ := List.exists_mem_of_ne_nil feeds hs.ne_nil
    exact ⟨f, hf, htakes f hf fun g hg hid' => (hreserved ⟨g, hg, hid'⟩).elim⟩

end Resolved

end Resolved

end YaNuget
