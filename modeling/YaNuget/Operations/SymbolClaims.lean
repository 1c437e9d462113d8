import YaNuget.Operations.TaskDiscipline
import YaNuget.Store.Effects

/-!
# Who owns a symbol

A symbol's row names the version that owns it, and its file holds the bytes.
Between the two, a claim awaits its bytes. A row changes only by a claim where
there is none, by the removal of the symbols of its owner, or by the undoing of
a claim.
-/
namespace YaNuget

open Concurrency Op

variable {T : Type} {host : Host}

namespace Database

variable (db : Database) (k : VersionKey) (s : SymbolKey)

theorem findSymbol_eq_some : db.findSymbol s = some k ↔ (s, k) ∈ db.symbols := by
  unfold findSymbol
  constructor
  · intro h
    obtain ⟨e, he, rfl⟩ := Option.map_eq_some_iff.mp h
    have hkey : e.1 = s := by simpa using List.find?_some he
    exact hkey ▸ List.mem_of_find?_eq_some he
  · intro h
    cases hfound : db.symbols.find? fun e => e.1 = s with
    | none => simpa using List.find?_eq_none.mp hfound _ h
    | some e =>
      have hkey : e.1 = s := by simpa using List.find?_some hfound
      have hsame := List.inj_on_of_nodup_map db.symbols_nodup (List.mem_of_find?_eq_some hfound) h
        hkey
      simp [hsame]

theorem mem_findSymbols : s ∈ db.findSymbols k ↔ db.findSymbol s = some k := by
  rw [findSymbol_eq_some]
  simp [findSymbols]

theorem findSymbol_deleteSymbol {s' : SymbolKey} : (db.deleteSymbol s').findSymbol s = some k ↔
    db.findSymbol s = some k ∧ s ≠ s' := by
  rw [findSymbol_eq_some, findSymbol_eq_some]
  simp [deleteSymbol]

end Database

/-- What a call says of whether the claim on a symbol still awaits its bytes. -/
def seesClaim (s : SymbolKey) : (c : Call) → c.Answer → Bool → Option Bool
  | .db (.addSymbol s' _), .ok true, _ => if s' = s then some true else none
  | .db (.deleteSymbol s'), _, _ => if s' = s then some false else none
  | .storage (.storeSymbolFile s' _), _, false => if s' = s then some false else none
  | _, _, _ => none

def awaits (s : SymbolKey) : List (StoreEvent T) → Bool
  | [] => false
  | e :: past => (seesClaim s e.call e.answer e.choice).getD (awaits s past)

def Call.purgesSymbols (k : VersionKey) : Call → Prop
  | .db (.findSymbols k') | .db (.deleteSymbols k') | .db (.deletePackageData k') => k' = k
  | _ => False

/-- The version whose symbols the task pushes. -/
def Task.symbolVersion : Task host → Option VersionKey
  | .pushSymbols _ bytes =>
    (host.symbols.readSymbols bytes).toOption.map fun a => versionKey a.id a.normalized
  | _ => none

section Standing

variable (tasks : T → Task host) (k : VersionKey) (s : SymbolKey) (bytes : Content)

/-- A push of the symbols of version `k` itself stores other bytes under the key. -/
def Replaces (e : StoreEvent T) : Prop :=
  (tasks e.thread).symbolVersion = some k ∧ e.choice = false ∧
    ∃ other ≠ bytes, e.call = .storage (.storeSymbolFile s other)

/-- A symbol push for version `k` has verified these bytes under the key and
succeeded, and since then the version's symbols have not been purged, nor has a
push of its own replaced the bytes. -/
def Standing : List (StoreEvent T) → Prop
  | [] => False
  | e :: past => (∃ verified, e.call = .symbolsIndexed k verified ∧ (s, bytes) ∈ verified) ∨
      (¬ e.call.purgesSymbols k ∧ ¬ Replaces tasks k s bytes e ∧ Standing past)

instance (c : Call) : Decidable (c.purgesSymbols k) := by
  cases c with
  | db q => cases q <;> first | exact inferInstanceAs (Decidable (_ = k)) | exact isFalse id
  | _ => exact isFalse id

instance (c : Call) : Decidable (∃ verified, c = .symbolsIndexed k verified ∧
    (s, bytes) ∈ verified) := by
  cases c with
  | symbolsIndexed k' verified =>
    exact decidable_of_iff (k' = k ∧ (s, bytes) ∈ verified) ⟨fun ⟨hk, hmem⟩ =>
      ⟨verified, by rw [hk], hmem⟩, fun ⟨_, hc, hmem⟩ => by
        obtain ⟨rfl, rfl⟩ := Call.symbolsIndexed.inj hc
        exact ⟨rfl, hmem⟩⟩
  | _ => exact isFalse (by simp)

instance (c : Call) : Decidable (∃ other ≠ bytes, c = .storage (.storeSymbolFile s other)) := by
  cases c with
  | storage q =>
    cases q with
    | storeSymbolFile s' other =>
      exact decidable_of_iff (s' = s ∧ other ≠ bytes) ⟨fun ⟨hs, hne⟩ => ⟨other, hne, by rw [hs]⟩,
        fun ⟨_, hne, hc⟩ => by
          obtain ⟨rfl, rfl⟩ := StorageCall.storeSymbolFile.inj (Call.storage.inj hc)
          exact ⟨rfl, hne⟩⟩
    | _ => exact isFalse (by simp)
  | _ => exact isFalse (by simp)

instance (e : StoreEvent T) : Decidable (Replaces tasks k s bytes e) :=
  inferInstanceAs (Decidable (_ ∧ _))

instance decidableStanding : (past : List (StoreEvent T)) →
    Decidable (Standing tasks k s bytes past)
  | [] => inferInstanceAs (Decidable False)
  | e :: past =>
    have := decidableStanding past
    inferInstanceAs (Decidable ((∃ verified, e.call = .symbolsIndexed k verified ∧
      (s, bytes) ∈ verified) ∨ (¬ e.call.purgesSymbols k ∧ ¬ Replaces tasks k s bytes e ∧
        Standing tasks k s bytes past)))

end Standing

section Effects

variable {db : Database} {q : DbCall} {k : VersionKey} {s : SymbolKey}

theorem Database.findSymbol_filter (db db' : Database)
    (h : db'.symbols = db.symbols.filter fun e => e.2 ≠ k) :
    db'.findSymbol s = db.findSymbol s ∧ db.findSymbol s ≠ some k ∨
      db.findSymbol s = some k ∧ db'.findSymbol s = none := by
  have hmem (owner : VersionKey) :
      db'.findSymbol s = some owner ↔ db.findSymbol s = some owner ∧ owner ≠ k := by
    rw [findSymbol_eq_some, findSymbol_eq_some, h]
    simp
  by_cases howner : db.findSymbol s = some k
  · refine Or.inr ⟨howner, Option.eq_none_iff_forall_ne_some.mpr fun owner howner' => ?_⟩
    obtain ⟨hsame, hne⟩ := (hmem owner).mp howner'
    exact hne (Option.some.inj (hsame.symm.trans howner))
  · refine Or.inl ⟨Option.ext fun owner => ?_, howner⟩
    rw [hmem]
    exact ⟨fun h => h.1, fun h => ⟨h, fun hk => howner (hk ▸ h)⟩⟩

/-- How a query may change the owner of a symbol. -/
theorem DbCall.findSymbol_run (s : SymbolKey) :
    (q.run db).2.findSymbol s = db.findSymbol s ∨
      (∃ k, (q = .deleteSymbols k ∨ q = .deletePackageData k) ∧ db.findSymbol s = some k ∧
        (q.run db).2.findSymbol s = none) ∨
      (q = .deleteSymbol s ∧ (q.run db).2.findSymbol s = none) ∨
      ∃ k, q = .addSymbol s k ∧ db.findSymbol s = none ∧
        (q.run db).2.findSymbol s = some k := by
  have same (h : (q.run db).2.symbols = db.symbols) :
      (q.run db).2.findSymbol s = db.findSymbol s := by
    unfold Database.findSymbol
    rw [h]
  cases q with
  | deleteSymbols k =>
    rcases Database.findSymbol_filter (s := s) db (db.deleteSymbols k).2 rfl with ⟨h, -⟩ | h
    · exact Or.inl h
    · exact Or.inr (Or.inl ⟨k, Or.inl rfl, h⟩)
  | deletePackageData k =>
    by_cases hp : (db.packages.row k).isSome
    · rcases Database.findSymbol_filter (s := s) (k := k) db
          (db.deletePackageData k).2 (by simp [Database.deletePackageData, hp]) with ⟨h, -⟩ | h
      · exact Or.inl h
      · exact Or.inr (Or.inl ⟨k, Or.inr rfl, h⟩)
    · exact Or.inl (same (by simp [run, Database.deletePackageData, hp]))
  | deleteSymbol s' =>
    by_cases hs : s' = s
    · subst hs
      refine Or.inr (Or.inr (Or.inl ⟨rfl, Option.eq_none_iff_forall_ne_some.mpr ?_⟩))
      intro owner howner
      exact ((db.findSymbol_deleteSymbol owner s').mp howner).2 rfl
    · exact Or.inl (Option.ext fun owner => by
        rw [run, Database.findSymbol_deleteSymbol]
        exact and_iff_left (Ne.symm hs))
  | addSymbol s' k =>
    rcases db.addSymbol_cases k s' with ⟨e, he⟩ | ⟨-, he⟩ | ⟨db', he, hnone, -, -, -, -, -, hsymbols⟩
    · exact Or.inl (same (by simp [run, he]))
    · exact Or.inl (same (by simp [run, he]))
    · have hrun : ((addSymbol s' k).run db).2 = db' := by simp [run, he]
      rw [hrun]
      by_cases hs : s' = s
      · subst hs
        refine Or.inr (Or.inr (Or.inr ⟨k, rfl, hnone, ?_⟩))
        rw [Database.findSymbol_eq_some, hsymbols]
        exact List.mem_cons_self
      · refine Or.inl ?_
        unfold Database.findSymbol
        rw [hsymbols, List.find?_cons_of_neg (by simpa using hs)]
  | addVersion p f m =>
    rcases db.addVersion_cases f p m with ⟨e, he⟩ | ⟨_, db', he, -, -, -, kept⟩
    · exact Or.inl (same (by simp [run, he]))
    · exact Or.inl (same (by simp [run, he, kept.symbols]))
  | replacePendingVersion p f m dropFiles others =>
    rcases db.replacePendingVersion_cases f p m dropFiles others with
      ⟨e, he⟩ | ⟨_, db', he, -, -, -, -, hsymbols, -⟩
    · exact Or.inl (same (by simp [run, he]))
    · exact Or.inl (same (by simp [run, he, hsymbols]))
  | addMembership f k m =>
    rcases db.insertMembership_cases f k m with ⟨e, he⟩ | ⟨_, he, -⟩
    · exact Or.inl (same (by simp [run, he]))
    · exact Or.inl (same (by simp [run, he]; rfl))
  | removeMembershipForGood f k =>
    refine Or.inl (same ?_)
    simp only [run, Database.removeMembershipForGood]
    split_ifs <;> rfl
  | updateMemberships f ks change =>
    rcases db.updateMemberships_cases f ks change with ⟨e, he⟩ | ⟨_, db', he, -, kept, -⟩
    · exact Or.inl (same (by simp [run, he]))
    · exact Or.inl (same (by simp [run, he, kept.symbols]))
  | renameFeed src dst hold =>
    refine Or.inl (same ?_)
    simp only [run, Database.renameFeed]
    split_ifs <;> rfl
  | addFile k file =>
    rcases db.addFile_cases k file with ⟨e, he⟩ | ⟨db', he, -, -, -, -, hsymbols, -⟩
    · exact Or.inl (same (by simp [run, he]))
    · exact Or.inl (same (by simp [run, he, hsymbols]))
  | _ => exact Or.inl (same rfl)

theorem StorageCall.symbolFiles_run {c : StorageCall} {files : Storage} (s : SymbolKey) :
    (c.run files).2.symbolFiles s = files.symbolFiles s ∨
      (c = .deleteSymbol s ∧ (c.run files).2.symbolFiles s = none) ∨
      ∃ bytes, c = .storeSymbolFile s bytes ∧ (c.run files).2.symbolFiles s = some bytes := by
  cases c with
  | deleteSymbol s' =>
    by_cases hs : s' = s
    · subst hs
      exact Or.inr (Or.inl ⟨rfl, Function.update_self ..⟩)
    · exact Or.inl (Function.update_of_ne (Ne.symm hs) ..)
  | storeSymbolFile s' bytes =>
    by_cases hs : s' = s
    · subst hs
      exact Or.inr (Or.inr ⟨bytes, rfl, Function.update_self ..⟩)
    · exact Or.inl (Function.update_of_ne (Ne.symm hs) ..)
  | hardLink k =>
    simp only [run]
    split <;> exact Or.inl rfl
  | getAux k kind =>
    simp only [run]
    split <;> exact Or.inl rfl
  | storeBlob sha bytes =>
    simp only [run]
    split_ifs <;> exact Or.inl rfl
  | _ => exact Or.inl rfl

variable [DecidableEq T] {t : T} {c : Call} {o : Bool} {w w' : StoreWorld T} {r : c.Answer}

theorem owner_of_perform (hp : (server T).perform t c o w = some (r, w')) (s : SymbolKey) :
    w'.state.db.findSymbol s = w.state.db.findSymbol s ∨
      (∃ k, (c = .db (.deleteSymbols k) ∨ c = .db (.deletePackageData k)) ∧
        w.state.db.findSymbol s = some k ∧ w'.state.db.findSymbol s = none) ∨
      (c = .db (.deleteSymbol s) ∧ w'.state.db.findSymbol s = none) ∨
      ∃ k, c = .db (.addSymbol s k) ∧ w.state.db.findSymbol s = none ∧
        w'.state.db.findSymbol s = some k := by
  rw [(Store.exec_files ((server T).perform_eq_some.mp hp).1).1]
  cases c with
  | db q =>
    cases o with
    | true => exact Or.inl rfl
    | false => simpa [Call.dbAfter] using q.findSymbol_run s
  | _ => exact Or.inl rfl

theorem symbolFile_of_perform (hp : (server T).perform t c o w = some (r, w')) (s : SymbolKey) :
    w'.state.storage.symbolFiles s = w.state.storage.symbolFiles s ∨
      (c = .storage (.deleteSymbol s) ∧ o = false ∧ w'.state.storage.symbolFiles s = none) ∨
      ∃ bytes, c = .storage (.storeSymbolFile s bytes) ∧ o = false ∧
        w'.state.storage.symbolFiles s = some bytes := by
  rw [(Store.exec_files ((server T).perform_eq_some.mp hp).1).2]
  cases c with
  | storage q =>
    cases o with
    | true => exact Or.inl rfl
    | false => simpa [Call.storageAfter] using q.symbolFiles_run s
  | _ => exact Or.inl rfl

theorem addSymbol_true {s : SymbolKey} {r : (Call.db (.addSymbol s k)).Answer}
    (hp : (server T).perform t (.db (.addSymbol s k)) o w = some (r, w')) (hr : r = .ok true) :
    w.state.db.findSymbol s = none ∧ w'.state.db.findSymbol s = some k := by
  subst hr
  rcases Store.exec_query (t := t) ((server T).perform_eq_some.mp hp).1 with ⟨hr, -⟩ | ⟨hr, hs⟩
  · simp at hr
  · rw [hs]
    rcases w.state.db.addSymbol_cases k s with
      ⟨e, he⟩ | ⟨-, he⟩ | ⟨db', he, hnone, -, -, -, -, -, hsymbols⟩
    · simp [DbCall.run, he] at hr
    · simp [DbCall.run, he] at hr
    · refine ⟨hnone, ?_⟩
      rw [Database.findSymbol_eq_some]
      simp [DbCall.run, he, hsymbols]

/-- A claim is made, or nothing about symbols changes. -/
theorem addSymbol_of_perform {s : SymbolKey} {r : (Call.db (.addSymbol s k)).Answer}
    (hp : (server T).perform t (.db (.addSymbol s k)) o w = some (r, w')) :
    (r = .ok true ∧ w.state.db.findSymbol s = none ∧ w'.state.db.findSymbol s = some k ∧
      awaits s w'.past = true) ∨
    (r ≠ .ok true ∧ w'.state = w.state ∧ ∀ s', awaits s' w'.past = awaits s' w.past) := by
  have hpast := ((server T).perform_eq_some.mp hp).2
  by_cases hr : r = .ok true
  · obtain ⟨hnone, hclaimed⟩ := addSymbol_true hp hr
    refine Or.inl ⟨hr, hnone, hclaimed, ?_⟩
    subst hr
    simp [hpast, awaits, seesClaim]
  · refine Or.inr ⟨hr, ?_, fun s' => ?_⟩
    · rcases Store.exec_query (t := t) ((server T).perform_eq_some.mp hp).1 with ⟨-, hs⟩ | ⟨hr', hs⟩
      · exact hs
      · rw [hs]
        rcases w.state.db.addSymbol_cases k s with ⟨e, he⟩ | ⟨-, he⟩ | ⟨db', he, -⟩
        · simp [DbCall.run, he]
        · simp [DbCall.run, he]
        · exact (hr (by simp [hr', DbCall.run, he])).elim
    · rw [hpast, awaits]
      rcases r with e | added
      · rfl
      · cases added with
        | false => rfl
        | true => exact (hr rfl).elim

theorem awaits_of_perform (hp : (server T).perform t c o w = some (r, w')) (s : SymbolKey) :
    awaits s w'.past = awaits s w.past ∨
      (∃ k, c = .db (.addSymbol s k) ∧ w.state.db.findSymbol s = none ∧
        w'.state.db.findSymbol s = some k) ∨
      (c = .db (.deleteSymbol s) ∧ awaits s w'.past = false) ∨
      ∃ bytes, c = .storage (.storeSymbolFile s bytes) ∧ o = false ∧
        awaits s w'.past = false := by
  rw [((server T).perform_eq_some.mp hp).2, awaits]
  cases c with
  | db q =>
    cases q with
    | addSymbol s' k =>
      rcases r with e | added
      · exact Or.inl rfl
      · cases added with
        | false => exact Or.inl rfl
        | true =>
          by_cases hs : s' = s
          · subst hs
            exact Or.inr (Or.inl ⟨k, rfl, addSymbol_true hp rfl⟩)
          · exact Or.inl (by simp [seesClaim, hs])
    | deleteSymbol s' =>
      by_cases hs : s' = s
      · subst hs
        exact Or.inr (Or.inr (Or.inl ⟨rfl, by simp [seesClaim]⟩))
      · exact Or.inl (by simp [seesClaim, hs])
    | _ => exact Or.inl rfl
  | storage q =>
    cases q with
    | storeSymbolFile s' bytes =>
      cases o with
      | true => exact Or.inl rfl
      | false =>
        by_cases hs : s' = s
        · subst hs
          exact Or.inr (Or.inr (Or.inr ⟨bytes, rfl, rfl, by simp [seesClaim]⟩))
        · exact Or.inl (by simp [seesClaim, hs])
    | _ => exact Or.inl rfl
  | _ => exact Or.inl rfl

end Effects

end YaNuget
