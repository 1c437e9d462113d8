import YaNuget.Data.Sorting

/-!
# Chunks of a sorted list

A sorted list is cut by position into chunks of one size. A chunk can also be
asked for by its first and its last item, as all items between them. That gives
the chunk and nothing else where no items that are equal stand on both sides of
a cut.
-/
namespace YaNuget.Sorting

open Std

section Chunks

variable {α : Type} (n : ℕ) (l : List α)

def chunkAt (i : ℕ) : List α := (l.drop (n * i)).take n

/-- `l` in chunks of `n` items, of which the last may be shorter. -/
def chunks : List (List α) := (List.range ((l.length + n - 1) / n)).map (chunkAt n l)

theorem flatten_map_chunkAt (m : ℕ) :
    ((List.range m).map (chunkAt n l)).flatten = l.take (n * m) := by
  induction m with
  | zero => simp
  | succ m ih =>
    rw [List.range_succ, List.map_append, List.flatten_append, ih, Nat.mul_succ, List.take_add]
    simp [chunkAt]

variable {n l}

theorem length_le_mul_count (hn : 0 < n) : l.length ≤ n * ((l.length + n - 1) / n) := by
  have hdiv := Nat.div_add_mod (l.length + n - 1) n
  have hmod := Nat.mod_lt (l.length + n - 1) hn
  omega

theorem flatten_chunks (hn : 0 < n) : (chunks n l).flatten = l := by
  rw [chunks, flatten_map_chunkAt, List.take_of_length_le (length_le_mul_count hn)]

theorem lt_count_iff (hn : 0 < n) {i : ℕ} : i < (l.length + n - 1) / n ↔ n * i < l.length := by
  rw [Nat.lt_iff_add_one_le, Nat.le_div_iff_mul_le hn, Nat.add_one_mul, Nat.mul_comm]
  omega

theorem length_chunkAt (i : ℕ) : (chunkAt n l i).length = min n (l.length - n * i) := by
  simp [chunkAt]

theorem head?_chunkAt (hn : 0 < n) (i : ℕ) : (chunkAt n l i).head? = l[n * i]? := by
  rw [chunkAt, List.head?_take, if_neg (by omega), List.head?_drop]

theorem split_chunkAt (i : ℕ) :
    l = l.take (n * i) ++ (chunkAt n l i ++ l.drop (n * (i + 1))) := by
  have hdrop : l.drop (n * (i + 1)) = (l.drop (n * i)).drop n := by
    rw [List.drop_drop, Nat.mul_succ]
  rw [hdrop, chunkAt, List.take_append_drop, List.take_append_drop]

end Chunks

variable {α : Type} {cmp : α → α → Ordering} [TransCmp cmp]

/-- Whether `x` is one of the items from `a` to `b`. -/
def between (cmp : α → α → Ordering) (a b x : α) : Bool := (cmp a x).isLE && (cmp x b).isLE

section Between

variable {pre mid post : List α} {a b x : α}

theorem le_of_head? {l : List α} (h : l.Pairwise (Le cmp)) (ha : l.head? = some a) :
    ∀ x ∈ l, Le cmp a x := by
  cases l with
  | nil => cases ha
  | cons c l =>
    obtain rfl : c = a := by simpa using ha
    obtain ⟨hc, -⟩ := List.pairwise_cons.mp h
    intro x hx
    rcases List.mem_cons.mp hx with rfl | hx
    · exact ReflCmp.isLE_rfl
    · exact hc x hx

theorem le_of_getLast? {l : List α} (h : l.Pairwise (Le cmp)) (hb : l.getLast? = some b) :
    ∀ x ∈ l, Le cmp x b := by
  obtain ⟨init, rfl⟩ := List.getLast?_eq_some_iff.mp hb
  obtain ⟨-, -, hinit⟩ := List.pairwise_append.mp h
  intro x hx
  rcases List.mem_append.mp hx with hx | hx
  · exact hinit x hx b (by simp)
  · obtain rfl : x = b := by simpa using hx
    exact ReflCmp.isLE_rfl

theorem eq_of_le_of_le {x y : α} (h : Le cmp x y) (h' : Le cmp y x) : cmp x y = .eq := by
  have hswap : cmp y x = (cmp x y).swap := OrientedCmp.eq_swap
  simp only [Le, hswap] at h h'
  cases hcmp : cmp x y <;> simp_all

omit [TransCmp cmp] in
theorem lt_iff_of_le {x y : α} (h : Le cmp x y) : cmp x y = .lt ↔ cmp x y ≠ .eq := by
  simp only [Le] at h
  cases hcmp : cmp x y <;> simp_all

/-- The items from the first to the last one of a stretch are that many only if those before
and behind it are not equal to its ends. -/
theorem length_filter_between (h : (pre ++ (mid ++ post)).Pairwise (Le cmp))
    (ha : mid.head? = some a) (hb : mid.getLast? = some b) :
    ((pre ++ (mid ++ post)).filter (between cmp a b)).length = mid.length ↔
      (∀ x ∈ pre, cmp x a = .lt) ∧ ∀ x ∈ post, cmp b x = .lt := by
  obtain ⟨-, hrest, hpre⟩ := List.pairwise_append.mp h
  obtain ⟨hmid, -, hpost⟩ := List.pairwise_append.mp hrest
  have hamem : a ∈ mid := List.mem_of_head? ha
  have hbmem : b ∈ mid := List.mem_of_getLast? hb
  have hab : Le cmp a b := le_of_head? hmid ha b hbmem
  have hall : mid.filter (between cmp a b) = mid := by
    rw [List.filter_eq_self]
    intro x hx
    have h1 := le_of_head? hmid ha x hx
    have h2 := le_of_getLast? hmid hb x hx
    simp only [Le] at h1 h2
    simp [between, h1, h2]
  have hbefore : ∀ x ∈ pre, (between cmp a b x = false ↔ cmp x a = .lt) := by
    intro x hx
    have hxa : Le cmp x a := hpre x hx a (List.mem_append_left _ hamem)
    have hxb : (cmp x b).isLE = true := TransCmp.isLE_trans hxa hab
    rw [lt_iff_of_le hxa]
    constructor
    · intro hnot heq
      have hax : (cmp a x).isLE := by simp [OrientedCmp.eq_symm heq]
      simp [between, hxb, hax] at hnot
    · intro hne
      cases hax : (cmp a x).isLE with
      | true => exact absurd (eq_of_le_of_le hxa hax) hne
      | false => simp [between, hax]
  have hbehind : ∀ x ∈ post, (between cmp a b x = false ↔ cmp b x = .lt) := by
    intro x hx
    have hbx : Le cmp b x := hpost b hbmem x hx
    have hax : (cmp a x).isLE = true := TransCmp.isLE_trans hab hbx
    rw [lt_iff_of_le hbx]
    constructor
    · intro hnot heq
      have hxb : (cmp x b).isLE := by simp [OrientedCmp.eq_symm heq]
      simp [between, hxb, hax] at hnot
    · intro hne
      cases hxb : (cmp x b).isLE with
      | true => exact absurd (eq_of_le_of_le hbx hxb) hne
      | false => simp [between, hxb]
  rw [List.filter_append, List.filter_append, hall, List.length_append, List.length_append]
  have hnil : ∀ l : List α, (l.filter (between cmp a b)).length = 0 ↔
      ∀ x ∈ l, between cmp a b x = false := by
    intro l
    rw [List.length_eq_zero_iff, List.filter_eq_nil_iff]
    simp
  constructor
  · intro hlen
    have h0 := (hnil pre).mp (by omega)
    have h1 := (hnil post).mp (by omega)
    exact ⟨fun x hx => (hbefore x hx).mp (h0 x hx), fun x hx => (hbehind x hx).mp (h1 x hx)⟩
  · rintro ⟨h0, h1⟩
    have h0 := (hnil pre).mpr fun x hx => (hbefore x hx).mpr (h0 x hx)
    have h1 := (hnil post).mpr fun x hx => (hbehind x hx).mpr (h1 x hx)
    omega

end Between

section Ends

variable {l : List α} {a : α}

/-- A sorted list of items that come no earlier than `a` begins with the first equal to it. -/
theorem head?_eq_ties (h : l.Pairwise (Le cmp)) (hle : ∀ x ∈ l, Le cmp a x)
    (hne : ties cmp a l ≠ []) : l.head? = (ties cmp a l).head? := by
  cases l with
  | nil => exact absurd rfl hne
  | cons c l =>
    obtain ⟨t, ht⟩ := List.exists_mem_of_ne_nil _ hne
    obtain ⟨htl, htie⟩ := List.mem_filter.mp ht
    have hct : Le cmp c t := le_of_head? h rfl t htl
    have hta : cmp t a = .eq := OrientedCmp.eq_symm (by simpa using htie)
    have hca : Le cmp c a := TransCmp.isLE_trans hct (by simp [hta])
    have heq : cmp a c = .eq := eq_of_le_of_le (hle c (by simp)) hca
    rw [ties, List.filter_cons_of_pos (by simp [heq])]
    rfl

/-- A sorted list of items that come no later than `a` ends with the last equal to it. -/
theorem getLast?_eq_ties (h : l.Pairwise (Le cmp)) (hle : ∀ x ∈ l, Le cmp x a)
    (hne : ties cmp a l ≠ []) : l.getLast? = (ties cmp a l).getLast? := by
  rcases List.eq_nil_or_concat l with rfl | ⟨init, c, rfl⟩
  · exact absurd rfl hne
  · obtain ⟨t, ht⟩ := List.exists_mem_of_ne_nil _ hne
    obtain ⟨htl, htie⟩ := List.mem_filter.mp ht
    have htc : Le cmp t c := le_of_getLast? h (by simp) t htl
    have hat : cmp a t = .eq := by simpa using htie
    have hac : Le cmp a c := TransCmp.isLE_trans (by simp [hat]) htc
    have heq : cmp a c = .eq := eq_of_le_of_le hac (hle c (by simp))
    rw [ties, List.concat_eq_append, List.filter_append, List.filter_cons_of_pos (by simp [heq])]
    simp

end Ends

section Cuts

variable {l : List α} {n : ℕ}

/-- Nowhere do items that are equal stand on both sides of a cut. -/
def Uncut (cmp : α → α → Ordering) (n : ℕ) (l : List α) : Prop :=
  ∀ a ∈ l, ∀ k, ¬ (before cmp a l < n * k ∧ n * k < before cmp a l + (ties cmp a l).length)

/-- The items on both sides of every cut of a sorted list are not equal. -/
theorem uncut_iff (h : l.Pairwise (Le cmp)) :
    Uncut cmp n l ↔ ∀ k x y, 0 < n * k → l[n * k - 1]? = some x → l[n * k]? = some y →
      cmp x y = .lt := by
  constructor
  · intro huncut k x y hk hx hy
    have hle : Le cmp x y := by
      obtain ⟨hi, rfl⟩ := List.getElem?_eq_some_iff.mp hx
      obtain ⟨hj, rfl⟩ := List.getElem?_eq_some_iff.mp hy
      exact List.pairwise_iff_getElem.mp h _ _ hi hj (by omega)
    rw [lt_iff_of_le hle]
    intro heq
    have hstart := ((eq_iff_position h hx).mp ReflCmp.compare_self).1
    have hend := ((eq_iff_position h hy).mp heq).2
    exact huncut x (List.mem_of_getElem? hx) k (by omega)
  · rintro hcuts a _ k ⟨hlt, hgt⟩
    have hat : ∀ i, before cmp a l ≤ i → i < before cmp a l + (ties cmp a l).length →
        ∃ x, l[i]? = some x ∧ cmp a x = .eq := by
      intro i hi hi'
      have hget := getElem?_before_add h (i := i - before cmp a l) (a := a) (by omega)
      have hsome : i - before cmp a l < (ties cmp a l).length := by omega
      rw [Nat.add_sub_cancel' hi, List.getElem?_eq_getElem hsome] at hget
      exact ⟨_, hget, (eq_iff_position h hget).mpr ⟨hi, hi'⟩⟩
    obtain ⟨x, hx, hax⟩ := hat (n * k - 1) (by omega) (by omega)
    obtain ⟨y, hy, hay⟩ := hat (n * k) (by omega) hgt
    have hxy := hcuts k x y (by omega) hx hy
    have heq : cmp x y = .eq := TransCmp.eq_trans (OrientedCmp.eq_symm hax) hay
    rw [heq] at hxy
    cases hxy

theorem getLast?_chunkAt (hn : 0 < n) {i : ℕ} (hi : n * i < l.length) :
    (chunkAt n l i).getLast? = l[min (n * (i + 1)) l.length - 1]? := by
  rw [List.getLast?_eq_getElem?, length_chunkAt, chunkAt,
    List.getElem?_take_of_lt (by omega), List.getElem?_drop, Nat.mul_succ]
  congr 1
  omega

/-- All items from the first to the last of a chunk are the chunk, for each chunk, only where no
cut parts items that are equal. -/
theorem uncut_iff_chunks (hn : 0 < n) (h : l.Pairwise (Le cmp)) :
    Uncut cmp n l ↔ ∀ i a b, (chunkAt n l i).head? = some a →
      (chunkAt n l i).getLast? = some b →
      (l.filter (between cmp a b)).length = (chunkAt n l i).length := by
  have hlength : ∀ i a b, (chunkAt n l i).head? = some a → (chunkAt n l i).getLast? = some b →
      ((l.filter (between cmp a b)).length = (chunkAt n l i).length ↔
        (∀ x ∈ l.take (n * i), cmp x a = .lt) ∧ ∀ x ∈ l.drop (n * (i + 1)), cmp b x = .lt) := by
    intro i a b ha hb
    have hsplit := split_chunkAt (n := n) (l := l) i
    have hlen := length_filter_between (hsplit ▸ h) ha hb
    rwa [← hsplit] at hlen
  rw [uncut_iff h]
  constructor
  · intro hcuts i a b ha hb
    rw [hlength i a b ha hb]
    rw [head?_chunkAt hn] at ha
    obtain ⟨hi, ha'⟩ := List.getElem?_eq_some_iff.mp ha
    rw [getLast?_chunkAt hn hi] at hb
    constructor
    · intro x hx
      obtain ⟨j, hj, rfl⟩ := List.mem_take_iff_getElem.mp hx
      have hcut := hcuts i l[n * i - 1] a (by omega) (List.getElem?_eq_getElem (by omega)) ha
      have hle : Le cmp l[j] l[n * i - 1] := by
        rcases Nat.lt_or_ge j (n * i - 1) with hlt | hge
        · exact List.pairwise_iff_getElem.mp h _ _ _ _ hlt
        · obtain rfl : j = n * i - 1 := by omega
          exact ReflCmp.isLE_rfl
      exact TransCmp.lt_of_isLE_of_lt hle hcut
    · intro x hx
      obtain ⟨j, hj, rfl⟩ := List.mem_drop_iff_getElem.mp hx
      rw [Nat.min_eq_left (by omega)] at hb
      have hcut := hcuts (i + 1) b l[n * (i + 1)] (Nat.mul_pos hn i.succ_pos) hb
        (List.getElem?_eq_getElem (by omega))
      have hle : Le cmp l[n * (i + 1)] l[n * (i + 1) + j] := by
        rcases Nat.eq_zero_or_pos j with rfl | hpos
        · exact ReflCmp.isLE_rfl
        · exact List.pairwise_iff_getElem.mp h _ _ _ _ (Nat.lt_add_of_pos_right hpos)
      exact TransCmp.lt_of_lt_of_isLE hcut hle
  · intro hchunks k x y hk hx hy
    obtain ⟨hi, -⟩ := List.getElem?_eq_some_iff.mp hy
    have hlast := getLast?_chunkAt hn hi
    rw [List.getElem?_eq_getElem (by omega)] at hlast
    have hhead : (chunkAt n l k).head? = some y := by rw [head?_chunkAt hn, hy]
    have hbefore := ((hlength k y _ hhead hlast).mp (hchunks k y _ hhead hlast)).1
    apply hbefore
    rw [List.mem_take_iff_getElem]
    obtain ⟨hj, rfl⟩ := List.getElem?_eq_some_iff.mp hx
    exact ⟨n * k - 1, by omega, rfl⟩

omit [TransCmp cmp] in
theorem before_perm {l l' : List α} (h : l.Perm l') (a : α) : before cmp a l = before cmp a l' :=
  h.countP_eq _

omit [TransCmp cmp] in
theorem length_ties_perm {l l' : List α} (h : l.Perm l') (a : α) :
    (ties cmp a l).length = (ties cmp a l').length := (h.filter _).length_eq

omit [TransCmp cmp] in
theorem Uncut.perm {l' : List α} (h : l.Perm l') (huncut : Uncut cmp n l) : Uncut cmp n l' := by
  intro a ha k
  rw [← before_perm h, ← length_ties_perm h]
  exact huncut a (h.mem_iff.mpr ha) k

omit [TransCmp cmp] in
theorem before_sortBy (a : α) (l : List α) : before cmp a (sortBy cmp l) = before cmp a l :=
  before_perm (perm_sortBy l) a

omit [TransCmp cmp] in
theorem length_sortBy (l : List α) : (sortBy cmp l).length = l.length :=
  (perm_sortBy l).length_eq

theorem ties_ne_nil {a : α} (h : a ∈ l) : ties cmp a l ≠ [] :=
  List.ne_nil_of_mem (List.mem_filter.mpr ⟨h, by simp [ReflCmp.compare_self]⟩)

/-- The first of the items equal to `a` stands right behind those before `a`. -/
theorem getElem?_before {a : α} (h : l.Pairwise (Le cmp)) (ha : a ∈ l) :
    l[before cmp a l]? = (ties cmp a l).head? := by
  have hne : ties cmp a l ≠ [] := ties_ne_nil ha
  have hpos := List.length_pos_of_ne_nil hne
  rw [List.head?_eq_getElem?]
  exact getElem?_before_add h hpos

theorem getElem?_behind {a : α} (h : l.Pairwise (Le cmp)) (ha : a ∈ l) :
    l[before cmp a l + (ties cmp a l).length - 1]? = (ties cmp a l).getLast? := by
  have hne : ties cmp a l ≠ [] := ties_ne_nil ha
  have hpos := List.length_pos_of_ne_nil hne
  rw [List.getLast?_eq_getElem?, ← getElem?_before_add h (by omega)]
  congr 1
  omega

omit [TransCmp cmp] in
theorem tie_of_head? {a c : α} (h : (ties cmp a l).head? = some c) : cmp a c = .eq := by
  simpa using (List.mem_filter.mp (List.mem_of_head? h)).2

omit [TransCmp cmp] in
theorem tie_of_getLast? {a c : α} (h : (ties cmp a l).getLast? = some c) : cmp a c = .eq := by
  simpa using (List.mem_filter.mp (List.mem_of_getLast? h)).2

/-- Where no cut parts equal items, a chunk begins with the first of some that are equal. -/
theorem Uncut.first_iff (hn : 0 < n) (h : l.Pairwise (Le cmp)) (huncut : Uncut cmp n l)
    (rows : ℕ → List α) :
    (∀ a ∈ l, ∀ i, before cmp a l = n * i →
      (ties cmp a (rows i)).head? = (ties cmp a l).head?) ↔
    ∀ i c, (chunkAt n l i).head? = some c → (ties cmp c (rows i)).head? = some c := by
  constructor
  · intro hsame i c hc
    rw [head?_chunkAt hn] at hc
    have hmem := List.mem_of_getElem? hc
    have hle := before_le h hc
    have hlt := lt_before_add_ties h hc
    have hbefore : before cmp c l = n * i := by
      have hcut := huncut c hmem i
      omega
    rw [hsame c hmem i hbefore, ← getElem?_before h hmem, hbefore, hc]
  · intro hchunks a ha i hbefore
    have hget := getElem?_before h ha
    cases hfirst : (ties cmp a l).head? with
    | none => exact absurd (List.head?_eq_none_iff.mp hfirst) (ties_ne_nil ha)
    | some c =>
      rw [hfirst, hbefore, ← head?_chunkAt hn] at hget
      rw [ties_congr (tie_of_head? hfirst)]
      exact hchunks i c hget

/-- And it ends with the last of some. -/
theorem Uncut.last_iff (hn : 0 < n) (h : l.Pairwise (Le cmp)) (huncut : Uncut cmp n l)
    (rows : ℕ → List α) :
    (∀ a ∈ l, ∀ i, n * i < l.length →
      before cmp a l + (ties cmp a l).length = min (n * (i + 1)) l.length →
      (ties cmp a (rows i)).getLast? = (ties cmp a l).getLast?) ↔
    ∀ i c, (chunkAt n l i).getLast? = some c → (ties cmp c (rows i)).getLast? = some c := by
  constructor
  · intro hsame i c hc
    have hi : n * i < l.length := by
      by_contra hle
      have hnil : chunkAt n l i = [] := by
        rw [chunkAt, List.drop_eq_nil_of_le (by omega), List.take_nil]
      rw [hnil] at hc
      cases hc
    rw [getLast?_chunkAt hn hi] at hc
    have hmem := List.mem_of_getElem? hc
    have hle := before_le h hc
    have hlt := lt_before_add_ties h hc
    have hne : ties cmp c l ≠ [] := ties_ne_nil hmem
    have hpos := List.length_pos_of_ne_nil hne
    have hbehind := getElem?_behind h hmem
    have hbound : before cmp c l + (ties cmp c l).length ≤ l.length := by
      rw [List.getLast?_eq_some_getLast (ties_ne_nil hmem)] at hbehind
      obtain ⟨hlast, -⟩ := List.getElem?_eq_some_iff.mp hbehind
      omega
    have hend : before cmp c l + (ties cmp c l).length = min (n * (i + 1)) l.length := by
      have hcut := huncut c hmem (i + 1)
      have hmul : n * i < n * (i + 1) := Nat.mul_lt_mul_of_pos_left i.lt_succ_self hn
      omega
    rw [hsame c hmem i hi hend, ← hbehind, hend, hc]
  · intro hchunks a ha i hi hend
    have hget := getElem?_behind h ha
    cases hlast : (ties cmp a l).getLast? with
    | none => exact absurd (List.getLast?_eq_none_iff.mp hlast) (ties_ne_nil ha)
    | some c =>
      rw [hlast, hend, ← getLast?_chunkAt hn hi] at hget
      rw [ties_congr (tie_of_getLast? hlast)]
      exact hchunks i c hget

end Cuts

end YaNuget.Sorting
