import AppCatalog.Api.Definition
import Mathlib.Data.List.Sort

/-! Merging catalog versions into an existing version list, and the sort applied after. -/
namespace AppCatalog.Synchronizer

/-- The order `sort.Slice` puts versions in. Go compares strings bytewise, which on UTF-8 text is
the order on code points used here. -/
def VersionLE (a b : ApplicationVersion) : Prop := a.version ≤ b.version

instance : DecidableRel VersionLE := fun a b =>
  decidable_of_iff (a.version.toList ≤ b.version.toList) String.le_iff_toList_le.symm

instance : IsTotal ApplicationVersion VersionLE := ⟨fun a b => le_total a.version b.version⟩

instance : IsTrans ApplicationVersion VersionLE := ⟨fun _ _ _ => le_trans⟩

/-- `sort.Slice` ordering by `Version`: a permutation sorted by key. Go's sort is not stable, so
the order of equal keys is left open. -/
structure VersionSort where
  sort : List ApplicationVersion → List ApplicationVersion
  perm : ∀ l, (sort l).Perm l
  sorted : ∀ l, (sort l).Sorted VersionLE

/-- Insertion sort, which is what `sort.Slice` runs on slices of at most twelve elements. -/
def insertionVersionSort : VersionSort where
  sort := List.insertionSort VersionLE
  perm := List.perm_insertionSort VersionLE
  sorted := List.sorted_insertionSort VersionLE

/-- One turn of the index loop: `existingIndex[v.Version] = i`. -/
def indexStep (m : String → Option Nat) (p : Nat × ApplicationVersion) : String → Option Nat :=
  Function.update m p.2.version (some p.1)

/-- The code's `existingIndex`: each version key of `existing` mapped to its last index. -/
def versionIndex (existing : List ApplicationVersion) : String → Option Nat :=
  existing.enum.foldl indexStep fun _ => none

/-- One turn of the merge loop: replace the version at the key's index, or append. -/
def mergeStep (existingIndex : String → Option Nat) (result : List ApplicationVersion)
    (d : ApplicationVersion) : List ApplicationVersion :=
  match existingIndex d.version with
  | some idx => result.set idx d
  | none => result ++ [d]

/-- Existing versions are kept; a desired version replaces the one with its key or is appended. -/
def mergeVersions (existing desired : List ApplicationVersion) : List ApplicationVersion :=
  if existing.length = 0 then desired
  else if desired.length = 0 then existing
  else desired.foldl (mergeStep (versionIndex existing)) existing

/-- The keys of a version list. -/
def keys (l : List ApplicationVersion) : List String := l.map (·.version)

@[simp] theorem keys_nil : keys [] = [] := rfl

@[simp] theorem keys_cons (v : ApplicationVersion) (l : List ApplicationVersion) :
    keys (v :: l) = v.version :: keys l := rfl

@[simp] theorem keys_append (l l' : List ApplicationVersion) : keys (l ++ l') = keys l ++ keys l' :=
  List.map_append _ _ _

private theorem foldl_update_cases (l : List (Nat × ApplicationVersion))
    (m : String → Option Nat) (k : String) :
    (l.foldl indexStep m k = m k ∧ ∀ p ∈ l, p.2.version ≠ k) ∨
      ∃ p ∈ l, p.2.version = k ∧ l.foldl indexStep m k = some p.1 := by
  induction l generalizing m with
  | nil => exact .inl ⟨rfl, by simp⟩
  | cons p ps ih =>
    rcases ih (indexStep m p) with ⟨h, hne⟩ | ⟨q, hq, hk, h⟩
    · by_cases hp : p.2.version = k
      · subst hp
        exact .inr ⟨p, List.mem_cons_self _ _, rfl, by simpa [indexStep] using h⟩
      · refine .inl ⟨by simpa [indexStep, Function.update_noteq (Ne.symm hp)] using h, ?_⟩
        simpa [hp] using hne
    · exact .inr ⟨q, List.mem_cons_of_mem _ hq, hk, h⟩

theorem versionIndex_eq_some {existing : List ApplicationVersion} {k : String} {i : Nat}
    (h : versionIndex existing k = some i) : ∃ hi : i < existing.length, existing[i].version = k := by
  rcases foldl_update_cases existing.enum (fun _ => none) k with ⟨h', -⟩ | ⟨⟨j, v⟩, hp, hk, h'⟩
  · simp [versionIndex, h'] at h
  · obtain ⟨hlt, hv⟩ := List.mem_enum hp
    rw [versionIndex, h'] at h
    cases h
    exact ⟨hlt, hv ▸ hk⟩

theorem versionIndex_eq_none {existing : List ApplicationVersion} {k : String} :
    versionIndex existing k = none ↔ k ∉ keys existing := by
  rcases foldl_update_cases existing.enum (fun _ => none) k with ⟨h', hne⟩ | ⟨⟨j, v⟩, hp, hk, h'⟩
  · rw [versionIndex, h']
    simp only [keys, List.mem_map, not_exists, not_and, true_iff]
    intro v hv hvk
    obtain ⟨i, hlt, rfl⟩ := List.getElem_of_mem hv
    exact hne (i, _) (List.mem_enum_iff_getElem?.mpr (List.getElem?_eq_getElem hlt)) hvk
  · rw [versionIndex, h']
    simp only [reduceCtorEq, false_iff, not_not]
    exact hk ▸ List.mem_map_of_mem _ (List.snd_mem_of_mem_enum hp)

private theorem keys_set_self {l : List ApplicationVersion} {i : Nat} (hi : i < l.length)
    {d : ApplicationVersion} (hk : l[i].version = d.version) : keys (l.set i d) = keys l := by
  apply List.ext_getElem (by simp [keys])
  intro j h₁ h₂
  simp only [keys, List.getElem_map, List.getElem_set]
  split_ifs with h
  · subst h; exact hk.symm
  · rfl

private theorem keys_foldl_mergeStep (existing D result : List ApplicationVersion) (Y : List String)
    (h : keys result = keys existing ++ Y) :
    keys (D.foldl (mergeStep (versionIndex existing)) result) =
      keys existing ++ Y ++ keys (D.filter (·.version ∉ keys existing)) := by
  induction D generalizing result Y with
  | nil => simp [h]
  | cons d D ih =>
    rw [List.foldl_cons]
    cases hi : versionIndex existing d.version with
    | none =>
      have hd := versionIndex_eq_none.mp hi
      rw [ih _ (Y ++ [d.version]) (by simp [mergeStep, hi, h])]
      simp [List.filter_cons, hd]
    | some idx =>
      obtain ⟨hlt, hk⟩ := versionIndex_eq_some hi
      have hmem : d.version ∈ keys existing := hk ▸ List.mem_map_of_mem _ (List.getElem_mem _)
      have hlen : idx < result.length := by
        have := congrArg List.length h
        simp only [keys, List.length_map, List.length_append] at this
        omega
      have hres : result[idx].version = d.version := by
        have h₁ : (keys result)[idx]? = some d.version := by
          rw [h, List.getElem?_append_left (by simpa [keys] using hlt)]
          simp [keys, hlt, hk]
        simpa [keys, hlen] using h₁
      rw [ih _ Y (by simp only [mergeStep, hi]; rw [keys_set_self hlen hres, h])]
      simp [List.filter_cons, hmem]

/-- A merge keeps every existing key in place and appends each new desired key, duplicates of a new
key included. -/
theorem keys_mergeVersions (existing desired : List ApplicationVersion) :
    keys (mergeVersions existing desired) =
      keys existing ++ keys (desired.filter (·.version ∉ keys existing)) := by
  unfold mergeVersions
  split_ifs with h₁ h₂
  · simp [List.length_eq_zero.mp h₁]
  · simp [List.length_eq_zero.mp h₂]
  · simpa using keys_foldl_mergeStep existing desired existing [] (by simp)

/-- The last version of `desired` with key `k`. -/
def lastVersion (desired : List ApplicationVersion) (k : String) : Option ApplicationVersion :=
  desired.reverse.find? (·.version == k)

@[simp] theorem lastVersion_nil (k : String) : lastVersion [] k = none := rfl

theorem lastVersion_snoc_self (P : List ApplicationVersion) (d : ApplicationVersion) :
    lastVersion (P ++ [d]) d.version = some d := by
  simp [lastVersion]

theorem lastVersion_snoc_of_ne (P : List ApplicationVersion) {d : ApplicationVersion} {k : String}
    (h : d.version ≠ k) : lastVersion (P ++ [d]) k = lastVersion P k := by
  simp [lastVersion, h]

/-- What a merge with `desired` makes of one existing version. -/
def mergedVersion (desired : List ApplicationVersion) (e : ApplicationVersion) : ApplicationVersion :=
  (lastVersion desired e.version).getD e

@[simp] theorem mergedVersion_nil : mergedVersion [] = id := rfl

private theorem mergeStep_mergedVersion {existing : List ApplicationVersion}
    (hE : (keys existing).Nodup) (P : List ApplicationVersion) (d : ApplicationVersion) :
    mergeStep (versionIndex existing)
        (existing.map (mergedVersion P) ++ P.filter (·.version ∉ keys existing)) d =
      existing.map (mergedVersion (P ++ [d])) ++
        (P ++ [d]).filter (·.version ∉ keys existing) := by
  unfold mergeStep
  cases hi : versionIndex existing d.version with
  | none =>
    have hd := versionIndex_eq_none.mp hi
    have hmap : existing.map (mergedVersion (P ++ [d])) = existing.map (mergedVersion P) := by
      refine List.map_congr_left fun e he => ?_
      have hne : d.version ≠ e.version := fun h => hd (h ▸ List.mem_map_of_mem _ he)
      simp only [mergedVersion, lastVersion_snoc_of_ne P hne]
    simp [hmap, hd]
  | some idx =>
    obtain ⟨hlt, hk⟩ := versionIndex_eq_some hi
    have hmem : d.version ∈ keys existing := hk ▸ List.mem_map_of_mem _ (List.getElem_mem _)
    have hfilter : (P ++ [d]).filter (·.version ∉ keys existing) =
        P.filter (·.version ∉ keys existing) := by
      simp [hmem]
    dsimp only
    rw [hfilter, List.set_append_left _ _ (by simpa using hlt)]
    congr 1
    apply List.ext_getElem (by simp)
    intro j h₁ h₂
    have hj' : j < existing.length := by simpa using h₂
    simp only [List.getElem_set, List.getElem_map]
    split_ifs with hj
    · subst hj
      simp [mergedVersion, hk, lastVersion_snoc_self]
    · have hne : d.version ≠ existing[j].version := by
        intro h
        have hi₁ : idx < (keys existing).length := by simpa [keys] using hlt
        have hj₁ : j < (keys existing).length := by simpa [keys] using hj'
        have : (keys existing)[idx] = (keys existing)[j] := by simp [keys, hk, h]
        exact hj ((hE.getElem_inj_iff).mp this)
      rw [mergedVersion, mergedVersion, lastVersion_snoc_of_ne P hne]

/-- With distinct existing keys, a merge updates each existing version in place to the last desired
version of its key, and appends every desired version whose key is new. -/
theorem mergeVersions_of_nodup {existing : List ApplicationVersion} (desired : List ApplicationVersion)
    (hE : (keys existing).Nodup) :
    mergeVersions existing desired =
      existing.map (mergedVersion desired) ++ desired.filter (·.version ∉ keys existing) := by
  have hloop : ∀ P D : List ApplicationVersion,
      D.foldl (mergeStep (versionIndex existing))
          (existing.map (mergedVersion P) ++ P.filter (·.version ∉ keys existing)) =
        existing.map (mergedVersion (P ++ D)) ++ (P ++ D).filter (·.version ∉ keys existing) := by
    intro P D
    induction D generalizing P with
    | nil => simp
    | cons d D ih =>
      rw [List.foldl_cons, mergeStep_mergedVersion hE, ih]
      simp
  unfold mergeVersions
  split_ifs with h₁ h₂
  · simp [List.length_eq_zero.mp h₁, keys]
  · simp [List.length_eq_zero.mp h₂, mergedVersion]
  · simpa [mergedVersion] using hloop [] desired

theorem VersionSort.keys_perm (σ : VersionSort) (l : List ApplicationVersion) :
    (keys (σ.sort l)).Perm (keys l) :=
  (σ.perm l).map _

/-- The list the update path writes: the merge, sorted by key. -/
def sortedMerge (σ : VersionSort) (existing desired : List ApplicationVersion) :
    List ApplicationVersion :=
  σ.sort (mergeVersions existing desired)

theorem mem_keys_sortedMerge (σ : VersionSort) (existing desired : List ApplicationVersion)
    (k : String) : k ∈ keys (sortedMerge σ existing desired) ↔ k ∈ keys existing ∨ k ∈ keys desired := by
  rw [sortedMerge, (σ.keys_perm _).mem_iff, keys_mergeVersions]
  simp only [List.mem_append, keys, List.mem_map, List.mem_filter, decide_not]
  constructor
  · rintro (h | ⟨d, ⟨hd, -⟩, rfl⟩)
    · exact .inl h
    · exact .inr ⟨d, hd, rfl⟩
  · rintro (h | ⟨d, hd, rfl⟩)
    · exact .inl h
    · by_cases hk : ∃ a ∈ existing, a.version = d.version
      · exact .inl hk
      · exact .inr ⟨d, ⟨hd, by simpa using hk⟩, rfl⟩

/-- A key of `desired` ends up as the last desired version with that key. -/
theorem lastVersion_mem_sortedMerge (σ : VersionSort) {existing : List ApplicationVersion}
    (desired : List ApplicationVersion) (hE : (keys existing).Nodup) {k : String}
    (hk : k ∈ keys desired) :
    ∃ d, lastVersion desired k = some d ∧ d ∈ sortedMerge σ existing desired := by
  obtain ⟨d, hd⟩ : ∃ d, lastVersion desired k = some d := by
    refine Option.isSome_iff_exists.mp (List.find?_isSome.mpr ?_)
    obtain ⟨d, hd, rfl⟩ := List.mem_map.mp hk
    exact ⟨d, List.mem_reverse.mpr hd, by simp⟩
  have hdk : d.version = k := by simpa using List.find?_some hd
  have hdmem : d ∈ desired := List.mem_reverse.mp (List.mem_of_find?_eq_some hd)
  refine ⟨d, hd, (σ.perm _).mem_iff.mpr ?_⟩
  rw [mergeVersions_of_nodup desired hE, List.mem_append]
  by_cases hke : k ∈ keys existing
  · obtain ⟨e, he, rfl⟩ := List.mem_map.mp hke
    exact .inl (List.mem_map.mpr ⟨e, he, by simp [mergedVersion, hd]⟩)
  · exact .inr (List.mem_filter.mpr ⟨hdmem, by simpa [hdk] using hke⟩)

/-- An existing version whose key `desired` does not mention is kept as it is. -/
theorem mem_sortedMerge_of_not_mem (σ : VersionSort) {existing : List ApplicationVersion}
    (desired : List ApplicationVersion) (hE : (keys existing).Nodup) {e : ApplicationVersion}
    (he : e ∈ existing) (hk : e.version ∉ keys desired) : e ∈ sortedMerge σ existing desired := by
  have hnone : lastVersion desired e.version = none := by
    simpa [lastVersion, keys] using hk
  refine (σ.perm _).mem_iff.mpr ?_
  rw [mergeVersions_of_nodup desired hE]
  exact List.mem_append_left _ (List.mem_map.mpr ⟨e, he, by simp [mergedVersion, hnone]⟩)

/-- Distinct keys on both sides give distinct keys after the merge. -/
theorem nodup_keys_sortedMerge (σ : VersionSort) {existing desired : List ApplicationVersion}
    (hE : (keys existing).Nodup) (hD : (keys desired).Nodup) :
    (keys (sortedMerge σ existing desired)).Nodup := by
  rw [sortedMerge, (σ.keys_perm _).nodup_iff, keys_mergeVersions]
  refine List.Nodup.append hE ((hD.sublist (List.Sublist.map _ (List.filter_sublist _))))
    (fun k h₁ h₂ => ?_)
  obtain ⟨d, hd, rfl⟩ := List.mem_map.mp h₂
  simpa [h₁] using (List.mem_filter.mp hd).2

/-- With distinct keys, the last version of a key is the only one. -/
theorem lastVersion_of_nodup {desired : List ApplicationVersion} (hD : (keys desired).Nodup)
    {d : ApplicationVersion} (hd : d ∈ desired) : lastVersion desired d.version = some d := by
  obtain ⟨d', hd'⟩ : ∃ d', lastVersion desired d.version = some d' :=
    Option.isSome_iff_exists.mp (List.find?_isSome.mpr ⟨d, List.mem_reverse.mpr hd, by simp⟩)
  have hk : d'.version = d.version := by simpa using List.find?_some hd'
  rw [hd', List.inj_on_of_nodup_map hD (List.mem_reverse.mp (List.mem_of_find?_eq_some hd')) hd hk]

/-- Sorted permutations of one another with distinct keys are equal. -/
theorem eq_of_perm_of_sorted_keys {l₁ l₂ : List ApplicationVersion} (hp : l₁.Perm l₂)
    (h₁ : l₁.Sorted VersionLE) (h₂ : l₂.Sorted VersionLE) (hk : (keys l₁).Nodup) : l₁ = l₂ := by
  have hkeys : keys l₁ = keys l₂ :=
    List.eq_of_perm_of_sorted (hp.map _) (List.pairwise_map.mpr h₁) (List.pairwise_map.mpr h₂)
  have hk₂ : (keys l₂).Nodup := hkeys ▸ hk
  refine List.ext_getElem hp.length_eq fun i hi₁ hi₂ => ?_
  obtain ⟨j, hj, hji⟩ := List.mem_iff_getElem.mp (hp.subset (List.getElem_mem hi₁))
  have hv : l₁[i].version = l₂[i].version := by
    simpa [keys, hi₁, hi₂] using congrArg (·[i]?) hkeys
  rw [← hji]
  exact List.inj_on_of_nodup_map hk₂ (List.getElem_mem hj) (List.getElem_mem hi₂) (hji ▸ hv)

/-- Go's sort leaves a sorted list with distinct keys as it is. -/
theorem VersionSort.sort_eq_self (σ : VersionSort) {l : List ApplicationVersion}
    (hs : l.Sorted VersionLE) (hk : (keys l).Nodup) : σ.sort l = l :=
  eq_of_perm_of_sorted_keys (σ.perm l) (σ.sorted l) hs ((σ.keys_perm l).nodup_iff.mpr hk)

/-- With distinct keys on both sides, every desired version is written. -/
theorem subset_sortedMerge (σ : VersionSort) {existing desired : List ApplicationVersion}
    (hE : (keys existing).Nodup) (hD : (keys desired).Nodup) {d : ApplicationVersion}
    (hd : d ∈ desired) : d ∈ sortedMerge σ existing desired := by
  obtain ⟨d', h', hmem⟩ := lastVersion_mem_sortedMerge σ desired hE (List.mem_map_of_mem _ hd)
  rw [lastVersion_of_nodup hD hd] at h'
  rwa [Option.some.inj h']

/-- A sorted list with distinct keys that already holds every desired version is written back
unchanged. -/
theorem sortedMerge_of_subset (σ : VersionSort) {existing desired : List ApplicationVersion}
    (hs : existing.Sorted VersionLE) (hE : (keys existing).Nodup)
    (hsub : ∀ d ∈ desired, d ∈ existing) : sortedMerge σ existing desired = existing := by
  have hkept : existing.map (mergedVersion desired) = existing := by
    refine (List.map_congr_left fun e he => ?_).trans (List.map_id _)
    cases h : lastVersion desired e.version with
    | none => simp [mergedVersion, h]
    | some d =>
      have hd : d ∈ desired := List.mem_reverse.mp (List.mem_of_find?_eq_some h)
      have hk : d.version = e.version := by simpa using List.find?_some h
      simpa [mergedVersion, h] using List.inj_on_of_nodup_map hE (hsub d hd) he hk
  have hnew : desired.filter (·.version ∉ keys existing) = [] :=
    List.filter_eq_nil_iff.mpr fun d hd => by
      have h : d.version ∈ keys existing := List.mem_map_of_mem _ (hsub d hd)
      simpa using h
  rw [sortedMerge, mergeVersions_of_nodup desired hE, hkept, hnew, List.append_nil,
    σ.sort_eq_self hs hE]

/-- Merging distinct versions into themselves only sorts them. -/
theorem sortedMerge_self (σ : VersionSort) {desired : List ApplicationVersion}
    (hD : (keys desired).Nodup) : sortedMerge σ desired desired = σ.sort desired := by
  have hkept : desired.map (mergedVersion desired) = desired :=
    (List.map_congr_left fun d hd => by simp [mergedVersion, lastVersion_of_nodup hD hd]).trans
      (List.map_id _)
  have hnew : desired.filter (·.version ∉ keys desired) = [] :=
    List.filter_eq_nil_iff.mpr fun d hd => by
      have h : d.version ∈ keys desired := List.mem_map_of_mem _ hd
      simpa using h
  rw [sortedMerge, mergeVersions_of_nodup desired hD, hkept, hnew, List.append_nil]

/-- What the update path is to write for existing versions `E` and desired versions `D`: sorted by
key, each key once, the keys of both, the last desired version of each desired key, and every
existing version whose key is not desired. -/
structure MergedVersions (E D L : List ApplicationVersion) : Prop where
  sorted : L.Sorted VersionLE
  nodup : (keys L).Nodup
  keys_iff : ∀ k, k ∈ keys L ↔ k ∈ keys E ∨ k ∈ keys D
  last : ∀ k ∈ keys D, ∃ d, lastVersion D k = some d ∧ d ∈ L
  kept : ∀ e ∈ E, e.version ∉ keys D → e ∈ L

/-- With distinct keys on both sides, the merge and sort write what they are to. -/
theorem sortedMerge_mergedVersions (σ : VersionSort) {E D : List ApplicationVersion}
    (hE : (keys E).Nodup) (hD : (keys D).Nodup) : MergedVersions E D (sortedMerge σ E D) :=
  ⟨σ.sorted _, nodup_keys_sortedMerge σ hE hD, mem_keys_sortedMerge σ E D,
    fun _ hk => lastVersion_mem_sortedMerge σ D hE hk, fun _ he hk => mem_sortedMerge_of_not_mem σ D hE he hk⟩

theorem sortedMerge_mergedVersions_two :
    (keys [⟨"v2.0.0", none⟩, ⟨"v1.0.0", none⟩]).Nodup ∧ (keys [⟨"v3.0.0", none⟩]).Nodup ∧
      MergedVersions [⟨"v2.0.0", none⟩, ⟨"v1.0.0", none⟩] [⟨"v3.0.0", none⟩]
        (sortedMerge insertionVersionSort [⟨"v2.0.0", none⟩, ⟨"v1.0.0", none⟩] [⟨"v3.0.0", none⟩]) :=
  ⟨by decide, by decide, sortedMerge_mergedVersions insertionVersionSort (by decide) (by decide)⟩

/-- Two desired versions sharing a key that no existing version has are both appended: the later
one does not replace the earlier, and the written list repeats the key. -/
theorem sortedMerge_duplicate_new_key (σ : VersionSort) :
    let first : ApplicationVersion :=
      ⟨"v2.0.0", some ⟨"https://first.example.com", "my-chart", "2.0.0", none⟩⟩
    let second : ApplicationVersion :=
      ⟨"v2.0.0", some ⟨"https://second.example.com", "my-chart", "2.0.0", none⟩⟩
    let L := sortedMerge σ [{ version := "v1.0.0", helm := none }] [first, second]
    first ∈ L ∧ second ∈ L ∧ ¬(keys L).Nodup := by
  intro first second L
  have hm : mergeVersions [{ version := "v1.0.0", helm := none }] [first, second] =
      [{ version := "v1.0.0", helm := none }, first, second] := by decide
  refine ⟨(σ.perm _).mem_iff.mpr (by simp [hm]), (σ.perm _).mem_iff.mpr (by simp [hm]), ?_⟩
  rw [show L = σ.sort _ from rfl, (σ.keys_perm _).nodup_iff, hm]
  decide

end AppCatalog.Synchronizer
