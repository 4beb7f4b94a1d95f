import AppCatalog.Kubernetes.Client
import Mathlib.Data.List.Dedup
import Mathlib.Data.String.Basic

/-! The validating webhook of ApplicationCatalogs and the conflicts it reports. -/
namespace AppCatalog.Admission
open Kubernetes

/-- A detected conflict: the ApplicationDefinition and who else claims it. -/
structure ConflictInfo where
  appDefName : String
  ownerCatalog : String
  deriving DecidableEq, Repr

/-- `strconv.IsPrint` on Latin-1, where Go decides it without its Unicode tables; the model takes
every character above U+00FF as printable. -/
def isPrint (c : Char) : Bool :=
  if c.toNat ≤ 0xFF then (0x20 ≤ c.toNat && c.toNat ≤ 0x7E) || (0xA1 ≤ c.toNat && c.toNat != 0xAD)
  else true

/-- `n` in `width` lower-case hexadecimal digits. -/
def hexDigits (width n : Nat) : String :=
  let ds := Nat.toDigits 16 n
  String.mk (List.replicate (width - ds.length) '0' ++ ds)

/-- `appendEscapedRune` for a character `%q` does not print as it is. -/
def escapeRune (c : Char) : String :=
  match c.toNat with
  | 7 => "\\a"
  | 8 => "\\b"
  | 9 => "\\t"
  | 10 => "\\n"
  | 11 => "\\v"
  | 12 => "\\f"
  | 13 => "\\r"
  | n => if n < 0x20 ∨ n = 0x7F then "\\x" ++ hexDigits 2 n
    else if n < 0x10000 then "\\u" ++ hexDigits 4 n else "\\U" ++ hexDigits 8 n

/-- Go's `%q` of a string: quotes and backslashes escaped, printable characters kept, every other
character escaped. -/
def quote (s : String) : String :=
  "\"" ++ String.join (s.data.map fun c =>
    if c.toNat = 0x22 ∨ c.toNat = 0x5C then "\\" ++ c.toString
    else if isPrint c then c.toString else escapeRune c) ++ "\""

def duplicateOwner (existingChart chartName : String) : String :=
  "this catalog (duplicate: charts " ++ quote existingChart ++ " and " ++ quote chartName ++
    " resolve to same appName)"

/-- One turn of the duplicate scan. `appNames` maps each identity seen to the first chart that
produced it, in the order of insertion; a later chart of a seen identity is a conflict. -/
def scanChart (acc : List (String × String) × List ConflictInfo) (chart : ChartConfig) :
    List (String × String) × List ConflictInfo :=
  match acc.1.lookup chart.getAppName with
  | some existingChart =>
    (acc.1, acc.2 ++ [⟨chart.getAppName, duplicateOwner existingChart chart.chartName⟩])
  | none => (acc.1 ++ [(chart.getAppName, chart.chartName)], acc.2)

/-- The order in which Go ranges over a map: some order of its keys, which the runtime picks. -/
structure MapOrder where
  order : List String → List String
  perm : ∀ keys, (order keys).Perm keys

/-- One turn of building `existing`: a listed object whose name is an identity, by name. -/
def existingStep (appNames : List (String × String)) (existing : String → Option ApplicationDefinition)
    (appDef : ApplicationDefinition) : String → Option ApplicationDefinition :=
  if (appNames.lookup appDef.name).isSome then Function.update existing appDef.name (some appDef)
  else existing

/-- The owner of an ApplicationDefinition; an absent label reads as `""`. -/
def ownerOf (appDef : ApplicationDefinition) : String :=
  (appDef.labels labelApplicationCatalogName).getD ""

/-- One turn of the range over `appNames`: the identity conflicts when its object has an owner
other than the catalog. -/
def ownerConflict (catalogName : String) (existing : String → Option ApplicationDefinition)
    (appName : String) : Option ConflictInfo :=
  match existing appName with
  | none => none
  | some appDef =>
    if ownerOf appDef = "" ∨ ownerOf appDef = catalogName then none else some ⟨appName, ownerOf appDef⟩

/-- `"failed to list ApplicationDefinitions: %w"`. -/
inductive ValidationError where
  | failedToList (err : ClientError)
  deriving DecidableEq, Repr

/-- `detectConflicts`: the duplicate scan, then the List of the objects labelled managed-by, then
the owners of the identities among them. -/
def detectConflicts (ι : MapOrder) (faults : Faults) (s : Store) (catalog : ApplicationCatalog) :
    Except ValidationError (List ConflictInfo) :=
  let charts := catalog.getHelmCharts.getD []
  if charts.length = 0 then .ok []
  else
    let scan := charts.foldl scanChart ([], [])
    let listCall := Call.list labelManagedByApplicationCatalog "true"
    if faults listCall then .error (.failedToList (.failed listCall))
    else
      let existing := (s.list labelManagedByApplicationCatalog "true").foldl (existingStep scan.1)
        fun _ => none
      .ok (scan.2 ++ (ι.order (scan.1.map Prod.fst)).filterMap (ownerConflict catalog.name existing))

/-- Go's `%v` of a slice of strings. -/
def formatList (l : List String) : String := "[" ++ " ".intercalate l ++ "]"

def formatConflictMessage (conflicts : List ConflictInfo) : String :=
  if conflicts.length = 0 then ""
  else
    "ApplicationCatalog conflicts detected:\n" ++
      String.join (conflicts.map fun c => "  - ApplicationDefinition " ++ quote c.appDefName ++
        " is already managed by catalog " ++ quote c.ownerCatalog ++ "\n") ++
      "\nTo resolve this conflict, either:\n" ++
      "  1. Remove the conflicting chart from this catalog\n" ++
      "  2. Use a different appName in metadata.appName for the chart\n" ++
      "  3. Delete the other catalog or remove the chart from it first"

/-- An admission response; an errored one carries its HTTP status. -/
inductive Response where
  | allowed (reason : String)
  | denied (reason : String)
  | errored (code : Nat) (err : ValidationError)
  deriving DecidableEq, Repr

def Response.isAllowed : Response → Bool
  | .allowed _ => true
  | _ => false

/-- The defaulting package the webhook calls, which is not part of this model: the invalid names of
an include annotation, and the names of the default charts. -/
structure Defaulting where
  validateIncludeAnnotation : String → List String
  defaultChartNames : List String

def annotationDefaultCatalogInclude : String := "defaultcatalog.k8c.io/include"

/-- `handleValidation`, for a request that decoded to `catalog`. -/
def handleValidation (defaulting : Defaulting) (ι : MapOrder) (faults : Faults) (s : Store)
    (catalog : ApplicationCatalog) : Response :=
  let invalidNames := if catalog.spec.helm.any (·.includeDefaults)
    then defaulting.validateIncludeAnnotation ((catalog.annotations annotationDefaultCatalogInclude).getD "")
    else []
  if invalidNames.length > 0 then
    .denied ("invalid chart names in annotation defaultcatalog.k8c.io/include: " ++
      formatList invalidNames ++ ". Valid names are: " ++ formatList defaulting.defaultChartNames)
  else match detectConflicts ι faults s catalog with
    | .error err => .errored 500 err
    | .ok conflicts =>
      if conflicts.length > 0 then .denied (formatConflictMessage conflicts)
      else .allowed "no conflicts detected"

inductive Operation where
  | create | update | delete | connect
  deriving DecidableEq, Repr

def Operation.name : Operation → String
  | .create => "CREATE"
  | .update => "UPDATE"
  | .delete => "DELETE"
  | .connect => "CONNECT"

/-- `Handle`: creates and updates are validated, every other operation is allowed. -/
def handle (defaulting : Defaulting) (ι : MapOrder) (faults : Faults) (s : Store)
    (op : Operation) (catalog : ApplicationCatalog) : Response :=
  match op with
  | .create | .update => handleValidation defaulting ι faults s catalog
  | .delete => .allowed "delete operations do not require validation"
  | op => .allowed (quote op.name ++ " operations do not require validation")

/-! ### What the check reports -/

/-- The conflict a chart makes with the charts before it: a duplicate of the first of them with
its identity. -/
def duplicateOf (before : List ChartConfig) (chart : ChartConfig) : Option ConflictInfo :=
  (before.find? (·.getAppName == chart.getAppName)).map fun first =>
    ⟨chart.getAppName, duplicateOwner first.chartName chart.chartName⟩

/-- One conflict for every position whose identity an earlier position has. -/
def duplicateConflicts (charts : List ChartConfig) : List ConflictInfo :=
  charts.enum.filterMap fun p => duplicateOf (charts.take p.1) p.2

/-- The conflict of the identity `X` with the object named `X` among `S`, when its catalog-name
label names another catalog. -/
def foreignConflict (catalogName : String) (S : List ApplicationDefinition) (X : String) :
    Option ConflictInfo :=
  (S.find? (·.name == X)).bind fun a =>
    match a.labels labelApplicationCatalogName with
    | some owner => if owner ≠ "" ∧ owner ≠ catalogName then some ⟨X, owner⟩ else none
    | none => none

/-- The object is free for the catalog: its catalog-name label, if any, is empty or names it. -/
def FreeFor (catalogName : String) (a : ApplicationDefinition) : Prop :=
  ∀ owner, a.labels labelApplicationCatalogName = some owner → owner = "" ∨ owner = catalogName

theorem freeFor_iff {catalogName : String} {a : ApplicationDefinition} :
    FreeFor catalogName a ↔ ownerOf a = "" ∨ ownerOf a = catalogName := by
  unfold FreeFor ownerOf
  cases a.labels labelApplicationCatalogName <;> simp

/-- One conflict for every distinct identity that another catalog holds. -/
def foreignConflicts (catalogName : String) (S : List ApplicationDefinition)
    (charts : List ChartConfig) : List ConflictInfo :=
  (charts.map ChartConfig.getAppName).dedup.filterMap (foreignConflict catalogName S)

/-- The line of a denial that names one conflict. -/
def conflictLine (c : ConflictInfo) : String :=
  "  - ApplicationDefinition " ++ quote c.appDefName ++ " is already managed by catalog " ++
    quote c.ownerCatalog ++ "\n"

/-- A denial names each of its conflicts on a line of its own. -/
theorem conflictLine_infix {cs : List ConflictInfo} {c : ConflictInfo} (hc : c ∈ cs) :
    (conflictLine c).data <:+: (formatConflictMessage cs).data := by
  have hne : cs.length ≠ 0 := (List.length_pos_of_mem hc).ne'
  have hj : (conflictLine c).data <:+: (String.join (cs.map conflictLine)).data := by
    rw [String.data_join, List.map_map]
    exact List.infix_of_mem_flatten (List.mem_map_of_mem (String.data ∘ conflictLine) hc)
  unfold formatConflictMessage
  rw [if_neg hne]
  simp only [String.data_append]
  exact (((hj.trans (List.infix_append _ _ _)).trans (List.prefix_append _ _).isInfix).trans
    (List.prefix_append _ _).isInfix).trans (List.prefix_append _ _).isInfix

theorem duplicateConflicts_snoc (charts : List ChartConfig) (chart : ChartConfig) :
    duplicateConflicts (charts ++ [chart]) =
      duplicateConflicts charts ++ (duplicateOf charts chart).toList := by
  unfold duplicateConflicts
  rw [List.enum_append, List.filterMap_append]
  congr 1
  · refine List.filterMap_congr fun p hp => ?_
    rw [List.take_append_of_le_length (List.mem_enum hp).1.le]
  · simp only [List.enumFrom_cons, List.enumFrom_nil, List.filterMap_cons, List.filterMap_nil,
      List.take_left]
    cases duplicateOf charts chart <;> rfl

theorem duplicateConflicts_eq_nil_iff (charts : List ChartConfig) :
    duplicateConflicts charts = [] ↔ (charts.map ChartConfig.getAppName).Nodup := by
  induction charts using List.reverseRecOn with
  | nil => simp [duplicateConflicts]
  | append_singleton charts chart ih =>
    have hdup : (duplicateOf charts chart).toList = [] ↔
        chart.getAppName ∉ charts.map ChartConfig.getAppName := by
      simp only [duplicateOf, List.mem_map, not_exists, not_and]
      cases h : charts.find? (·.getAppName == chart.getAppName) with
      | none => simpa using List.find?_eq_none.mp h
      | some c =>
        simp only [Option.map_some', Option.toList_some, List.cons_ne_nil, false_iff, not_forall,
          not_not]
        exact ⟨c, List.mem_of_find?_eq_some h, by simpa using List.find?_some h⟩
    rw [duplicateConflicts_snoc, List.append_eq_nil, ih, hdup, List.map_append, List.map_singleton,
      List.nodup_append, List.disjoint_singleton]
    simp

/-- The duplicate scan: `appNames` maps each identity to its first chart, once per identity, and
the conflicts found are the duplicate conflicts. -/
theorem foldl_scanChart (charts : List ChartConfig) :
    let r := charts.foldl scanChart ([], [])
    (∀ k, r.1.lookup k = (charts.find? (·.getAppName == k)).map (·.chartName)) ∧
      (r.1.map Prod.fst).Nodup ∧ r.2 = duplicateConflicts charts := by
  induction charts using List.reverseRecOn with
  | nil => simp [duplicateConflicts]
  | append_singleton charts chart ih =>
    obtain ⟨hl, hnd, hd⟩ := ih
    simp only [List.foldl_append, List.foldl_cons, List.foldl_nil, duplicateConflicts_snoc]
    generalize charts.foldl scanChart ([], []) = r at hl hnd hd
    unfold scanChart
    cases hr : r.1.lookup chart.getAppName with
    | some e =>
      rw [hl] at hr
      obtain ⟨first, hfirst, rfl⟩ := Option.map_eq_some'.mp hr
      refine ⟨fun k => ?_, hnd, by simp [hd, duplicateOf, hfirst]⟩
      rw [hl, List.find?_append]
      by_cases hk : chart.getAppName = k
      · subst hk; simp [hfirst]
      · cases charts.find? (·.getAppName == k) <;> simp [hk]
    | none =>
      rw [hl, Option.map_eq_none'] at hr
      refine ⟨fun k => ?_, ?_, by simp [hd, duplicateOf, hr]⟩
      · rw [List.lookup_append, hl, List.find?_append]
        by_cases hk : chart.getAppName = k
        · subst hk; simp [hr]
        · simp [List.lookup_cons, beq_false_of_ne (Ne.symm hk), hk]
      · simp only [List.map_append, List.map_cons, List.map_nil, List.nodup_append, hnd,
          List.nodup_singleton, List.disjoint_singleton, true_and]
        intro hmem
        obtain ⟨⟨k, v⟩, hkv, hk⟩ := List.mem_map.mp hmem
        have hs : (r.1.lookup k).isSome := List.lookup_isSome_iff.mpr ⟨_, hkv, beq_self_eq_true k⟩
        rw [hl, show k = chart.getAppName from hk, hr] at hs
        exact absurd hs (by simp)

/-- `existing`: with distinct listed names, an identity maps to the listed object of its name. -/
theorem foldl_existingStep (appNames : List (String × String)) {S : List ApplicationDefinition}
    (hS : (S.map (·.name)).Nodup) (existing : String → Option ApplicationDefinition) (k : String) :
    S.foldl (existingStep appNames) existing k =
      if (appNames.lookup k).isSome then (S.find? (·.name == k)).or (existing k) else existing k := by
  induction S generalizing existing with
  | nil => simp
  | cons a S ih =>
    simp only [List.map_cons, List.nodup_cons, List.mem_map, not_exists, not_and] at hS
    rw [List.foldl_cons, ih hS.2]
    by_cases hk : a.name = k
    · subst hk
      have hnone : S.find? (·.name == a.name) = none := by
        simpa [List.find?_eq_none] using hS.1
      by_cases hl : (appNames.lookup a.name).isSome <;> simp [existingStep, hl, hnone]
    · have hstep : existingStep appNames existing a k = existing k := by
        unfold existingStep
        split_ifs
        · exact Function.update_noteq (Ne.symm hk) _ _
        · rfl
      simp [List.find?_cons, hk, hstep]

theorem ownerConflict_eq_foreignConflict (catalogName : String) {existing : String → Option ApplicationDefinition}
    {S : List ApplicationDefinition} {X : String} (h : existing X = S.find? (·.name == X)) :
    ownerConflict catalogName existing X = foreignConflict catalogName S X := by
  unfold ownerConflict foreignConflict
  rw [h]
  cases S.find? (·.name == X) with
  | none => rfl
  | some a =>
    simp only [Option.bind_some, ownerOf]
    cases hl : a.labels labelApplicationCatalogName with
    | none => simp [hl]
    | some owner => simp [hl, ← not_or, ite_not]

theorem foreignConflict_eq_none_iff (catalogName : String) (a : ApplicationDefinition) (X : String) :
    foreignConflict catalogName [a] X = none ↔ a.name = X → FreeFor catalogName a := by
  unfold foreignConflict FreeFor
  by_cases hX : a.name = X
  · cases h : a.labels labelApplicationCatalogName with
    | none => simp [hX, h]
    | some owner => simp [hX, h, ← not_or, ite_not]
  · simp [hX]

theorem foreignConflicts_eq_nil_iff (catalogName : String) {S : List ApplicationDefinition}
    (hS : (S.map (·.name)).Nodup) (charts : List ChartConfig) :
    foreignConflicts catalogName S charts = [] ↔
      ∀ a ∈ S, a.name ∈ charts.map ChartConfig.getAppName → FreeFor catalogName a := by
  have hget : ∀ X a, S.find? (·.name == X) = some a ↔ a ∈ S ∧ a.name = X :=
    fun X a => @Store.get_eq_some ⟨S, hS⟩ X a
  have hone : ∀ X a, S.find? (·.name == X) = some a →
      (foreignConflict catalogName S X = none ↔ FreeFor catalogName a) := fun X a h => by
    have h' : foreignConflict catalogName S X = foreignConflict catalogName [a] X := by
      simp only [foreignConflict, h, List.find?_cons, (hget X a).mp h, beq_self_eq_true]
    rw [h', foreignConflict_eq_none_iff]
    exact ⟨fun f => f ((hget X a).mp h).2, fun f _ => f⟩
  simp only [foreignConflicts, List.filterMap_eq_nil_iff, List.mem_dedup]
  constructor
  · intro h a ha hm
    exact (hone a.name a ((hget _ a).mpr ⟨ha, rfl⟩)).mp (h a.name hm)
  · intro h X hX
    cases hf : S.find? (·.name == X) with
    | none => simp [foreignConflict, hf]
    | some a =>
      obtain ⟨ha, rfl⟩ := (hget X a).mp hf
      exact (hone _ a hf).mpr (h a ha hX)

/-- With its List answered, `detectConflicts` reports the duplicate and the foreign-owner
conflicts, in the order Go ranges over the identities. -/
theorem detectConflicts_perm (ι : MapOrder) (faults : Faults) (s : Store) (catalog : ApplicationCatalog)
    (hf : faults (.list labelManagedByApplicationCatalog "true") = false) :
    ∃ cs, detectConflicts ι faults s catalog = .ok cs ∧
      cs.Perm (duplicateConflicts (catalog.getHelmCharts.getD []) ++ foreignConflicts catalog.name
        (s.list labelManagedByApplicationCatalog "true") (catalog.getHelmCharts.getD [])) := by
  set charts := catalog.getHelmCharts.getD []
  set S := s.list labelManagedByApplicationCatalog "true"
  obtain ⟨hl, hnd, hd⟩ := foldl_scanChart charts
  by_cases h0 : charts.length = 0
  · have hc : charts = [] := List.eq_nil_of_length_eq_zero h0
    exact ⟨[], by simp [detectConflicts, charts, h0], by simp [hc, duplicateConflicts, foreignConflicts]⟩
  set scan := charts.foldl scanChart ([], [])
  have hkeys : ∀ X, X ∈ scan.1.map Prod.fst ↔ X ∈ charts.map ChartConfig.getAppName := fun X => by
    have h1 : X ∈ scan.1.map Prod.fst ↔ (scan.1.lookup X).isSome := by
      simp only [List.lookup_isSome_iff, List.mem_map, beq_iff_eq]
      exact ⟨fun ⟨p, hp, h⟩ => ⟨p, hp, h.symm⟩, fun ⟨p, hp, h⟩ => ⟨p, hp, h.symm⟩⟩
    rw [h1, hl]
    simp [List.find?_isSome, List.mem_map]
  have hfor : (ι.order (scan.1.map Prod.fst)).filterMap
        (ownerConflict catalog.name (S.foldl (existingStep scan.1) fun _ => none)) =
      (ι.order (scan.1.map Prod.fst)).filterMap (foreignConflict catalog.name S) := by
    refine List.filterMap_congr fun X hX => ownerConflict_eq_foreignConflict _ ?_
    have hX' := (hkeys X).mp ((ι.perm _).subset hX)
    rw [foldl_existingStep _ (s.nodup_list _ _)]
    have hsome : (scan.1.lookup X).isSome := by
      rw [hl]; simpa [List.find?_isSome] using hX'
    simp [hsome]
  have hperm : (ι.order (scan.1.map Prod.fst)).Perm (charts.map ChartConfig.getAppName).dedup :=
    (ι.perm _).trans ((List.perm_ext_iff_of_nodup hnd (List.nodup_dedup _)).mpr fun X => by
      rw [hkeys, List.mem_dedup])
  refine ⟨_, ?_, (hperm.filterMap _).append_left _⟩
  rw [← hd, ← hfor]
  simp only [detectConflicts, h0, if_false, hf, Bool.false_eq_true]

/-- A report of those conflicts, in any order, is empty exactly when the identities are distinct
and none of them belongs to another catalog. -/
theorem conflicts_eq_nil_iff (catalogName : String) {S : List ApplicationDefinition}
    (hS : (S.map (·.name)).Nodup) {charts : List ChartConfig} {cs : List ConflictInfo}
    (hp : cs.Perm (duplicateConflicts charts ++ foreignConflicts catalogName S charts)) :
    cs = [] ↔ (charts.map ChartConfig.getAppName).Nodup ∧
      ∀ a ∈ S, a.name ∈ charts.map ChartConfig.getAppName → FreeFor catalogName a := by
  rw [← duplicateConflicts_eq_nil_iff, ← foreignConflicts_eq_nil_iff _ hS, ← List.append_eq_nil]
  constructor
  · rintro rfl; exact List.perm_nil.mp hp.symm
  · intro h; rw [h] at hp; exact List.perm_nil.mp hp

/-- What `detectConflicts` must answer for a catalog against the listed objects `S`: the duplicate
and the foreign-owner conflicts, in some order; so none exactly when the identities are distinct
and none of them belongs to another catalog. -/
structure ReportsExactly (catalog : ApplicationCatalog) (S : List ApplicationDefinition)
    (cs : List ConflictInfo) : Prop where
  perm : cs.Perm (duplicateConflicts (catalog.getHelmCharts.getD []) ++
    foreignConflicts catalog.name S (catalog.getHelmCharts.getD []))
  eq_nil_iff : cs = [] ↔ ((catalog.getHelmCharts.getD []).map ChartConfig.getAppName).Nodup ∧
    ∀ a ∈ S, a.name ∈ (catalog.getHelmCharts.getD []).map ChartConfig.getAppName →
      FreeFor catalog.name a

/-- With its List answered, `detectConflicts` reports exactly the conflicts it must. -/
theorem detectConflicts_spec (ι : MapOrder) (faults : Faults) (s : Store) (catalog : ApplicationCatalog)
    (hf : faults (.list labelManagedByApplicationCatalog "true") = false) :
    ∃ cs, detectConflicts ι faults s catalog = .ok cs ∧
      ReportsExactly catalog (s.list labelManagedByApplicationCatalog "true") cs := by
  obtain ⟨cs, h, hp⟩ := detectConflicts_perm ι faults s catalog hf
  exact ⟨cs, h, hp, conflicts_eq_nil_iff _ (s.nodup_list _ _) hp⟩

/-- `detectConflicts` reports nothing exactly when the catalog has no charts, or its List is
answered, its identities are distinct and none of them belongs to another catalog. -/
theorem detectConflicts_eq_ok_nil_iff (ι : MapOrder) (faults : Faults) (s : Store)
    (catalog : ApplicationCatalog) :
    detectConflicts ι faults s catalog = .ok [] ↔ (catalog.getHelmCharts.getD []).length = 0 ∨
      faults (.list labelManagedByApplicationCatalog "true") = false ∧
        ((catalog.getHelmCharts.getD []).map ChartConfig.getAppName).Nodup ∧
        ∀ a ∈ s.list labelManagedByApplicationCatalog "true",
          a.name ∈ (catalog.getHelmCharts.getD []).map ChartConfig.getAppName →
            FreeFor catalog.name a := by
  by_cases h0 : (catalog.getHelmCharts.getD []).length = 0
  · exact iff_of_true (by simp only [detectConflicts, h0, if_true]) (.inl h0)
  cases hf : faults (.list labelManagedByApplicationCatalog "true") with
  | true =>
    refine iff_of_false ?_ fun h => h.elim h0 fun h' => Bool.noConfusion h'.1
    simp only [detectConflicts, h0, hf, if_false, if_true]
    exact Except.noConfusion
  | false =>
    obtain ⟨cs, hcs, hp⟩ := detectConflicts_perm ι faults s catalog hf
    rw [hcs, Except.ok.injEq, conflicts_eq_nil_iff _ (s.nodup_list _ _) hp]
    simp only [h0, false_or, true_and]

/-- An empty report: the identities are distinct and none belongs to another catalog. The List may
be skipped only for a catalog with no charts, which has no identities. -/
theorem detectConflicts_eq_ok_nil {ι : MapOrder} {faults : Faults} {s : Store}
    {catalog : ApplicationCatalog} (h : detectConflicts ι faults s catalog = .ok []) :
    ((catalog.getHelmCharts.getD []).map ChartConfig.getAppName).Nodup ∧
      ∀ a ∈ s.list labelManagedByApplicationCatalog "true",
        a.name ∈ (catalog.getHelmCharts.getD []).map ChartConfig.getAppName →
          FreeFor catalog.name a := by
  rcases (detectConflicts_eq_ok_nil_iff ι faults s catalog).mp h with h0 | ⟨-, h⟩
  · simp [List.eq_nil_of_length_eq_zero h0]
  · exact h

/-- The webhook admits a catalog exactly when its include annotation is valid and
`detectConflicts` reports nothing. -/
theorem handleValidation_isAllowed_iff (defaulting : Defaulting) (ι : MapOrder) (faults : Faults)
    (s : Store) (catalog : ApplicationCatalog) :
    (handleValidation defaulting ι faults s catalog).isAllowed ↔
      (catalog.spec.helm.any (·.includeDefaults) → defaulting.validateIncludeAnnotation
        ((catalog.annotations annotationDefaultCatalogInclude).getD "") = []) ∧
      detectConflicts ι faults s catalog = .ok [] := by
  have hinv : (if catalog.spec.helm.any (·.includeDefaults) then defaulting.validateIncludeAnnotation
      ((catalog.annotations annotationDefaultCatalogInclude).getD "") else []).length > 0 ↔
      ¬(catalog.spec.helm.any (·.includeDefaults) → defaulting.validateIncludeAnnotation
        ((catalog.annotations annotationDefaultCatalogInclude).getD "") = []) := by
    split_ifs with hd <;> simp [hd, List.length_pos]
  unfold handleValidation
  dsimp only
  by_cases hann : catalog.spec.helm.any (·.includeDefaults) → defaulting.validateIncludeAnnotation
      ((catalog.annotations annotationDefaultCatalogInclude).getD "") = []
  · rw [if_neg (by rwa [hinv, not_not])]
    cases detectConflicts ι faults s catalog with
    | error e => simp [Response.isAllowed]
    | ok cs =>
      cases cs with
      | nil => simpa [Response.isAllowed] using hann
      | cons c cs => simp [Response.isAllowed]
  · rw [if_pos (hinv.mpr hann)]
    simp [Response.isAllowed, hann]

/-- A create or update of a catalog that declares an object another catalog owns at that moment is
not allowed. -/
theorem handle_isAllowed_of_owned (defaulting : Defaulting) (ι : MapOrder) (faults : Faults)
    (s : Store) {op : Operation} (hop : op = .create ∨ op = .update) (catalog : ApplicationCatalog)
    {a : ApplicationDefinition} (ha : a ∈ s.list labelManagedByApplicationCatalog "true")
    (hX : a.name ∈ (catalog.getHelmCharts.getD []).map ChartConfig.getAppName)
    (hown : ownerOf a ≠ "") (hother : ownerOf a ≠ catalog.name) :
    (handle defaulting ι faults s op catalog).isAllowed = false := by
  have hv : handle defaulting ι faults s op catalog = handleValidation defaulting ι faults s catalog := by
    rcases hop with rfl | rfl <;> rfl
  rw [hv, Bool.eq_false_iff]
  intro h
  rcases freeFor_iff.mp ((detectConflicts_eq_ok_nil ((handleValidation_isAllowed_iff ..).mp h).2).2
    a ha hX) with h' | h'
  exacts [hown h', hother h']

/-- Whatever `detectConflicts` reports is, in some order, the duplicate and the foreign-owner
conflicts; a catalog with no charts is not checked and has none. -/
theorem detectConflicts_ok_perm {ι : MapOrder} {faults : Faults} {s : Store}
    {catalog : ApplicationCatalog} {cs : List ConflictInfo} (h : detectConflicts ι faults s catalog = .ok cs) :
    cs.Perm (duplicateConflicts (catalog.getHelmCharts.getD []) ++ foreignConflicts catalog.name
      (s.list labelManagedByApplicationCatalog "true") (catalog.getHelmCharts.getD [])) := by
  by_cases h0 : (catalog.getHelmCharts.getD []).length = 0
  · obtain rfl : [] = cs := by simpa [detectConflicts, h0] using h
    rw [List.eq_nil_of_length_eq_zero h0]
    rfl
  · cases hf : faults (.list labelManagedByApplicationCatalog "true") with
    | true => simp [detectConflicts, h0, hf] at h
    | false =>
      obtain ⟨cs', h', hp⟩ := detectConflicts_perm ι faults s catalog hf
      obtain rfl : cs = cs' := by simpa [h] using h'
      exact hp

/-- The order Go ranges over a catalog's identities in decides neither whether the webhook admits
it nor which conflicts a denial lists: the reports under two orders are permutations of each
other. -/
theorem handleValidation_isAllowed_order (defaulting : Defaulting) (ι ι' : MapOrder) (faults : Faults)
    (s : Store) (catalog : ApplicationCatalog) :
    (handleValidation defaulting ι faults s catalog).isAllowed =
        (handleValidation defaulting ι' faults s catalog).isAllowed ∧
      ∀ cs cs', detectConflicts ι faults s catalog = .ok cs →
        detectConflicts ι' faults s catalog = .ok cs' → cs.Perm cs' := by
  refine ⟨?_, fun cs cs' h h' => (detectConflicts_ok_perm h).trans (detectConflicts_ok_perm h').symm⟩
  rw [Bool.eq_iff_iff, handleValidation_isAllowed_iff, handleValidation_isAllowed_iff,
    detectConflicts_eq_ok_nil_iff, detectConflicts_eq_ok_nil_iff]

/-- Go's map order when it happens to be the order of insertion. -/
def insertionOrder : MapOrder := ⟨id, fun _ => List.Perm.refl _⟩

/-- A catalog `"b"` whose two charts are both `nginx`. -/
def twiceNginxCatalog : ApplicationCatalog :=
  ⟨"b", fun _ => none, ⟨some ⟨none, some [⟨"nginx", none, none, "", []⟩, ⟨"nginx", none, none, "", []⟩],
    false⟩⟩⟩

theorem detectConflicts_spec_twiceNginx :
    noFaults (.list labelManagedByApplicationCatalog "true") = false ∧
      ∃ cs, detectConflicts insertionOrder noFaults ⟨[], List.nodup_nil⟩ twiceNginxCatalog = .ok cs ∧
        ReportsExactly twiceNginxCatalog [] cs :=
  ⟨rfl, detectConflicts_spec insertionOrder noFaults ⟨[], List.nodup_nil⟩ twiceNginxCatalog rfl⟩

/-- With its include annotation valid and its List answered, the webhook decides on the conflicts
`detectConflicts` reports, which are exactly the duplicate identities and the objects another
catalog owns: it admits the catalog when there is none, and otherwise denies it with a message
that names every one of them on a line of its own, not only the first. -/
theorem handleValidation_reportsAll (defaulting : Defaulting) (ι : MapOrder) (faults : Faults)
    (s : Store) (catalog : ApplicationCatalog)
    (hann : catalog.spec.helm.any (·.includeDefaults) → defaulting.validateIncludeAnnotation
      ((catalog.annotations annotationDefaultCatalogInclude).getD "") = [])
    (hf : faults (.list labelManagedByApplicationCatalog "true") = false) :
    ∃ cs, detectConflicts ι faults s catalog = .ok cs ∧
      ReportsExactly catalog (s.list labelManagedByApplicationCatalog "true") cs ∧
      handleValidation defaulting ι faults s catalog =
        (if cs = [] then .allowed "no conflicts detected" else .denied (formatConflictMessage cs)) ∧
      ∀ c ∈ cs, (conflictLine c).data <:+: (formatConflictMessage cs).data := by
  obtain ⟨cs, h, hp⟩ := detectConflicts_perm ι faults s catalog hf
  refine ⟨cs, h, ⟨hp, conflicts_eq_nil_iff _ (s.nodup_list _ _) hp⟩, ?_, fun c hc => conflictLine_infix hc⟩
  have hinv : (if catalog.spec.helm.any (·.includeDefaults) then defaulting.validateIncludeAnnotation
      ((catalog.annotations annotationDefaultCatalogInclude).getD "") else []) = [] := by
    split_ifs with hd
    · exact hann hd
    · rfl
  unfold handleValidation
  simp only [hinv, h, List.length_nil, gt_iff_lt, lt_self_iff_false, if_false, List.length_pos]
  cases cs <;> simp

/-- A defaulting package with no default charts, which finds no include annotation invalid. -/
def noDefaults : Defaulting := ⟨fun _ => [], []⟩

theorem handleValidation_reportsAll_twiceNginx :
    (twiceNginxCatalog.spec.helm.any (·.includeDefaults) → noDefaults.validateIncludeAnnotation
      ((twiceNginxCatalog.annotations annotationDefaultCatalogInclude).getD "") = []) ∧
      noFaults (.list labelManagedByApplicationCatalog "true") = false ∧
      ∃ cs, detectConflicts insertionOrder noFaults ⟨[], List.nodup_nil⟩ twiceNginxCatalog = .ok cs ∧
        ReportsExactly twiceNginxCatalog [] cs ∧
        handleValidation noDefaults insertionOrder noFaults ⟨[], List.nodup_nil⟩ twiceNginxCatalog =
          (if cs = [] then .allowed "no conflicts detected" else .denied (formatConflictMessage cs)) ∧
        ∀ c ∈ cs, (conflictLine c).data <:+: (formatConflictMessage cs).data :=
  ⟨fun _ => rfl, rfl, handleValidation_reportsAll noDefaults insertionOrder noFaults ⟨[], List.nodup_nil⟩
    twiceNginxCatalog (fun _ => rfl) rfl⟩

end AppCatalog.Admission
