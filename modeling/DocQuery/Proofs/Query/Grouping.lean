import DocQuery.Proofs.Query.Stages

/-! Which statements read their grouped fields back. A key of a group is the name of the field with
its points replaced, so two fields can have one key, and then the later of them stands for both. -/

namespace DocQuery.Query

open Aggregation (keysOf outputName reference reference_injective)

def groupedFields (s : Select) : List String :=
  s.groups.map fieldName

/-- The field is projected from a key of the group, and this key holds the field. -/
def ReadsBack (group project : Document) (field : String) : Prop :=
  ∃ key, ∃ ids : Document, group.get? "_id" = some (.document ids) ∧
    project.get? field = some (.string ("$_id." ++ key)) ∧
    ids.get? key = some (.string ("$" ++ field))

/-- Each of the two fields is held by a key of its own. -/
def KeptApart (group : Document) (field other : String) : Prop :=
  ∃ key otherKey, ∃ ids : Document, group.get? "_id" = some (.document ids) ∧ key ≠ otherKey ∧
    ids.get? key = some (.string ("$" ++ field)) ∧
    ids.get? otherKey = some (.string ("$" ++ other))

theorem length_le_groupKey (field : String) : field.length ≤ (groupKey field).length := by
  have hlist : ∀ text : List Char,
      text.length ≤ (text.flatMap fun c => if c = '.' then ['_', '_'] else [c]).length := by
    intro text
    induction text with
    | nil => simp
    | cons c text ih =>
      by_cases hc : c = '.'
      · simp only [List.flatMap_cons, hc, if_true, List.length_append, List.length_cons,
          List.length_nil]
        omega
      · simp only [List.flatMap_cons, hc, if_false, List.length_append, List.length_cons,
          List.length_nil]
        omega
  have hlength := hlist field.toList
  rwa [String.length_toList, ← String.length_ofList] at hlength

/-! ### The key of a group -/

section Keys

variable {groups : List String}

theorem eq_of_get?_keys {key : String} {value : Value}
    (h : (Document.insertAll [] (groupKeys groups)).get? key = some value) :
    ∃ field ∈ groups.map fieldName, key = groupKey field ∧ value = reference field := by
  rcases Document.mem_insertAll (Document.mem_of_get? h) with hmem | hnil
  · obtain ⟨expr, hexpr, he⟩ := List.mem_map.mp hmem
    obtain ⟨rfl, rfl⟩ := Prod.mk.inj he
    exact ⟨fieldName expr, List.mem_map_of_mem hexpr, rfl, rfl⟩
  · simp at hnil

theorem key_eq_of_get?_keys {key field : String}
    (h : (Document.insertAll [] (groupKeys groups)).get? key = some (reference field)) :
    field ∈ groups.map fieldName ∧ key = groupKey field := by
  obtain ⟨other, hother, hkey, hvalue⟩ := eq_of_get?_keys h
  rw [reference_injective hvalue]
  exact ⟨hother, hkey⟩

theorem groupKey_mem_groupKeys {field : String} (h : field ∈ groups.map fieldName) :
    groupKey field ∈ Document.keys (groupKeys groups) := by
  obtain ⟨expr, hexpr, rfl⟩ := List.mem_map.mp h
  exact List.mem_map.mpr ⟨_, List.mem_map_of_mem hexpr, rfl⟩

theorem get?_keys_of_mem
    (hinj : ∀ field ∈ groups.map fieldName, ∀ other ∈ groups.map fieldName,
      groupKey field = groupKey other → field = other)
    {field : String} (h : field ∈ groups.map fieldName) :
    (Document.insertAll [] (groupKeys groups)).get? (groupKey field) = some (reference field) := by
  obtain ⟨value, -, hget⟩ := Document.get?_insertAll_of_mem [] (groupKey_mem_groupKeys h)
  obtain ⟨other, hother, hkey, rfl⟩ := eq_of_get?_keys hget
  rw [hget, hinj field h other hother hkey]

end Keys

/-! ### The projection -/

section Projection

variable {fields : List String} {a : Aggregation} {field : String}

theorem get?_projectStage (hne : field ≠ "_id") :
    (projectStage fields a).get? field = (Document.insertAll (Document.insertAll []
      (fields.map fun f => (f, reference ("_id." ++ groupKey f)))) a.projections).get? field := by
  simp only [projectStage]
  split
  · rfl
  · rw [Document.get?_insert, if_neg hne]

theorem get?_projectStage_of_mem (hne : field ≠ "_id") (h : field ∈ a.projections.keys) :
    ∃ value, (field, value) ∈ a.projections ∧
      (projectStage fields a).get? field = some value := by
  rw [get?_projectStage hne]
  exact Document.get?_insertAll_of_mem _ h

theorem get?_projectStage_of_notMem (hne : field ≠ "_id") (hfield : field ∈ fields)
    (h : field ∉ a.projections.keys) :
    (projectStage fields a).get? field = some (reference ("_id." ++ groupKey field)) := by
  rw [get?_projectStage hne, Document.get?_insertAll_of_notMem _ h]
  have hmem : field ∈
      Document.keys (fields.map fun f => (f, reference ("_id." ++ groupKey f))) := by
    simpa [Document.keys] using hfield
  obtain ⟨value, hvalue, hget⟩ := Document.get?_insertAll_of_mem [] hmem
  obtain ⟨other, -, he⟩ := List.mem_map.mp hvalue
  obtain ⟨rfl, rfl⟩ := Prod.mk.inj he
  exact hget

end Projection

theorem eq_of_group_mem_pipeline {filter having : Filter} {group fields project : Document}
    {sort : Option Document} {limit : Limit}
    (h : Stage.group group ∈ pipeline filter fields project having sort limit) :
    group = fields := by
  simpa [pipeline, stageIf] using h

theorem eq_of_project_mem_pipeline {filter having : Filter} {group fields project : Document}
    {sort : Option Document} {limit : Limit}
    (h : Stage.project project ∈ pipeline filter group fields having sort limit) :
    project = fields := by
  have hmem : fields ≠ [] ∧ project = fields := by simpa [pipeline, stageIf] using h
  exact hmem.2

/-! ### Reading back -/

section Reading

variable {s : Select} {a : Aggregation}

theorem eq_of_get?_id (hid : "_id" ∉ keysOf a.accumulators) {ids : Document}
    (h : (groupStage (groupKeys s.groups) a).get? "_id" = some (.document ids)) :
    ids = Document.insertAll [] (groupKeys s.groups) := by
  rw [get?_id_groupStage hid, groupId] at h
  split at h <;> simp_all

theorem get?_id_of_mem (hid : "_id" ∉ keysOf a.accumulators) {field : String}
    (h : field ∈ groupedFields s) :
    (groupStage (groupKeys s.groups) a).get? "_id" =
      some (.document (Document.insertAll [] (groupKeys s.groups))) := by
  rw [get?_id_groupStage hid, groupId_of_mem (groupKey_mem_groupKeys h)]

theorem keptApart_iff (hid : "_id" ∉ keysOf a.accumulators) :
    (∀ field ∈ groupedFields s, ∀ other ∈ groupedFields s, field ≠ other →
      KeptApart (groupStage (groupKeys s.groups) a) field other) ↔
    (∀ field ∈ groupedFields s, ∀ other ∈ groupedFields s,
      groupKey field = groupKey other → field = other) := by
  constructor
  · intro h field hfield other hother hkey
    refine Decidable.byContradiction fun hne => ?_
    obtain ⟨key, otherKey, ids, hids, hkeys, hget, hget'⟩ := h field hfield other hother hne
    rw [eq_of_get?_id hid hids] at hget hget'
    have hk := (key_eq_of_get?_keys hget).2
    have hk' := (key_eq_of_get?_keys hget').2
    exact hkeys (hk.trans (hkey.trans hk'.symm))
  · intro hinj field hfield other hother hne
    exact ⟨groupKey field, groupKey other, _, get?_id_of_mem hid hfield,
      fun hkey => hne (hinj field hfield other hother hkey),
      get?_keys_of_mem hinj hfield, get?_keys_of_mem hinj hother⟩

/-- A field is read back when no function takes its name and its key holds it. -/
theorem readsBack_iff (ha : Aggregation.ofItems (functionItems s.items) = .ok a)
    (hid : "_id" ∉ keysOf a.accumulators)
    (hlabel : ∀ item ∈ functionItems s.items, ∀ label ∈ item.label,
      label ≠ "_id" → label ∉ plainFields s.items)
    {field : String} (hfield : field ∈ plainFields s.items) (hne : field ≠ "_id") :
    ReadsBack (groupStage (groupKeys s.groups) a) (projectStage (plainFields s.items) a) field ↔
      (∀ item ∈ functionItems s.items, outputName item ≠ field) ∧
        (Document.insertAll [] (groupKeys s.groups)).get? (groupKey field) =
          some (reference field) := by
  have hnames : field ∈ a.projections.keys ↔
      ∃ item ∈ functionItems s.items, outputName item = field :=
    Aggregation.mem_keys_projections ha
  constructor
  · rintro ⟨key, ids, hids, hproject, hget⟩
    rw [← Aggregation.reference_id_append] at hproject
    rw [eq_of_get?_id hid hids] at hget
    have hkey := (key_eq_of_get?_keys hget).2
    have hfree : field ∉ a.projections.keys := by
      intro hmem
      obtain ⟨value, hvalue, hread⟩ := get?_projectStage_of_mem hne hmem
      rw [hproject, Option.some.injEq] at hread
      obtain ⟨item, hitem, hname, htext⟩ := Aggregation.projectsFrom_of_ofItems ha _ hvalue
      have hexpr := htext key hread.symm
      -- Only its own text gives the item this name, and a key is not shorter than its field.
      have hown : item.expr = field := by
        cases hl : item.label with
        | none => simpa [outputName, hl] using hname
        | some label =>
          have he : label = field := by simpa [outputName, hl] using hname
          exact absurd hfield (he ▸ hlabel item hitem label hl (he ▸ hne))
      have hlong := length_le_groupKey field
      have hshort : field.length = 4 + key.length := by
        rw [← hown, hexpr, String.length_append]
        rfl
      rw [← hkey] at hlong
      omega
    refine ⟨fun item hitem hname => hfree (hnames.mpr ⟨item, hitem, hname⟩), ?_⟩
    rwa [← hkey]
  · rintro ⟨hfree, hget⟩
    have hfree' : field ∉ a.projections.keys := by
      intro hmem
      obtain ⟨item, hitem, hname⟩ := hnames.mp hmem
      exact hfree item hitem hname
    have hgrouped := (key_eq_of_get?_keys hget).1
    have hproject := get?_projectStage_of_notMem hne hfield hfree'
    rw [Aggregation.reference_id_append] at hproject
    exact ⟨groupKey field, _, get?_id_of_mem hid hgrouped, hproject, hget⟩

theorem exists_aggregation {registry : Registry} {q : AggregateQuery} {group project : Document}
    (h : ofStatement registry (.select s) = .ok (some (.aggregate q)))
    (hgroup : .group group ∈ q.pipeline) (hproject : .project project ∈ q.pipeline)
    (hcalls : ∀ item ∈ functionItems s.items, item.expr ≠ "_id") :
    ∃ a, Aggregation.ofItems (functionItems s.items) = .ok a ∧ "_id" ∉ keysOf a.accumulators ∧
      group = groupStage (groupKeys s.groups) a ∧
      project = projectStage (plainFields s.items) a := by
  obtain ⟨-, a, filter, having, ha, hpipeline⟩ := exists_of_aggregate h
  rw [hpipeline] at hgroup hproject
  exact ⟨a, ha, (Aggregation.resolved_of_ofItems hcalls ha).id_notMem,
    eq_of_group_mem_pipeline hgroup, eq_of_project_mem_pipeline hproject⟩

end Reading

/-- All selected fields are read back and no grouped field is lost exactly when every selected field
is grouped under its own name, no function takes its name, and no two grouped fields have one
key. No function item has the text `_id`, as is so of every statement that is read from a source:
such an item would be kept in the place of the key of the group. -/
theorem grouping_faithful_iff (registry : Registry) (s : Select) (q : AggregateQuery)
    (group project : Document)
    (h : ofStatement registry (.select s) = .ok (some (.aggregate q)))
    (hgroup : .group group ∈ q.pipeline) (hproject : .project project ∈ q.pipeline)
    (hcalls : ∀ item ∈ functionItems s.items, item.expr ≠ "_id")
    (hlabel : ∀ item ∈ functionItems s.items, ∀ label ∈ item.label,
      label ≠ "_id" → label ∉ plainFields s.items) :
    ((∀ field ∈ plainFields s.items, field ≠ "_id" → ReadsBack group project field) ∧
      (∀ field ∈ groupedFields s, ∀ other ∈ groupedFields s, field ≠ other →
        KeptApart group field other)) ↔
    ((∀ field ∈ plainFields s.items, field ≠ "_id" → field ∈ groupedFields s ∧
        ∀ item ∈ functionItems s.items, outputName item ≠ field) ∧
      (∀ field ∈ groupedFields s, ∀ other ∈ groupedFields s,
        groupKey field = groupKey other → field = other)) := by
  obtain ⟨a, ha, hid, rfl, rfl⟩ := exists_aggregation h hgroup hproject hcalls
  rw [keptApart_iff hid]
  refine and_congr_left fun hinj => ?_
  refine forall_congr' fun field => forall_congr' fun hfield => forall_congr' fun hne => ?_
  rw [readsBack_iff ha hid hlabel hfield hne, and_comm]
  refine and_congr_left fun _ => ⟨fun hget => (key_eq_of_get?_keys hget).1, get?_keys_of_mem hinj⟩

def groupsAndProjects : Query → Bool
  | .find _ => false
  | .aggregate q => (q.stage? "$group").isSome && (q.stage? "$project").isSome

theorem exists_of_groupsAndProjects {query : Query} (h : groupsAndProjects query = true) :
    ∃ q group project, query = .aggregate q ∧ Stage.group group ∈ q.pipeline ∧
      Stage.project project ∈ q.pipeline := by
  cases query with
  | find q => cases h
  | aggregate q =>
    obtain ⟨hgroup, hproject⟩ := Bool.and_eq_true_iff.mp h
    obtain ⟨g, hg⟩ := Option.isSome_iff_exists.mp hgroup
    obtain ⟨p, hp⟩ := Option.isSome_iff_exists.mp hproject
    have hgname := List.find?_some hg
    have hpname := List.find?_some hp
    have hgmem := List.mem_of_find?_eq_some hg
    have hpmem := List.mem_of_find?_eq_some hp
    cases g <;> simp [Stage.name] at hgname
    cases p <;> simp [Stage.name] at hpname
    exact ⟨q, _, _, rfl, hgmem, hpmem⟩

/-- Two nested fields and a count. -/
def nestedSelect : Select where
  items := [⟨"a.b", none, none⟩, ⟨"c", none, none⟩, ⟨"count(*)", some "count", some "n"⟩]
  tables := [⟨"t", none, none⟩]
  groups := ["a.b", "c"]

theorem grouping_faithful_nested :
    ∃ q group project, ofStatement .default (.select nestedSelect) = .ok (some (.aggregate q)) ∧
      Stage.group group ∈ q.pipeline ∧ Stage.project project ∈ q.pipeline ∧
      ReadsBack group project "a.b" ∧ ReadsBack group project "c" ∧ KeptApart group "a.b" "c" := by
  have hstages : (ofStatement .default (.select nestedSelect)).toOption.join.any groupsAndProjects =
      true := by decide +kernel
  obtain ⟨_, hq, hstages⟩ := exists_of_any hstages
  obtain ⟨q, group, project, rfl, hgroup, hproject⟩ := exists_of_groupsAndProjects hstages
  have hfaithful := (grouping_faithful_iff .default nestedSelect q group project hq hgroup hproject
    (by decide) (by decide)).mpr (by decide)
  exact ⟨q, group, project, hq, hgroup, hproject, hfaithful.1 "a.b" (by decide) (by decide),
    hfaithful.1 "c" (by decide) (by decide),
    hfaithful.2 "a.b" (by decide) "c" (by decide) (by decide)⟩

/-- A field that is not grouped, whose name is the key of one that is. -/
def confusedSelect : Select where
  items := [⟨"a__b", none, none⟩, ⟨"count(*)", some "count", some "n"⟩]
  tables := [⟨"t", none, none⟩]
  groups := ["a.b"]

theorem not_readsBack_confused :
    (Statement.ofSource "SELECT a__b, count(*) AS n FROM t GROUP BY a.b").toOption.join =
      some (.select confusedSelect) ∧
    ∃ q group project, ofStatement .default (.select confusedSelect) = .ok (some (.aggregate q)) ∧
      Stage.group group ∈ q.pipeline ∧ Stage.project project ∈ q.pipeline ∧
      (∀ item ∈ functionItems confusedSelect.items, ∀ label ∈ item.label,
        label ∉ plainFields confusedSelect.items) ∧
      "a__b" ∈ plainFields confusedSelect.items ∧ ¬ ReadsBack group project "a__b" := by
  refine ⟨by decide +kernel, ?_⟩
  have hstages : (ofStatement .default (.select confusedSelect)).toOption.join.any
      groupsAndProjects = true := by decide +kernel
  obtain ⟨_, hq, hstages⟩ := exists_of_any hstages
  obtain ⟨q, group, project, rfl, hgroup, hproject⟩ := exists_of_groupsAndProjects hstages
  refine ⟨q, group, project, hq, hgroup, hproject, by decide, by decide, fun hread => ?_⟩
  obtain ⟨a, ha, hid, rfl, rfl⟩ := exists_aggregation hq hgroup hproject (by decide)
  have hget := ((readsBack_iff ha hid (by decide) (by decide) (by decide)).mp hread).2
  exact absurd (key_eq_of_get?_keys hget).1 (by decide)

end DocQuery.Query
