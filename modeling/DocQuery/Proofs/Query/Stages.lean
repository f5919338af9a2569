import DocQuery.Proofs.Aggregation.References
import DocQuery.Proofs.Statement.Items
import DocQuery.Query.Plan

/-! The stages of a pipeline and what they refer to: a projection reads the keys of the group and
the accumulators of the same pipeline, and nothing else. -/

namespace DocQuery.Query

open Aggregation (Over keysOf reference)
open Statement (exists_of_bind_eq_ok)

/-- The stages of a pipeline. Those after the group may be left out. -/
structure Stages where
  filter : Document
  group : Document
  project : Option Document
  having : Option Document
  sort : Option Document
  skip : Option Nat
  limit : Option Nat

def Stages.list (s : Stages) : List Stage :=
  [Stage.matching s.filter, Stage.group s.group] ++ (s.project.map .project).toList
    ++ (s.having.map .matching).toList ++ (s.sort.map .sort).toList
    ++ (s.skip.map .skip).toList ++ (s.limit.map .limit).toList

/-- The value of an entry of a projection is the zero that leaves the key of the group out, or
reads the key of the group, a field of it, or accumulators. -/
inductive Resolves (fields : List String) (group : Document) : String → Value → Prop where
  | hidden : Resolves fields group "_id" (.int 0)
  | selected (h : "_id" ∈ fields) : Resolves fields group "_id" (.string "$_id._id")
  | grouped {ids : Document} {key : String} (name : String)
    (hids : group.get? "_id" = some (.document ids)) (hkey : key ∈ ids.keys) :
    Resolves fields group name (.string ("$_id." ++ key))
  | accumulated {value : Value} (name : String) (h : Over group.keys value) :
    Resolves fields group name value

theorem exists_stages (filter : Filter) (group project : Document) (having : Filter)
    (sort : Option Document) (limit : Limit) :
    ∃ stages : Stages, pipeline filter group project having sort limit = stages.list ∧
      stages.group = group ∧ ∀ fields ∈ stages.project, fields = project := by
  refine ⟨⟨filter.document, group, if project.isEmpty then none else some project,
    if having.isEmpty then none else some having.document, sort,
    if limit.offset = 0 then none else some limit.offset,
    if limit.count = 0 then none else some limit.count⟩, ?_, rfl, ?_⟩
  · simp only [pipeline, Stages.list, stageIf]
    by_cases hp : project.isEmpty <;> by_cases hh : having.isEmpty <;>
      by_cases ho : limit.offset = 0 <;> by_cases hc : limit.count = 0 <;> simp [hp, hh, ho, hc]
  · intro fields hfields
    by_cases hp : project.isEmpty <;> simp_all

/-! ### The plan of an aggregation -/

theorem aggregateItems_eq_ok {items : List SelectItem} {a : Aggregation}
    (h : aggregateItems items = .ok a) : Aggregation.ofItems items = .ok a := by
  cases ha : Aggregation.ofItems items <;> simp_all [aggregateItems]

/-- What a statement has to be to become an aggregation, and what the pipeline is then. -/
theorem exists_of_aggregate {registry : Registry} {s : Select} {q : AggregateQuery}
    (h : ofSelect registry s = .ok (some (.aggregate q))) :
    ungrouped (plainFields s.items) (groupKeys s.groups) = [] ∧
      ∃ a filter having, Aggregation.ofItems (functionItems s.items) = .ok a ∧
        q.pipeline = pipeline filter (groupStage (groupKeys s.groups) a)
          (projectStage (plainFields s.items) a) having (sortDocument s.orders) (limitOf s) := by
  unfold ofSelect at h
  split at h
  · simp at h
  · obtain ⟨filter, -, h⟩ := exists_of_bind_eq_ok h
    split at h
    · simp at h
    · split at h
      · split at h <;> simp at h
      · obtain ⟨query, hquery, h⟩ := exists_of_bind_eq_ok h
        cases h
        simp only [aggregateQuery] at hquery
        split at hquery
        · simp at hquery
        · rename_i hgrouped
          obtain ⟨a, ha, hquery⟩ := exists_of_bind_eq_ok hquery
          obtain ⟨having, -, hquery⟩ := exists_of_bind_eq_ok hquery
          cases hquery
          exact ⟨by simpa using hgrouped, a, filter, having, aggregateItems_eq_ok ha, rfl⟩

theorem mem_keys_groupFields {a : Aggregation} {key : String} :
    key ∈ a.groupFields.keys ↔ key ∈ keysOf a.accumulators := by
  rw [Aggregation.groupFields, Document.mem_keys_insertAll]
  simp [Document.keys, keysOf]

theorem mem_keys_groupStage {keys : List (String × Value)} {a : Aggregation} {key : String}
    (h : key ∈ keysOf a.accumulators) : key ∈ (groupStage keys a).keys :=
  Document.mem_keys_insertAll.mpr (.inl (mem_keys_groupFields.mpr h))

theorem get?_id_groupStage {a : Aggregation} (h : "_id" ∉ keysOf a.accumulators)
    (keys : List (String × Value)) : (groupStage keys a).get? "_id" = some (groupId keys) := by
  rw [groupStage, Document.get?_insertAll_of_notMem _ (mt mem_keys_groupFields.mp h)]
  simp [Document.get?_cons]

theorem mem_projectStage {fields : List String} {a : Aggregation} {entry : String × Value}
    (h : entry ∈ projectStage fields a) :
    entry = ("_id", .int 0) ∨ entry ∈ a.projections ∨
      ∃ field ∈ fields, entry = (field, reference ("_id." ++ groupKey field)) := by
  have hread : ∀ {entry}, entry ∈ Document.insertAll (Document.insertAll []
        (fields.map fun field => (field, reference ("_id." ++ groupKey field)))) a.projections →
      entry ∈ a.projections ∨
        ∃ field ∈ fields, entry = (field, reference ("_id." ++ groupKey field)) := by
    intro entry hentry
    rcases Document.mem_insertAll hentry with hp | hf
    · exact .inl hp
    · rcases Document.mem_insertAll hf with hf | hn
      · obtain ⟨field, hfield, rfl⟩ := List.mem_map.mp hf
        exact .inr ⟨field, hfield, rfl⟩
      · simp at hn
  simp only [projectStage] at h
  split at h
  · exact .inr (hread h)
  · exact (Document.mem_insert h).imp_right hread

theorem groupKey_mem_keys {fields : List String} {keys : List (String × Value)}
    (h : ungrouped fields keys = []) {field : String} (hfield : field ∈ fields)
    (hne : field ≠ "_id") : groupKey field ∈ keys.map (·.1) := by
  have hany := List.filter_eq_nil_iff.mp h field hfield
  simpa [hne] using hany

theorem groupId_of_mem {keys : List (String × Value)} {key : String} (h : key ∈ keys.map (·.1)) :
    groupId keys = .document (Document.insertAll [] keys) := by
  cases keys with
  | nil => simp at h
  | cons first keys => rfl

theorem resolves_of_mem_projectStage {fields : List String} {keys : List (String × Value)}
    {a : Aggregation} (hgrouped : ungrouped fields keys = []) (ha : a.Resolved)
    {entry : String × Value} (h : entry ∈ projectStage fields a) :
    Resolves fields (groupStage keys a) entry.1 entry.2 := by
  rcases mem_projectStage h with rfl | hp | ⟨field, hfield, rfl⟩
  · exact .hidden
  · exact .accumulated _ ((ha.projections_over entry hp).mono fun _ => mem_keys_groupStage)
  · by_cases hid : field = "_id"
    · subst hid
      exact .selected hfield
    · have hkey := groupKey_mem_keys hgrouped hfield hid
      have hget := get?_id_groupStage ha.id_notMem keys
      rw [groupId_of_mem hkey] at hget
      rw [Aggregation.reference_id_append]
      exact .grouped field hget (Document.mem_keys_insertAll.mpr (.inl hkey))

theorem functionItems_ne_id {items : List SelectItem} (h : ∀ item ∈ items, item.IsSpelled) :
    ∀ item ∈ functionItems items, item.expr ≠ "_id" := by
  intro item hitem hid
  obtain ⟨hmem, hcalls⟩ := List.mem_filter.mp hitem
  have hbracket := h item hmem hcalls
  rw [hid] at hbracket
  exact absurd hbracket (by decide)

theorem exists_select_of_ofSql {registry : Registry} {sql : String} {query : Query}
    (h : ofSql registry sql = .ok (some query)) :
    ∃ s, Statement.ofSource sql = .ok (some (.select s)) ∧
      ofSelect registry s = .ok (some query) := by
  unfold ofSql at h
  split at h
  · simp at h
  · simp at h
  · rename_i statement hsource
    cases statement with
    | select s => exact ⟨s, hsource, h⟩
    | other kind => simp [ofStatement] at h

/-- The stages stand in their order, each at most once, and every entry of the projection reads
what the group has. -/
theorem pipeline_resolves (registry : Registry) (sql : String) (q : AggregateQuery)
    (h : ofSql registry sql = .ok (some (.aggregate q))) :
    ∃ s, Statement.ofSource sql = .ok (some (.select s)) ∧
      ∃ stages : Stages, q.pipeline = stages.list ∧
        ∀ project ∈ stages.project, ∀ entry ∈ project,
          Resolves (plainFields s.items) stages.group entry.1 entry.2 := by
  obtain ⟨s, hsource, hselect⟩ := exists_select_of_ofSql h
  obtain ⟨hgrouped, a, filter, having, ha, hpipeline⟩ := exists_of_aggregate hselect
  have hresolved := Aggregation.resolved_of_ofItems
    (functionItems_ne_id (Statement.isSpelled_of_ofSource hsource)) ha
  obtain ⟨stages, hstages, hgroup, hproject⟩ := exists_stages filter _ _ having _ _
  refine ⟨s, hsource, stages, hpipeline.trans hstages, fun project hmem entry hentry => ?_⟩
  rw [hgroup]
  rw [hproject project hmem] at hentry
  exact resolves_of_mem_projectStage hgrouped hresolved hentry

/-- A query that passes a computed check is there. -/
theorem exists_of_any {result : Except QueryError (Option Query)} {check : Query → Bool}
    (h : result.toOption.join.any check = true) :
    ∃ query, result = .ok (some query) ∧ check query = true := by
  rcases result with e | _ | query
  · cases h
  · cases h
  · exact ⟨query, rfl, h⟩

def ratioSql : String :=
  "SELECT u, sum(x + 1) / count(*) AS r FROM t GROUP BY u HAVING r > 2 ORDER BY u LIMIT 5"

theorem pipeline_resolves_ratio :
    ∃ q, ofSql .default ratioSql = .ok (some (.aggregate q)) ∧
      ∃ s, Statement.ofSource ratioSql = .ok (some (.select s)) ∧
        ∃ stages : Stages, q.pipeline = stages.list ∧
          ∀ project ∈ stages.project, ∀ entry ∈ project,
            Resolves (plainFields s.items) stages.group entry.1 entry.2 := by
  have hkind : (ofSql .default ratioSql).toOption.join.any (·.kind == "aggregate") = true := by
    decide +kernel
  obtain ⟨query, hq, hkind⟩ := exists_of_any hkind
  cases query with
  | find q => cases hkind
  | aggregate q => exact ⟨q, hq, pipeline_resolves .default ratioSql q hq⟩

end DocQuery.Query
