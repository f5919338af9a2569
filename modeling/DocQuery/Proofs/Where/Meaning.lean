import DocQuery.Proofs.Condition.Meaning
import DocQuery.Proofs.Filter.Reading
import DocQuery.Proofs.Where.ConditionList
import DocQuery.Proofs.Where.Conversion
import DocQuery.Proofs.Where.Sentence

/-! What a query with a `WHERE` clause means: its filter, read as a document, has the truth value of
the formula of the clause. -/

namespace DocQuery.Where

open Condition (Level)

/-! ### The filter of a formula -/

theorem Comparator.legible_predicate (c : Comparator) (v : Operand) :
    (c.predicate v.value).Legible := by
  cases c with
  | eq => cases v <;> trivial
  | _ => exact ⟨by simp, by simp⟩

theorem Test.field_notMem (t : Test) : t.field ∉ ["$and", "$or"] :=
  t.path.notMem_connectives

theorem Test.convert_leaf (t : Test) (registry : Registry) :
    t.leaf.convert registry =
      .ok (.ofField t.field (t.comparator.predicate t.operand.value)) := by
  have hconvert : Comparison.convert registry t.leaf.names t.leaf.text = _ := t.convert registry
  rw [Condition.Leaf.convert, hconvert]
  rfl

theorem Test.verdict_ofField (t : Test) (σ : Truth) :
    (Filter.ofField t.field (t.comparator.predicate t.operand.value)).verdict σ =
      .decided (t.holds σ) := by
  have hname : t.field ≠ "$and" ∧ t.field ≠ "$or" := by simpa using t.field_notMem
  have hread : (Filter.ofField t.field (t.comparator.predicate t.operand.value)).isReadable =
      true := by
    simp [Filter.ofField, Clause.isReadable, hname]
  rw [Filter.verdict_of_isReadable hread (List.cons_ne_nil _ _)]
  simp [Filter.ofField, t.comparator.holds_predicate, holds]

/-- The filter of a formula is built from the fields of its comparisons, and has its truth value. -/
theorem Formula.filter_expression {level : Level} (e : Formula level) (registry : Registry) :
    ∃ f, e.expression.filter (Condition.Leaf.convert registry) = .ok f ∧
      f.Built IsQueryField ∧ ∀ σ, f.verdict σ = .decided (e.eval σ) := by
  induction e with
  | test t =>
    exact ⟨_, t.convert_leaf registry,
      .field ⟨t.field_notMem, t.comparator.legible_predicate t.operand⟩, t.verdict_ofField⟩
  | group a b e ih => exact ih
  | primary p ih => exact ih
  | and x j p ihx ihp =>
    obtain ⟨f, hf, hbuilt, hverdict⟩ := ihx
    obtain ⟨g, hg, hbuilt', hverdict'⟩ := ihp
    refine ⟨f.and g, ?_, hbuilt.and hbuilt', fun σ => ?_⟩
    · rw [expression, Condition.Expression.filter, hf, hg]
      rfl
    · rw [Filter.verdict_and, hverdict, hverdict', Verdict.decided_combine_decided, eval]
  | conjunction x ih => exact ih
  | or d j x ihd ihx =>
    obtain ⟨f, hf, hbuilt, hverdict⟩ := ihd
    obtain ⟨g, hg, hbuilt', hverdict'⟩ := ihx
    refine ⟨f.or g, ?_, hbuilt.or hbuilt', fun σ => ?_⟩
    · rw [expression, Condition.Expression.filter, hf, hg]
      rfl
    · rw [Filter.verdict_or, hverdict, hverdict', Verdict.decided_combine_decided, eval]

/-! ### Reading the statement -/

def sentence (table : Name) (e : Formula .disjunction) : String :=
  "SELECT * FROM " ++ String.ofList table.text ++ " WHERE " ++ String.ofList e.text

def select (table : Name) (e : Formula .disjunction) : Select :=
  { items := [⟨"*", none, none⟩], tables := [⟨String.ofList table.text, none, none⟩],
    conditions := e.expression.conditions [] [] }

theorem ofSource_statement (table : Name) (e : Formula .disjunction) :
    Statement.ofSource (sentence table e) = .ok (some (.select (select table e))) := by
  have hspace : ∀ c ∈ [' '], isBlank c = true := by decide
  have hreads : ReadsAs e.text (e.expression.conditions [] []) :=
    ⟨e.lexemes [' '], e.source_lexemes [' '], e.scans hspace (by simp [Lexeme.Stops]),
      e.readConditions_lexemes [' '] rfl⟩
  exact hreads.ofSource table

/-- For every formula, whatever the inline functions are, the sentence is a find whose filter
document, read as a query, has the truth value of the formula under every assignment. -/
theorem where_meaning (registry : Registry) (table : Name) (e : Formula .disjunction) :
    ∃ q, Query.ofSql registry (sentence table e) = .ok (some (.find q)) ∧
      ∀ σ, q.filterDocument.holds σ = e.eval σ := by
  obtain ⟨f, hf, hbuilt, hverdict⟩ := e.filter_expression registry
  have hreduce : Query.reduceConditions registry (select table e).conditions = .ok f := by
    rw [Query.reduceConditions, select, Condition.reduce_eq_filter, hf]
  have hselect : Query.ofSelect registry (select table e) =
      .ok (some (.find (Query.findQuery (String.ofList table.text) f (select table e)))) := by
    show (Query.reduceConditions registry (select table e).conditions >>= fun _ => _) = _
    rw [hreduce]
    rfl
  refine ⟨Query.findQuery (String.ofList table.text) f (select table e), ?_, fun σ => ?_⟩
  · rw [Query.ofSql, ofSource_statement]
    exact hselect
  · exact (hbuilt.holds_document σ).trans (Filter.holds_of_verdict_eq_decided (hverdict σ))

example :
    let a : Name := ⟨'a', [], by decide, by decide, by decide⟩
    let space : Gap := ⟨[' '], by decide, by decide⟩
    let below : Test := ⟨⟨a, [a], by decide⟩, space, .ltEq, space,
      .integer true ['0', '7'] (by decide) (by decide) (by decide)⟩
    let other : Test := ⟨⟨a, [], by decide⟩, space, .notEq .angled, space,
      .string ") OR (".toList (by decide)⟩
    let e : Formula .disjunction := .or (.conjunction (.primary (.test below)))
      ⟨space, .word "oR".toList (by decide), space⟩
      (.and (.primary (.group .none ⟨[' '], by decide⟩ (.conjunction (.primary (.test other)))))
        ⟨space, .symbol, space⟩ (.test below))
    e.text = "a.a <= -07 oR (a <> ') OR (' ) && a.a <= -07".toList := by
  decide

end DocQuery.Where
