import DocQuery.Proofs.Aggregation.Expansion
import DocQuery.Proofs.Arithmetic.Reading

/-! The accumulator of an aggregate function over an expression. It holds the expression over the
fields of a document, in which a call is a document of its own only if there is an operator in its
argument: any other call has been read as one operand, and becomes a reference to a field with the
text of the call for its name. -/

namespace DocQuery

namespace Arithmetic.Term

def hasOperator : Term → Bool
  | atom _ => false
  | star => false
  | binary _ _ _ => true
  | call _ t => t.hasOperator

/-- Every call has an operator in its argument. -/
def operatesInCalls : Term → Bool
  | atom _ => true
  | star => true
  | binary _ s t => s.operatesInCalls && t.operatesInCalls
  | call _ t => t.hasOperator && t.operatesInCalls

theorem expr_of_not_hasOperator {t : Term} (h : t.hasOperator = false) :
    ∃ text, t.expr = .leaf text := by
  induction t with
  | atom a => exact ⟨_, rfl⟩
  | star => exact ⟨_, rfl⟩
  | binary op s t => cases h
  | call name t ih =>
    obtain ⟨text, htext⟩ := ih h
    exact ⟨_, by rw [expr, htext, applied]⟩

theorem applied_of_hasOperator {t : Term} (h : t.hasOperator = true) (name : List Char) :
    applied name t.expr = .call (String.ofList name) t.expr := by
  induction t generalizing name with
  | atom a => cases h
  | star => cases h
  | binary op s t => rfl
  | call inner t ih =>
    rw [expr, ih h inner.text]
    rfl

end Arithmetic.Term

namespace Aggregation

open Arithmetic (Term Printing spell)
open Statement (exists_of_bind_eq_ok)

/-- A term over the fields of a document: a call is a document, whatever its argument is. -/
def translation : Term → Value
  | .atom a => (Literal.number? a.text).getD (.string ("$" ++ String.ofList a.text))
  | .star => .string "$*"
  | .binary op s t => .document [(operatorName op, .array [translation s, translation t])]
  | .call name t => .document [("$" ++ lowercase (String.ofList name.text), translation t)]

/-! ### The value of an operand -/

theorem number?_ne_document {text : List Char} {fields : Document} :
    Literal.number? text ≠ some (.document fields) := by
  intro h
  obtain ⟨n, -, hn⟩ := Option.bind_eq_some_iff.mp h
  unfold Numeral.value? at hn
  split at hn
  · split at hn <;> cases hn
  · cases hn

theorem overFields_leaf_ne (text : String) (fields : Document) :
    overFields (.leaf text) ≠ .document fields := by
  rw [overFields]
  cases hnumber : Literal.number? text.toList with
  | none => simp
  | some value =>
    rintro rfl
    exact number?_ne_document hnumber

theorem overFields_expr_iff (t : Term) :
    overFields t.expr = translation t ↔ t.operatesInCalls = true := by
  induction t with
  | atom a => simp [Term.expr, overFields, translation, Term.operatesInCalls]
  | star =>
    have hstar : Literal.number? ['*'] = none := by decide
    simp [Term.expr, overFields, translation, Term.operatesInCalls, hstar]
  | binary op s t ihs iht =>
    simp [Term.expr, overFields, translation, Term.operatesInCalls, ihs, iht]
  | call name t ih =>
    by_cases h : t.hasOperator = true
    · simp [Term.expr, Term.applied_of_hasOperator h, overFields, translation, Term.operatesInCalls,
        h, ih]
    · have hfalse : t.hasOperator = false := by simpa using h
      obtain ⟨text, htext⟩ := (Term.call name t).expr_of_not_hasOperator hfalse
      rw [htext, translation]
      simp [overFields_leaf_ne, Term.operatesInCalls, hfalse]

/-! ### Select items -/

/-- An item that calls an aggregate function, other than `count`, over a term with an operator. -/
structure AggregateItem where
  item : SelectItem
  name : Arithmetic.Atom
  gathers : lowercase (String.ofList name.text) ∈ gathering
  argument : Term
  operates : argument.hasOperator = true
  printing : Printing 0 (.call name argument)
  gap : Nat → Text.Blanks
  spelled : item.expr = String.ofList (spell gap printing.tokens)

namespace AggregateItem

variable (i : AggregateItem)

def function : String :=
  lowercase (String.ofList i.name.text)

def call : Expr :=
  .call (String.ofList i.name.text) i.argument.expr

def key : String :=
  temporaryKey i.call

def accumulator : Accumulator :=
  .custom (.document [("$" ++ i.function, overFields i.argument.expr)])

theorem read_expr : Expr.read i.item.expr = .ok i.call := by
  have hcall : (Term.call i.name i.argument).expr = i.call :=
    Term.applied_of_hasOperator i.operates i.name.text
  rw [i.spelled, i.printing.read_eq (i.printing.dropBlanks_spell i.gap), hcall]

theorem exists_function : ∃ f, AggregateFn.ofName? (String.ofList i.name.text) = some f ∧
    f ≠ .count := by
  have hblank : ∀ c ∈ (String.ofList i.name.text).toList, isBlank c = false := by
    simpa using i.name.not_blank
  cases hf : AggregateFn.ofName? (String.ofList i.name.text) with
  | none => exact absurd (List.mem_cons_of_mem _ i.gathers) ((ofName?_eq_none_iff hblank).mp hf)
  | some f =>
    refine ⟨f, rfl, ?_⟩
    rintro rfl
    have hgathers := i.gathers
    rw [(ofName?_eq_some_iff hblank).mp hf] at hgathers
    exact absurd hgathers (by decide)

theorem accumulator_eq : i.accumulator = .custom (.document
    [(Expr.callKey (String.ofList i.name.text), fieldRefs i.argument.expr)]) := by
  rw [accumulator, callKey_eq, fieldRefs_eq_overFields, function]

theorem flatten_call (registered : List (String × Accumulator)) :
    flatten registered i.call = .ok (reference i.key, register i.key i.accumulator registered) := by
  obtain ⟨f, hf, hcount⟩ := i.exists_function
  rw [accumulator_eq]
  cases f with
  | count => exact absurd rfl hcount
  | _ =>
    simp only [call, flatten, hf]
    rfl

theorem addItem_eq (a : Aggregation) :
    addItem a i.item = .ok ⟨register i.key i.accumulator a.accumulators,
      a.projections.insert (outputName i.item) (reference i.key)⟩ := by
  have hread := i.read_expr
  have hflatten := i.flatten_call a.accumulators
  rw [call] at hread hflatten
  simp only [addItem, hread, hflatten]
  rfl

theorem ofItems_singleton :
    ofItems [i.item] = .ok ⟨[(i.key, i.accumulator)], [(outputName i.item, reference i.key)]⟩ := by
  have hprocessed : processed [i.item] = [i.item] := by
    by_cases h : Expr.isComposite i.item.expr = true <;> simp [processed, h]
  have hrun : (processed [i.item]).foldlM addItem {} =
      .ok ⟨[(i.key, i.accumulator)], [(outputName i.item, reference i.key)]⟩ := by
    rw [hprocessed, List.foldlM_cons, i.addItem_eq {}]
    rfl
  exact hrun

theorem denotes {items : List SelectItem} (h : i.item ∈ items) :
    Denotes (aggregateCalls items) i.key i.accumulator := by
  have hmem : i.call ∈ aggregateCalls items := by
    apply aggregateCalls_subset h i.read_expr
    simp [call, Expr.aggregateCalls, i.gathers]
  obtain ⟨f, hf, hcount⟩ := i.exists_function
  rw [accumulator_eq]
  exact .call hmem (callKey_of_ofName? (by simpa using i.name.not_blank) hf hcount)

/-- In a select list the key of the item leads to its accumulator, whatever the other items are. -/
theorem lookup_of_mem {items : List SelectItem} {a : Aggregation} (hmem : i.item ∈ items)
    (hfunction : ∀ item ∈ items, NamesFunction item) (hhash : Separated (aggregateCalls items))
    (h : ofItems items = .ok a) : a.accumulators.lookup i.key = some i.accumulator := by
  have hprocessed : processed items ⊆ items := fun item => mem_single_append_composite.mp
  have hstart : Kept (aggregateCalls items) [] := ⟨List.nodup_nil, by simp⟩
  have hitem : i.item ∈ processed items := mem_single_append_composite.mpr hmem
  obtain ⟨front, back, hsplit⟩ := List.append_of_mem hitem
  have hrun : (front ++ i.item :: back).foldlM addItem {} = .ok a := hsplit ▸ h
  rw [hsplit, List.append_subset, List.cons_subset] at hprocessed
  rw [List.foldlM_append] at hrun
  obtain ⟨mid, hmid, hrun⟩ := exists_of_bind_eq_ok hrun
  obtain ⟨-, hkept⟩ := Kept.foldlM hhash hfunction hprocessed.1 hstart hmid
  rw [List.foldlM_cons, i.addItem_eq mid] at hrun
  obtain ⟨⟨rest, hrest⟩, -⟩ := Kept.foldlM hhash hfunction hprocessed.2.2
    (hkept.register (i.denotes hmem)) hrun
  rw [← hrest, List.lookup_append, hkept.lookup_register hhash (i.denotes hmem)]
  rfl

end AggregateItem

/-- The accumulator of an aggregate function over a term is made of the translation of the term, if
and only if every call in the term has an operator in its argument. It is what the item registers
alone, and what its key leads to in every select list whose keys are kept apart. -/
theorem accumulator_eq_translation_iff (i : AggregateItem) :
    ofItems [i.item] =
      .ok ⟨[(i.key, i.accumulator)], [(outputName i.item, .string ("$" ++ i.key))]⟩ ∧
    (∀ items a, i.item ∈ items → (∀ item ∈ items, NamesFunction item) →
      Separated (aggregateCalls items) → ofItems items = .ok a →
      a.accumulators.lookup i.key = some i.accumulator) ∧
    (i.accumulator.value = .document [("$" ++ i.function, translation i.argument)] ↔
      i.argument.operatesInCalls = true) := by
  refine ⟨i.ofItems_singleton, fun items a hmem hfunction hhash h =>
    i.lookup_of_mem hmem hfunction hhash h, ?_⟩
  simpa [AggregateItem.accumulator, Accumulator.value] using overFields_expr_iff i.argument

/-- An average over a product, one factor of which has a call with an operator inside. -/
def discounted : AggregateItem where
  item := ⟨"AVG( a * (1 - abs(b+2)) )", some "AVG", some "d"⟩
  name := ⟨"AVG".toList, by decide, by decide⟩
  gathers := by decide
  argument := .binary .multiply (.atom ⟨['a'], by decide, by decide⟩)
    (.binary .subtract (.atom ⟨['1'], by decide, by decide⟩)
      (.call ⟨"abs".toList, by decide, by decide⟩
        (.binary .add (.atom ⟨['b'], by decide, by decide⟩)
          (.atom ⟨['2'], by decide, by decide⟩))))
  operates := rfl
  printing := .call _ (.binary .multiply (by decide) (.atom _)
    (.group (.binary .subtract (by decide) (.atom _)
      (.call _ (.binary .add (by decide) (.atom _) (.atom _))))))
  gap := fun n => if n ∈ [2, 3, 4, 6, 7, 14] then ⟨[' '], by decide⟩ else .none
  spelled := by decide

theorem accumulator_eq_translation_discounted :
    ∃ a, ofItems [⟨"count(*)", some "count", none⟩, discounted.item] = .ok a ∧
      (a.accumulators.lookup discounted.key).map Accumulator.value =
        some (.document [("$avg", .document [("$multiply", .array [.string "$a",
          .document [("$subtract", .array [.int 1,
            .document [("$abs", .document [("$add", .array [.string "$b", .int 2])])]])]])])]) := by
  have hfunction : ∀ item ∈ [⟨"count(*)", some "count", none⟩, discounted.item],
      NamesFunction item := by
    intro item hitem function hfunction text hleaf
    simp only [List.mem_cons, List.not_mem_nil, or_false] at hitem
    rcases hitem with rfl | rfl
    · cases hleaf
      cases hfunction
      decide
    · rw [discounted.read_expr] at hleaf
      cases hleaf
  obtain ⟨a, ha⟩ : ∃ a, ofItems [⟨"count(*)", some "count", none⟩, discounted.item] = .ok a :=
    ⟨_, rfl⟩
  obtain ⟨-, hlookup, hvalue⟩ := accumulator_eq_translation_iff discounted
  refine ⟨a, ha, ?_⟩
  rw [hlookup _ a (by simp) hfunction (by decide +kernel) ha, Option.map_some, hvalue.mpr rfl]
  rfl

/-- A sum in which a call has a field alone for its argument. -/
def absolute : AggregateItem where
  item := ⟨"sum(a + abs(b))", some "sum", none⟩
  name := ⟨"sum".toList, by decide, by decide⟩
  gathers := by decide
  argument := .binary .add (.atom ⟨['a'], by decide, by decide⟩)
    (.call ⟨"abs".toList, by decide, by decide⟩ (.atom ⟨['b'], by decide, by decide⟩))
  operates := rfl
  printing := .call _ (.binary .add (by decide) (.atom _) (.call _ (.atom _)))
  gap := fun n => if n ∈ [3, 4] then ⟨[' '], by decide⟩ else .none
  spelled := by decide

/-- The call is gathered as a field called `abs(b)`. -/
theorem accumulator_ne_translation_absolute :
    translation absolute.argument =
      .document [("$add", .array [.string "$a", .document [("$abs", .string "$b")]])] ∧
    ofItems [⟨"sum(a + abs(b))", some "sum", none⟩] = .ok
      ⟨[(absolute.key, .custom (.document
          [("$sum", .document [("$add", .array [.string "$a", .string "$abs(b)"])])]))],
        [("sum(a + abs(b))", .string ("$" ++ absolute.key))]⟩ :=
  ⟨rfl, rfl⟩

end Aggregation

end DocQuery
