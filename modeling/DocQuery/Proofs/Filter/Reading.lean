import DocQuery.Proofs.Filter.Meaning
import DocQuery.Proofs.Filter.Rendering

/-! Documents as queries. The document of a filter, read entry by entry, says what the filter
says. -/

namespace DocQuery

namespace Value

/-- What the value of an entry asks of a field: a document holds operators, and any other value but
a pattern asks for equality. -/
def fieldHolds (σ : Truth) (name : String) : Value → Bool
  | .document fields => fields.all fun (key, value) =>
    (QueryOp.ofKey? key).any fun op => σ name (.operator op value)
  | .pattern text => σ name (.pattern text)
  | value => σ name (.equals value)

mutual

def entriesHold (σ : Truth) : List (String × Value) → Bool
  | [] => true
  | (key, value) :: fields =>
    (if key = "$and" then value.allHold σ
      else if key = "$or" then value.someHolds σ
      else value.fieldHolds σ key) && entriesHold σ fields

def allHold (σ : Truth) : Value → Bool
  | .array items => itemsHold σ items
  | _ => false

def someHolds (σ : Truth) : Value → Bool
  | .array items => someItemHolds σ items
  | _ => false

def itemsHold (σ : Truth) : List Value → Bool
  | [] => true
  | item :: items => item.queryHolds σ && itemsHold σ items

def someItemHolds (σ : Truth) : List Value → Bool
  | [] => false
  | item :: items => item.queryHolds σ || someItemHolds σ items

def queryHolds (σ : Truth) : Value → Bool
  | .document fields => entriesHold σ fields
  | _ => false

end

end Value

def Document.holds (σ : Truth) (doc : Document) : Bool :=
  Value.entriesHold σ doc

/-- The predicate can be told from the value it is written as. -/
def Predicate.Legible : Predicate → Prop
  | equals (.document _) => False
  | equals (.pattern _) => False
  | equals _ => True
  | pattern _ => True
  | operators ops => (operators ops).Proper

/-- A field that is not called like a connective, with a legible predicate. -/
def IsQueryField (name : String) (predicate : Predicate) : Prop :=
  name ∉ ["$and", "$or"] ∧ predicate.Legible

theorem Predicate.Legible.proper {predicate : Predicate} (h : predicate.Legible) :
    predicate.Proper := by
  cases predicate with
  | equals value => trivial
  | pattern text => trivial
  | operators ops => exact h

theorem Predicate.Legible.fieldHolds_image {predicate : Predicate} (h : predicate.Legible)
    (σ : Truth) (name : String) : predicate.image.fieldHolds σ name = predicate.holds σ name := by
  cases predicate with
  | equals value =>
    cases value with
    | document fields => exact h.elim
    | pattern text => exact h.elim
    | _ => rfl
  | pattern text => rfl
  | operators ops =>
    simp [image, Value.fieldHolds, holds, List.all_map, Function.comp_def, QueryOp.ofKey?_key]

namespace Filter

theorem closedUnderMerge_isQueryField : ClosedUnderMerge IsQueryField := by
  intro name ops more hops hmore hdisjoint
  exact ⟨hops.1, closedUnderMerge_proper name ops more hops.2 hmore.2 hdisjoint⟩

theorem itemsHold_memberImages {σ : Truth} {members : List Filter}
    (h : ∀ m ∈ members, Value.entriesHold σ (Clause.listing m) = m.holds σ) :
    Value.itemsHold σ (Clause.memberImages members) = members.all (holds σ) := by
  induction members with
  | nil => rfl
  | cons m members ih =>
    rw [Clause.memberImages, Value.itemsHold, Value.queryHolds, h m List.mem_cons_self,
      ih fun g hg => h g (List.mem_cons_of_mem m hg), List.all_cons]

theorem someItemHolds_memberImages {σ : Truth} {members : List Filter}
    (h : ∀ m ∈ members, Value.entriesHold σ (Clause.listing m) = m.holds σ) :
    Value.someItemHolds σ (Clause.memberImages members) = members.any (holds σ) := by
  induction members with
  | nil => rfl
  | cons m members ih =>
    rw [Clause.memberImages, Value.someItemHolds, Value.queryHolds, h m List.mem_cons_self,
      ih fun g hg => h g (List.mem_cons_of_mem m hg), List.any_cons]

theorem entriesHold_listing {σ : Truth} {f : Filter}
    (h : ∀ c ∈ f, Value.entriesHold σ [(c.key, c.image)] = c.holds σ) :
    Value.entriesHold σ (Clause.listing f) = f.holds σ := by
  induction f with
  | nil => rfl
  | cons c f ih =>
    have hc := h c List.mem_cons_self
    rw [Value.entriesHold, Value.entriesHold, Bool.and_true] at hc
    rw [Clause.listing, Value.entriesHold, hc, ih fun d hd => h d (List.mem_cons_of_mem c hd),
      holds_cons]

theorem Normal.entriesHold {f : Filter} (h : f.Normal IsQueryField) (σ : Truth) :
    Value.entriesHold σ (Clause.listing f) = f.holds σ := by
  induction h with
  | mk keys flat members ih =>
    refine entriesHold_listing fun c hc => ?_
    cases c with
    | field name predicate =>
      have hfield : IsQueryField name predicate := flat _ hc
      have hand : name ≠ "$and" := fun h => hfield.1 (by simp [h])
      have hor : name ≠ "$or" := fun h => hfield.1 (by simp [h])
      simp [Value.entriesHold, Clause.key, Clause.image, hand, hor, hfield.2.fieldHolds_image]
    | and fs =>
      have hfs : Value.itemsHold σ (Clause.memberImages fs) = fs.all (holds σ) :=
        itemsHold_memberImages (ih _ hc)
      simpa [Value.entriesHold, Clause.key, Clause.image, Value.allHold] using hfs
    | or fs =>
      have hfs : Value.someItemHolds σ (Clause.memberImages fs) = fs.any (holds σ) :=
        someItemHolds_memberImages (ih _ hc)
      simpa [Value.entriesHold, Clause.key, Clause.image, Value.someHolds] using hfs

/-- The document of a filter that is built from legible fields says what the filter says. -/
theorem Built.holds_document {f : Filter} (h : f.Built IsQueryField) (σ : Truth) :
    Document.holds σ f.document = f.holds σ := by
  have hnormal := h.normal closedUnderMerge_isQueryField
  rw [Document.holds, hnormal.document_eq_listing fun _ _ hp => hp.2.proper, hnormal.entriesHold]

end Filter

end DocQuery
