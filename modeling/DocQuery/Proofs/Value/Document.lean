import DocQuery.Value.Basic

/-! What a document holds after fields are set: the last value set under a key, and what was there
before under every other key. -/

namespace DocQuery.Document

theorem get?_cons (key other : String) (value : Value) (doc : Document) :
    get? other ((key, value) :: doc) = if other = key then some value else get? other doc := by
  by_cases h : other = key
  · simp [get?, h]
  · have hne : (other == key) = false := beq_false_of_ne h
    simp [get?, List.lookup_cons, h, hne]

theorem get?_insert (doc : Document) (key other : String) (value : Value) :
    (doc.insert key value).get? other = if other = key then some value else doc.get? other := by
  induction doc with
  | nil => exact get?_cons key other value []
  | cons entry doc ih =>
    obtain ⟨k, v⟩ := entry
    by_cases hk : k = key
    · subst hk
      by_cases h : other = k <;> simp [insert, get?_cons, h]
    · by_cases h : other = k
      · have hne : other ≠ key := fun he => hk (h ▸ he)
        simp [insert, hk, get?_cons, h]
      · simp [insert, hk, get?_cons, h, ih]

theorem mem_insert {doc : Document} {key : String} {value : Value} {entry : String × Value}
    (h : entry ∈ doc.insert key value) : entry = (key, value) ∨ entry ∈ doc := by
  induction doc with
  | nil => simpa [insert] using h
  | cons first doc ih =>
    obtain ⟨k, v⟩ := first
    by_cases hk : k = key
    · simp only [insert, hk, if_true, List.mem_cons] at h
      exact h.imp_right (List.mem_cons_of_mem _)
    · simp only [insert, hk, if_false, List.mem_cons] at h
      rcases h with rfl | h
      · exact .inr List.mem_cons_self
      · exact (ih h).imp_right (List.mem_cons_of_mem _)

theorem get?_insertAll (doc : Document) (fields : List (String × Value)) (key : String) :
    (doc.insertAll fields).get? key = (get? key fields.reverse).or (doc.get? key) := by
  induction fields generalizing doc with
  | nil => simp [insertAll, get?]
  | cons entry fields ih =>
    obtain ⟨k, v⟩ := entry
    have hstep : doc.insertAll ((k, v) :: fields) = (doc.insert k v).insertAll fields := rfl
    have hlast : get? key ((k, v) :: fields).reverse =
        (get? key fields.reverse).or (get? key [(k, v)]) := by
      rw [List.reverse_cons, get?, List.lookup_append]
      rfl
    rw [hstep, ih, get?_insert, hlast, get?_cons, Option.or_assoc]
    by_cases h : key = k <;> simp [get?, h]

theorem mem_insertAll {doc : Document} {fields : List (String × Value)} {entry : String × Value}
    (h : entry ∈ doc.insertAll fields) : entry ∈ fields ∨ entry ∈ doc := by
  induction fields generalizing doc with
  | nil => exact .inr h
  | cons first fields ih =>
    rcases ih h with hf | hd
    · exact .inl (List.mem_cons_of_mem _ hf)
    · rcases mem_insert hd with rfl | hd
      · exact .inl List.mem_cons_self
      · exact .inr hd

theorem get?_eq_none_iff {doc : Document} {key : String} :
    doc.get? key = none ↔ key ∉ doc.keys := by
  simp only [get?, List.lookup_eq_none_iff, keys, List.mem_map, not_exists, not_and, bne_iff_ne]
  exact ⟨fun h entry hm he => h entry hm he.symm, fun h entry hm he => h entry hm he.symm⟩

theorem mem_of_get? {doc : Document} {key : String} {value : Value}
    (h : doc.get? key = some value) : (key, value) ∈ doc := by
  obtain ⟨front, back, rfl, -⟩ := List.lookup_eq_some_iff.mp h
  simp

theorem get?_insertAll_of_notMem (doc : Document) {fields : List (String × Value)} {key : String}
    (h : key ∉ keys fields) : (doc.insertAll fields).get? key = doc.get? key := by
  have hlast : get? key fields.reverse = none := get?_eq_none_iff.mpr (by simpa [keys] using h)
  rw [get?_insertAll, hlast, Option.none_or]

theorem get?_insertAll_of_mem (doc : Document) {fields : List (String × Value)} {key : String}
    (h : key ∈ keys fields) :
    ∃ value, (key, value) ∈ fields ∧ (doc.insertAll fields).get? key = some value := by
  have hlast : get? key fields.reverse ≠ none := fun hn =>
    get?_eq_none_iff.mp hn (by simpa [keys] using h)
  obtain ⟨value, hvalue⟩ := Option.ne_none_iff_exists'.mp hlast
  refine ⟨value, List.mem_reverse.mp (mem_of_get? hvalue), ?_⟩
  rw [get?_insertAll, hvalue, Option.some_or]

theorem mem_keys_insert {doc : Document} {key other : String} {value : Value} :
    other ∈ (doc.insert key value).keys ↔ other = key ∨ other ∈ doc.keys := by
  have hget := get?_insert doc key other value
  by_cases h : other = key
  · have hmem : other ∈ (doc.insert key value).keys :=
      List.mem_map.mpr ⟨_, mem_of_get? (hget.trans (if_pos h)), rfl⟩
    exact iff_of_true hmem (.inl h)
  · have hnone : other ∉ (doc.insert key value).keys ↔ other ∉ doc.keys := by
      rw [← get?_eq_none_iff, hget, if_neg h, get?_eq_none_iff]
    simp [h, Decidable.not_iff_not.mp hnone]

theorem mem_keys_insertAll {doc : Document} {fields : List (String × Value)} {key : String} :
    key ∈ (doc.insertAll fields).keys ↔ key ∈ keys fields ∨ key ∈ doc.keys := by
  induction fields generalizing doc with
  | nil => simp [insertAll, keys]
  | cons entry fields ih =>
    obtain ⟨k, v⟩ := entry
    have hstep : doc.insertAll ((k, v) :: fields) = (doc.insert k v).insertAll fields := rfl
    have hkeys : keys ((k, v) :: fields) = k :: keys fields := rfl
    rw [hstep, ih, mem_keys_insert, hkeys, List.mem_cons, or_assoc, or_left_comm]

end DocQuery.Document
