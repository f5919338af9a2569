import DocQuery.Proofs.Condition.Reduction
import DocQuery.Proofs.Respacing.Brackets
import DocQuery.Proofs.Respacing.Lists

/-! A condition list whose comparisons are spelled in two ways is reduced to the same filter in both
spellings, or to none in both. -/

namespace DocQuery.Twin

open Condition (reduceFrom weight)

/-- A condition with the text of its comparison in both spellings. -/
inductive Entry where
  | connective (word : String)
  | leaf (t : List Cell) (names : List String)

namespace Entry

def condition (second? : Bool) : Entry → Condition
  | connective word => .connective word
  | leaf t names => .leaf (String.ofList (text second? t)) names

def depth (e : Entry) : Int :=
  (e.condition false).depth

theorem depth_condition (second? : Bool) (e : Entry) : (e.condition second?).depth = e.depth := by
  cases e with
  | connective word => rfl
  | leaf t names => exact Condition.depth_text second? t names

end Entry

def conditions (second? : Bool) (es : List Entry) : List Condition :=
  es.map (Entry.condition second?)

@[simp] theorem conditions_nil (second? : Bool) : conditions second? [] = [] :=
  rfl

@[simp] theorem conditions_cons (second? : Bool) (e : Entry) (es : List Entry) :
    conditions second? (e :: es) = e.condition second? :: conditions second? es :=
  rfl

/-! ### Operands and groups -/

def splitOperand (depth : Int) : List Entry → List Entry × List Entry
  | [] => ([], [])
  | .connective word :: es =>
    if (Condition.connective word).isOr && depth == 0 then ([], .connective word :: es)
    else
      let (operand, rest) := splitOperand depth es
      (.connective word :: operand, rest)
  | .leaf t names :: es =>
    let (operand, rest) := splitOperand (depth + (Entry.leaf t names).depth) es
    (.leaf t names :: operand, rest)

def splitGroup (depth : Int) : List Entry → List Entry × List Entry
  | [] => ([], [])
  | e :: es =>
    let depth := depth + e.depth
    match e with
    | .leaf t names =>
      if depth = 0 then ([.leaf (close t) names], es)
      else
        let (group, rest) := splitGroup depth es
        (e :: group, rest)
    | .connective _ =>
      let (group, rest) := splitGroup depth es
      (e :: group, rest)

theorem splitOperand_conditions (depth : Int) (es : List Entry) (second? : Bool) :
    Condition.splitOperand depth (conditions second? es) =
      (conditions second? (splitOperand depth es).1,
        conditions second? (splitOperand depth es).2) := by
  fun_induction splitOperand depth es with
  | case1 => rfl
  | case2 depth word es hor =>
    simp [Entry.condition, Condition.splitOperand, Condition.isConnective, hor]
  | case3 depth word es hor operand rest hsplit ih =>
    simp [Entry.condition, Condition.splitOperand, Condition.isConnective, hor, ih, hsplit]
  | case4 depth t names es operand rest hsplit ih =>
    have hdepth := Entry.depth_condition second? (.leaf t names)
    simp only [Entry.condition] at hdepth
    simp [Entry.condition, Condition.splitOperand, Condition.isConnective, hdepth, ih, hsplit]

theorem splitGroup_conditions (depth : Int) (es : List Entry) (second? : Bool) :
    Condition.splitGroup depth (conditions second? es) =
      (conditions second? (splitGroup depth es).1, conditions second? (splitGroup depth es).2) := by
  fun_induction splitGroup depth es with
  | case1 => rfl
  | case2 depth es t names depth' hzero =>
    have hdepth := Entry.depth_condition second? (.leaf t names)
    simp only [Entry.condition] at hdepth
    simp [Entry.condition, Condition.splitGroup, hdepth, depth', hzero, closeText_text]
  | case3 depth es t names group rest depth' hzero hsplit ih =>
    have hdepth := Entry.depth_condition second? (.leaf t names)
    simp only [Entry.condition] at hdepth
    simp_all [Entry.condition, Condition.splitGroup, depth']
  | case4 depth es word group rest depth' hsplit ih =>
    have hdepth := Entry.depth_condition second? (.connective word)
    simp only [Entry.condition] at hdepth
    simp_all [Entry.condition, Condition.splitGroup, depth']

/-! ### Reduction -/

theorem weight_splitOperand (depth : Int) (es : List Entry) :
    weight (conditions false (splitOperand depth es).1) +
      weight (conditions false (splitOperand depth es).2) = weight (conditions false es) := by
  have hweight := Condition.weight_splitOperand depth (conditions false es)
  rwa [splitOperand_conditions] at hweight

theorem weight_splitGroup_le (depth : Int) (es : List Entry) :
    weight (conditions false (splitGroup depth es).1) +
      weight (conditions false (splitGroup depth es).2) ≤ weight (conditions false es) := by
  have hweight := Condition.weight_splitGroup_le depth (conditions false es)
  rwa [splitGroup_conditions] at hweight

theorem length_open_lt {t inner : List Cell} (h : open? t = some inner) :
    (text false inner).length < (text false t).length := by
  have hopen := openText?_text t false
  rw [h, Option.map_some] at hopen
  simpa using Condition.length_openText_lt hopen

def compared : List Entry → List (List String × List Cell)
  | [] => []
  | .connective word :: es =>
    if (Condition.connective word).isOr then
      compared (splitOperand 0 es).1 ++ compared (splitOperand 0 es).2
    else compared es
  | .leaf t names :: es =>
    if (Entry.leaf t names).depth ≤ 0 then (names, bare (Entry.leaf t names).depth t) :: compared es
    else
      match _h : open? t with
      | none => []
      | some inner =>
        compared (.leaf inner names :: (splitGroup (Entry.leaf t names).depth es).1)
          ++ compared (splitGroup (Entry.leaf t names).depth es).2
termination_by es => weight (conditions false es)
decreasing_by
  · have := weight_splitOperand 0 es
    simp only [conditions_cons, Entry.condition, weight]
    omega
  · have := weight_splitOperand 0 es
    simp only [conditions_cons, Entry.condition, weight]
    omega
  · simp only [conditions_cons, Entry.condition, weight]
    omega
  · simp only [conditions_cons, Entry.condition, weight]
    omega
  · have := weight_splitGroup_le (Entry.leaf t names).depth es
    have := length_open_lt _h
    simp only [conditions_cons, Entry.condition, weight, String.toList_ofList]
    omega
  · have := weight_splitGroup_le (Entry.leaf t names).depth es
    simp only [conditions_cons, Entry.condition, weight]
    omega

theorem toOption_bind {ε α β : Type} (x : Except ε α) (g : α → Except ε β) :
    (x >>= g).toOption = x.toOption.bind fun a => (g a).toOption := by
  cases x <;> rfl

section Steps

variable (convert : List String → List Char → Except InlineError Filter) (f : Filter)
  (second? : Bool) (t : List Cell) (names : List String) (es : List Entry)

theorem reduceFrom_flat (h : (Entry.leaf t names).depth ≤ 0) :
    (reduceFrom convert f (conditions second? (.leaf t names :: es))).toOption =
      (convert names (text second? (bare (Entry.leaf t names).depth t))).toOption.bind
        fun g => (reduceFrom convert (f.and g) (conditions second? es)).toOption := by
  have hdepth := Entry.depth_condition second? (.leaf t names)
  rw [← hdepth] at h
  rw [← bareText_text, ← hdepth]
  simp only [conditions_cons, Entry.condition] at h ⊢
  rw [reduceFrom, if_pos h, String.toList_ofList]
  cases convert names (Condition.bareText
    (Condition.leaf (String.ofList (text second? t)) names).depth (text second? t)) <;> rfl

theorem reduceFrom_openInside (h : ¬ (Entry.leaf t names).depth ≤ 0) (hopen : open? t = none) :
    (reduceFrom convert f (conditions second? (.leaf t names :: es))).toOption = none := by
  have htext := openText?_text t second?
  rw [hopen, Option.map_none] at htext
  rw [← Entry.depth_condition second?] at h
  simp only [conditions_cons, Entry.condition] at h ⊢
  rw [reduceFrom, if_neg h]
  split
  · rfl
  · rename_i inner hsome
    rw [htext] at hsome
    cases hsome

theorem reduceFrom_group {inner : List Cell} (h : ¬ (Entry.leaf t names).depth ≤ 0)
    (hopen : open? t = some inner) :
    (reduceFrom convert f (conditions second? (.leaf t names :: es))).toOption =
      (reduceFrom convert [] (conditions second?
          (.leaf inner names :: (splitGroup (Entry.leaf t names).depth es).1))).toOption.bind
        fun g => (reduceFrom convert (f.and g)
          (conditions second? (splitGroup (Entry.leaf t names).depth es).2)).toOption := by
  have htext := openText?_text t second?
  rw [hopen, Option.map_some] at htext
  have hsplit := splitGroup_conditions (Entry.leaf t names).depth es second?
  rw [← Entry.depth_condition second?] at h
  have hdepth := Entry.depth_condition second? (.leaf t names)
  simp only [conditions_cons, Entry.condition] at h hdepth ⊢
  rw [Condition.reduceFrom_group convert f _ (by omega) htext, toOption_bind, hdepth, hsplit]

theorem reduceFrom_or {word : String} (h : (Condition.connective word).isOr = true) :
    (reduceFrom convert f (conditions second? (.connective word :: es))).toOption =
      (reduceFrom convert [] (conditions second? (splitOperand 0 es).1)).toOption.bind
        fun g => (reduceFrom convert (f.or g)
          (conditions second? (splitOperand 0 es).2)).toOption := by
  rw [conditions_cons, Entry.condition, reduceFrom, if_pos h, splitOperand_conditions,
    toOption_bind]

end Steps

theorem toOption_reduceFrom (registry : Registry) {es : List Entry}
    (h : ∀ p ∈ compared es, settles p.1 p.2 = true) (second? : Bool) (f : Filter) :
    (reduceFrom (Comparison.convert registry) f (conditions second? es)).toOption =
      (reduceFrom (Comparison.convert registry) f (conditions false es)).toOption := by
  fun_induction compared es generalizing f with
  | case1 => rfl
  | case2 word es hor ihoperand ihrest =>
    rw [List.forall_mem_append] at h
    rw [reduceFrom_or _ f second? es hor, reduceFrom_or _ f false es hor, ihoperand h.1]
    simp only [ihrest h.2]
  | case3 word es hor ih =>
    simp only [conditions_cons, Entry.condition, reduceFrom, hor, Bool.false_eq_true, if_false]
    exact ih h f
  | case4 t names es hflat ih =>
    rw [List.forall_mem_cons] at h
    rw [reduceFrom_flat _ f second? t names es hflat, reduceFrom_flat _ f false t names es hflat,
      convert_text h.1]
    simp only [ih h.2]
  | case5 t names es hdeep hopen =>
    rw [reduceFrom_openInside _ f second? t names es hdeep hopen,
      reduceFrom_openInside _ f false t names es hdeep hopen]
  | case6 t names es hdeep inner hopen ihgroup ihrest =>
    rw [List.forall_mem_append] at h
    rw [reduceFrom_group _ f second? t names es hdeep hopen,
      reduceFrom_group _ f false t names es hdeep hopen, ihgroup h.1]
    simp only [ihrest h.2]

end DocQuery.Twin
