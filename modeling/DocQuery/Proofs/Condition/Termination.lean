import DocQuery.Proofs.Condition.Reduction

/-! When reduction comes to an end. The list of a group has as many conditions as the list it is
taken from, and what makes it smaller is the bracket that is taken off its first comparison. A
comparison that opens a bracket further inside keeps it, and its group would be reduced over and
over. -/

namespace DocQuery.Condition

def opened (text : String) : String :=
  String.ofList (Text.stripFirst '(' (Text.trim text.toList))

/-- Reducing the first list takes reducing the second: the operand of an `OR`, the comparisons of a
group, or what comes after them. -/
inductive Calls : List Condition → List Condition → Prop where
  | operand {word : String} {cs : List Condition} (h : (connective word).isOr = true) :
    Calls (connective word :: cs) (splitOperand 0 cs).1
  | afterOperand {word : String} {cs : List Condition} (h : (connective word).isOr = true) :
    Calls (connective word :: cs) (splitOperand 0 cs).2
  | afterConnective {word : String} {cs : List Condition} (h : (connective word).isOr = false) :
    Calls (connective word :: cs) cs
  | afterLeaf {text : String} {names : List String} {cs : List Condition}
    (h : (leaf text names).depth ≤ 0) : Calls (leaf text names :: cs) cs
  | group {text : String} {names : List String} {cs : List Condition}
    (h : 0 < (leaf text names).depth) :
    Calls (leaf text names :: cs)
      (leaf (opened text) names :: (splitGroup (leaf text names).depth cs).1)
  | afterGroup {text : String} {names : List String} {cs : List Condition}
    (h : 0 < (leaf text names).depth) :
    Calls (leaf text names :: cs) (splitGroup (leaf text names).depth cs).2

/-- There is no endless chain of calls from the list on. -/
def Terminates (cs : List Condition) : Prop :=
  Acc (fun sub list => Calls list sub) cs

theorem opened_of_openText? {text : String} {inner : List Char} (h : openText? text = some inner) :
    Text.trim text.toList = '(' :: inner ∧ opened text = String.ofList inner := by
  unfold openText? at h
  split at h
  · rename_i rest htrim
    cases h
    exact ⟨htrim, by rw [opened, htrim]; rfl⟩
  · cases h

theorem opened_of_openText?_eq_none {text : String} (h : openText? text = none) :
    (opened text).toList = Text.trim text.toList := by
  rw [opened, String.toList_ofList]
  unfold openText? at h
  split at h
  · cases h
  · rename_i hnot
    cases htrim : Text.trim text.toList with
    | nil => rfl
    | cons c rest =>
      have hc : c ≠ '(' := by
        rintro rfl
        exact hnot rest htrim
      rw [Text.stripFirst, if_neg hc]

/-! ### Depths -/

theorem balance_trim (text : List Char) : balance (Text.trim text) = balance text := by
  obtain ⟨opening, closing, htext⟩ := Text.exists_trim text
  have hbalance := congrArg balance htext
  simp only [balance_append, balance_blanks] at hbalance
  omega

theorem balance_stripLast_le (text : List Char) :
    balance (Text.stripLast ')' text) ≤ balance text + 1 := by
  rcases List.eq_nil_or_concat text with rfl | ⟨front, c, rfl⟩
  · decide
  rw [List.concat_eq_append, Text.stripLast, List.reverse_append, List.reverse_singleton,
    List.singleton_append, Text.stripFirst]
  by_cases hc : c = ')'
  · rw [if_pos hc, hc, List.reverse_reverse, balance_append, balance_close, balance_nil]
    omega
  · rw [if_neg hc, List.reverse_cons, List.reverse_reverse]
    omega

theorem depth_leaf_trim (text : String) (names : List String) :
    (leaf (String.ofList (Text.trim text.toList)) names).depth = (leaf text names).depth := by
  rw [depth_leaf, balance_trim]
  rfl

theorem depth_closeText_le (text : String) (names : List String) :
    (leaf (closeText text) names).depth ≤ (leaf text names).depth + 1 := by
  have hstrip := balance_stripLast_le (Text.trim text.toList)
  rw [← depth_leaf_trim text names, closeText, depth_leaf, depth_leaf]
  omega

theorem depth_opened {text : String} {inner : List Char} (h : openText? text = some inner)
    (names : List String) : (leaf (opened text) names).depth = (leaf text names).depth - 1 := by
  obtain ⟨htrim, hopened⟩ := opened_of_openText? h
  rw [← depth_leaf_trim text names, hopened, htrim, depth_leaf, depth_leaf, balance_open]
  omega

/-! ### Endless groups -/

theorem not_terminates_of_openText?_eq_none {text : String} {names : List String}
    {cs : List Condition} (hdepth : 0 < (leaf text names).depth) (hopen : openText? text = none) :
    ¬ Terminates (leaf text names :: cs) := by
  intro h
  generalize hlist : leaf text names :: cs = list at h
  induction h generalizing text cs with
  | intro list _ ih =>
    subst hlist
    have htext := opened_of_openText?_eq_none hopen
    have htrim : Text.trim (opened text).toList = Text.trim text.toList := by
      rw [htext, (Text.tight_trim text.toList).trim_eq]
    refine ih _ (.group hdepth) ?_ ?_ rfl
    · rwa [← depth_leaf_trim, htrim, depth_leaf_trim]
    · have hsame : openText? (opened text) = openText? text := by simp only [openText?, htrim]
      exact hsame.trans hopen

/-- A filter, or an inline call that has no value. -/
def Settles (result : Except ReductionError Filter) : Prop :=
  (∃ filter, result = .ok filter) ∨ ∃ e, result = .error (.inline e)

theorem Settles.bind {result : Except ReductionError Filter}
    {next : Filter → Except ReductionError Filter} (h : Settles result)
    (hnext : ∀ filter, Settles (next filter)) : Settles (result >>= next) := by
  rcases h with ⟨filter, rfl⟩ | ⟨e, rfl⟩
  · exact hnext filter
  · exact .inr ⟨e, rfl⟩

/-- Where the calls come to an end, every comparison starts with the brackets it opens. -/
theorem Terminates.settles {cs : List Condition} (h : Terminates cs)
    (convert : List String → List Char → Except InlineError Filter) (f : Filter) :
    Settles (reduceFrom convert f cs) := by
  induction h generalizing f with
  | intro cs hacc ih =>
    match cs with
    | [] => exact .inl ⟨f, reduceFrom_nil convert f⟩
    | connective word :: cs =>
      rw [reduceFrom]
      by_cases hor : (connective word).isOr = true
      · rw [if_pos hor]
        exact (ih _ (.operand hor) []).bind fun sub => ih _ (.afterOperand hor) (f.or sub)
      · rw [if_neg hor]
        exact ih _ (.afterConnective (by simpa using hor)) f
    | leaf text names :: cs =>
      by_cases hdepth : (leaf text names).depth ≤ 0
      · rw [reduceFrom, if_pos hdepth]
        cases convert names (bareText (leaf text names).depth text.toList) with
        | error e => exact .inr ⟨e, rfl⟩
        | ok fragment => exact ih _ (.afterLeaf hdepth) (f.and fragment)
      · have hpos : 0 < (leaf text names).depth := by omega
        cases hopen : openText? text with
        | none => exact absurd (Acc.intro _ hacc) (not_terminates_of_openText?_eq_none hpos hopen)
        | some inner =>
          have hgroup := ih _ (.group hpos) []
          rw [(opened_of_openText? hopen).2] at hgroup
          rw [reduceFrom_group convert f cs hpos hopen]
          exact hgroup.bind fun sub => ih _ (.afterGroup hpos) (f.and sub)

/-! ### Well-bracketed lists -/

def openers (text : List Char) : Nat :=
  ((Text.dropBlanks text).takeWhile (· == '(')).length

def totalDepth : List Condition → Int
  | [] => 0
  | c :: cs => c.depth + totalDepth cs

structure WellBracketed (cs : List Condition) : Prop where
  connectives : ∀ word, connective word ∈ cs → (connective word).depth = 0
  prefixes : ∀ front, front <+: cs → 0 ≤ totalDepth front
  opens : ∀ text names, leaf text names ∈ cs → 0 < (leaf text names).depth →
    (leaf text names).depth ≤ openers text.toList

/-- The brackets that a condition leaves open stand at its start. -/
def OpensFirst : Condition → Prop
  | connective word => (connective word).depth = 0
  | leaf text names => (leaf text names).depth ≤ openers text.toList

instance : DecidablePred OpensFirst
  | connective word => inferInstanceAs (Decidable ((connective word).depth = 0))
  | leaf text names => inferInstanceAs (Decidable ((leaf text names).depth ≤ openers text.toList))

/-- The list goes on at the given depth: no condition closes more brackets than are open, the last
one apart. -/
def Sound (depth : Int) : List Condition → Prop
  | [] => True
  | c :: cs => 0 ≤ depth ∧ c.OpensFirst ∧ Sound (depth + c.depth) cs

theorem openers_trim (text : List Char) : openers (Text.trim text) = openers text := by
  rw [openers, Text.dropBlanks_trim, openers]

theorem openers_open (text : List Char) : openers ('(' :: text) = openers text + 1 := by
  have hdrop : Text.dropBlanks ('(' :: text) = '(' :: Text.dropBlanks text := rfl
  rw [openers, hdrop, List.takeWhile_cons_of_pos (by decide), List.length_cons, openers]

theorem exists_openText?_of_openers_pos {text : String} (h : 0 < openers text.toList) :
    ∃ inner, openText? text = some inner := by
  rw [← openers_trim] at h
  have hhead := (Text.tight_trim text.toList).head
  cases htrim : Text.trim text.toList with
  | nil => simp [htrim, openers, Text.dropBlanks] at h
  | cons c inner =>
    rw [htrim] at h hhead
    have hblank : isBlank c = false := hhead c rfl
    have hc : c = '(' := by
      by_contra hne
      simp [openers, Text.dropBlanks, hblank, hne] at h
    refine ⟨inner, ?_⟩
    rw [openText?, htrim, hc]
    rfl

theorem OpensFirst.opened {text : String} {names : List String}
    (h : (leaf text names).OpensFirst) (hdepth : 0 < (leaf text names).depth) :
    (leaf (opened text) names).OpensFirst ∧
      (leaf (opened text) names).depth = (leaf text names).depth - 1 ∧
      (opened text).toList.length < text.toList.length := by
  have hopens : (leaf text names).depth ≤ openers text.toList := h
  obtain ⟨inner, hinner⟩ : ∃ inner, openText? text = some inner :=
    exists_openText?_of_openers_pos (by omega)
  obtain ⟨htrim, htext⟩ := opened_of_openText? hinner
  have hd := depth_opened hinner names
  refine ⟨?_, hd, ?_⟩
  · show (leaf (Condition.opened text) names).depth ≤ openers (Condition.opened text).toList
    rw [← openers_trim, htrim, openers_open] at hopens
    rw [hd, htext, String.toList_ofList]
    omega
  · rw [htext, String.toList_ofList]
    exact length_openText_lt hinner

theorem opensFirst_of_depth_le {text : String} {names : List String}
    (h : (leaf text names).depth ≤ 0) : (leaf text names).OpensFirst := by
  show (leaf text names).depth ≤ openers text.toList
  omega

namespace Sound

theorem tail {c : Condition} {cs : List Condition} (h : Sound 0 (c :: cs)) (hc : c.depth ≤ 0) :
    Sound 0 cs := by
  obtain ⟨-, -, hcs⟩ := h
  cases cs with
  | nil => trivial
  | cons d cs =>
    have hzero : 0 + c.depth = 0 := by
      have := hcs.1
      omega
    rwa [hzero] at hcs

theorem splitOperand {depth : Int} {cs : List Condition} (h : Sound depth cs) :
    Sound depth (splitOperand depth cs).1 ∧ Sound 0 (splitOperand depth cs).2 := by
  fun_induction Condition.splitOperand depth cs with
  | case1 => exact ⟨trivial, trivial⟩
  | case2 depth c cs hc hor =>
    have hzero : depth = 0 := by simpa using (Bool.and_eq_true_iff.mp hor).2
    exact ⟨trivial, hzero ▸ h⟩
  | case3 depth c cs hc hor operand rest hsplit ih =>
    obtain ⟨hdepth, hopens, hcs⟩ := h
    cases c with
    | leaf text names => cases hc
    | connective word =>
      have hzero : (connective word).depth = 0 := hopens
      rw [hzero, Int.add_zero] at hcs
      have hrest := ih hcs
      rw [hsplit] at hrest
      refine ⟨⟨hdepth, hopens, ?_⟩, hrest.2⟩
      rw [hzero, Int.add_zero]
      exact hrest.1
  | case4 depth c cs hc operand rest hsplit ih =>
    obtain ⟨hdepth, hopens, hcs⟩ := h
    have hrest := ih hcs
    rw [hsplit] at hrest
    exact ⟨⟨hdepth, hopens, hrest.1⟩, hrest.2⟩

/-- Without its first bracket a group lies one level higher. The comparison that closes it had
brackets to close, so it opens none even when it has lost one. -/
theorem splitGroup {depth : Int} {cs : List Condition} (hpos : 0 < depth) (h : Sound depth cs) :
    Sound (depth - 1) (splitGroup depth cs).1 ∧ Sound 0 (splitGroup depth cs).2 := by
  fun_induction Condition.splitGroup depth cs with
  | case1 => exact ⟨trivial, trivial⟩
  | case2 depth cs text names after hzero =>
    obtain ⟨-, -, hcs⟩ := h
    have hclose := depth_closeText_le text names
    have hopens : (leaf (closeText text) names).OpensFirst :=
      opensFirst_of_depth_le (by omega)
    exact ⟨⟨by omega, hopens, trivial⟩, hzero ▸ hcs⟩
  | case3 depth cs text names group rest after hne hsplit ih =>
    obtain ⟨-, hopens, hcs⟩ := h
    cases cs with
    | nil =>
      cases hsplit
      exact ⟨⟨by omega, hopens, trivial⟩, trivial⟩
    | cons c cs =>
      have hafter : 0 < after := by
        have := hcs.1
        omega
      have hrest := ih hafter hcs
      rw [hsplit] at hrest
      refine ⟨⟨by omega, hopens, ?_⟩, hrest.2⟩
      have hshift : depth - 1 + (leaf text names).depth = after - 1 := by omega
      rw [hshift]
      exact hrest.1
  | case4 depth cs word group rest after hsplit ih =>
    obtain ⟨-, hopens, hcs⟩ := h
    have hzero : (connective word).depth = 0 := hopens
    have hrest := ih (by omega) hcs
    rw [hsplit] at hrest
    refine ⟨⟨by omega, hopens, ?_⟩, hrest.2⟩
    have hshift : depth - 1 + (connective word).depth = after - 1 := by omega
    rw [hshift]
    exact hrest.1

/-- Every call is one of a smaller list that is sound again. -/
theorem call {cs sub : List Condition} (h : Sound 0 cs) (hcall : Calls cs sub) :
    Sound 0 sub ∧ weight sub < weight cs := by
  cases hcall with
  | @operand word cs hor =>
    have hzero : (connective word).depth = 0 := h.2.1
    have hweight := weight_splitOperand 0 cs
    exact ⟨(h.tail (by omega)).splitOperand.1, by simp only [weight]; omega⟩
  | @afterOperand word cs hor =>
    have hzero : (connective word).depth = 0 := h.2.1
    have hweight := weight_splitOperand 0 cs
    exact ⟨(h.tail (by omega)).splitOperand.2, by simp only [weight]; omega⟩
  | @afterConnective word cs hor =>
    have hzero : (connective word).depth = 0 := h.2.1
    exact ⟨h.tail (by omega), by simp only [weight]; omega⟩
  | @afterLeaf text names cs hdepth => exact ⟨h.tail hdepth, by simp only [weight]; omega⟩
  | @group text names cs hdepth =>
    obtain ⟨-, hopens, hcs⟩ := h
    obtain ⟨hopened, hd, hlength⟩ := hopens.opened hdepth
    rw [Int.zero_add] at hcs
    have hweight := weight_splitGroup_le (leaf text names).depth cs
    refine ⟨⟨by omega, hopened, ?_⟩, by simp only [weight]; omega⟩
    rw [hd, Int.zero_add]
    exact (hcs.splitGroup hdepth).1
  | @afterGroup text names cs hdepth =>
    obtain ⟨-, -, hcs⟩ := h
    rw [Int.zero_add] at hcs
    have hweight := weight_splitGroup_le (leaf text names).depth cs
    exact ⟨(hcs.splitGroup hdepth).2, by simp only [weight]; omega⟩

theorem terminates {cs : List Condition} (h : Sound 0 cs) : Terminates cs := by
  induction hn : weight cs using Nat.strongRecOn generalizing cs with
  | ind n ih =>
    constructor
    intro sub hcall
    obtain ⟨hsub, hlt⟩ := h.call hcall
    exact ih (weight sub) (hn ▸ hlt) hsub rfl

end Sound

theorem sound_of_forall {depth : Int} {cs : List Condition} (hopens : ∀ c ∈ cs, c.OpensFirst)
    (hprefixes : ∀ front, front <+: cs → 0 ≤ depth + totalDepth front) : Sound depth cs := by
  induction cs generalizing depth with
  | nil => trivial
  | cons c cs ih =>
    have hdepth := hprefixes [] (List.nil_prefix)
    simp only [totalDepth, Int.add_zero] at hdepth
    refine ⟨hdepth, hopens c List.mem_cons_self, ih ?_ ?_⟩
    · exact fun d hd => hopens d (List.mem_cons_of_mem c hd)
    · intro front hfront
      have hcons := hprefixes (c :: front) (List.cons_prefix_cons.mpr ⟨rfl, hfront⟩)
      simp only [totalDepth] at hcons
      omega

theorem WellBracketed.sound {cs : List Condition} (h : WellBracketed cs) : Sound 0 cs := by
  apply sound_of_forall
  · intro c hc
    cases c with
    | connective word => exact h.connectives word hc
    | leaf text names =>
      by_cases hdepth : 0 < (leaf text names).depth
      · exact h.opens text names hc hdepth
      · exact opensFirst_of_depth_le (by omega)
  · intro front hfront
    have := h.prefixes front hfront
    omega

/-- In a well-bracketed list, with groups that are closed or not, no chain of calls is endless, and
reduction has a filter or an inline call without a value. -/
theorem reduce_settles_of_wellBracketed (registry : Registry) (cs : List Condition)
    (h : WellBracketed cs) :
    Terminates cs ∧
      ((∃ filter, reduce registry cs = .ok filter) ∨
        ∃ e, reduce registry cs = .error (.inline e)) :=
  ⟨h.sound.terminates, h.sound.terminates.settles (Comparison.convert registry) []⟩

/-- Two groups stay open, and the first bracket to be closed does not stand at the end. -/
theorem reduce_settles_of_wellBracketed_unclosed :
    let cs := [leaf "( (a = 1" ["a"], connective "OR", leaf "b = 2) + 1" ["b"],
      connective "AND", leaf "(c = date('x')" ["c", "date", "x"]]
    WellBracketed cs ∧ totalDepth cs = 2 ∧ Terminates cs ∧
      ((∃ filter, reduce .default cs = .ok filter) ∨
        ∃ e, reduce .default cs = .error (.inline e)) := by
  intro cs
  have hconnectives : ∀ c ∈ cs, c.isConnective = true → c.depth = 0 := by decide
  have hprefixes : ∀ n < 6, 0 ≤ totalDepth (cs.take n) := by decide
  have hopens : ∀ c ∈ cs, c.OpensFirst := by decide
  have h : WellBracketed cs := by
    refine ⟨fun word hword => hconnectives _ hword rfl, fun front hfront => ?_, ?_⟩
    · rw [List.prefix_iff_eq_take.mp hfront]
      exact hprefixes _ (Nat.lt_succ_of_le hfront.length_le)
    · exact fun text names hleaf _ => hopens _ hleaf
  exact ⟨h, by decide, reduce_settles_of_wellBracketed .default cs h⟩

end DocQuery.Condition
