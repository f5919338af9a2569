import DocQuery.Proofs.Where.Listing

/-! Comparisons with an inline call: when the function that is called, and the payload it is given,
are those of the call. -/

namespace DocQuery.Where

open Mask (Segment Hides Settled textOf numbered placeholder)

namespace Call

def name (c : Call) : String :=
  String.ofList c.function.text

def argument (c : Call) : String :=
  String.ofList c.payload

def value (c : Call) (builder : Builder) : Except InlineError Value :=
  (builder c.argument).mapError (⟨c.name, c.argument, ·⟩)

/-- The names of a comparison tell the call from its field. A payload that is the field or the
function is listed once only. A step of a path is taken for the function, and the next one for the
payload. -/
def ToldFrom (c : Call) (f : Path) : Prop :=
  let differs := c.payload ≠ f.text ∧ c.payload ≠ c.function.text
  if f.rest = [] then differs
  else f.first.text = c.function.text ∧
    match f.rest.find? (·.text != c.function.text) with
    | some step => step.text = c.payload
    | none => differs

end Call

/-! ### The names left for a call -/

theorem take_two_iff {names : List String} (h : names.Nodup) (a b : String) :
    names.take 2 = [a, b] ↔ names.head? = some a ∧ names.find? (· != a) = some b := by
  rcases names with _ | ⟨x, _ | ⟨y, rest⟩⟩
  · simp
  · simp only [List.take_succ_cons, List.take_nil, List.head?_cons, List.find?_cons,
      List.find?_nil]
    constructor
    · simp
    · rintro ⟨hx, hb⟩
      cases hx
      simp at hb
  · have hne : y ≠ x := fun heq => (List.nodup_cons.mp h).1 (heq ▸ List.mem_cons_self)
    simp only [List.take_succ_cons, List.take_zero, List.head?_cons, List.cons.injEq, and_true,
      Option.some.injEq]
    constructor
    · rintro ⟨rfl, rfl⟩
      simp [hne]
    · rintro ⟨rfl, hb⟩
      simpa [hne] using hb

theorem Path.text_ne_name (f : Path) (hrest : f.rest ≠ []) (n : Name) : f.text ≠ n.text := by
  have hdot : '.' ∉ n.text := by
    intro hmem
    refine n.forall_mem (P := (· ≠ '.')) ?_ ?_ _ hmem rfl
    all_goals
      rintro d hd rfl
      exact absurd hd (by decide)
  intro heq
  obtain ⟨step, others, hsteps⟩ := List.exists_cons_of_ne_nil hrest
  refine hdot (heq ▸ ?_)
  simp [Path.text, hsteps, steps]

namespace Call

variable {c : Call} {f : Path}

theorem suppliedBy_distinct_iff (names : List String) :
    c.SuppliedBy f (Statement.distinct names) ↔
      names.find? (fun name => decide (f.text = c.function.text) || name != String.ofList f.text) =
        some c.name ∧
      names.find? (fun name => (decide (f.text = c.function.text) || name != String.ofList f.text)
        && name != c.name) = some c.argument := by
  have hnodup : (c.candidates f (Statement.distinct names)).Nodup :=
    (nodup_distinct names).sublist List.filter_sublist
  have htake := take_two_iff hnodup c.name c.argument
  rw [Call.candidates, List.head?_filter, List.find?_filter, find?_distinct, find?_distinct] at htake
  simp only [Bool.decide_and, Bool.decide_eq_true] at htake
  exact htake

theorem find?_plain (field function payload : String) :
    ([field, function, payload].find? (fun name => decide (field = function) || name != field) =
        some function ∧
      [field, function, payload].find? (fun name => (decide (field = function) || name != field)
        && name != function) = some payload) ↔ payload ≠ field ∧ payload ≠ function := by
  by_cases hfield : field = function
  · by_cases hpayload : payload = function <;> simp [hfield, hpayload]
  · have hfunction : function ≠ field := Ne.symm hfield
    by_cases hsame : payload = field
    · simp [hfield, hfunction, hsame]
    · by_cases hpayload : payload = function <;> simp [hfield, hfunction, hsame, hpayload]

theorem find?_dotted {path first function : String} {others : List String}
    (hfirst : first ≠ path) (hothers : ∀ step ∈ others, step ≠ path) (hfunction : function ≠ path)
    (payload : String) :
    ((first :: (others ++ [function, payload])).find? (· != path) = some function ∧
      (first :: (others ++ [function, payload])).find? (fun name => name != path
        && name != function) = some payload) ↔
      first = function ∧
        match others.find? (· != function) with
        | some step => step = payload
        | none => payload ≠ path ∧ payload ≠ function := by
  have hsteps : others.find? (fun name => name != path && name != function) =
      others.find? (· != function) := by
    induction others with
    | nil => rfl
    | cons step others ih =>
      have hstep : (step != path && step != function) = (step != function) := by
        simp [hothers step List.mem_cons_self]
      rw [List.find?_cons, List.find?_cons, hstep,
        ih fun s hs => hothers s (List.mem_cons_of_mem step hs)]
  have hlast : [function, payload].find? (fun name => name != path && name != function) =
      if payload ≠ path ∧ payload ≠ function then some payload else none := by
    by_cases hsame : payload = path
    · simp [hsame]
    · by_cases hpayload : payload = function <;> simp [hsame, hpayload]
  rw [List.find?_cons_of_pos (by simpa using hfirst), Option.some.injEq]
  refine and_congr_right fun heq => ?_
  subst heq
  rw [List.find?_cons_of_neg (by simp), List.find?_append, hsteps, hlast]
  cases others.find? (· != first) with
  | some step => simp
  | none => simp

theorem suppliedBy_comparedNames_iff (c : Call) (f : Path) :
    c.SuppliedBy f (comparedNames f (.call c)) ↔ c.ToldFrom f := by
  have hnames : f.names ++ (Term.call c).names = String.ofList f.first.text ::
      (f.rest.map (fun n => String.ofList n.text) ++ [c.name, c.argument]) := rfl
  have hpayload : ∀ text, c.payload ≠ text ↔ c.argument ≠ String.ofList text := fun text => by
    rw [argument, ne_eq, ne_eq, String.ofList_inj]
  rw [comparedNames, suppliedBy_distinct_iff, hnames, ToldFrom]
  -- A field without a point is itself one of the names; a dotted one is in the list step by step
  -- only.
  by_cases hrest : f.rest = []
  · have htext : f.text = f.first.text := by simp [Path.text, hrest, steps]
    have hcalls : decide (f.first.text = c.function.text) =
        decide (String.ofList f.first.text = c.name) := by
      rw [decide_eq_decide, name, String.ofList_inj]
    rw [if_pos hrest, hpayload, hpayload, hrest, htext, hcalls]
    exact find?_plain _ _ _
  · have hcalls : decide (f.text = c.function.text) = false :=
      decide_eq_false (f.text_ne_name hrest c.function)
    have hne : ∀ n : Name, String.ofList n.text ≠ String.ofList f.text := fun n heq =>
      f.text_ne_name hrest n (String.ofList_inj.mp heq).symm
    have hfind : (f.rest.map fun n => String.ofList n.text).find? (· != c.name) =
        (f.rest.find? (·.text != c.function.text)).map fun n => String.ofList n.text := by
      rw [List.find?_map]
      congr 2
      funext n
      rw [Function.comp_apply, Bool.eq_iff_iff, bne_iff_ne, bne_iff_ne, name, ne_eq, ne_eq,
        String.ofList_inj]
    have hsteps : ∀ step ∈ f.rest.map fun n => String.ofList n.text,
        step ≠ String.ofList f.text := by
      intro step hstep
      obtain ⟨n, -, rfl⟩ := List.mem_map.mp hstep
      exact hne n
    have hdotted := find?_dotted (hne f.first) hsteps (hne c.function) c.argument
    simp only [hcalls, Bool.false_or]
    rw [if_neg hrest]
    refine hdotted.trans ?_
    rw [← name, hfind, name, String.ofList_inj]
    refine and_congr_right fun _ => ?_
    cases f.rest.find? (·.text != c.function.text) with
    | some step => simp [argument, String.ofList_inj]
    | none =>
      rw [hpayload, hpayload]
      rfl

/-! ### Comparisons -/

theorem tight_text (c : Call) : Text.Tight (Term.call c).text := by
  obtain ⟨front, d, htext, hd⟩ := (Term.call c).exists_getLast
  refine ⟨?_, ?_⟩
  · rw [c.text_eq]
    rintro e ⟨rfl⟩
    exact Lexeme.isBlank_of_isNameStart c.function.start
  · rw [htext, List.getLast?_concat]
    rintro e ⟨rfl⟩
    exact hd

theorem get?_probe (c : Call) (other : Name) : ∃ builder,
    (c.probe other).get? c.name = some builder ∧ c.value builder = .ok (.int 0) := by
  refine ⟨_, List.lookup_cons_self, ?_⟩
  simp [value, Except.mapError, argument]

end Call

theorem found_injective {table : Name} {x y : Except InlineError Filter}
    (h : found table x = found table y) : x = y := by
  cases x <;> cases y <;> simp_all [found]

theorem Comparator.predicate_injective (op : Comparator) {x y : Value}
    (h : op.predicate x = op.predicate y) : x = y := by
  cases op <;> simpa [predicate, Predicate.operator] using h

/-- A comparison with a call has the value of the call exactly if it is told from the field. -/
theorem ofSql_call_iff (table : Name) (f : Path) (op : Comparator) (c : Call) :
    (∀ registry builder, registry.get? c.name = some builder →
      Query.ofSql registry (rowsWhere table (compared f op (.call c))) =
        found table ((c.value builder).map fun value =>
          .ofField (String.ofList f.text) (op.predicate value))) ↔
      c.ToldFrom f := by
  have hsql : ∀ registry, Query.ofSql registry (rowsWhere table (compared f op (.call c))) =
      found table ((Comparison.coerce registry (comparedNames f (.call c)) f.text
        (Term.call c).text).map fun value =>
          .ofField (String.ofList f.text) (op.predicate value)) := fun registry => by
    rw [ofSql_compared, convert_compared]
  have htight := c.tight_text
  rw [c.text_eq] at hsql htight
  rw [← c.suppliedBy_comparedNames_iff]
  constructor
  · intro h
    obtain ⟨builder, hbuilder, hvalue⟩ := c.get?_probe c.function
    have heq := found_injective ((hsql _).symm.trans (h _ builder hbuilder))
    have hzero : Comparison.coerce (c.probe c.function) (comparedNames f (.call c)) f.text
        (c.function.text ++ '(' :: '\'' :: (c.payload ++ ['\'', ')'])) = .ok (.int 0) := by
      revert heq
      rw [hvalue]
      cases Comparison.coerce (c.probe c.function) (comparedNames f (.call c)) f.text
          (c.function.text ++ '(' :: '\'' :: (c.payload ++ ['\'', ')'])) with
      | error e => exact fun heq => by cases heq
      | ok value =>
        intro heq
        have hpredicate : op.predicate value = op.predicate (.int 0) := by
          simpa [Except.map, Filter.ofField] using heq
        rw [op.predicate_injective hpredicate]
    exact Call.suppliedBy_of_coerce htight hzero
  · intro hsupplied registry builder hbuilder
    rw [hsql, Call.coerce_of_suppliedBy hsupplied hbuilder htight]
    rfl

/-! ### Lists -/

namespace Call

variable {c : Call} {literals : List (List Char)}

theorem literals_eq (h : (Term.call c).MaskedBy literals) :
    literals = if c.payload = [] then [] else ['\'' :: (c.payload ++ ['\''])] := by
  have hmem : ∀ {q text}, .quoted q text ∈ (Term.call c).segments → q = '\'' ∧ text = c.payload := by
    intro q text hq
    simpa [Term.segments] using hq
  have honly : ∀ literal ∈ literals,
      c.payload ≠ [] ∧ literal = '\'' :: (c.payload ++ ['\'']) := by
    intro literal hliteral
    obtain ⟨q, text, hq, hne, rfl⟩ := h.only literal hliteral
    obtain ⟨rfl, rfl⟩ := hmem hq
    exact ⟨hne, rfl⟩
  split
  · rename_i hnil
    exact List.eq_nil_iff_forall_not_mem.mpr fun literal hl => (honly literal hl).1 hnil
  · rename_i hne
    have hhidden := h.hidden '\'' c.payload (by simp [Term.segments]) hne
    rcases literals with _ | ⟨literal, _ | ⟨next, rest⟩⟩
    · cases hhidden
    · rw [(honly literal List.mem_cons_self).2]
    · have hlength := h.length_le_one
      simp at hlength

theorem listItem (h : (Term.call c).MaskedBy literals) (registry : Registry) :
    Comparison.listItem registry (numbered literals) ((Term.call c).masked literals) =
      if c.payload = [] then .ok (.string (String.ofList (Term.call c).text))
      else (registry.build c.name c.argument).map
        (·.getD (.string (String.ofList (Term.call c).text))) := by
  have hitem : ((numbered literals).restoreCollecting
      (Text.trim ((Term.call c).masked literals))).1 = (Term.call c).text := by
    rw [(Term.solid_masked h.hidden).tight.trim_eq, Mask.fst_restoreCollecting, h.restore]
  have hcontents : ((numbered literals).restoreCollecting
      (Text.trim ((Term.call c).masked literals))).2 =
        if c.payload = [] then [] else [c.argument] := by
    rw [(Term.solid_masked h.hidden).tight.trim_eq, literals_eq h]
    split
    · rfl
    · -- The only placeholder stands in the masked call.
      have hmasked : (Term.call c).masked ['\'' :: (c.payload ++ ['\''])] =
          (c.function.text ++ ['(']) ++ placeholder 0 ++ [')'] := by
        simp [Term.masked, Term.segments, textOf, Segment.masked, Segment.text]
      have hoccurs : Text.contains (placeholder 0)
          ((Term.call c).masked ['\'' :: (c.payload ++ ['\''])]) = true := by
        rw [hmasked, Text.contains_iff_isInfix]
        exact ⟨_, _, rfl⟩
      have hcontent := Literal.unquoted_quoted (q := '\'') (by decide) c.payload
      show (if Text.contains (placeholder 0) _ then _ else _ : List Char × List String).2 = _
      rw [if_pos hoccurs, hcontent]
      rfl
  have hscalar : Literal.scalar? (Term.call c).text = none := by
    have htight := c.tight_text
    rw [c.text_eq] at htight ⊢
    exact c.scalar?_eq_none htight
  have hcall : Literal.isInlineCall (Term.call c).text = true := by
    rw [c.text_eq]
    exact c.isInlineCall _
  have hparen : (Term.call c).text.contains '(' = true := by
    rw [c.text_eq]
    simp
  have hbefore : String.ofList (Text.trim (Text.before '(' (Term.call c).text)) = c.name := by
    have hname : ∀ d ∈ c.function.text, (d != '(') = true := by
      intro d hd
      rw [bne_iff_ne]
      rintro rfl
      exact absurd (c.function.not_delimiter _ hd) (by decide)
    rw [c.text_eq, Text.before, Lexeme.takeWhile_append_of_head hname (by simp),
      c.function.solid.tight.trim_eq]
    rfl
  rw [Comparison.listItem]
  simp only [hitem, hscalar, hcontents, hcall, hparen, hbefore]
  by_cases hnil : c.payload = []
  · simp only [hnil, if_true, List.length_nil]
    rfl
  · simp only [hnil, if_false, List.length_singleton, and_self, if_true]
    cases registry.build c.name c.argument <;> rfl

end Call

theorem ofSql_listed_call (table : Name) (f : Path) (c : Call) (registry : Registry) :
    Query.ofSql registry (rowsWhere table (listed false f [.call c])) =
      found table ((if c.payload = [] then .ok (.string (String.ofList (Term.call c).text))
        else (registry.build c.name c.argument).map
          (·.getD (.string (String.ofList (Term.call c).text)))).map fun value =>
            .ofField (String.ofList f.text) (.operator .isIn (.array [value]))) := by
  have htext : ∀ text, f.text ++ (" IN (".toList ++ text ++ [')']) =
      f.text ++ listWords false ++ '(' :: (text ++ [')']) := by
    intro text
    simp [listWords]
  have hlisted : listed false f [.call c] =
      f.text ++ (" IN (".toList ++ (Term.call c).text ++ [')']) := by
    rw [htext, listed]
    simp
  have hnames : listedNames f [.call c] = comparedNames f (.call c) := by
    simp [listedNames, comparedNames]
  have hleaf := isLeaf_around f (.call c) " IN (".toList [')']
    (fun text h => (Condition.isBalancedFrom_append h 1 [')']).trans rfl) (by decide)
    (by rintro _ ⟨⟩; decide)
  rw [← hlisted] at hleaf
  have hreads := readsAs_listed false f [.call c]
  rw [hnames] at hreads
  have hbefore : ∀ d ∈ " IN (".toList, Literal.isQuote d = false := by decide
  have hafter : ∀ d ∈ [')'], Literal.isQuote d = false := by decide
  obtain ⟨literals, hmasked, hprotect⟩ := exists_protect_around f (.call c) hbefore hafter
  rw [← hlisted, htext] at hprotect
  have hhidden : ∀ t ∈ [Term.call c], t.HiddenBy literals := by simpa using hmasked.hidden
  have hitems := mapM_fields_joined (List.cons_ne_nil _ _) hhidden registry (numbered literals)
  rw [List.map_singleton, List.intercalate_singleton] at hitems
  have hconvert := convert_listed registry (Mask.restore_numbered_of_clear f.clear literals) hprotect
  rw [hitems] at hconvert
  rw [ofSql_leaf hleaf hreads registry table, hconvert]
  simp only [List.mapM_cons, List.mapM_nil, Call.listItem hmasked]
  congr 1
  generalize (if c.payload = [] then _ else _ : Except InlineError Value) = result
  cases result <;> rfl

/-- For every field, every registered function and every payload without quotes and backslashes, a
comparison of the field with the call finds the rows of the comparison with the value that is built
from this payload by this function, or fails with its reason, exactly if the names of the field tell
the call from it. A list of the call alone has just this value, exactly if the payload is not
empty. -/
theorem call_resolved_iff (table : Name) (f : Path) (c : Call) :
    (∀ op : Comparator,
      (∀ registry builder, registry.get? c.name = some builder →
        Query.ofSql registry (rowsWhere table (compared f op (.call c))) =
          found table ((c.value builder).map fun value =>
            .ofField (String.ofList f.text) (op.predicate value))) ↔
        c.ToldFrom f) ∧
    ((∀ registry builder, registry.get? c.name = some builder →
      Query.ofSql registry (rowsWhere table (listed false f [.call c])) =
        found table ((c.value builder).map fun value =>
          .ofField (String.ofList f.text) (.operator .isIn (.array [value])))) ↔
      c.payload ≠ []) := by
  refine ⟨fun op => ofSql_call_iff table f op c, ?_⟩
  constructor
  · intro h hnil
    obtain ⟨builder, hbuilder, hvalue⟩ := c.get?_probe c.function
    have heq := h _ builder hbuilder
    rw [ofSql_listed_call, if_pos hnil, hvalue] at heq
    have hvalues := found_injective heq
    simp [Except.map, Filter.ofField, Predicate.operator] at hvalues
  · intro hne registry builder hbuilder
    rw [ofSql_listed_call, if_neg hne, Registry.build, hbuilder]
    simp only [Call.value]
    cases builder c.argument <;> rfl

/-- The steps of a dotted field are taken for the function and its payload. The call stays a
string. -/
theorem call_unresolved_dotted :
    Registry.default.get? "date" = some .date ∧
      Builder.date "2020-01-01" = .ok (.dateTime 1577836800000) ∧
      Query.ofSql .default "SELECT * FROM t WHERE a.b = date('2020-01-01')" =
        .ok (some (.find ⟨"t", .ofField "a.b" (.equals (.string "date('2020-01-01')")),
          none, none, 0, 0, none⟩)) := by
  let t : Name := ⟨'t', [], by decide, by decide, by decide⟩
  let a : Name := ⟨'a', [], by decide, by decide, by decide⟩
  let b : Name := ⟨'b', [], by decide, by decide, by decide⟩
  let date : Name := ⟨'d', "ate".toList, by decide, by decide, by decide⟩
  let f : Path := ⟨a, [b], by decide⟩
  let c : Call := ⟨date, "2020-01-01".toList, by decide, by decide⟩
  have hcoerce : Comparison.coerce .default (comparedNames f (.call c)) f.text (Term.call c).text =
      .ok (.string "date('2020-01-01')") := rfl
  have htext : rowsWhere t (compared f .eq (.call c)) =
      "SELECT * FROM t WHERE a.b = date('2020-01-01')" := by decide
  have hsql := ofSql_compared .default t f .eq (.call c)
  rw [convert_compared, hcoerce, htext] at hsql
  exact ⟨rfl, rfl, hsql⟩

end DocQuery.Where
