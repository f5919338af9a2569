import DocQuery.Proofs.Where.Between
import DocQuery.Proofs.Where.Inline

/-! The filter of a field between two bounds. The bounds are found again in the restored text, at
its first word `AND`, and both get their values from the names of the whole comparison. The
conjunction of two comparisons gives each of them the names of its own. -/

namespace DocQuery.Where

open Mask (NoQuote numbered placeholder restore)
open Text (words unwords squeeze)

/-- Both values, of which the first one that is missing decides the error. -/
def bounded (f : Path) (low high : Except InlineError Value) : Except InlineError Filter := do
  let a ← low
  let b ← high
  return .ofField (String.ofList f.text) (.operators [(.gte, a), (.lte, b)])

def Term.Unsplit (t : Term) : Prop :=
  ∀ word ∈ words t.text, Text.lower word ≠ "and".toList

/-- A string is kept if its blanks are single spaces inside it, and a call if the names supply
it. -/
def Term.KeptAmong (f : Path) (names : List String) : Term → Prop
  | number _ => True
  | string quote text _ =>
    squeeze (quote.char :: (text ++ [quote.char])) = quote.char :: (text ++ [quote.char])
  | call c => c.SuppliedBy f names

/-! ### Finding the bounds -/

section Conversion

variable {f : Path} {x y : Term}

theorem words_pair (left right : List Char) :
    words (left ++ andText ++ right) = words left ++ "AND".toList :: words right := by
  have hsplit : left ++ andText ++ right = left ++ ' ' :: ("AND".toList ++ ' ' :: right) := by
    simp [andText]
  have hand : words "AND".toList = ["AND".toList] := by decide
  rw [hsplit, Text.words_append_blank (by decide), Text.words_append_blank (by decide), hand,
    List.singleton_append]

theorem words_between {left right : List Char} (hleft : Wordlike left) (hright : Wordlike right) :
    words (Comparison.spaceComparators
      (f.text ++ " BETWEEN ".toList ++ (left ++ andText ++ right))) =
      [f.text, "BETWEEN".toList, left, "AND".toList, right] := by
  have hfront : ∀ c ∈ " BETWEEN ".toList, isComparatorChar c = false := by decide
  have hand : ∀ c ∈ andText, isComparatorChar c = false := by decide
  have hnone : ∀ c ∈ f.text ++ " BETWEEN ".toList ++ (left ++ andText ++ right),
      isComparatorChar c = false := by
    intro c hc
    simp only [List.mem_append] at hc
    rcases hc with (hc | hc) | (hc | hc) | hc
    · exact f.not_comparatorChar c hc
    · exact hfront c hc
    · exact (hleft.forall_mem c hc).2
    · exact hand c hc
    · exact (hright.forall_mem c hc).2
  have hsplit : f.text ++ " BETWEEN ".toList ++ (left ++ andText ++ right) =
      f.text ++ ' ' :: ("BETWEEN".toList ++ ' ' :: (left ++ andText ++ right)) := by
    simp
  have hword : words "BETWEEN".toList = ["BETWEEN".toList] := by decide
  rw [spaceComparators_eq_self hnone, hsplit, Text.words_append_blank (by decide),
    Text.words_append_blank (by decide), words_pair, Text.words_solid f.solid, hword,
    Text.words_solid hleft.solid, Text.words_solid hright.solid]
  rfl

theorem ofWords_between (registry : Registry) (names : List String) {mask : Mask}
    (hf : mask.restore f.text = f.text) (left right : List Char) :
    Comparison.ofWords registry names mask [f.text, "BETWEEN".toList, left, "AND".toList, right] =
      (Comparison.bounds registry names f.text (mask.restore (left ++ andText ++ right))).map
        fun
        | none => []
        | some (low, high) =>
          .ofField (String.ofList f.text) (.operators [(.gte, low), (.lte, high)]) := by
  have hunwords : unwords [left, "AND".toList, right] = left ++ andText ++ right := by
    simp [unwords, List.intercalate_cons_cons, andText]
  have hsplit : Comparison.splitNegation (Text.lower "BETWEEN".toList) [left, "AND".toList, right] =
      (false, "between".toList, [left, "AND".toList, right]) := rfl
  have hword : Comparison.ofWord? "between".toList = some .between := rfl
  rw [Comparison.ofWords]
  simp only [hsplit, hword, hunwords, hf, f.unquoted_text, ne_eq, not_true_eq_false, false_and,
    if_false]
  rcases Comparison.bounds registry names f.text (mask.restore (left ++ andText ++ right)) with
    e | _ | ⟨low, high⟩ <;> rfl

theorem bounds_of_words {text word : List Char} {front after : List (List Char)}
    (hwords : words text = front ++ word :: after)
    (hfront : ∀ w ∈ front, Text.lower w ≠ "and".toList) (hword : Text.lower word = "and".toList)
    (registry : Registry) (names : List String) (field : List Char) :
    Comparison.bounds registry names field text = (do
      let a ← Comparison.coerce registry names field (unwords front)
      let b ← Comparison.coerce registry names field (unwords after)
      return some (a, b)) := by
  have hall : ∀ w ∈ front, (!(Text.lower w == "and".toList)) = true := by
    intro w hw
    simpa using hfront w hw
  rw [Comparison.bounds]
  simp only [hwords, List.takeWhile_append_of_pos hall, List.dropWhile_append_of_pos hall,
    List.takeWhile_cons, List.dropWhile_cons, hword, beq_self_eq_true, Bool.not_true,
    Bool.false_eq_true, if_false, List.append_nil]

theorem convert_between_of_words (hclear : ∀ t ∈ [x, y], ¬ placeholder 1 <:+: t.text)
    {word : List Char} {front after : List (List Char)}
    (hwords : words x.text ++ "AND".toList :: words y.text = front ++ word :: after)
    (hfront : ∀ w ∈ front, Text.lower w ≠ "and".toList) (hword : Text.lower word = "and".toList)
    (registry : Registry) :
    Comparison.convert registry (betweenNames f x y) (between f x y) =
      bounded f (Comparison.coerce registry (betweenNames f x y) f.text (unwords front))
        (Comparison.coerce registry (betweenNames f x y) f.text (unwords after)) := by
  obtain ⟨literals, left, right, hleft, hright, hprotect, hrestore⟩ := masksApart (f := f) hclear
  have hbefore : NoQuote (f.text ++ " BETWEEN ".toList) := f.noQuote.append (by decide)
  rw [Comparison.convert, between, Mask.protect_append noQuote_betweenNames hbefore, hprotect]
  simp only [words_between hleft hright]
  rw [ofWords_between registry _ (Mask.restore_numbered_of_clear f.clear literals), hrestore,
    bounds_of_words ((words_pair _ _).trans hwords) hfront hword, bounded]
  cases Comparison.coerce registry (betweenNames f x y) f.text (unwords front) with
  | error e => rfl
  | ok a => cases Comparison.coerce registry (betweenNames f x y) f.text (unwords after) <;> rfl

theorem lower_and : Text.lower "AND".toList = "and".toList := by
  decide

theorem convert_of_unsplit (hclear : ∀ t ∈ [x, y], ¬ placeholder 1 <:+: t.text) (h : x.Unsplit)
    (registry : Registry) :
    Comparison.convert registry (betweenNames f x y) (between f x y) =
      bounded f (Comparison.coerce registry (betweenNames f x y) f.text (squeeze x.text))
        (Comparison.coerce registry (betweenNames f x y) f.text (squeeze y.text)) :=
  convert_between_of_words hclear rfl h lower_and registry

/-- A first bound with the word `AND` in it is cut there. -/
theorem exists_convert_of_split (hclear : ∀ t ∈ [x, y], ¬ placeholder 1 <:+: t.text)
    (h : ¬ x.Unsplit) : ∃ front word after high, words x.text = front ++ word :: after ∧
      Text.lower word = "and".toList ∧ ∀ registry,
        Comparison.convert registry (betweenNames f x y) (between f x y) =
          bounded f (Comparison.coerce registry (betweenNames f x y) f.text (unwords front))
            (Comparison.coerce registry (betweenNames f x y) f.text high) := by
  obtain ⟨word, hword, hand⟩ : ∃ word ∈ words x.text, Text.lower word = "and".toList := by
    simpa [Term.Unsplit] using h
  have hsome : ((words x.text).find? (Text.lower · == "and".toList)).isSome = true :=
    List.find?_isSome.mpr ⟨word, hword, beq_iff_eq.mpr hand⟩
  obtain ⟨first, hfirst⟩ := Option.isSome_iff_exists.mp hsome
  obtain ⟨hfirst, front, after, hsplit, hfront⟩ := List.find?_eq_some_iff_append.mp hfirst
  refine ⟨front, first, after, unwords (after ++ "AND".toList :: words y.text), hsplit,
    beq_iff_eq.mp hfirst, fun registry => ?_⟩
  refine convert_between_of_words hclear ?_ ?_ (beq_iff_eq.mp hfirst) registry
  · rw [hsplit, List.append_assoc, List.cons_append]
  · intro w hw
    simpa using hfront w hw

end Conversion

/-! ### The values of the bounds -/

section Values

variable {f : Path} {names : List String} {registry : Registry} {t : Term}

theorem coerce_of_scalar {text : List Char} {value : Value}
    (h : Literal.scalar? text = some value) (registry : Registry) (names : List String)
    (field : List Char) : Comparison.coerce registry names field text = .ok value := by
  rw [Comparison.coerce, h]
  rfl

theorem Call.exists_squeeze (c : Call) :
    ∃ tail, squeeze (Term.call c).text = c.function.text ++ '(' :: '\'' :: tail := by
  have hsolid : ∀ d ∈ c.function.text ++ ['(', '\''], isBlank d = false := by
    intro d hd
    rcases List.mem_append.mp hd with hd | hd
    · exact c.function.solid.not_blank d hd
    · have hopen : ∀ e ∈ ['(', '\''], isBlank e = false := by decide
      exact hopen d hd
  obtain ⟨tail, htail⟩ := Text.squeeze_solid_append hsolid (c.payload ++ ['\'', ')'])
  refine ⟨tail, ?_⟩
  have htext : (Term.call c).text =
      c.function.text ++ ['(', '\''] ++ (c.payload ++ ['\'', ')']) := by
    rw [c.text_eq]
    simp
  rw [htext, htail]
  simp

/-- A call that is left the names of another one has the value of this one. -/
theorem Call.coerce_squeeze {c other : Call}
    (hnames : other.candidates f names = c.candidates f names) (hsupplied : c.SuppliedBy f names)
    {outcome : Except InlineError Value} (h : (Term.call c).Evaluates registry outcome) :
    Comparison.coerce registry names f.text (squeeze (Term.call other).text) = outcome := by
  cases h with
  | call c builder hbuilder =>
    obtain ⟨tail, htail⟩ := other.exists_squeeze
    have htight := Text.tight_squeeze (Term.call other).text
    rw [htail] at htight ⊢
    exact coerce_of_candidates hnames hsupplied hbuilder htight

theorem Term.coerce_text (hsupplied : ∀ c, t = .call c → c.SuppliedBy f names)
    {outcome : Except InlineError Value} (h : t.Evaluates registry outcome) :
    Comparison.coerce registry names f.text t.text = outcome := by
  cases h with
  | number n =>
    rw [text_number]
    exact coerce_of_scalar n.scalar?_text registry names f.text
  | string quote text plain =>
    rw [text_string]
    exact coerce_of_scalar (Literal.scalar?_quoted (isQuote_char quote) text) registry names f.text
  | call c builder hbuilder =>
    have htight := c.tight_text
    rw [c.text_eq] at htight ⊢
    exact Call.coerce_of_suppliedBy (hsupplied c rfl) hbuilder htight

theorem Term.coerce_squeeze (hkept : t.KeptAmong f names) {outcome : Except InlineError Value}
    (h : t.Evaluates registry outcome) :
    Comparison.coerce registry names f.text (squeeze t.text) = outcome := by
  cases t with
  | number n =>
    have hsqueeze : squeeze (number n).text = (number n).text := by
      rw [text_number, squeeze, Text.words_solid n.solid]
      exact List.intercalate_singleton
    rw [hsqueeze]
    exact coerce_text (by simp) h
  | string quote text plain =>
    have hsqueeze : squeeze (string quote text plain).text = (string quote text plain).text := by
      rw [text_string]
      exact hkept
    rw [hsqueeze]
    exact coerce_text (by simp) h
  | call c => exact Call.coerce_squeeze rfl hkept h

theorem exists_squeeze_quoted {q : Char} (hq : Literal.isQuote q = true) (text : List Char) :
    ∃ inner, squeeze (q :: (text ++ [q])) = q :: (inner ++ [q]) := by
  obtain ⟨hblank, -⟩ := wordlike_quote hq
  obtain ⟨blanks, -, hsqueeze⟩ := Text.exists_squeeze_append text hblank []
  have hlast : squeeze [q] = [q] := Text.squeeze_cons hblank []
  refine ⟨Text.joint (text ++ [q]) ++ squeeze text ++ blanks, ?_⟩
  rw [Text.squeeze_cons hblank, hsqueeze, hlast]
  simp

theorem Term.call_or_evaluates (t : Term) :
    (∃ c, t = .call c) ∨ ∀ registry, ∃ value, t.Evaluates registry (.ok value) := by
  cases t with
  | number n => exact .inr fun _ => ⟨_, .number n⟩
  | string quote text plain => exact .inr fun _ => ⟨_, .string quote text plain⟩
  | call c => exact .inl ⟨c, rfl⟩

/-- Functions that tell a call from all others let any other term have a value, too. -/
theorem exists_evaluates_probe (c : Call) (t : Term) : ∃ other value,
    (Term.call c).Evaluates (c.probe other) (.ok (.int 0)) ∧
      t.Evaluates (c.probe other) (.ok value) := by
  have hown : ∀ other, (Term.call c).Evaluates (c.probe other) (.ok (.int 0)) := by
    intro other
    obtain ⟨builder, hbuilder, hvalue⟩ := c.get?_probe other
    exact hvalue ▸ .call c builder hbuilder
  rcases t.call_or_evaluates with ⟨d, rfl⟩ | ht
  · have hother : ∃ builder value, (c.probe d.function).get? d.name = some builder ∧
        d.value builder = .ok value := by
      by_cases hname : d.name = c.name
      · rw [hname]
        exact ⟨_, _, List.lookup_cons_self, rfl⟩
      · refine ⟨fun _ => .ok (.int 1), .int 1, ?_, rfl⟩
        have hne : (d.name == String.ofList c.function.text) = false := beq_false_of_ne hname
        rw [Registry.get?, Call.probe, List.lookup_cons, hne]
        exact List.lookup_cons_self
    obtain ⟨builder, value, hbuilder, hvalue⟩ := hother
    exact ⟨d.function, value, hown _, hvalue ▸ .call d builder hbuilder⟩
  · obtain ⟨value, hvalue⟩ := ht (c.probe c.function)
    exact ⟨c.function, value, hown _, hvalue⟩

theorem Term.exists_evaluates (t : Term) : ∃ registry value, t.Evaluates registry (.ok value) := by
  rcases t.call_or_evaluates with ⟨c, rfl⟩ | ht
  · obtain ⟨other, -, hc, -⟩ := exists_evaluates_probe c (.call c)
    exact ⟨_, _, hc⟩
  · obtain ⟨value, hvalue⟩ := ht .default
    exact ⟨_, value, hvalue⟩

theorem Term.keptAmong_of_coerce (other : Term)
    (h : ∀ registry a b, t.Evaluates registry (.ok a) → other.Evaluates registry (.ok b) →
      Comparison.coerce registry names f.text (squeeze t.text) = .ok a) : t.KeptAmong f names := by
  cases t with
  | number n => trivial
  | string quote text plain =>
    obtain ⟨registry, b, hother⟩ := other.exists_evaluates
    obtain ⟨inner, hinner⟩ := exists_squeeze_quoted (isQuote_char quote) text
    have hvalue := h registry _ b (.string quote text plain) hother
    have hscalar := Literal.scalar?_quoted (isQuote_char quote) inner
    rw [text_string, hinner, coerce_of_scalar hscalar] at hvalue
    have heq : inner = text := by simpa [String.ofList_inj] using hvalue
    rw [KeptAmong, hinner, heq]
  | call c =>
    obtain ⟨function, b, hc, hother⟩ := exists_evaluates_probe c other
    obtain ⟨tail, htail⟩ := c.exists_squeeze
    have hvalue := h _ _ b hc hother
    have htight := Text.tight_squeeze (Term.call c).text
    rw [htail] at hvalue htight
    exact Call.suppliedBy_of_coerce htight hvalue

end Values

/-! ### Strings that are cut -/

theorem Number.unsplit (n : Number) : (Term.number n).Unsplit := by
  intro word hword hand
  rw [Term.text_number, Text.words_solid n.solid, List.mem_singleton] at hword
  subst hword
  have hletter : ∀ c ∈ n.text, c.toLower ≠ 'n' := by
    refine n.forall_mem (fun c hc heq => ?_) (by decide)
    have hp : (!c.isDigit || c.toLower != 'n') = true :=
      of_ascii (p := fun c => !c.isDigit || c.toLower != 'n') (by decide +kernel)
        (toNat_lt_of_isDigit hc)
    simp [hc, heq] at hp
  have hmem : 'n' ∈ Text.lower n.text := by
    rw [hand]
    decide
  obtain ⟨c, hc, heq⟩ := List.mem_map.mp hmem
  exact hletter c hc heq

theorem coerce_ne_of_split {quote : Quote} {text word : List Char} {front after : List (List Char)}
    (hwords : words (quote.char :: (text ++ [quote.char])) = front ++ word :: after)
    (hand : Text.lower word = "and".toList) (registry : Registry) (names : List String)
    (field : List Char) : Comparison.coerce registry names field (unwords front) ≠
      .ok (.string (String.ofList text)) := by
  intro hvalue
  -- Two quotes alone have no word to be cut at.
  have hne : text ≠ [] := by
    rintro rfl
    have hsole : words [quote.char, quote.char] = [[quote.char, quote.char]] := by
      cases quote <;> decide
    have hmem : word ∈ words [quote.char, quote.char] :=
      hwords ▸ List.mem_append_right front List.mem_cons_self
    rw [hsole, List.mem_singleton] at hmem
    have hlength := congrArg List.length hand
    simp [hmem, Text.lower] at hlength
  have hfront : front ≠ [] := by
    rintro rfl
    have hempty : Comparison.coerce registry names field (unwords []) = .ok (.string "") := rfl
    rw [hempty] at hvalue
    have hnil : "" = String.ofList text := by simpa using hvalue
    exact hne (String.ofList_eq_empty_iff.mp hnil.symm)
  have hsqueeze : squeeze (quote.char :: (text ++ [quote.char])) =
      unwords front ++ ' ' :: unwords (word :: after) := by
    rw [squeeze, hwords, Text.unwords_append hfront (List.cons_ne_nil word after)]
  obtain ⟨inner, hinner⟩ := exists_squeeze_quoted (isQuote_char quote) text
  rw [hinner] at hsqueeze
  -- What is left in front of the word keeps the opening quote and loses its last character.
  cases hcut : unwords front with
  | nil =>
    rw [hcut] at hsqueeze
    have hblank : quote.char = ' ' := (List.cons.inj hsqueeze).1
    exact absurd hblank (by cases quote <;> decide)
  | cons first rest =>
    rw [hcut] at hsqueeze hvalue
    obtain ⟨rfl, -⟩ := List.cons.inj hsqueeze
    have hquoted : Literal.isQuoted (quote.char :: rest) = true := isQuote_char quote
    have hscalar : Literal.scalar? (quote.char :: rest) =
        some (.string (String.ofList rest.dropLast)) := by
      rw [Literal.scalar?, if_pos hquoted, Literal.unquoted, if_pos hquoted]
      rfl
    rw [coerce_of_scalar hscalar] at hvalue
    have htext : rest.dropLast = text := by simpa [String.ofList_inj] using hvalue
    have hle := Text.length_squeeze_le (quote.char :: (text ++ [quote.char]))
    have hlength : text.length = rest.length - 1 := by rw [← htext, List.length_dropLast]
    have hpos : 0 < text.length := List.length_pos_iff.mpr hne
    rw [hinner, hsqueeze] at hle
    simp only [List.length_cons, List.length_append, List.length_nil] at hle
    omega

/-! ### The conjunction -/

theorem and_gte_lte {name : String} (hname : name ≠ "$and") (a b : Value) :
    Filter.and (.ofField name (.operator .gte a)) (.ofField name (.operator .lte b)) =
      .ofField name (.operators [(.gte, a), (.lte, b)]) := by
  simp [Filter.and, Filter.ofField, Filter.hasKey, Clause.key, hname, Filter.merge?,
    Predicate.operator, Filter.disjointOperators, Filter.addOperators]

theorem reduce_within (registry : Registry) (f : Path) (x y : Term) :
    Condition.reduce registry (withinConditions f x y) =
      (bounded f (Comparison.coerce registry (comparedNames f x) f.text x.text)
        (Comparison.coerce registry (comparedNames f y) f.text y.text)).mapError .inline := by
  have hlist : withinConditions f x y = Condition.Expression.conditions
      (.conjunction (.and (.primary (.leaf (.ofText _ _ (isLeaf_compared f .gtEq x))))
        (.leaf (.ofText _ _ (isLeaf_compared f .ltEq y))))) [] [] := by
    simp [withinConditions, Condition.Expression.conditions, Condition.Leaf.ofText]
  have hname : String.ofList f.text ≠ "$and" := fun heq =>
    f.notMem_connectives (heq ▸ List.mem_cons_self)
  rw [hlist, Condition.reduce_eq_filter]
  simp only [Condition.Expression.filter, Condition.Leaf.convert, Condition.Leaf.ofText,
    convert_compared, bounded]
  cases Comparison.coerce registry (comparedNames f x) f.text x.text with
  | error e => rfl
  | ok a =>
    cases Comparison.coerce registry (comparedNames f y) f.text y.text with
    | error e => rfl
    | ok b => exact congrArg Except.ok (and_gte_lte hname a b)

theorem Call.SuppliedBy.comparedNames {c : Call} {f : Path} {before after : List String}
    (h : c.SuppliedBy f (Statement.distinct (f.names ++ before ++ (Term.call c).names ++ after))) :
    c.SuppliedBy f (comparedNames f (.call c)) := by
  have hfind : ∀ {p : String → Bool} {name : String},
      (f.names ++ before ++ (Term.call c).names ++ after).find? p = some name →
      (Term.call c).names.find? p = some name →
      (f.names ++ (Term.call c).names).find? p = some name := by
    intro p name hall hown
    simp only [List.find?_append, Option.or_assoc] at hall ⊢
    rw [hown]
    cases hpath : f.names.find? p with
    | none => rfl
    | some other =>
      rw [hpath] at hall
      exact hall
  rw [suppliedBy_distinct_iff] at h
  rw [Where.comparedNames, suppliedBy_distinct_iff]
  obtain ⟨hfunction, hpayload⟩ := h
  have hnames : (Term.call c).names = [c.name, c.argument] := rfl
  have hp := List.find?_some hfunction
  have hp' := List.find?_some hpayload
  refine ⟨hfind hfunction ?_, hfind hpayload ?_⟩
  · rw [hnames]
    exact List.find?_cons_of_pos hp
  · rw [hnames, List.find?_cons_of_neg (by simp)]
    exact List.find?_cons_of_pos hp'

theorem suppliedBy_comparedNames_of_keptAmong {f : Path} {x y t : Term} (ht : t ∈ [x, y])
    (h : t.KeptAmong f (betweenNames f x y)) :
    ∀ c, t = .call c → c.SuppliedBy f (comparedNames f t) := by
  rintro c rfl
  rcases List.mem_pair.mp ht with rfl | rfl
  · have hsupplied : c.SuppliedBy f
        (Statement.distinct (f.names ++ [] ++ (Term.call c).names ++ y.names)) := by
      rw [List.append_nil]
      exact h
    exact hsupplied.comparedNames
  · have hsupplied : c.SuppliedBy f
        (Statement.distinct (f.names ++ x.names ++ (Term.call c).names ++ [])) := by
      rw [List.append_nil]
      exact h
    exact hsupplied.comparedNames

/-! ### Both together -/

theorem bounded_eq_ok {f : Path} {low high : Except InlineError Value} {a b : Value}
    (h : bounded f low high = bounded f (.ok a) (.ok b)) : low = .ok a ∧ high = .ok b := by
  cases low with
  | error e => cases h
  | ok v =>
    cases high with
    | error e => cases h
    | ok w =>
      have hvalues : v = a ∧ w = b := by
        simpa [bounded, bind, Except.bind, pure, Except.pure, Filter.ofField] using h
      rw [hvalues.1, hvalues.2]
      exact ⟨rfl, rfl⟩

theorem Call.evaluates (c : Call) {registry : Registry} {builder : Builder} {value : Value}
    (hbuilder : registry.get? c.name = some builder) {payload : String}
    (hpayload : c.argument = payload) (hvalue : builder payload = .ok value) :
    (Term.call c).Evaluates registry (.ok value) := by
  have hevaluates := Term.Evaluates.call c builder hbuilder
  rw [← Call.argument, hpayload, hvalue] at hevaluates
  exact hevaluates

section Converse

variable {f : Path} {x y : Term}

theorem unsplit_of_convert (hclear : ∀ t ∈ [x, y], ¬ placeholder 1 <:+: t.text)
    (hand : ∀ c, x = .call c → x.Unsplit)
    (h : ∀ registry low high, x.Evaluates registry low → y.Evaluates registry high →
      Comparison.convert registry (betweenNames f x y) (between f x y) = bounded f low high) :
    x.Unsplit := by
  cases x with
  | number n => exact n.unsplit
  | call c => exact hand c rfl
  | string quote text plain =>
    by_contra hsplit
    obtain ⟨front, word, after, high, hwords, hword, hconvert⟩ :=
      exists_convert_of_split (f := f) hclear hsplit
    obtain ⟨registry, b, hy⟩ := y.exists_evaluates
    have hvalues := h registry _ _ (.string quote text plain) hy
    rw [hconvert] at hvalues
    rw [Term.text_string] at hwords
    exact coerce_ne_of_split hwords hword registry _ f.text (bounded_eq_ok hvalues).1

theorem keptAmong_of_convert (hclear : ∀ t ∈ [x, y], ¬ placeholder 1 <:+: t.text)
    (hunsplit : x.Unsplit)
    (h : ∀ registry low high, x.Evaluates registry low → y.Evaluates registry high →
      Comparison.convert registry (betweenNames f x y) (between f x y) = bounded f low high) :
    ∀ t ∈ [x, y], t.KeptAmong f (betweenNames f x y) := by
  have hvalues : ∀ registry a b, x.Evaluates registry (.ok a) → y.Evaluates registry (.ok b) →
      Comparison.coerce registry (betweenNames f x y) f.text (squeeze x.text) = .ok a ∧
      Comparison.coerce registry (betweenNames f x y) f.text (squeeze y.text) = .ok b := by
    intro registry a b hx hy
    have hboth := h registry _ _ hx hy
    rw [convert_of_unsplit hclear hunsplit] at hboth
    exact bounded_eq_ok hboth
  intro t ht
  rcases List.mem_pair.mp ht with rfl | rfl
  · exact Term.keptAmong_of_coerce y fun registry a b hx hy => (hvalues registry a b hx hy).1
  · exact Term.keptAmong_of_coerce x fun registry b a hy hx => (hvalues registry a b hx hy).2

end Converse

/-- For every field and every two bounds, of which none holds the placeholder of a second string and
the first one is no call with the word `AND`: the field between the bounds is read as one
comparison, and its comparisons with each of them as two that are joined by `AND`. Both have the
filter with the values of the bounds, or the error of the first one that has none, with every
registry that has the functions of the bounds, exactly if no word of the first bound is `AND`, the
strings have no blanks but single spaces inside, and the names of the whole comparison supply every
call. -/
theorem between_eq_bounds_iff (f : Path) (x y : Term)
    (hclear : ∀ t ∈ [x, y], ¬ placeholder 1 <:+: t.text)
    (hand : ∀ c, x = .call c → x.Unsplit) :
    ReadsAs (between f x y) [.leaf (String.ofList (between f x y)) (betweenNames f x y)] ∧
    ReadsAs (within f x y) (withinConditions f x y) ∧
    ((∀ registry low high, x.Evaluates registry low → y.Evaluates registry high →
      Comparison.convert registry (betweenNames f x y) (between f x y) = bounded f low high ∧
        Condition.reduce registry (withinConditions f x y) =
          (bounded f low high).mapError .inline) ↔
      x.Unsplit ∧ ∀ t ∈ [x, y], t.KeptAmong f (betweenNames f x y)) := by
  refine ⟨readsAs_between f x y, readsAs_within f x y, ?_, ?_⟩
  · intro h
    have hconvert := fun registry low high hx hy => (h registry low high hx hy).1
    -- All functions include those that tell a call from all others.
    have hunsplit := unsplit_of_convert hclear hand hconvert
    exact ⟨hunsplit, keptAmong_of_convert hclear hunsplit hconvert⟩
  · rintro ⟨hunsplit, hkept⟩ registry low high hx hy
    have hfirst := hkept x (by simp)
    have hsecond := hkept y (by simp)
    constructor
    · rw [convert_of_unsplit hclear hunsplit, Term.coerce_squeeze hfirst hx,
        Term.coerce_squeeze hsecond hy]
    · rw [reduce_within,
        Term.coerce_text (suppliedBy_comparedNames_of_keptAmong (by simp) hfirst) hx,
        Term.coerce_text (suppliedBy_comparedNames_of_keptAmong (by simp) hsecond) hy]

/-- A call and a string with the word `AND` in it, in this order. -/
theorem between_eq_bounds_call_string :
    Comparison.convert .default ["created", "date", "2020-01-01", "now and then"]
        "created BETWEEN date('2020-01-01') AND 'now and then'".toList =
      .ok (.ofField "created" (.operators
        [(.gte, .dateTime 1577836800000), (.lte, .string "now and then")])) ∧
    Condition.reduce .default
        [.leaf "created >= date('2020-01-01')" ["created", "date", "2020-01-01"],
          .connective "AND", .leaf "created <= 'now and then'" ["created", "now and then"]] =
      .ok (.ofField "created" (.operators
        [(.gte, .dateTime 1577836800000), (.lte, .string "now and then")])) := by
  let created : Name := ⟨'c', "reated".toList, by decide, by decide, by decide⟩
  let date : Name := ⟨'d', "ate".toList, by decide, by decide, by decide⟩
  let f : Path := ⟨created, [], by decide⟩
  let c : Call := ⟨date, "2020-01-01".toList, by decide, by decide⟩
  let y : Term := .string .single "now and then".toList (by decide)
  have hclear : ∀ t ∈ [Term.call c, y], ¬ placeholder 1 <:+: t.text := by
    have hnone : Text.contains "__literal_".toList (Term.call c).text = false ∧
        Text.contains "__literal_".toList y.text = false := by decide
    simpa using ⟨Mask.not_placeholder_isInfix hnone.1 1, Mask.not_placeholder_isInfix hnone.2 1⟩
  have hunsplit : (Term.call c).Unsplit := by
    rw [Term.Unsplit]
    decide
  obtain ⟨-, -, hiff⟩ := between_eq_bounds_iff f (.call c) y hclear fun _ _ => hunsplit
  have hkept : ∀ t ∈ [Term.call c, y], t.KeptAmong f (betweenNames f (.call c) y) := by
    intro t ht
    rcases List.mem_pair.mp ht with rfl | rfl
    · rw [Term.KeptAmong, Call.SuppliedBy]
      decide
    · rw [Term.KeptAmong]
      decide
  have hx : (Term.call c).Evaluates .default (.ok (.dateTime 1577836800000)) :=
    c.evaluates rfl (show c.argument = "2020-01-01" by decide) rfl
  have hboth := hiff.mpr ⟨hunsplit, hkept⟩ .default _ _ hx (.string _ _ _)
  have htext : between f (.call c) y =
      "created BETWEEN date('2020-01-01') AND 'now and then'".toList := by decide
  have hnames : betweenNames f (.call c) y = ["created", "date", "2020-01-01", "now and then"] := by
    decide
  have hconditions : withinConditions f (.call c) y =
      [.leaf "created >= date('2020-01-01')" ["created", "date", "2020-01-01"],
        .connective "AND", .leaf "created <= 'now and then'" ["created", "now and then"]] := by
    decide
  rw [htext, hnames, hconditions] at hboth
  exact hboth

/-- The second call gets the payload of the first one, while the conjunction has both. -/
theorem between_second_call_lost :
    Query.ofSql .default
        "SELECT * FROM t WHERE created BETWEEN date('2020-01-01') AND date('2021-01-01')" =
      .ok (some (.find ⟨"t", .ofField "created" (.operators
        [(.gte, .dateTime 1577836800000), (.lte, .dateTime 1577836800000)]),
        none, none, 0, 0, none⟩)) ∧
    Query.ofSql .default
        "SELECT * FROM t WHERE created >= date('2020-01-01') AND created <= date('2021-01-01')" =
      .ok (some (.find ⟨"t", .ofField "created" (.operators
        [(.gte, .dateTime 1577836800000), (.lte, .dateTime 1609459200000)]),
        none, none, 0, 0, none⟩)) := by
  let t : Name := ⟨'t', [], by decide, by decide, by decide⟩
  let created : Name := ⟨'c', "reated".toList, by decide, by decide, by decide⟩
  let date : Name := ⟨'d', "ate".toList, by decide, by decide, by decide⟩
  let f : Path := ⟨created, [], by decide⟩
  let c : Call := ⟨date, "2020-01-01".toList, by decide, by decide⟩
  let d : Call := ⟨date, "2021-01-01".toList, by decide, by decide⟩
  have hfirst : rowsWhere t (between f (.call c) (.call d)) =
      "SELECT * FROM t WHERE created BETWEEN date('2020-01-01') AND date('2021-01-01')" := by decide
  have hsecond : rowsWhere t (within f (.call c) (.call d)) =
      "SELECT * FROM t WHERE created >= date('2020-01-01') AND created <= date('2021-01-01')" := by
    decide
  have hclear : ∀ t ∈ [Term.call c, .call d], ¬ placeholder 1 <:+: t.text := by
    have hnone : Text.contains "__literal_".toList (Term.call c).text = false ∧
        Text.contains "__literal_".toList (Term.call d).text = false := by decide
    simpa using ⟨Mask.not_placeholder_isInfix hnone.1 1, Mask.not_placeholder_isInfix hnone.2 1⟩
  have hunsplit : (Term.call c).Unsplit := by
    rw [Term.Unsplit]
    decide
  have hc : (Term.call c).Evaluates .default (.ok (.dateTime 1577836800000)) :=
    c.evaluates rfl (show c.argument = "2020-01-01" by decide) rfl
  have hd : (Term.call d).Evaluates .default (.ok (.dateTime 1609459200000)) :=
    d.evaluates rfl (show d.argument = "2021-01-01" by decide) rfl
  have hsupplied : c.SuppliedBy f (betweenNames f (.call c) (.call d)) := by
    rw [Call.SuppliedBy]
    decide
  have hfunction : d.function.text = c.function.text := by decide
  have hsame : ∀ names, d.candidates f names = c.candidates f names := by
    intro names
    rw [Call.candidates, hfunction, Call.candidates]
  have hbetween := ofSql_leaf (by decide) (readsAs_between f (.call c) (.call d)) .default t
  rw [hfirst, convert_of_unsplit hclear hunsplit, Call.coerce_squeeze rfl hsupplied hc,
    Call.coerce_squeeze (hsame _) hsupplied hc] at hbetween
  have hlow : c.SuppliedBy f (comparedNames f (.call c)) := by
    rw [Call.SuppliedBy]
    decide
  have hhigh : d.SuppliedBy f (comparedNames f (.call d)) := by
    rw [Call.SuppliedBy]
    decide
  have hwithin := (readsAs_within f (.call c) (.call d)).ofSql .default t
  rw [hsecond, Query.reduceConditions, reduce_within, Term.coerce_text (by simpa using hlow) hc,
    Term.coerce_text (by simpa using hhigh) hd] at hwithin
  exact ⟨hbetween, hwithin⟩

end DocQuery.Where
