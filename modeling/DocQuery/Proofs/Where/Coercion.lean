import DocQuery.Proofs.Where.Term

/-! The value of a term in a comparison. Its strings are masked and restored, and what is then made
of it depends on the names of the comparison only where it is a call. -/

namespace DocQuery.Where

open Lexeme (isNameStart isNameChar)
open Mask (NoQuote Segment Hides Settled textOf numbered candidates placeholder restore)

/-! ### Masked terms -/

def Term.masked (literals : List (List Char)) (t : Term) : List Char :=
  textOf (t.segments.map (Segment.masked literals))

/-- The strings of a term are hidden, empty ones apart. -/
def Term.HiddenBy (t : Term) (literals : List (List Char)) : Prop :=
  ∀ q text, .quoted q text ∈ t.segments → text ≠ [] → q :: (text ++ [q]) ∈ literals

theorem masked_quoted_cases {literals : List (List Char)} {q : Char} {text : List Char}
    (h : text ≠ [] → q :: (text ++ [q]) ∈ literals) :
    (∃ k, literals[k]? = some (q :: (text ++ [q])) ∧
      Segment.masked literals (.quoted q text) = .outside (placeholder k)) ∨
    (text = [] ∧ Segment.masked literals (.quoted q text) = .quoted q []) := by
  by_cases hmem : q :: (text ++ [q]) ∈ literals
  · refine .inl ⟨literals.idxOf (q :: (text ++ [q])), ?_, by rw [Segment.masked, if_pos hmem]⟩
    rw [List.getElem?_eq_getElem (List.idxOf_lt_length_of_mem hmem), List.getElem_idxOf]
  · have hnil : text = [] := by
      by_contra hne
      exact hmem (h hne)
    subst hnil
    exact .inr ⟨rfl, by rw [Segment.masked, if_neg hmem]⟩

theorem isNameChar_of_mem_placeholder {k : Nat} {c : Char} (h : c ∈ placeholder k) :
    isNameChar c = true := by
  rcases Mask.mem_placeholder h with h | h
  · have hstart : ∀ d ∈ "__literal_".toList, isNameChar d = true := by decide
    exact hstart c h
  · exact Lexeme.isNameChar_of_isDigit h

section Masked

variable {literals : List (List Char)} {t : Term}

theorem forall_mem_masked_quoted {q : Char} {text : List Char} {P : Char → Prop}
    (h : text ≠ [] → q :: (text ++ [q]) ∈ literals) (hchar : ∀ c, isNameChar c = true → P c)
    (hq : P q) : ∀ c ∈ (Segment.masked literals (.quoted q text)).text, P c := by
  rcases masked_quoted_cases h with ⟨k, -, hmasked⟩ | ⟨-, hmasked⟩
  · rw [hmasked]
    exact fun c hc => hchar c (isNameChar_of_mem_placeholder hc)
  · rw [hmasked]
    simpa [Segment.text] using hq

theorem masked_quoted_ne_nil {q : Char} {text : List Char} :
    (Segment.masked literals (.quoted q text)).text ≠ [] := by
  rw [Segment.masked]
  split
  · exact List.append_ne_nil_of_right_ne_nil _ (by decide)
  · exact List.cons_ne_nil _ _

theorem Term.forall_mem_masked (h : t.HiddenBy literals) {P : Char → Prop}
    (hdigit : ∀ c, c.isDigit = true → P c) (hstart : ∀ c, isNameStart c = true → P c)
    (hchar : ∀ c, isNameChar c = true → P c)
    (hother : ∀ c ∈ ['+', '-', '.', 'e', 'E', '(', ')', '\'', '"'], P c) :
    ∀ c ∈ t.masked literals, P c := by
  intro c hc
  cases t with
  | number n =>
    have hn : c ∈ n.text := by simpa [masked, segments, textOf, Segment.masked, Segment.text] using hc
    refine n.forall_mem hdigit (fun d hd => hother d ?_) c hn
    exact List.mem_of_mem_take (i := 5) hd
  | string quote text plain =>
    have hquote : P quote.char := hother _ (by cases quote <;> decide)
    refine forall_mem_masked_quoted (h _ _ List.mem_cons_self) hchar hquote c ?_
    simpa [masked, segments, textOf] using hc
  | call call =>
    simp only [masked, segments, textOf, List.map_cons, List.map_nil, List.flatMap_cons,
      List.flatMap_nil, List.append_nil, List.mem_append] at hc
    rcases hc with hc | hc | hc
    · simp only [Segment.masked, Segment.text, List.mem_append, List.mem_singleton] at hc
      rcases hc with hc | rfl
      · exact call.function.forall_mem hstart hchar c hc
      · exact hother _ (by decide)
    · exact forall_mem_masked_quoted (h _ _ (by simp [segments])) hchar (hother _ (by decide)) c hc
    · simp only [Segment.masked, Segment.text, List.mem_singleton] at hc
      rw [hc]
      exact hother _ (by decide)

theorem Term.masked_ne_nil : t.masked literals ≠ [] := by
  cases t with
  | number n =>
    have hne := n.solid.ne_nil
    simpa [masked, segments, textOf, Segment.masked, Segment.text] using hne
  | string quote text plain =>
    simpa [masked, segments, textOf] using masked_quoted_ne_nil
  | call c => simp [masked, segments, textOf, Segment.masked, Segment.text]

theorem Term.solid_masked (h : t.HiddenBy literals) : Text.Solid (t.masked literals) :=
  ⟨masked_ne_nil, forall_mem_masked h (fun _ => isBlank_of_isDigit)
    (fun _ => Lexeme.isBlank_of_isNameStart) (fun _ => Lexeme.isBlank_of_isNameChar) (by decide)⟩

theorem Term.not_comparatorChar_masked (h : t.HiddenBy literals) :
    ∀ c ∈ t.masked literals, isComparatorChar c = false :=
  forall_mem_masked h (fun _ hc => isComparatorChar_of_class hc (by decide))
    (fun _ hc => isComparatorChar_of_class hc (by decide))
    (fun _ hc => isComparatorChar_of_class hc (by decide)) (by decide)

theorem restore_masked_quoted {q : Char} {text : List Char} (hsettled : Settled literals)
    (hq : q ≠ '_') (h : text ≠ [] → q :: (text ++ [q]) ∈ literals) :
    restore (numbered literals) (Segment.masked literals (.quoted q text)).text =
      q :: (text ++ [q]) := by
  rcases masked_quoted_cases h with ⟨k, hk, hmasked⟩ | ⟨rfl, hmasked⟩
  · rw [hmasked]
    exact Mask.restore_numbered_placeholder hsettled hk
  · rw [hmasked]
    refine Mask.restore_numbered_of_clear (Mask.clear_of_notMem ?_) literals
    simpa [Segment.text] using hq.symm

theorem Term.restore_masked (h : t.HiddenBy literals) (hsettled : Settled literals) :
    restore (numbered literals) (t.masked literals) = t.text := by
  cases t with
  | number n =>
    have hmasked : (number n).masked literals = n.text := by
      simp [masked, segments, textOf, Segment.masked, Segment.text]
    have hnot : '_' ∉ n.text := fun hmem =>
      n.forall_mem (P := fun c => c ≠ '_') (fun _ hc heq => by rw [heq] at hc; cases hc)
        (by decide) _ hmem rfl
    rw [hmasked, text_number]
    exact Mask.restore_numbered_of_clear (Mask.clear_of_notMem hnot) literals
  | string quote text plain =>
    have hquoted := restore_masked_quoted hsettled (q := quote.char) (by cases quote <;> decide)
      (h _ _ List.mem_cons_self)
    rw [text_string, ← hquoted]
    simp [masked, segments, textOf]
  | call c =>
    have hquoted := restore_masked_quoted hsettled (q := '\'') (by decide)
      (h '\'' c.payload (by simp [segments]))
    have hmasked : (call c).masked literals = c.function.text ++
        '(' :: ((Segment.masked literals (.quoted '\'' c.payload)).text ++ ')' :: []) := by
      simp [masked, segments, textOf, Segment.masked, Segment.text]
    have hempty : restore (numbered literals) [] = [] :=
      Mask.restore_numbered_of_clear (by decide) literals
    rw [hmasked, Mask.restore_append_cons (by decide) (by decide),
      Mask.restore_append_cons (by decide) (by decide), hquoted,
      Mask.restore_numbered_of_clear c.clear, hempty, c.text_eq]
    simp

end Masked

/-! ### Calls -/

/-- What the names of a comparison leave for a call: all but the field, or all where the function
is called like the field. -/
def Call.candidates (c : Call) (f : Path) (names : List String) : List String :=
  names.filter fun name => decide (f.text = c.function.text) || name != String.ofList f.text

/-- The first two names left for a call are its function and its payload. -/
def Call.SuppliedBy (c : Call) (f : Path) (names : List String) : Prop :=
  (c.candidates f names).take 2 = [String.ofList c.function.text, String.ofList c.payload]

section Calls

variable {c : Call}

theorem Call.not_isQuoted (c : Call) (tail : List Char) :
    Literal.isQuoted (c.function.text ++ tail) = false := by
  have hnot : c.function.first ∉ [Literal.singleQuote, Literal.doubleQuote, Literal.backQuote] :=
    notMem_of_class c.function.start (by decide)
  simpa [Name.text, Literal.isQuoted, Literal.isQuote, and_assoc] using hnot

theorem Call.scalar?_eq_none (c : Call) {tail : List Char}
    (h : Text.Tight (c.function.text ++ '(' :: tail)) :
    Literal.scalar? (c.function.text ++ '(' :: tail) = none := by
  have hword : ∀ word : String, '(' ∉ word.toList →
      Text.lower (c.function.text ++ '(' :: tail) ≠ word.toList := by
    intro word hnot heq
    have hparen : '(' ∈ Text.lower (c.function.text ++ '(' :: tail) :=
      List.mem_map.mpr ⟨'(', by simp, by decide⟩
    rw [heq] at hparen
    exact hnot hparen
  have hread : Numeral.read? (c.function.text ++ '(' :: tail) = none :=
    Numeral.read?_of_isNameStart c.function.start h
  rw [Literal.scalar?, if_neg (by simp [c.not_isQuoted])]
  simp only [if_neg (hword "true" (by decide)), if_neg (hword "false" (by decide)),
    if_neg (hword "null" (by decide)), Literal.number?, hread]
  rfl

theorem Call.isInlineCall (c : Call) (tail : List Char) :
    Literal.isInlineCall (c.function.text ++ '(' :: '\'' :: tail) = true := by
  simp [Literal.isInlineCall, c.not_isQuoted, Literal.singleQuote]

theorem Call.calls_iff (c : Call) (f : Path) (tail : List Char) :
    (f.text ++ ['(']).isPrefixOf (c.function.text ++ '(' :: tail) =
      decide (f.text = c.function.text) := by
  have hparen : ∀ {name : List Char}, (∀ d ∈ name, Condition.isDelimiter d = false) →
      '(' ∉ name := fun h hmem => absurd (h _ hmem) (by decide)
  rw [Bool.eq_iff_iff, List.isPrefixOf_iff_prefix, decide_eq_true_iff]
  constructor
  · exact Mask.eq_of_concat_isPrefix (hparen f.not_delimiter) (hparen c.function.not_delimiter)
  · intro heq
    exact ⟨tail, by rw [heq]; simp⟩

/-- A call is resolved by the names that are left for it, whatever stands between its quotes. -/
theorem Call.coerce (c : Call) (registry : Registry) (names : List String) (f : Path)
    {tail : List Char} (h : Text.Tight (c.function.text ++ '(' :: '\'' :: tail)) :
    Comparison.coerce registry names f.text (c.function.text ++ '(' :: '\'' :: tail) =
      match c.candidates f names with
      | function :: payload :: _ => (registry.build function payload).map
          (·.getD (.string (String.ofList (c.function.text ++ '(' :: '\'' :: tail))))
      | _ => .ok (.string (String.ofList (c.function.text ++ '(' :: '\'' :: tail))) := by
  rw [Comparison.coerce, c.scalar?_eq_none h]
  simp only [c.isInlineCall, c.calls_iff, if_true]
  change (match c.candidates f names with
    | function :: payload :: _ => do return (← registry.build function payload).getD _
    | _ => _) = _
  rcases c.candidates f names with _ | ⟨function, _ | ⟨payload, rest⟩⟩
  · rfl
  · rfl
  · cases registry.build function payload <;> rfl

theorem Call.coerce_of_candidates {other : Call} {f : Path} {names : List String}
    (hnames : other.candidates f names = c.candidates f names) (hsupplied : c.SuppliedBy f names)
    {registry : Registry} {builder : Builder}
    (hbuilder : registry.get? (String.ofList c.function.text) = some builder) {tail : List Char}
    (h : Text.Tight (other.function.text ++ '(' :: '\'' :: tail)) :
    Comparison.coerce registry names f.text (other.function.text ++ '(' :: '\'' :: tail) =
      (builder (String.ofList c.payload)).mapError
        (⟨String.ofList c.function.text, String.ofList c.payload, ·⟩) := by
  rw [other.coerce registry names f h, hnames]
  rw [Call.SuppliedBy] at hsupplied
  rcases hleft : c.candidates f names with _ | ⟨function, _ | ⟨payload, rest⟩⟩
  · simp [hleft] at hsupplied
  · simp [hleft] at hsupplied
  · obtain ⟨rfl, rfl⟩ : function = _ ∧ payload = _ := by simpa [hleft] using hsupplied
    simp only [Registry.build, hbuilder]
    cases builder (String.ofList c.payload) <;> rfl

theorem Call.coerce_of_suppliedBy {f : Path} {names : List String} (hsupplied : c.SuppliedBy f names)
    {registry : Registry} {builder : Builder}
    (hbuilder : registry.get? (String.ofList c.function.text) = some builder) {tail : List Char}
    (h : Text.Tight (c.function.text ++ '(' :: '\'' :: tail)) :
    Comparison.coerce registry names f.text (c.function.text ++ '(' :: '\'' :: tail) =
      (builder (String.ofList c.payload)).mapError
        (⟨String.ofList c.function.text, String.ofList c.payload, ·⟩) :=
  coerce_of_candidates rfl hsupplied hbuilder h

/-- Functions that tell a call from all others, and answer another one too. -/
def Call.probe (c : Call) (other : Name) : Registry :=
  ⟨[(String.ofList c.function.text,
      fun payload => .ok (.int (if payload = String.ofList c.payload then 0 else 1))),
    (String.ofList other.text, fun _ => .ok (.int 1))]⟩

theorem Call.build_probe (c : Call) (other : Name) (function payload : String) :
    (c.probe other).build function payload =
      .ok (if function = String.ofList c.function.text then
        some (.int (if payload = String.ofList c.payload then 0 else 1))
      else if function = String.ofList other.text then some (.int 1) else none) := by
  rw [Registry.build, Registry.get?, probe, List.lookup_cons]
  by_cases hfunction : function = String.ofList c.function.text
  · simp [hfunction]
  · by_cases hother : function = String.ofList other.text
    · simp [beq_false_of_ne hfunction, hfunction, ← hother]
    · simp [beq_false_of_ne hfunction, hfunction, beq_false_of_ne hother, hother,
        List.lookup_cons]

theorem Call.suppliedBy_of_coerce {f : Path} {names : List String} {other : Name}
    {tail : List Char} (h : Text.Tight (c.function.text ++ '(' :: '\'' :: tail))
    (hzero : Comparison.coerce (c.probe other) names f.text
      (c.function.text ++ '(' :: '\'' :: tail) = .ok (.int 0)) : c.SuppliedBy f names := by
  rw [c.coerce _ names f h] at hzero
  rw [Call.SuppliedBy]
  rcases hnames : c.candidates f names with _ | ⟨function, _ | ⟨payload, rest⟩⟩
  · simp [hnames] at hzero
  · simp [hnames] at hzero
  · simp only [hnames, c.build_probe, Except.map] at hzero
    split at hzero
    · rename_i hfunction
      by_cases hpayload : payload = String.ofList c.payload
      · simp [hfunction, hpayload]
      · simp [hpayload] at hzero
    · split at hzero
      · simp at hzero
      · simp at hzero

end Calls

/-! ### Masking a comparison -/

theorem Term.proper (t : Term) : ∀ s ∈ t.segments, s.Proper := by
  intro s hs
  cases t with
  | number n =>
    rw [List.mem_singleton.mp hs]
    refine noQuote_of_not_delimiter (n.forall_mem (fun _ hc => ?_) (by decide))
    exact Condition.isDelimiter_of_class hc (by decide)
  | string quote text plain =>
    rw [List.mem_singleton.mp hs]
    exact ⟨isQuote_char quote, fun c hc => (plain c hc).1⟩
  | call c =>
    simp only [segments, List.mem_cons, List.not_mem_nil, or_false] at hs
    rcases hs with rfl | rfl | rfl
    · exact (noQuote_of_not_delimiter c.function.not_delimiter).append (by decide)
    · exact ⟨by decide, fun d hd => (c.plain d hd).1⟩
    · exact show NoQuote [')'] by decide

theorem Term.noQuote_names (t : Term) : ∀ name ∈ t.names, NoQuote name.toList := by
  intro name hname
  cases t with
  | number n => cases hname
  | string quote text plain =>
    rw [List.mem_singleton.mp hname, String.toList_ofList]
    exact fun c hc => (plain c hc).1
  | call c =>
    rcases List.mem_pair.mp hname with rfl | rfl
    · rw [String.toList_ofList]
      exact noQuote_of_not_delimiter c.function.not_delimiter
    · rw [String.toList_ofList]
      exact fun d hd => (c.plain d hd).1

theorem Term.mem_names_of_quoted {t : Term} {q : Char} {text : List Char}
    (h : .quoted q text ∈ t.segments) : String.ofList text ∈ t.names := by
  cases t with
  | number n => simp [segments] at h
  | string quote other plain =>
    obtain ⟨rfl, rfl⟩ : q = quote.char ∧ text = other := by simpa [segments] using h
    simp [names]
  | call c =>
    obtain ⟨rfl, rfl⟩ : q = '\'' ∧ text = c.payload := by simpa [segments] using h
    simp [names]

theorem Term.hiddenBy_of_hides {t : Term} {segments : List Segment} {names : List String}
    {literals : List (List Char)} (h : Hides segments (Mask.candidates names) literals)
    (hsegments : ∀ s ∈ t.segments, s ∈ segments) (hnames : ∀ name ∈ t.names, name ∈ names) :
    t.HiddenBy literals := by
  intro q text hmem hne
  have hq : Literal.isQuote q = true := (t.proper _ hmem).1
  refine (h.mem_iff _).mpr ⟨?_, q, text, hsegments _ hmem, rfl⟩
  exact Mask.mem_candidates hq (hnames _ (mem_names_of_quoted hmem)) hne

theorem Term.sole_quoted (t : Term) : ∀ q text q' text', .quoted q text ∈ t.segments →
    .quoted q' text' ∈ t.segments → Segment.quoted q text = .quoted q' text' := by
  intro q text q' text' h h'
  cases t with
  | number n => simp [segments] at h
  | string quote other plain =>
    simp only [segments, List.mem_singleton] at h h'
    rw [h, h']
  | call c =>
    simp only [segments, List.mem_cons, List.not_mem_nil, or_false, reduceCtorEq, false_or] at h h'
    rw [h, h']

/-- Nothing leads from the only string of a text to another one. -/
theorem Term.not_bridges (t : Term) {quote : Char} (hquote : Literal.isQuote quote = true)
    {after : List Char} (hafter : NoQuote after) (name before : List Char)
    (literals : List (List Char)) :
    ¬ Mask.Bridges quote name
      ((.outside before :: (t.segments ++ [Segment.outside after])).map
        (Segment.masked literals)) := by
  have hnot : ∀ {text : List Char}, NoQuote text → ¬ name ++ [quote] <+: text := by
    intro text htext hstarts
    exact htext.notMem hquote (hstarts.subset (by simp))
  have hquoted : ∀ q text back, NoQuote (textOf back) → ¬ Mask.Bridges quote name back →
      ¬ Mask.Bridges quote name (Segment.masked literals (.quoted q text) :: back) := by
    intro q text back hback hrest
    rw [Segment.masked]
    split
    · exact hrest
    · rintro (⟨-, -, hstarts⟩ | h)
      · exact hnot hback hstarts
      · exact hrest h
  cases t with
  | number n => exact id
  | string q text plain =>
    refine hquoted q.char text [.outside after] ?_ id
    simpa [textOf, Segment.text] using hafter
  | call c =>
    refine hquoted '\'' c.payload [.outside [')'], .outside after] ?_ id
    intro d hd
    rcases List.mem_cons.mp hd with rfl | hd
    · decide
    · exact hafter d (by simpa [Segment.text] using hd)

/-- Hidden are the strings of a term, except empty ones, and nothing else. -/
structure Term.MaskedBy (t : Term) (literals : List (List Char)) : Prop where
  hidden : t.HiddenBy literals
  only : ∀ literal ∈ literals, ∃ q text, .quoted q text ∈ t.segments ∧ text ≠ [] ∧
    literal = q :: (text ++ [q])
  length_le_one : literals.length ≤ 1

theorem Term.MaskedBy.restore {t : Term} {literals : List (List Char)} (h : t.MaskedBy literals) :
    Mask.restore (numbered literals) (t.masked literals) = t.text :=
  restore_masked h.hidden (Mask.settled_of_length_le_one h.length_le_one)

/-- A text with one term is masked in the term only. -/
theorem Term.exists_protect (t : Term) {front back : List Char} (hfront : NoQuote front)
    (hback : NoQuote back) {names : List String} (hnames : ∀ name ∈ names, NoQuote name.toList)
    (hterm : ∀ name ∈ t.names, name ∈ names) : ∃ literals, t.MaskedBy literals ∧
      Mask.protect names (front ++ t.text ++ back) =
        (numbered literals, front ++ t.masked literals ++ back) := by
  have hproper : ∀ s ∈ .outside front :: (t.segments ++ [Segment.outside back]), s.Proper := by
    intro s hs
    rcases List.mem_cons.mp hs with rfl | hs
    · exact hfront
    rcases List.mem_append.mp hs with hs | hs
    · exact t.proper s hs
    · rw [List.mem_singleton.mp hs]
      exact hback
  -- A term has one string at most, so no name is found from one string to another.
  obtain ⟨literals, hhides, hprotect⟩ := Mask.protect_textOf hnames hproper
    (fun before quote name rest hidden hsplit _ => by
      obtain ⟨other, -, -, q, hq, heq⟩ := Mask.eq_of_mem_candidates
        (hsplit ▸ List.mem_append_right before List.mem_cons_self)
      rw [(List.cons.inj heq).1]
      exact t.not_bridges hq hback name _ hidden)
  have hmem : ∀ {q text}, .quoted q text ∈ .outside front :: (t.segments ++ [Segment.outside back]) →
      .quoted q text ∈ t.segments := by
    intro q text h
    simpa using h
  refine ⟨literals, ⟨?_, ?_, ?_⟩, ?_⟩
  · exact hiddenBy_of_hides hhides (fun s hs => by simp [hs]) hterm
  · intro literal hliteral
    obtain ⟨hcandidate, q, text, hquoted, rfl⟩ := (hhides.mem_iff literal).mp hliteral
    refine ⟨q, text, hmem hquoted, ?_, rfl⟩
    rintro rfl
    obtain ⟨name, -, hne, q', -, heq⟩ := Mask.eq_of_mem_candidates hcandidate
    have hnil : name.toList = [] := by
      have hlength := congrArg List.length heq
      simpa using hlength
    exact hne (String.toList_eq_nil_iff.mp hnil)
  · exact hhides.length_le_one fun q text q' text' h h' =>
      t.sole_quoted q text q' text' (hmem h) (hmem h')
  · have htext : ∀ segments : List Segment,
        textOf (.outside front :: (segments ++ [Segment.outside back])) =
          front ++ textOf segments ++ back := by
      intro segments
      simp [textOf, Segment.text]
    rw [htext] at hprotect
    rw [Term.text, hprotect, List.map_cons, List.map_append, Term.masked, ← htext]
    rfl

theorem exists_protect_around (f : Path) (t : Term) {before after : List Char}
    (hbefore : NoQuote before) (hafter : NoQuote after) : ∃ literals, t.MaskedBy literals ∧
      Mask.protect (comparedNames f t) (f.text ++ (before ++ t.text ++ after)) =
        (numbered literals, f.text ++ (before ++ t.masked literals ++ after)) := by
  have hnames : ∀ name ∈ comparedNames f t, NoQuote name.toList := by
    intro name hname
    rcases List.mem_append.mp (mem_distinct.mp hname) with hname | hname
    · exact f.noQuote_names name hname
    · exact t.noQuote_names name hname
  obtain ⟨literals, hmasked, hprotect⟩ := t.exists_protect (f.noQuote.append hbefore) hafter hnames
    fun name hname => mem_distinct.mpr (List.mem_append_right _ hname)
  exact ⟨literals, hmasked, by simpa only [List.append_assoc] using hprotect⟩

/-- A comparison with a term is one with the value that the term has among the names. -/
theorem convert_compared (f : Path) (op : Comparator) (t : Term) (registry : Registry) :
    Comparison.convert registry (comparedNames f t) (compared f op t) =
      (Comparison.coerce registry (comparedNames f t) f.text t.text).map fun value =>
        .ofField (String.ofList f.text) (op.predicate value) := by
  have hbefore : NoQuote ([' '] ++ op.text ++ [' ']) := by
    refine noQuote_of_not_delimiter fun c hc => ?_
    simp only [List.mem_append, List.mem_singleton] at hc
    rcases hc with (rfl | hc) | rfl
    · decide
    · exact op.not_delimiter c hc
    · decide
  obtain ⟨literals, hmasked, hprotect⟩ :=
    exists_protect_around f t hbefore (show NoQuote [] by simp [NoQuote])
  obtain ⟨gap, hgap⟩ : ∃ g : Gap, g.text = [' '] := ⟨⟨[' '], by decide, by decide⟩, rfl⟩
  have hwords := words_comparison f gap gap op (Term.solid_masked hmasked.hidden)
    (Term.not_comparatorChar_masked hmasked.hidden)
  have htext : ∀ text, f.text ++ ([' '] ++ op.text ++ [' '] ++ text ++ []) =
      f.text ++ [' '] ++ op.text ++ [' '] ++ text := by
    intro text
    simp
  rw [hgap] at hwords
  rw [htext, htext, ← compared] at hprotect
  rw [Comparison.convert, hprotect]
  simp only [hwords]
  exact ofWords_comparison registry _ op (Mask.restore_numbered_of_clear f.clear literals)
    hmasked.restore

end DocQuery.Where
