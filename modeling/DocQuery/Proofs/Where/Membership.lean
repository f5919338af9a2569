import DocQuery.Proofs.Condition.Bridging
import DocQuery.Proofs.Where.Listing
import Mathlib.Data.List.Chain

/-! Lists of strings after `IN` and `NOT IN`, and when their items are kept. The strings are masked in
the order in which they are first listed. One of them may be the text that stands between two items:
it is then also found from the closing quote of an item to the opening quote of the next one, unless
one of the two is masked before. -/

namespace DocQuery.Where

open Mask (NoQuote Segment Hides Broken Bridges textOf textOf_append textOf_cons numbered candidates
  placeholder restore)
open Statement (exists_of_bind_eq_ok)
open Text (squeeze fields)

/-- A text without quotes and backslashes in which no placeholder starts. -/
structure PlainText where
  text : List Char
  plain : ∀ c ∈ text, Literal.isQuote c = false ∧ c ≠ '\\'
  clear : Text.contains "__literal_".toList text = false

namespace PlainText

def term (s : PlainText) : Term :=
  .string .single s.text s.plain

def value (s : PlainText) : Value :=
  .string (String.ofList s.text)

def literal (s : PlainText) : List Char :=
  '\'' :: (s.text ++ ['\''])

theorem noQuote (s : PlainText) : NoQuote s.text :=
  fun c hc => (s.plain c hc).1

end PlainText

def namesBefore (f : Path) (ss : List PlainText) : List String :=
  (listedNames f (ss.map PlainText.term)).takeWhile (· != String.ofList comma)

/-- An item is masked before the text `, ` is, unless it is empty. -/
def PlainText.MaskedFirst (s : PlainText) (f : Path) (ss : List PlainText) : Prop :=
  s.text ≠ [] ∧ String.ofList s.text ∈ namesBefore f ss

/-- Where the text `, ` is an item, of two neighbours the first one is this text, or one of them is
masked before it. -/
def KeptApart (f : Path) (ss : List PlainText) : Prop :=
  (∃ s ∈ ss, s.text = comma) →
    ss.IsChain fun s t => s.text = comma ∨ s.MaskedFirst f ss ∨ t.MaskedFirst f ss

/-! ### The names of a list -/

section Names

variable {f : Path} {ss : List PlainText}

theorem mem_listedNames {name : String} : name ∈ listedNames f (ss.map PlainText.term) ↔
    name ∈ f.names ∨ ∃ s ∈ ss, name = String.ofList s.text := by
  simp [listedNames, mem_distinct, PlainText.term, Term.names, eq_comm]

theorem noQuote_listedNames (f : Path) (ss : List PlainText) :
    ∀ name ∈ listedNames f (ss.map PlainText.term), NoQuote name.toList := by
  intro name hname
  rcases mem_listedNames.mp hname with hname | ⟨s, -, rfl⟩
  · exact f.noQuote_names name hname
  · rw [String.toList_ofList]
    exact s.noQuote

theorem clear_listedNames (f : Path) (ss : List PlainText) :
    ∀ name ∈ listedNames f (ss.map PlainText.term),
      Text.contains "__literal_".toList name.toList = false := by
  intro name hname
  rcases mem_listedNames.mp hname with hname | ⟨s, -, rfl⟩
  · exact f.clear_names name hname
  · have htext : (String.ofList s.text).toList = s.text := String.toList_ofList
    rw [htext]
    exact s.clear

theorem comma_mem_listedNames_iff (f : Path) (ss : List PlainText) :
    String.ofList comma ∈ listedNames f (ss.map PlainText.term) ↔ ∃ s ∈ ss, s.text = comma := by
  rw [mem_listedNames]
  constructor
  · rintro (hname | ⟨s, hs, heq⟩)
    · exact absurd (by decide) (f.blank_notMem_names _ hname)
    · exact ⟨s, hs, (String.ofList_inj.mp heq).symm⟩
  · rintro ⟨s, hs, htext⟩
    exact .inr ⟨s, hs, by rw [htext]⟩

end Names

/-! ### Names between two items -/

section Between

variable {q : Char} {name : List Char} {literals : List (List Char)}

theorem noQuote_comma : NoQuote comma := by
  decide

/-- What a name leads to after an item and a comma: the opening quote of the next one. -/
theorem concat_isPrefix_next_iff (hname : NoQuote name)
    (hclear : Text.contains "__literal_".toList name = false) (s : PlainText) (rest : List Char) :
    name ++ ['\''] <+: comma ++ ((Segment.masked literals (.quoted '\'' s.text)).text ++ rest) ↔
      name = comma ∧ s.literal ∉ literals := by
  have hquote : Literal.isQuote '\'' = true := by decide
  rw [Segment.masked, PlainText.literal]
  split
  · rename_i hmem
    refine iff_of_false ?_ fun h => h.2 hmem
    exact Mask.not_concat_isPrefix_placeholder hquote hclear noQuote_comma _ rest
  · rename_i hmem
    constructor
    · intro hstarts
      refine ⟨?_, hmem⟩
      exact Mask.eq_of_concat_isPrefix (hname.notMem hquote) (noQuote_comma.notMem hquote) hstarts
    · rintro ⟨rfl, -⟩
      exact ⟨s.text ++ '\'' :: rest, by simp [Segment.text]⟩

theorem bridges_terms_iff (hname : NoQuote name)
    (hclear : Text.contains "__literal_".toList name = false) (first : PlainText)
    (rest : List PlainText) :
    Bridges q name ((listSegments ((first :: rest).map PlainText.term)).map
        (Segment.masked literals)) ↔
      q = '\'' ∧ name = comma ∧ ¬ (first :: rest).IsChain fun s t =>
        s.text = comma ∨ s.literal ∈ literals ∨ t.literal ∈ literals := by
  induction rest generalizing first with
  | nil =>
    have hsegments : listSegments ([first].map PlainText.term) = [.quoted '\'' first.text] := rfl
    refine iff_of_false ?_ fun h => h.2.2 (List.isChain_singleton first)
    rw [hsegments, List.map_singleton, Segment.masked]
    split
    · exact id
    · rintro (⟨-, -, hstarts⟩ | h)
      · simp [textOf] at hstarts
      · exact h
  | cons second rest ih =>
    have hsegments : listSegments ((first :: second :: rest).map PlainText.term) =
        .quoted '\'' first.text :: .outside comma ::
          listSegments ((second :: rest).map PlainText.term) := rfl
    have hnext : name ++ ['\''] <+: textOf ((.outside comma ::
        listSegments ((second :: rest).map PlainText.term)).map (Segment.masked literals)) ↔
          name = comma ∧ second.literal ∉ literals :=
      concat_isPrefix_next_iff hname hclear second _
    rw [hsegments, List.map_cons, List.isChain_cons_cons]
    by_cases hfirst : first.literal ∈ literals
    · have hmasked : Segment.masked literals (.quoted '\'' first.text) = .outside _ := if_pos hfirst
      rw [hmasked]
      refine (ih second).trans ?_
      simp [hfirst]
    · have hmasked : Segment.masked literals (.quoted '\'' first.text) =
          .quoted '\'' first.text := if_neg hfirst
      rw [hmasked, Bridges]
      rw [List.map_cons, Segment.masked] at hnext ⊢
      rw [Bridges, ih second]
      constructor
      · rintro (⟨rfl, hne, hstarts⟩ | ⟨hq, hcomma, hchain⟩)
        · obtain ⟨hcomma, hsecond⟩ := hnext.mp hstarts
          refine ⟨rfl, hcomma, fun h => ?_⟩
          rcases h.1 with htext | hmem | hmem
          · exact hne (htext.trans hcomma.symm)
          · exact hfirst hmem
          · exact hsecond hmem
        · exact ⟨hq, hcomma, fun h => hchain h.2⟩
      · rintro ⟨rfl, hcomma, hchain⟩
        by_cases htail : (second :: rest).IsChain fun s t =>
            s.text = comma ∨ s.literal ∈ literals ∨ t.literal ∈ literals
        · have hpair : ¬ (first.text = comma ∨ first.literal ∈ literals ∨
              second.literal ∈ literals) := fun h => hchain ⟨h, htail⟩
          simp only [not_or] at hpair
          refine .inl ⟨rfl, fun heq => hpair.1 (heq.trans hcomma), ?_⟩
          exact hnext.mpr ⟨hcomma, hpair.2.2⟩
        · exact .inr ⟨rfl, hcomma, htail⟩

end Between

/-! ### Masking a list -/

section Masking

variable {f : Path} {ss : List PlainText} {literals done : List (List Char)}

theorem mem_listSegments {ts : List Term} {t : Term} (ht : t ∈ ts) {s : Segment}
    (hs : s ∈ t.segments) : s ∈ listSegments ts := by
  cases ts with
  | nil => cases ht
  | cons u ts =>
    rcases List.mem_cons.mp ht with rfl | ht
    · exact List.mem_append_left _ hs
    · exact List.mem_append_right _ (List.mem_flatMap.mpr ⟨t, ht, List.mem_cons_of_mem _ hs⟩)

theorem proper_listSegments (ts : List Term) : ∀ s ∈ listSegments ts, s.Proper := by
  intro s hs
  cases ts with
  | nil => cases hs
  | cons u ts =>
    rcases List.mem_append.mp hs with hs | hs
    · exact u.proper s hs
    · obtain ⟨t, -, hs⟩ := List.mem_flatMap.mp hs
      rcases List.mem_cons.mp hs with rfl | hs
      · exact noQuote_comma
      · exact t.proper s hs

theorem exists_of_listSegments_eq {front rest : List Segment} {q : Char} {text : List Char}
    (h : listSegments (ss.map PlainText.term) = front ++ Segment.quoted q text :: rest) :
    ∃ before s after, ss = before ++ s :: after ∧ q = '\'' ∧ s.text = text ∧
      front = before.flatMap fun b : PlainText => [.quoted '\'' b.text, .outside comma] := by
  induction ss generalizing front with
  | nil => simp [listSegments] at h
  | cons s ss ih =>
    cases front with
    | nil =>
      obtain ⟨hs, -⟩ := List.cons.inj (show .quoted '\'' s.text :: _ = .quoted q text :: rest from h)
      obtain ⟨rfl, rfl⟩ := Segment.quoted.inj hs
      exact ⟨[], s, ss, rfl, rfl, rfl, rfl⟩
    | cons opening front =>
      cases ss with
      | nil =>
        obtain ⟨-, hrest⟩ := List.cons.inj
          (show .quoted '\'' s.text :: [] = opening :: (front ++ Segment.quoted q text :: rest) from h)
        simp at hrest
      | cons t ss =>
        have hnext : .quoted '\'' s.text :: .outside comma ::
            listSegments ((t :: ss).map PlainText.term) =
              opening :: (front ++ Segment.quoted q text :: rest) := h
        obtain ⟨rfl, hgap⟩ := List.cons.inj hnext
        cases front with
        | nil => cases (List.cons.inj hgap).1
        | cons gap front =>
          obtain ⟨rfl, hlist⟩ := List.cons.inj hgap
          obtain ⟨before, u, after, hsplit, hq, htext, rfl⟩ := ih hlist
          exact ⟨s :: before, u, after, by rw [hsplit, List.cons_append], hq, htext, rfl⟩

theorem literal_mem_iff (h : Hides (listSegments (ss.map PlainText.term)) done literals)
    {s : PlainText} (hs : s ∈ ss) : s.literal ∈ literals ↔ s.literal ∈ done := by
  have hsegment : .quoted '\'' s.text ∈ listSegments (ss.map PlainText.term) :=
    mem_listSegments (List.mem_map_of_mem hs) List.mem_cons_self
  rw [h.mem_iff]
  exact and_iff_left ⟨'\'', s.text, hsegment, rfl⟩

theorem maskedFirst_iff {s : PlainText} :
    s.MaskedFirst f ss ↔ s.literal ∈ candidates (namesBefore f ss) :=
  (Mask.mem_candidates_iff (by decide)).symm

theorem quoted_of_mem_candidates {c : List Char}
    (hc : c ∈ candidates (listedNames f (ss.map PlainText.term))) :
    ∃ q name, Literal.isQuote q = true ∧ NoQuote name ∧
      Text.contains "__literal_".toList name = false ∧ c = q :: (name ++ [q]) := by
  obtain ⟨name, hname, -, q, hq, rfl⟩ := Mask.eq_of_mem_candidates hc
  exact ⟨q, name.toList, hq, noQuote_listedNames f ss name hname,
    clear_listedNames f ss name hname, rfl⟩

theorem exists_candidates_comma (h : ∃ s ∈ ss, s.text = comma) : ∃ back,
    candidates (listedNames f (ss.map PlainText.term)) =
      candidates (namesBefore f ss) ++ ('\'' :: (comma ++ ['\''])) :: back ∧
    (candidates (namesBefore f ss) ++ ('\'' :: (comma ++ ['\''])) :: back).Nodup ∧
    ∀ c ∈ candidates (namesBefore f ss) ++ back, ∃ q name, Literal.isQuote q = true ∧
      NoQuote name ∧ Text.contains "__literal_".toList name = false ∧ c = q :: (name ++ [q]) ∧
      ¬ (q = '\'' ∧ name = comma) := by
  obtain ⟨back, hback⟩ :=
    Mask.exists_candidates_split (by decide) ((comma_mem_listedNames_iff f ss).mpr h)
  have hnodup := Mask.nodup_candidates (nodup_distinct (f.names ++ (ss.map PlainText.term).flatMap
    Term.names))
  rw [← listedNames, hback] at hnodup
  refine ⟨back, hback, hnodup, fun c hc => ?_⟩
  have hin : c ∈ candidates (listedNames f (ss.map PlainText.term)) := by
    rw [hback]
    rcases List.mem_append.mp hc with hc | hc
    · exact List.mem_append_left _ hc
    · exact List.mem_append_right _ (List.mem_cons_of_mem _ hc)
  obtain ⟨q, name, hq, hname, hclear, rfl⟩ := quoted_of_mem_candidates hin
  refine ⟨q, name, hq, hname, hclear, rfl, ?_⟩
  rintro ⟨rfl, rfl⟩
  exact (List.nodup_middle.mp hnodup).notMem hc

theorem convert_terms {body : List Char} (registry : Registry) (negated : Bool)
    (hprotect : Mask.protect (listedNames f (ss.map PlainText.term))
      (textOf (listSegments (ss.map PlainText.term))) = (numbered literals, body)) :
    Comparison.convert registry (listedNames f (ss.map PlainText.term))
        (listed negated f (ss.map PlainText.term)) =
      ((fields ',' body).mapM (itemValue registry (numbered literals))).map fun items =>
        .ofField (String.ofList f.text) (Comparison.listPredicate negated items) := by
  have hfront : NoQuote (f.text ++ listWords negated ++ ['(']) :=
    (f.noQuote.append (by cases negated <;> decide)).append (by decide)
  have haround := Mask.protect_append (noQuote_listedNames f ss) hfront
    (textOf (listSegments (ss.map PlainText.term)) ++ [')'])
  rw [Mask.protect_concat (noQuote_listedNames f ss) (by decide), hprotect,
    textOf_listSegments_eq] at haround
  refine convert_listed registry (Mask.restore_numbered_of_clear f.clear literals) ?_
  simpa [listed] using haround

end Masking

/-! ### Items that are kept -/

theorem mapM_listItem {literals : List (List Char)} {ss : List PlainText}
    (hhidden : ∀ s ∈ ss, s.term.HiddenBy literals) (hsettled : Mask.Settled literals)
    (registry : Registry) :
    ((ss.map PlainText.term).mapM fun t =>
      Comparison.listItem registry (numbered literals) (t.masked literals)) =
        .ok (ss.map PlainText.value) := by
  induction ss with
  | nil => rfl
  | cons s ss ih =>
    have hitem := listItem_string (hhidden s List.mem_cons_self) hsettled registry
    have hrest := ih fun t ht => hhidden t (List.mem_cons_of_mem s ht)
    rw [List.map_cons, List.mapM_cons, hrest]
    exact congrArg (· >>= _) hitem

theorem clear_literal (s : PlainText) :
    Text.contains "__literal_".toList s.literal = false := by
  have hends : "__literal_".toList = "__literal".toList ++ ['_'] := by decide
  rw [Mask.clear_iff]
  intro hoccurs
  have hopen : '_' ∉ ['\''] := by decide
  have hafter : "__literal_".toList <:+: s.text ++ ['\''] :=
    Mask.isInfix_of_isInfix_append hopen hoccurs
  rw [← Text.contains_iff_isInfix, hends, Text.contains_concat (by decide), ← hends, s.clear] at hafter
  cases hafter

/-- Items that are kept apart are masked one by one, and all of them are restored. -/
theorem convert_of_keptApart (registry : Registry) (negated : Bool) {f : Path}
    {first : PlainText} {rest : List PlainText} (h : KeptApart f (first :: rest)) :
    Comparison.convert registry (listedNames f ((first :: rest).map PlainText.term))
        (listed negated f ((first :: rest).map PlainText.term)) =
      .ok (.ofField (String.ofList f.text)
        (Comparison.listPredicate negated ((first :: rest).map PlainText.value))) := by
  obtain ⟨literals, hhides, hprotect⟩ := Mask.protect_textOf
    (noQuote_listedNames f (first :: rest)) (proper_listSegments _) (by
      intro front quote name back hidden hsplit hhidden hbridges
      have hmem : quote :: (name ++ [quote]) ∈
          candidates (listedNames f ((first :: rest).map PlainText.term)) :=
        hsplit ▸ List.mem_append_right front List.mem_cons_self
      obtain ⟨q, other, hq, hname, hclear, heq⟩ := quoted_of_mem_candidates hmem
      obtain ⟨rfl, rfl⟩ := Segment.quoted.inj (Mask.quoted_injective heq)
      obtain ⟨rfl, rfl, hchain⟩ := (bridges_terms_iff hname hclear first rest).mp hbridges
      have hcomma := (comma_mem_listedNames_iff f _).mp ((Mask.mem_candidates_iff hq).mp hmem).2
      refine hchain ((h hcomma).imp_of_mem_imp fun s t hs ht => ?_)
      rw [literal_mem_iff hhidden hs, literal_mem_iff hhidden ht, maskedFirst_iff, maskedFirst_iff]
      exact Or.imp_right (Or.imp (Mask.mem_of_mem_candidates_takeWhile hq hsplit)
        (Mask.mem_of_mem_candidates_takeWhile hq hsplit)))
  have hhidden : ∀ s ∈ first :: rest, s.term.HiddenBy literals := by
    intro s hs
    refine Term.hiddenBy_of_hides hhides (fun _ => mem_listSegments (List.mem_map_of_mem hs)) ?_
    intro name hname
    rw [List.mem_singleton.mp hname]
    exact mem_listedNames.mpr (.inr ⟨s, hs, rfl⟩)
  have hsettled : Mask.Settled literals := by
    refine Mask.settled_of_clear fun literal hliteral => ?_
    obtain ⟨-, q, text, hsegment, rfl⟩ := (hhides.mem_iff literal).mp hliteral
    obtain ⟨front, back, hsplit⟩ := List.append_of_mem hsegment
    obtain ⟨before, s, after, -, rfl, rfl, -⟩ := exists_of_listSegments_eq hsplit
    exact clear_literal s
  have hterms : ∀ t ∈ (first :: rest).map PlainText.term, t.HiddenBy literals := by
    intro t ht
    obtain ⟨s, hs, rfl⟩ := List.mem_map.mp ht
    exact hhidden s hs
  rw [convert_terms registry negated hprotect, textOf_listSegments,
    mapM_fields_joined (by simp) hterms, mapM_listItem hhidden hsettled]
  rfl

/-! ### Items that are lost -/

section Lost

variable {literals : List (List Char)}

/-- Only `, ` leads from one item to the next one, or to a quote that is left open. -/
theorem eq_comma_of_bridges {q : Char} {name : List Char} (hname : NoQuote name)
    (hclear : Text.contains "__literal_".toList name = false) {before : List PlainText}
    {rest : List Char}
    (h : Bridges q name ((before.flatMap fun b : PlainText =>
        [.quoted '\'' b.text, .outside comma]).map (Segment.masked literals) ++
      [.outside ('\'' :: rest)])) : q = '\'' ∧ name = comma := by
  have hquote : Literal.isQuote '\'' = true := by decide
  induction before with
  | nil => cases h
  | cons b before ih =>
    rw [List.flatMap_cons, List.map_append, List.append_assoc, List.map_cons, List.cons_append] at h
    by_cases hb : b.literal ∈ literals
    · have hmasked : Segment.masked literals (.quoted '\'' b.text) = .outside _ := if_pos hb
      rw [hmasked] at h
      exact ih h
    · have hmasked : Segment.masked literals (.quoted '\'' b.text) = .quoted '\'' b.text := if_neg hb
      rw [hmasked] at h
      rcases h with ⟨rfl, -, hstarts⟩ | h
      · refine ⟨rfl, ?_⟩
        cases before with
        | nil =>
          have hopen : name ++ ['\''] <+: comma ++ '\'' :: rest := by
            simpa [textOf, Segment.masked, Segment.text] using hstarts
          exact Mask.eq_of_concat_isPrefix (hname.notMem hquote) (noQuote_comma.notMem hquote) hopen
        | cons c before =>
          exact ((concat_isPrefix_next_iff hname hclear c _).mp hstarts).1
      · exact ih h

theorem itemValue_open {blanks : List Char} (hblanks : ∀ c ∈ blanks, isBlank c = true)
    (text : List Char) (registry : Registry) :
    ∃ kept, (∀ part : List Char, (∀ c ∈ part, isBlank c = false ∧ isComparatorChar c = false) →
        part <:+: text → part <:+: kept) ∧ (∀ c ∈ kept, c ∈ text ∨ isBlank c = true) ∧
      itemValue registry (numbered literals) (blanks ++ '\'' :: text) =
        .ok (.string (String.ofList (restore (numbered literals) kept).dropLast)) := by
  have hspaced : Comparison.spaceComparators (blanks ++ '\'' :: text) =
      blanks ++ '\'' :: Comparison.spaceComparators text := by
    rw [spaceComparators_append fun c hc => isComparatorChar_of_class (hblanks c hc) (by decide),
      spaceComparators_cons (by decide)]
  have hsqueezed : squeeze (blanks ++ '\'' :: Comparison.spaceComparators text) =
      '\'' :: (Text.joint (Comparison.spaceComparators text) ++
        squeeze (Comparison.spaceComparators text)) := by
    rw [squeeze, Text.words_blanks_append hblanks]
    exact Text.squeeze_cons (by decide) _
  refine ⟨Text.joint (Comparison.spaceComparators text) ++ squeeze (Comparison.spaceComparators text),
    ?_, ?_, ?_⟩
  · intro part hpart hoccurs
    have hspaces := Comparison.isInfix_spaceComparators (fun c hc => (hpart c hc).2) hoccurs
    have hwords := Text.isInfix_squeeze (fun c hc => (hpart c hc).1) hspaces
    exact hwords.trans (List.suffix_append _ _).isInfix
  · intro c hc
    rcases List.mem_append.mp hc with hc | hc
    · exact .inr (Text.isBlank_of_mem_joint hc)
    · rcases Text.mem_squeeze hc with hc | hc
      · rcases Comparison.mem_of_mem_spaceComparators hc with hc | rfl
        · exact .inl hc
        · exact .inr (by decide)
      · exact .inr hc
  · have htight := Text.tight_squeeze (blanks ++ '\'' :: Comparison.spaceComparators text)
    have hitem := Mask.fst_restoreCollecting (numbered literals)
      (Text.trim (squeeze (blanks ++ '\'' :: Comparison.spaceComparators text)))
    have hempty : restore (numbered literals) [] = [] :=
      Mask.restore_numbered_of_clear (by decide) literals
    have hrestored := Mask.restore_append_cons (c := '\'') (by decide) (by decide) literals []
      (Text.joint (Comparison.spaceComparators text) ++ squeeze (Comparison.spaceComparators text))
    rw [hempty, List.nil_append, List.nil_append] at hrestored
    rw [htight.trim_eq, hsqueezed, hrestored] at hitem
    rw [itemValue, hspaced, Comparison.listItem, htight.trim_eq, hsqueezed]
    simp only [hitem]
    rfl

theorem itemValue_ne {s : PlainText} {k : Nat} {blanks item tail : List Char}
    {others : List (List Char)}
    (hliterals : ∀ literal ∈ literals,
      ∃ q text, Literal.isQuote q = true ∧ literal = q :: (text ++ [q]))
    (hk : k < literals.length) (hblanks : ∀ c ∈ blanks, isBlank c = true)
    (hfields : fields ',' (blanks ++ '\'' :: (s.text ++ (placeholder k ++ tail))) = item :: others)
    (registry : Registry) : itemValue registry (numbered literals) item ≠ .ok s.value := by
  intro hvalue
  have hnotComma : ∀ c ∈ blanks, (c != ',') = true := by
    intro c hc
    rw [bne_iff_ne]
    rintro rfl
    exact absurd (hblanks _ hc) (by decide)
  obtain ⟨opened, hopened⟩ : ∃ opened, opened =
      (s.text ++ (placeholder k ++ tail)).takeWhile (· != ',') := ⟨_, rfl⟩
  have hitem : item = blanks ++ '\'' :: opened := by
    have hhead := Text.head?_fields ',' (blanks ++ '\'' :: (s.text ++ (placeholder k ++ tail)))
    rw [hfields, List.takeWhile_append_of_pos hnotComma, List.takeWhile_cons_of_pos (by decide),
      ← hopened] at hhead
    exact Option.some.inj hhead
  obtain ⟨kept, hparts, hchars, hkept⟩ := itemValue_open hblanks opened registry
  rw [hitem, hkept, PlainText.value] at hvalue
  have htext : (restore (numbered literals) kept).dropLast = s.text := by
    simpa [String.ofList_inj] using hvalue
  by_cases hoccurs : ∃ entry ∈ numbered literals, entry.1 <:+: kept
  · -- The quotes of a string that is restored are inside the item.
    have htwo := Mask.two_le_countP_restore hliterals hoccurs
    have hnone : s.text.countP Literal.isQuote = 0 :=
      List.countP_eq_zero.mpr fun c hc => by simp [s.noQuote c hc]
    rcases List.eq_nil_or_concat (restore (numbered literals) kept) with hnil | ⟨front, c, hconcat⟩
    · simp [hnil] at htwo
    · rw [List.concat_eq_append] at hconcat
      rw [hconcat, List.dropLast_concat] at htext
      rw [hconcat, htext, List.countP_append, hnone, List.countP_singleton] at htwo
      split at htwo <;> omega
  · -- Without a comma in the text, the placeholder is a part of the item.
    have hsame : restore (numbered literals) kept = kept :=
      Mask.restore_of_forall fun entry hentry hinfix => hoccurs ⟨entry, hentry, hinfix⟩
    have hclean : ∀ c ∈ s.text ++ placeholder k, (c != ',') = true := by
      intro c hc
      rw [bne_iff_ne]
      rintro rfl
      rcases List.mem_append.mp hc with hc | hc
      · rw [← htext, hsame] at hc
        rcases hchars _ (List.dropLast_subset _ hc) with hc | hc
        · rw [hopened] at hc
          have hall := List.all_eq_true.mp List.all_takeWhile _ hc
          simp at hall
        · exact absurd hc (by decide)
      · exact absurd (isNameChar_of_mem_placeholder hc) (by decide)
    have hinside : placeholder k <:+: opened := by
      rw [hopened, ← List.append_assoc, List.takeWhile_append_of_pos hclean]
      exact ⟨s.text, _, rfl⟩
    have hsolid : ∀ c ∈ placeholder k, isBlank c = false ∧ isComparatorChar c = false := by
      intro c hc
      have hchar := isNameChar_of_mem_placeholder hc
      exact ⟨Lexeme.isBlank_of_isNameChar hchar, isComparatorChar_of_class hchar (by decide)⟩
    obtain ⟨literal, hliteral⟩ : ∃ literal, (numbered literals)[k]? = some (placeholder k, literal) :=
      ⟨literals[k], by rw [Mask.getElem?_numbered, List.getElem?_eq_getElem hk]; rfl⟩
    exact hoccurs ⟨_, List.mem_of_getElem? hliteral, hparts _ hsolid hinside⟩

theorem exists_item_of_mapM {before : List PlainText}
    (hhidden : ∀ b ∈ before, b.term.HiddenBy literals)
    {value : List Char → Except InlineError Value} {blanks rest : List Char}
    (hblanks : ∀ c ∈ blanks, isBlank c = true) {v : Value} {vs : List Value}
    (h : (fields ',' (blanks ++ (before.flatMap (fun b => b.term.masked literals ++ comma) ++
      rest))).mapM value = .ok (before.map PlainText.value ++ v :: vs)) :
    ∃ spaces item others, (∀ c ∈ spaces, isBlank c = true) ∧
      fields ',' (spaces ++ rest) = item :: others ∧ value item = .ok v := by
  induction before generalizing blanks with
  | nil =>
    rw [List.flatMap_nil, List.nil_append, List.map_nil, List.nil_append] at h
    cases hfields : fields ',' (blanks ++ rest) with
    | nil =>
      rw [hfields] at h
      cases h
    | cons item others =>
      refine ⟨blanks, item, others, hblanks, hfields, ?_⟩
      rw [hfields, List.mapM_cons] at h
      obtain ⟨w, hw, hrest⟩ := exists_of_bind_eq_ok h
      obtain ⟨ws, -, hcons⟩ := exists_of_bind_eq_ok hrest
      cases hcons
      exact hw
  | cons b before ih =>
    have hsplit : blanks ++ ((b :: before).flatMap (fun b => b.term.masked literals ++ comma) ++
        rest) = (blanks ++ b.term.masked literals) ++ ',' ::
          ([' '] ++ (before.flatMap (fun b => b.term.masked literals ++ comma) ++ rest)) := by
      simp [comma]
    rw [hsplit, Text.fields_append_cons
      (not_comma_masked (hhidden b List.mem_cons_self) hblanks), List.mapM_cons] at h
    obtain ⟨w, -, hrest⟩ := exists_of_bind_eq_ok h
    obtain ⟨ws, hws, hcons⟩ := exists_of_bind_eq_ok hrest
    cases hcons
    exact ih (fun c hc => hhidden c (List.mem_cons_of_mem b hc)) (by decide) hws

end Lost

/-- Where two neighbours are not kept apart, an item is broken: all items before it are masked, and
it is left open. -/
theorem exists_protect_broken {f : Path} {first : PlainText} {rest : List PlainText}
    (h : ¬ KeptApart f (first :: rest)) : ∃ before s after literals k tail,
      first :: rest = before ++ s :: after ∧
      (∀ b ∈ before, b.term.HiddenBy literals) ∧
      (∀ literal ∈ literals, ∃ q text, Literal.isQuote q = true ∧ literal = q :: (text ++ [q])) ∧
      k < literals.length ∧
      Mask.protect (listedNames f ((first :: rest).map PlainText.term))
          (textOf (listSegments ((first :: rest).map PlainText.term))) =
        (numbered literals, before.flatMap (fun b => b.term.masked literals ++ comma) ++
          '\'' :: (s.text ++ (placeholder k ++ tail))) := by
  obtain ⟨hcomma, hchain⟩ := Classical.not_imp.mp h
  have hproper := proper_listSegments ((first :: rest).map PlainText.term)
  obtain ⟨back, hback, hnodup, hothers⟩ := exists_candidates_comma (f := f) hcomma
  -- No name before `, ` leads from one item to another.
  have hstart : Hides (listSegments ((first :: rest).map PlainText.term)) [] [] :=
    ⟨List.nodup_nil, fun literal => by simp⟩
  have hquoted : ∀ c ∈ candidates (namesBefore f (first :: rest)),
      ∃ q text, Literal.isQuote q = true ∧ NoQuote text ∧ c = q :: (text ++ [q]) := by
    intro c hc
    obtain ⟨q, name, hq, hname, -, heq, -⟩ := hothers c (List.mem_append_left _ hc)
    exact ⟨q, name, hq, hname, heq⟩
  obtain ⟨hidden, hhides, hfold⟩ := hstart.foldl_hide hproper hquoted (by
    intro front quote name later hidden hsplit _ hbridges
    obtain ⟨q, other, -, hname, hclear, heq, hne⟩ := hothers (quote :: (name ++ [quote]))
      (List.mem_append_left _ (hsplit ▸ List.mem_append_right front List.mem_cons_self))
    obtain ⟨rfl, rfl⟩ := Segment.quoted.inj (Mask.quoted_injective heq)
    obtain ⟨hq, hname, -⟩ := (bridges_terms_iff hname hclear first rest).mp hbridges
    exact hne ⟨hq, hname⟩)
  rw [List.nil_append] at hhides
  rw [Mask.map_masked_nil] at hfold
  -- The text `, ` itself breaks an item.
  have hbridges : Bridges '\'' comma ((listSegments ((first :: rest).map PlainText.term)).map
      (Segment.masked hidden)) := by
    refine (bridges_terms_iff noQuote_comma (by decide) first rest).mpr ⟨rfl, rfl, fun h => ?_⟩
    refine hchain (h.imp_of_mem_imp fun s t hs ht hkept => ?_)
    rwa [literal_mem_iff hhides hs, literal_mem_iff hhides ht, ← maskedFirst_iff,
      ← maskedFirst_iff] at hkept
  obtain ⟨front, text, others, next, broken, hsplit, hbroken, hhide⟩ :=
    hhides.exists_broken hproper (by decide) noQuote_comma
      (fun hin => List.disjoint_of_nodup_append hnodup hin List.mem_cons_self) hbridges
  obtain ⟨before, s, after, hitems, -, rfl, rfl⟩ := exists_of_listSegments_eq hsplit
  -- The other names leave it so.
  rw [List.append_cons] at hnodup
  obtain ⟨literals, final, hlast, hrun⟩ := hbroken.foldl_hide
    (fun t ht => hproper t (hsplit ▸ List.mem_append_left _ ht)) s.noQuote hnodup (by
      intro c hc
      obtain ⟨q, name, hq, hname, hclear, heq, hne⟩ := hothers c (List.mem_append_right _ hc)
      exact ⟨q, name, hq, hname, hclear, heq, fun hidden tail hagain =>
        hne (eq_comma_of_bridges hname hclear hagain)⟩)
  rw [← List.append_cons, ← hback] at hlast
  obtain ⟨k, tail, hk, hfinal⟩ := hlast.open_text
  refine ⟨before, s, after, literals, k, tail, hitems, ?_, ?_, hk, ?_⟩
  · intro b hb q text hsegment hne
    obtain ⟨rfl, rfl⟩ := Segment.quoted.inj (List.mem_singleton.mp hsegment)
    refine hlast.hidden _ _ (List.mem_flatMap.mpr ⟨b, hb, List.mem_cons_self⟩) ?_
    refine Mask.mem_candidates (by decide) (mem_listedNames.mpr (.inr ⟨b, ?_, rfl⟩)) hne
    rw [hitems]
    exact List.mem_append_left _ hb
  · intro literal hliteral
    obtain ⟨q, name, hq, -, -, rfl⟩ := quoted_of_mem_candidates (hlast.subset literal hliteral)
    exact ⟨q, name, hq, rfl⟩
  · have hbody : textOf ((before.flatMap fun b : PlainText =>
        [.quoted '\'' b.text, .outside comma]).map (Segment.masked literals)) =
          before.flatMap fun b => b.term.masked literals ++ comma := by
      rw [List.map_flatMap, textOf, List.flatMap_assoc]
      simp [Term.masked, PlainText.term, Term.segments, textOf, Segment.masked, Segment.text,
        Quote.char]
    rw [← hbody, ← hfinal, Mask.protect, hback, List.foldl_append, List.foldl_cons]
    exact (congrArg (fun state => back.foldl Mask.hide (Mask.hide state _)) hfold).trans
      ((congrArg (back.foldl Mask.hide) hhide).trans hrun)

/-- The value of the broken item is not its text. -/
theorem keptApart_of_convert {registry : Registry} {negated : Bool} {f : Path}
    {first : PlainText} {rest : List PlainText}
    (h : Comparison.convert registry (listedNames f ((first :: rest).map PlainText.term))
        (listed negated f ((first :: rest).map PlainText.term)) =
      .ok (.ofField (String.ofList f.text)
        (Comparison.listPredicate negated ((first :: rest).map PlainText.value)))) :
    KeptApart f (first :: rest) := by
  by_contra hjoined
  obtain ⟨before, s, after, literals, k, tail, hitems, hhidden, hliterals, hk, hprotect⟩ :=
    exists_protect_broken hjoined
  have hvalues : (fields ',' ([] ++ (before.flatMap (fun b => b.term.masked literals ++ comma) ++
      '\'' :: (s.text ++ (placeholder k ++ tail))))).mapM (itemValue registry (numbered literals)) =
        .ok (before.map PlainText.value ++ s.value :: after.map PlainText.value) := by
    rw [convert_terms registry negated hprotect, hitems, List.map_append, List.map_cons] at h
    rw [List.nil_append]
    revert h
    generalize (fields ',' _).mapM (itemValue registry (numbered literals)) = result
    intro h
    cases result with
    | error e => cases h
    | ok items =>
      have hsame : items = before.map PlainText.value ++ s.value :: after.map PlainText.value := by
        simpa [Except.map, Filter.ofField, Comparison.listPredicate, Predicate.operator] using h
      rw [hsame]
  obtain ⟨spaces, item, items, hspaces, hfields, hvalue⟩ :=
    exists_item_of_mapM hhidden (by simp) hvalues
  exact itemValue_ne hliterals hk hspaces hfields registry hvalue

/-- For every field and every list of strings without quotes and backslashes, the list after `IN` or
`NOT IN` is read with the names of the field and the distinct strings. It is converted to the list of
just these strings, exactly if its items are kept apart. -/
theorem list_kept_iff (registry : Registry) (negated : Bool) (f : Path) (first : PlainText)
    (rest : List PlainText) :
    ReadsAs (listed negated f ((first :: rest).map PlainText.term))
      [.leaf (String.ofList (listed negated f ((first :: rest).map PlainText.term)))
        (Statement.distinct
          (f.names ++ (first :: rest).map fun s => String.ofList s.text))] ∧
    (Comparison.convert registry
        (Statement.distinct (f.names ++ (first :: rest).map fun s => String.ofList s.text))
        (listed negated f ((first :: rest).map PlainText.term)) =
      .ok (.ofField (String.ofList f.text) (.operator (if negated then .notIn else .isIn)
        (.array ((first :: rest).map fun s => .string (String.ofList s.text))))) ↔
      KeptApart f (first :: rest)) := by
  have hnames : listedNames f ((first :: rest).map PlainText.term) =
      Statement.distinct (f.names ++ (first :: rest).map fun s => String.ofList s.text) := by
    rw [listedNames, List.flatMap_map, List.map_eq_flatMap]
    rfl
  rw [← hnames]
  exact ⟨readsAs_listed negated f _, keptApart_of_convert, convert_of_keptApart registry negated⟩

/-- The text `, ` is found between `x` and `y`, and the two become one item. -/
theorem list_joined_comma :
    Comparison.convert .default ["f", ", ", "x", "y"] "f IN (', ', 'x', 'y')".toList =
      .ok (.ofField "f" (.operator .isIn (.array [.string ", ", .string "x', 'y"]))) := by
  rfl

end DocQuery.Where
