import DocQuery.Proofs.Condition.Segments
import Mathlib.Data.List.Nodup

/-! Masking where a quoted name is found between two strings. The first of the two strings is broken:
its opening quote and its text stay, and a placeholder follows them. No later name mends it, and what
is restored behind such a quote has more quotes than one string. -/

namespace DocQuery.Text

theorem exists_replaceFrom_split {part text : List Char} (hne : part ≠ []) (h : part <:+: text)
    (new : List Char) : ∃ front rest, text = front ++ (part ++ rest) ∧
      replaceFrom part new 0 text = front ++ (new ++ replaceFrom part new 0 rest) := by
  induction text with
  | nil => exact absurd (List.infix_nil.mp h) hne
  | cons c text ih =>
    by_cases hstarts : part <+: c :: text
    · obtain ⟨rest, hrest⟩ := hstarts
      refine ⟨[], rest, hrest.symm, ?_⟩
      rw [← hrest, replaceFrom_append hne, List.nil_append]
    · obtain ⟨front, rest, htext, hreplace⟩ :=
        ih ((List.infix_cons_iff.mp h).resolve_left hstarts)
      refine ⟨c :: front, rest, by rw [htext, List.cons_append], ?_⟩
      rw [replaceFrom_cons new hstarts, hreplace, List.cons_append]

theorem countP_new_le {part text : List Char} (hne : part ≠ []) (h : part <:+: text)
    (p : Char → Bool) (new : List Char) : new.countP p ≤ (replaceAll part new text).countP p := by
  obtain ⟨front, rest, -, hreplace⟩ := exists_replaceFrom_split hne h new
  rw [replaceAll, hreplace, List.countP_append, List.countP_append]
  omega

theorem countP_le_replaceAll {part : List Char} {p : Char → Bool} (hne : part ≠ [])
    (hpart : ∀ c ∈ part, p c = false) (new text : List Char) :
    text.countP p ≤ (replaceAll part new text).countP p := by
  have hzero : part.countP p = 0 := List.countP_eq_zero.mpr fun c hc => by simp [hpart c hc]
  rw [replaceAll]
  induction hn : text.length using Nat.strongRecOn generalizing text with
  | ind n ih =>
    by_cases hoccurs : part <:+: text
    · obtain ⟨front, rest, rfl, hreplace⟩ := exists_replaceFrom_split hne hoccurs new
      have hlength : rest.length < n := by
        have hpos := List.length_pos_iff.mpr hne
        simp only [List.length_append] at hn
        omega
      have hrest := ih rest.length hlength rest rfl
      rw [hreplace]
      simp only [List.countP_append, hzero]
      omega
    · exact Nat.le_of_eq (by rw [replaceFrom_of_not_isInfix new hoccurs])

theorem replaceFrom_concat {c d : Char} (hd : d ≠ c) (part new text : List Char) :
    replaceFrom (part ++ [d]) new 0 (text ++ [c]) = replaceFrom (part ++ [d]) new 0 text ++ [c] := by
  have hne : part ++ [d] ≠ [] := List.append_ne_nil_of_right_ne_nil _ (List.cons_ne_nil _ _)
  have hstarts : ∀ {text : List Char}, part ++ [d] <+: text ++ [c] → part ++ [d] <+: text := by
    intro text h
    rcases List.prefix_concat_iff.mp h with h | h
    · exact absurd (List.append_inj' h rfl).2 (by simpa using hd)
    · exact h
  induction hn : text.length using Nat.strongRecOn generalizing text with
  | ind n ih =>
    by_cases hpart : part ++ [d] <+: text
    · obtain ⟨rest, rfl⟩ := hpart
      have hlength : rest.length < n := by
        simp only [List.length_append, List.length_singleton] at hn
        omega
      rw [List.append_assoc, replaceFrom_append hne, replaceFrom_append hne,
        ih rest.length hlength rest rfl, List.append_assoc]
    · have hnot : ¬ part ++ [d] <+: text ++ [c] := fun h => hpart (hstarts h)
      cases text with
      | nil => exact replaceFrom_cons new hnot
      | cons e text =>
        rw [List.cons_append] at hnot ⊢
        rw [replaceFrom_cons new hnot, replaceFrom_cons new hpart,
          ih text.length (by simp [← hn]) text rfl, List.cons_append]

theorem contains_concat {c d : Char} (hd : d ≠ c) (part text : List Char) :
    contains (part ++ [d]) (text ++ [c]) = contains (part ++ [d]) text := by
  rw [Bool.eq_iff_iff, contains_iff_isInfix, contains_iff_isInfix, List.infix_concat_iff]
  refine or_iff_right fun hends => ?_
  obtain ⟨front, hfront⟩ := hends
  rw [← List.append_assoc] at hfront
  exact hd (List.cons.inj (List.append_inj' hfront rfl).2).1

end DocQuery.Text

namespace DocQuery.Mask

/-! ### What stands around the strings -/

section Around

variable {names : List String}

theorem foldl_hide_append {front : List Char} (hfront : NoQuote front) {cs : List (List Char)}
    (hcs : ∀ c ∈ cs, ∃ q part, Literal.isQuote q = true ∧ c = q :: part) (mask : Mask)
    (text : List Char) : cs.foldl hide (mask, front ++ text) =
      ((cs.foldl hide (mask, text)).1, front ++ (cs.foldl hide (mask, text)).2) := by
  induction cs generalizing mask text with
  | nil => rfl
  | cons c cs ih =>
    have hrest := ih fun d hd => hcs d (List.mem_cons_of_mem c hd)
    obtain ⟨q, part, hq, rfl⟩ := hcs c List.mem_cons_self
    have hcontains : Text.contains (q :: part) (front ++ text) = Text.contains (q :: part) text := by
      rw [Bool.eq_iff_iff, Text.contains_iff_isInfix, Text.contains_iff_isInfix]
      exact ⟨isInfix_of_isInfix_append (hfront.notMem hq), fun h =>
        h.trans (List.suffix_append front text).isInfix⟩
    have hreplace := Text.replaceFrom_append_of_notMem (hfront.notMem hq) part
      (placeholder mask.length) text
    rw [List.foldl_cons, List.foldl_cons]
    by_cases hoccurs : Text.contains (q :: part) text = true
    · simp only [hide, hcontains, hoccurs, if_true, Text.replaceAll, hreplace]
      exact hrest _ _
    · simp only [hide, hcontains, hoccurs, Bool.false_eq_true, if_false]
      exact hrest _ _

theorem foldl_hide_concat {last : Char} (hlast : Literal.isQuote last = false)
    {cs : List (List Char)} (hcs : ∀ c ∈ cs, ∃ q part, Literal.isQuote q = true ∧ c = part ++ [q])
    (mask : Mask) (text : List Char) : cs.foldl hide (mask, text ++ [last]) =
      ((cs.foldl hide (mask, text)).1, (cs.foldl hide (mask, text)).2 ++ [last]) := by
  induction cs generalizing mask text with
  | nil => rfl
  | cons c cs ih =>
    have hrest := ih fun d hd => hcs d (List.mem_cons_of_mem c hd)
    obtain ⟨q, part, hq, rfl⟩ := hcs c List.mem_cons_self
    have hne : q ≠ last := by
      rintro rfl
      rw [hq] at hlast
      cases hlast
    have hcontains := Text.contains_concat hne part text
    have hreplace := Text.replaceFrom_concat hne part (placeholder mask.length) text
    rw [List.foldl_cons, List.foldl_cons]
    by_cases hoccurs : Text.contains (part ++ [q]) text = true
    · simp only [hide, hcontains, hoccurs, if_true, Text.replaceAll, hreplace]
      exact hrest _ _
    · simp only [hide, hcontains, hoccurs, Bool.false_eq_true, if_false]
      exact hrest _ _

theorem protect_append (hnames : ∀ name ∈ names, NoQuote name.toList) {front : List Char}
    (hfront : NoQuote front) (text : List Char) :
    protect names (front ++ text) = ((protect names text).1, front ++ (protect names text).2) := by
  refine foldl_hide_append hfront (fun c hc => ?_) [] text
  obtain ⟨q, name, hq, -, rfl⟩ := candidates_quoted hnames hc
  exact ⟨q, name ++ [q], hq, rfl⟩

theorem protect_concat (hnames : ∀ name ∈ names, NoQuote name.toList) {last : Char}
    (hlast : Literal.isQuote last = false) (text : List Char) :
    protect names (text ++ [last]) =
      ((protect names text).1, (protect names text).2 ++ [last]) := by
  refine foldl_hide_concat hlast (fun c hc => ?_) [] text
  obtain ⟨q, name, hq, -, rfl⟩ := candidates_quoted hnames hc
  exact ⟨q, q :: name, hq, rfl⟩

theorem mem_candidates_iff {q : Char} (hq : Literal.isQuote q = true) {text : List Char} :
    q :: (text ++ [q]) ∈ candidates names ↔ text ≠ [] ∧ String.ofList text ∈ names := by
  constructor
  · intro h
    obtain ⟨name, hname, hne, q', -, heq⟩ := eq_of_mem_candidates h
    obtain ⟨-, rfl⟩ := Segment.quoted.inj (quoted_injective heq)
    exact ⟨fun hnil => hne (String.toList_eq_nil_iff.mp hnil), by rwa [String.ofList_toList]⟩
  · exact fun ⟨hne, hmem⟩ => mem_candidates hq hmem hne

theorem candidates_append (front back : List String) :
    candidates (front ++ back) = candidates front ++ candidates back := by
  rw [candidates, List.filter_append, List.flatMap_append]
  rfl

theorem exists_candidates_split {name : String} (hne : name ≠ "") (hmem : name ∈ names) :
    ∃ back, candidates names = candidates (names.takeWhile (· != name)) ++
      ('\'' :: (name.toList ++ ['\''])) :: back := by
  have hsplit := List.takeWhile_append_dropWhile (p := (· != name)) (l := names)
  obtain ⟨rest, hrest⟩ : ∃ rest, names.dropWhile (· != name) = name :: rest := by
    have hhead := List.head?_dropWhile_not (· != name) names
    cases hdrop : names.dropWhile (· != name) with
    | nil =>
      rw [hdrop, List.append_nil] at hsplit
      have hall := List.all_eq_true.mp (List.all_takeWhile (p := (· != name)) (l := names)) name
        (by rwa [hsplit])
      simp at hall
    | cons other rest =>
      rw [hdrop] at hhead
      obtain rfl : other = name := by simpa using hhead
      exact ⟨rest, rfl⟩
  obtain ⟨back, hback⟩ : ∃ back, candidates (name :: rest) =
      ('\'' :: (name.toList ++ ['\''])) :: back := by
    rw [candidates, List.filter_cons_of_pos (by simpa using hne), List.flatMap_cons]
    exact ⟨_, rfl⟩
  rw [hrest] at hsplit
  exact ⟨back, by rw [← hback, ← candidates_append, hsplit]⟩

theorem mem_of_mem_candidates_takeWhile {front back : List (List Char)} {q : Char}
    (hq : Literal.isQuote q = true) {name : List Char}
    (h : candidates names = front ++ (q :: (name ++ [q])) :: back) {c : List Char}
    (hc : c ∈ candidates (names.takeWhile (· != String.ofList name))) : c ∈ front := by
  have hnot : q :: (name ++ [q]) ∉ candidates (names.takeWhile (· != String.ofList name)) := by
    intro hmem
    have hall := List.all_eq_true.mp List.all_takeWhile _ ((mem_candidates_iff hq).mp hmem).2
    simp at hall
  rw [← List.takeWhile_append_dropWhile (p := (· != String.ofList name)) (l := names),
    candidates_append] at h
  rcases List.append_eq_append_iff.mp h with ⟨more, hfront, -⟩ | ⟨more, hbefore, hmore⟩
  · rw [hfront]
    exact List.mem_append_left _ hc
  · cases more with
    | nil =>
      rw [List.append_nil] at hbefore
      rwa [← hbefore]
    | cons d more =>
      obtain ⟨rfl, -⟩ := List.cons.inj hmore
      exact absurd (hbefore ▸ List.mem_append_right _ List.mem_cons_self) hnot

theorem nodup_candidates (h : names.Nodup) : (candidates names).Nodup := by
  have hquotes : quoteChars.Nodup := by decide
  refine List.nodup_flatMap.mpr ⟨fun name _ => ?_, ?_⟩
  · refine hquotes.map fun q q' heq => ?_
    exact (List.cons.inj heq).1
  · refine (h.filter _).imp fun {a b} hne => ?_
    refine List.disjoint_left.mpr fun c ha hb => ?_
    obtain ⟨q, -, rfl⟩ := List.mem_map.mp ha
    obtain ⟨q', -, heq⟩ := List.mem_map.mp hb
    have hsame := (Segment.quoted.inj (quoted_injective heq)).2
    exact hne (String.toList_inj.mp hsame).symm

end Around

/-! ### Broken strings -/

theorem isPrefix_of_concat_isPrefix {q : Char} {name front rest : List Char} (hfront : q ∉ front)
    (h : name ++ [q] <+: front ++ rest) : front <+: name := by
  induction front generalizing name with
  | nil => exact List.nil_prefix
  | cons c front ih =>
    cases name with
    | nil =>
      obtain ⟨rfl, -⟩ := List.cons_prefix_cons.mp h
      exact absurd List.mem_cons_self hfront
    | cons d name =>
      obtain ⟨rfl, htail⟩ := List.cons_prefix_cons.mp h
      have hnext := ih (fun hmem => hfront (List.mem_cons_of_mem d hmem)) htail
      exact (List.prefix_cons_inj d).mpr hnext

theorem not_concat_isPrefix_placeholder {q : Char} (hq : Literal.isQuote q = true)
    {name : List Char} (hclear : Text.contains "__literal_".toList name = false)
    {front : List Char} (hfront : NoQuote front) (k : Nat) (rest : List Char) :
    ¬ name ++ [q] <+: front ++ (placeholder k ++ rest) := by
  intro hstarts
  have hnot : q ∉ front ++ placeholder k := (hfront.append (noQuote_placeholder k)).notMem hq
  rw [← List.append_assoc] at hstarts
  have hinside := isPrefix_of_concat_isPrefix hnot hstarts
  exact not_placeholder_isInfix hclear k
    ((List.suffix_append front _).isInfix.trans hinside.isInfix)

section Breaking

variable {quote : Char} {name : List Char} {segments : List Segment}

theorem exists_first_bridge (h : Bridges quote name segments) : ∃ front text rest,
    segments = front ++ Segment.quoted quote text :: rest ∧ text ≠ name ∧
      name ++ [quote] <+: textOf rest ∧
      ¬ Bridges quote name (front ++ [Segment.outside (textOf (.quoted quote text :: rest))]) := by
  induction segments with
  | nil => cases h
  | cons s segments ih =>
    cases s with
    | outside other =>
      obtain ⟨front, text, rest, rfl, hne, hnext, hfirst⟩ := ih h
      exact ⟨.outside other :: front, text, rest, rfl, hne, hnext, hfirst⟩
    | quoted q other =>
      by_cases hhere : q = quote ∧ other ≠ name ∧ name ++ [quote] <+: textOf segments
      · obtain ⟨rfl, hne, hnext⟩ := hhere
        exact ⟨[], other, segments, rfl, hne, hnext, id⟩
      · obtain ⟨front, text, rest, rfl, hne, hnext, hfirst⟩ := ih (h.resolve_left hhere)
        refine ⟨.quoted q other :: front, text, rest, rfl, hne, hnext, ?_⟩
        have htext : textOf (front ++ [Segment.outside (textOf (.quoted quote text :: rest))]) =
            textOf (front ++ Segment.quoted quote text :: rest) := by
          simp [textOf, Segment.text]
        rw [List.cons_append, Bridges, htext, not_or]
        exact ⟨hhere, hfirst⟩

/-- The first string from which a name leads on is left open, and a placeholder follows it. -/
theorem replaceAll_of_bridges (hquote : Literal.isQuote quote = true) (hname : NoQuote name)
    (hproper : ∀ s ∈ segments, s.Proper) (h : Bridges quote name segments) (holder : List Char) :
    ∃ front text rest tail, segments = front ++ Segment.quoted quote text :: rest ∧ text ≠ name ∧
      Text.replaceAll (quote :: (name ++ [quote])) holder (textOf segments) =
        textOf (front.map fun s => if s = .quoted quote name then .outside holder else s) ++
          quote :: (text ++ (holder ++ tail)) := by
  obtain ⟨front, text, rest, rfl, hne, hnext, hfirst⟩ := exists_first_bridge h
  have hbefore : ∀ s ∈ front, s.Proper := fun s hs => hproper s (List.mem_append_left _ hs)
  have htext : NoQuote text :=
    (hproper (.quoted quote text) (List.mem_append_right _ List.mem_cons_self)).2
  obtain ⟨after, hafter⟩ := hnext
  refine ⟨front, text, rest, Text.replaceFrom (quote :: (name ++ [quote])) holder 0 after, rfl,
    hne, ?_⟩
  have hrest : textOf (.quoted quote text :: rest) =
      quote :: (text ++ (quote :: (name ++ [quote]) ++ after)) := by
    rw [textOf_cons, ← hafter]
    simp [Segment.text]
  have hopen : ¬ quote :: (name ++ [quote]) <+:
      quote :: (text ++ (quote :: (name ++ [quote]) ++ after)) := by
    intro hstarts
    have hsame := (List.cons_prefix_cons.mp hstarts).2
    exact hne (eq_of_concat_isPrefix (hname.notMem hquote) (htext.notMem hquote) hsame).symm
  rw [textOf_append, Text.replaceAll, replaceFrom_textOf_append hquote hname hbefore hfirst holder,
    hrest, Text.replaceFrom_cons _ hopen, Text.replaceFrom_append_of_notMem (htext.notMem hquote),
    Text.replaceFrom_append (List.cons_ne_nil _ _)]

end Breaking

/-- Some strings are masked, and the next one is broken. -/
structure Broken (front : List Segment) (quote : Char) (text : List Char)
    (done literals : List (List Char)) (masked : List Char) : Prop where
  subset : ∀ literal ∈ literals, literal ∈ done
  hidden : ∀ q other, .quoted q other ∈ front → q :: (other ++ [q]) ∈ done →
    q :: (other ++ [q]) ∈ literals
  open_text : ∃ k tail, k < literals.length ∧
    masked = textOf (front.map (Segment.masked literals)) ++
      quote :: (text ++ (placeholder k ++ tail))

section Running

variable {front segments : List Segment} {quote q : Char} {text name masked : List Char}
  {done literals : List (List Char)}

theorem length_numbered (literals : List (List Char)) :
    (numbered literals).length = literals.length := by
  simp [numbered]

theorem hide_numbered_of_isInfix {literal : List Char} (h : literal <:+: masked) :
    hide (numbered literals, masked) literal = (numbered (literals ++ [literal]),
      Text.replaceAll literal (placeholder literals.length) masked) := by
  rw [← Text.contains_iff_isInfix] at h
  simp only [hide, h, if_true, numbered_concat, length_numbered]

theorem Hides.exists_broken (h : Hides segments done literals) (hproper : ∀ s ∈ segments, s.Proper)
    (hquote : Literal.isQuote quote = true) (hname : NoQuote name)
    (hnew : quote :: (name ++ [quote]) ∉ done)
    (hbridge : Bridges quote name (segments.map (Segment.masked literals))) :
    ∃ front text rest next broken, segments = front ++ Segment.quoted quote text :: rest ∧
      Broken front quote text (done ++ [quote :: (name ++ [quote])]) next broken ∧
      Mask.hide (numbered literals, textOf (segments.map (Segment.masked literals)))
        (quote :: (name ++ [quote])) = (numbered next, broken) := by
  obtain ⟨before, text, rest, tail, hsplit, -, hreplace⟩ := replaceAll_of_bridges hquote hname
    (proper_masked hproper) hbridge (placeholder literals.length)
  have hoccurs : quote :: (name ++ [quote]) <:+: textOf (segments.map (Segment.masked literals)) := by
    obtain ⟨front, other, back, hcut, -, after, hafter⟩ := bridges_iff.mp hbridge
    refine ⟨textOf front ++ quote :: other, after, ?_⟩
    rw [hcut, textOf_append, textOf_cons, ← hafter]
    simp [Segment.text]
  obtain ⟨front, others, rfl, rfl, hothers⟩ := List.map_eq_append_iff.mp hsplit
  obtain ⟨s, back, rfl, hs, -⟩ := List.map_eq_cons_iff.mp hothers
  have hliteral : quote :: (name ++ [quote]) ∉ literals := fun hmem =>
    hnew ((h.mem_iff _).mp hmem).1
  -- What is still a string after masking was one before.
  have hsegment : s = .quoted quote text := by
    cases s with
    | outside other => cases hs
    | quoted q other =>
      rw [Segment.masked] at hs
      split at hs
      · cases hs
      · exact hs
  refine ⟨front, text, back, literals ++ [quote :: (name ++ [quote])], _, by rw [hsegment],
    ⟨?_, ?_, literals.length, tail, by simp, ?_⟩, hide_numbered_of_isInfix hoccurs⟩
  · intro literal hmem
    rcases List.mem_append.mp hmem with hmem | hmem
    · exact List.mem_append_left _ ((h.mem_iff _).mp hmem).1
    · exact List.mem_append_right _ hmem
  · intro q other hmem hdone
    rcases List.mem_append.mp hdone with hdone | hdone
    · refine List.mem_append_left _ ((h.mem_iff _).mpr ⟨hdone, q, other, ?_, rfl⟩)
      exact List.mem_append_left _ hmem
    · exact List.mem_append_right _ hdone
  · rw [hreplace, List.map_map]
    congr 2
    refine List.map_congr_left fun s _ => ?_
    exact (masked_concat hliteral s).symm

theorem Broken.hide (h : Broken front quote text done literals masked)
    (hproper : ∀ s ∈ front, s.Proper) (htext : NoQuote text) (hq : Literal.isQuote q = true)
    (hname : NoQuote name) (hclear : Text.contains "__literal_".toList name = false)
    (hnew : q :: (name ++ [q]) ∉ done)
    (hbridge : ∀ hidden rest, ¬ Bridges q name
      (front.map (Segment.masked hidden) ++ [Segment.outside (quote :: rest)])) :
    ∃ next broken, Broken front quote text (done ++ [q :: (name ++ [q])]) next broken ∧
      Mask.hide (numbered literals, masked) (q :: (name ++ [q])) = (numbered next, broken) := by
  obtain ⟨k, tail, hk, hmasked⟩ := h.open_text
  have hliteral : q :: (name ++ [q]) ∉ literals := fun hmem => hnew (h.subset _ hmem)
  -- The open text stays as it is: the name is not found at its quote, and up to the placeholder
  -- there is no other quote.
  by_cases hoccurs : q :: (name ++ [q]) <:+: masked
  · have hopen : ¬ q :: (name ++ [q]) <+: quote :: (text ++ (placeholder k ++ tail)) := fun hstarts =>
      not_concat_isPrefix_placeholder hq hclear htext k tail (List.cons_prefix_cons.mp hstarts).2
    have hreplace := replaceFrom_textOf_append hq hname (proper_masked hproper)
      (hbridge literals (text ++ (placeholder k ++ tail))) (placeholder literals.length)
    rw [Text.replaceFrom_cons _ hopen, Text.replaceFrom_append_of_notMem (htext.notMem hq),
      Text.replaceFrom_append_of_notMem ((noQuote_placeholder k).notMem hq)] at hreplace
    refine ⟨literals ++ [q :: (name ++ [q])], _, ⟨?_, ?_, k, Text.replaceFrom (q :: (name ++ [q]))
      (placeholder literals.length) 0 tail, ?_, ?_⟩, hide_numbered_of_isInfix hoccurs⟩
    · intro literal hmem
      rcases List.mem_append.mp hmem with hmem | hmem
      · exact List.mem_append_left _ (h.subset _ hmem)
      · exact List.mem_append_right _ hmem
    · intro q' other hmem hdone
      rcases List.mem_append.mp hdone with hdone | hdone
      · exact List.mem_append_left _ (h.hidden q' other hmem hdone)
      · exact List.mem_append_right _ hdone
    · rw [List.length_append]
      omega
    · rw [hmasked, Text.replaceAll, hreplace, List.map_map]
      congr 2
      refine List.map_congr_left fun s _ => ?_
      exact (masked_concat hliteral s).symm
  · refine ⟨literals, masked, ⟨?_, ?_, k, tail, hk, hmasked⟩, hide_of_not_isInfix hoccurs⟩
    · exact fun literal hmem => List.mem_append_left _ (h.subset _ hmem)
    · intro q' other hmem hdone
      rcases List.mem_append.mp hdone with hdone | hdone
      · exact h.hidden q' other hmem hdone
      · -- A string that is not masked would be found.
        by_contra hnot
        have hseen : .quoted q' other ∈ front.map (Segment.masked literals) :=
          quoted_mem_masked_iff.mpr ⟨hmem, hnot⟩
        refine hoccurs (hmasked ▸ List.IsInfix.trans ?_ (List.prefix_append _ _).isInfix)
        rw [← List.mem_singleton.mp hdone]
        exact List.infix_of_mem_flatten (List.mem_map_of_mem (f := Segment.text) hseen)

theorem Broken.foldl_hide (h : Broken front quote text done literals masked)
    (hproper : ∀ s ∈ front, s.Proper) (htext : NoQuote text) {cs : List (List Char)}
    (hnodup : (done ++ cs).Nodup)
    (hcs : ∀ c ∈ cs, ∃ q name, Literal.isQuote q = true ∧ NoQuote name ∧
      Text.contains "__literal_".toList name = false ∧ c = q :: (name ++ [q]) ∧
      ∀ hidden rest, ¬ Bridges q name
        (front.map (Segment.masked hidden) ++ [Segment.outside (quote :: rest)])) :
    ∃ last broken, Broken front quote text (done ++ cs) last broken ∧
      cs.foldl Mask.hide (numbered literals, masked) = (numbered last, broken) := by
  induction cs generalizing done literals masked with
  | nil => exact ⟨literals, masked, by rwa [List.append_nil], rfl⟩
  | cons c cs ih =>
    obtain ⟨q, name, hq, hname, hclear, rfl, hbridge⟩ := hcs c List.mem_cons_self
    have hnew : q :: (name ++ [q]) ∉ done := fun hmem =>
      List.disjoint_of_nodup_append hnodup hmem List.mem_cons_self
    obtain ⟨next, broken, hnext, hhide⟩ := h.hide hproper htext hq hname hclear hnew hbridge
    rw [List.append_cons] at hnodup ⊢
    obtain ⟨last, final, hlast, hfold⟩ := ih hnext hnodup fun d hd =>
      hcs d (List.mem_cons_of_mem _ hd)
    exact ⟨last, final, hlast, by rw [List.foldl_cons, hhide, hfold]⟩

end Running

/-! ### Quotes in restored texts -/

theorem countP_le_restore {mask : Mask} (h : ∀ entry ∈ mask, entry.1 ≠ [] ∧ NoQuote entry.1)
    (text : List Char) :
    text.countP Literal.isQuote ≤ (restore mask text).countP Literal.isQuote := by
  induction mask generalizing text with
  | nil => exact Nat.le_refl _
  | cons entry mask ih =>
    obtain ⟨holder, literal⟩ := entry
    obtain ⟨hne, hholder⟩ := h _ List.mem_cons_self
    rw [restore_cons]
    calc text.countP Literal.isQuote
        ≤ (Text.replaceAll holder literal text).countP Literal.isQuote :=
          Text.countP_le_replaceAll hne hholder literal text
      _ ≤ _ := ih (fun other ho => h other (List.mem_cons_of_mem _ ho)) _

theorem countP_literal_le_restore {mask : Mask} {n : Nat}
    (h : ∀ entry ∈ mask, entry.1 ≠ [] ∧ NoQuote entry.1 ∧ n ≤ entry.2.countP Literal.isQuote)
    {text : List Char} (hoccurs : ∃ entry ∈ mask, entry.1 <:+: text) :
    n ≤ (restore mask text).countP Literal.isQuote := by
  induction mask generalizing text with
  | nil =>
    obtain ⟨entry, hentry, -⟩ := hoccurs
    cases hentry
  | cons entry mask ih =>
    have hrest := fun other ho => h other (List.mem_cons_of_mem entry ho)
    obtain ⟨holder, literal⟩ := entry
    obtain ⟨hne, hholder, hcount⟩ := h _ List.mem_cons_self
    rw [restore_cons]
    by_cases hhere : holder <:+: text
    · calc n ≤ literal.countP Literal.isQuote := hcount
        _ ≤ (Text.replaceAll holder literal text).countP Literal.isQuote :=
          Text.countP_new_le hne hhere _ _
        _ ≤ _ := countP_le_restore (fun other ho => ⟨(hrest other ho).1, (hrest other ho).2.1⟩) _
    · have hsame : Text.replaceAll holder literal text = text :=
        Text.replaceFrom_of_not_isInfix literal hhere
      rw [hsame]
      obtain ⟨other, hother, hinfix⟩ := hoccurs
      rcases List.mem_cons.mp hother with rfl | hother
      · exact absurd hinfix hhere
      · exact ih hrest ⟨other, hother, hinfix⟩

theorem two_le_countP_restore {literals : List (List Char)}
    (h : ∀ literal ∈ literals, ∃ q text, Literal.isQuote q = true ∧ literal = q :: (text ++ [q]))
    {text : List Char} (hoccurs : ∃ entry ∈ numbered literals, entry.1 <:+: text) :
    2 ≤ (restore (numbered literals) text).countP Literal.isQuote := by
  refine countP_literal_le_restore (fun entry hentry => ?_) hoccurs
  obtain ⟨k, hk⟩ := List.mem_iff_getElem?.mp hentry
  rw [getElem?_numbered] at hk
  obtain ⟨literal, hliteral, rfl⟩ := Option.map_eq_some_iff.mp hk
  obtain ⟨q, other, hq, rfl⟩ := h literal (List.mem_of_getElem? hliteral)
  refine ⟨List.append_ne_nil_of_right_ne_nil _ (by decide), noQuote_placeholder k, ?_⟩
  rw [List.countP_cons_of_pos hq, List.countP_append, List.countP_singleton, if_pos hq]
  omega

end DocQuery.Mask
