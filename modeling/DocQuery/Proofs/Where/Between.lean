import DocQuery.Proofs.Condition.Bridging
import DocQuery.Proofs.Where.Coercion
import Mathlib.Data.List.Perm.Subperm

/-! A field between two bounds, and the conjunction of its comparisons with each of them: how both
are read, and how the strings of the bounds are masked. -/

namespace DocQuery.Where

open Lexeme (Scans Stops)
open Mask (NoQuote Segment Hides Settled Bridges textOf textOf_append textOf_cons numbered candidates
  placeholder restore)
open Statement (splitConditions consLeaf)

def andText : List Char :=
  " AND ".toList

def between (f : Path) (x y : Term) : List Char :=
  f.text ++ " BETWEEN ".toList ++ (x.text ++ andText ++ y.text)

def betweenNames (f : Path) (x y : Term) : List String :=
  Statement.distinct (f.names ++ x.names ++ y.names)

def within (f : Path) (x y : Term) : List Char :=
  compared f .gtEq x ++ andText ++ compared f .ltEq y

def withinConditions (f : Path) (x y : Term) : List Condition :=
  [.leaf (String.ofList (compared f .gtEq x)) (comparedNames f x), .connective "AND",
    .leaf (String.ofList (compared f .ltEq y)) (comparedNames f y)]

/-! ### Reading -/

section Reading

variable (f : Path) (x y : Term)

def betweenLexemes (gap : List Char) : List Lexeme :=
  f.lexemes gap ++ (keyword "BETWEEN" :: (x.lexemes [' '] ++ (keyword "AND" :: y.lexemes [' '])))

def withinLexemes (gap : List Char) : List Lexeme :=
  comparedLexemes gap f .gtEq x ++ (keyword "AND" :: comparedLexemes [' '] f .ltEq y)

theorem source_between (gap : List Char) :
    Lexeme.source (betweenLexemes f x y gap) = gap ++ between f x y := by
  simp [betweenLexemes, between, andText, keyword, Path.source_lexemes, Term.source_lexemes]

theorem source_within (gap : List Char) :
    Lexeme.source (withinLexemes f x y gap) = gap ++ within f x y := by
  simp [withinLexemes, within, andText, keyword, source_compared]

theorem scans_between {gap : List Char} (hgap : ∀ c ∈ gap, isBlank c = true) :
    Scans (betweenLexemes f x y gap) [] := by
  have hspace : ∀ c ∈ [' '], isBlank c = true := by decide
  refine Lexeme.scans_append (f.scans hgap ?_) ⟨hspace, reads_keyword (by decide) ?_,
    Lexeme.scans_append (x.scans hspace (stops_space _)) ⟨hspace, reads_keyword (by decide) ?_,
      y.scans hspace (by simp [Stops])⟩⟩
  · exact (stops_space _).not_class (fun _ => Lexeme.isBlank_of_isNameChar) (by decide)
  · rw [Lexeme.source_append, x.source_lexemes]
    exact stops_space _
  · rw [y.source_lexemes]
    exact stops_space _

theorem scans_within {gap : List Char} (hgap : ∀ c ∈ gap, isBlank c = true) :
    Scans (withinLexemes f x y gap) [] := by
  have hspace : ∀ c ∈ [' '], isBlank c = true := by decide
  refine Lexeme.scans_append (scans_compared f .gtEq x hgap (stops_space _)) ⟨hspace,
    reads_keyword (by decide) ?_, scans_compared f .ltEq y hspace (by simp [Stops])⟩
  rw [source_compared]
  exact stops_space _

theorem splitConditions_betweenWord (depth : Nat) (between : Bool) (rest : List Lexeme) :
    splitConditions depth between (keyword "BETWEEN" :: rest) =
      (consLeaf (keyword "BETWEEN") (splitConditions depth true rest).1,
        (splitConditions depth true rest).2) := by
  have hends : Statement.endsConditions depth (keyword "BETWEEN").token = false := Bool.and_false _
  have hword : (keyword "BETWEEN").token.isKeyword "BETWEEN" = true := by decide
  rw [splitConditions, if_neg (by simp [hends])]
  simp only [hword, Bool.or_true]
  rfl

theorem splitConditions_andWord (depth : Nat) (between : Bool) (rest : List Lexeme) :
    splitConditions depth between (keyword "AND" :: rest) =
      if between then (consLeaf (keyword "AND") (splitConditions depth false rest).1,
        (splitConditions depth false rest).2)
      else (.connective "AND" :: (splitConditions depth false rest).1,
        (splitConditions depth false rest).2) := by
  have hends : Statement.endsConditions depth (keyword "AND").token = false := Bool.and_false _
  have hword : (keyword "AND").token.connective? = some "AND" := by decide
  rw [splitConditions, if_neg (by simp [hends])]
  cases between <;> simp [hword]

/-- The `AND` after `BETWEEN` does not split the comparison. -/
theorem splitConditions_between (gap : List Char) (depth : Nat) (rest : List Lexeme) :
    splitConditions depth false (betweenLexemes f x y gap ++ rest) =
      ((betweenLexemes f x y gap).foldr consLeaf (splitConditions depth false rest).1,
        (splitConditions depth false rest).2) := by
  have hpath := stays_of_inner (f.inner gap)
  rw [betweenLexemes, List.append_assoc, List.cons_append, List.append_assoc, List.cons_append,
    hpath, splitConditions_betweenWord, x.stays [' '], splitConditions_andWord, if_pos rfl,
    y.stays [' '], List.foldr_append, List.foldr_cons, List.foldr_append, List.foldr_cons]

theorem readsAs_between : ReadsAs (between f x y)
    [.leaf (String.ofList (between f x y)) (betweenNames f x y)] := by
  have hspace : ∀ c ∈ [' '], isBlank c = true := by decide
  have hne : betweenLexemes f x y [' '] ≠ [] := List.cons_ne_nil _ _
  have hend : splitConditions 0 false [ending] = ([], [ending]) := by
    rw [splitConditions]
    exact if_pos rfl
  have hwords : Statement.mentioned? (keyword "BETWEEN").token = none ∧
      Statement.mentioned? (keyword "AND").token = none := by decide
  have htext : [' '] ++ Lexeme.runText (betweenLexemes f x y [' ']) = [' '] ++ between f x y := by
    rw [← source_between]
    simp [betweenLexemes, Path.lexemes, Lexeme.runText, Lexeme.source]
  refine ⟨betweenLexemes f x y [' '], source_between f x y [' '], scans_between f x y hspace, ?_⟩
  rw [Statement.readConditions, splitConditions_between, hend, foldr_consLeaf hne startsJoined_nil]
  simp only [List.map_singleton, Statement.Part.condition, Statement.textOf,
    List.append_cancel_left htext]
  rw [betweenLexemes]
  simp only [Statement.mentions_append, Statement.mentions_cons, f.mentioned, x.mentioned,
    y.mentioned, hwords.1, hwords.2, betweenNames, List.append_assoc]

theorem readsAs_within : ReadsAs (within f x y) (withinConditions f x y) := by
  have hspace : ∀ c ∈ [' '], isBlank c = true := by decide
  have hend : splitConditions 0 false [ending] = ([], [ending]) := by
    rw [splitConditions]
    exact if_pos rfl
  have hne : ∀ op t, comparedLexemes [' '] f op t ≠ [] := fun _ _ => List.cons_ne_nil _ _
  refine ⟨withinLexemes f x y [' '], source_within f x y [' '], scans_within f x y hspace, ?_⟩
  rw [Statement.readConditions, withinLexemes, List.append_assoc, List.cons_append,
    stays_compared f .gtEq x [' '], splitConditions_andWord, if_neg (by decide),
    stays_compared f .ltEq y [' '], hend, foldr_consLeaf (hne .ltEq y) startsJoined_nil,
    foldr_consLeaf (hne .gtEq x) (startsJoined_cons _ _)]
  simp only [List.map_cons, List.map_nil, condition_compared, withinConditions]
  rfl

end Reading

/-! ### Names between the bounds -/

namespace Term

def lead : Term → List Char
  | call c => c.function.text ++ ['(']
  | _ => []

def trail : Term → List Char
  | call _ => [')']
  | _ => []

theorem noQuote_lead (t : Term) : NoQuote t.lead := by
  cases t with
  | call c => exact (noQuote_of_not_delimiter c.function.not_delimiter).append (by decide)
  | _ => simp [lead, NoQuote]

theorem noQuote_trail (t : Term) : NoQuote t.trail := by
  cases t with
  | call c => exact show NoQuote [')'] by decide
  | _ => simp [trail, NoQuote]

theorem text_of_quoted {t : Term} {q : Char} {text : List Char} (h : .quoted q text ∈ t.segments) :
    t.text = t.lead ++ q :: (text ++ q :: t.trail) := by
  cases t with
  | number n => simp [segments] at h
  | string quote other plain =>
    obtain ⟨rfl, rfl⟩ := Segment.quoted.inj (List.mem_singleton.mp h)
    rw [text_string]
    rfl
  | call c =>
    obtain ⟨rfl, rfl⟩ : q = '\'' ∧ text = c.payload := by simpa [segments] using h
    rw [c.text_eq]
    simp [lead, trail]

end Term

def pairSegments (x y : Term) : List Segment :=
  x.segments ++ .outside andText :: y.segments

theorem noQuote_andText : NoQuote andText := by
  decide

theorem textOf_pairSegments (literals : List (List Char)) (x y : Term) :
    textOf ((pairSegments x y).map (Segment.masked literals)) =
      x.masked literals ++ andText ++ y.masked literals := by
  rw [pairSegments, List.map_append, List.map_cons, textOf_append, textOf_cons, List.append_assoc]
  rfl

theorem textOf_pairSegments_eq (x y : Term) :
    textOf (pairSegments x y) = x.text ++ andText ++ y.text := by
  rw [pairSegments, textOf_append, textOf_cons, List.append_assoc]
  rfl

theorem proper_pairSegments (x y : Term) : ∀ s ∈ pairSegments x y, s.Proper := by
  intro s hs
  rcases List.mem_append.mp hs with hs | hs
  · exact x.proper s hs
  · rcases List.mem_cons.mp hs with rfl | hs
    · exact noQuote_andText
    · exact y.proper s hs

section Bridges

variable {quote : Char} {name front : List Char} {hidden : List (List Char)}

theorem eq_of_concat_isPrefix_masked (hquote : Literal.isQuote quote = true) (hname : NoQuote name)
    (hfront : NoQuote front) {q : Char} {text rest : List Char} (htext : NoQuote text)
    (hrest : NoQuote rest)
    (h : name ++ [quote] <+: front ++ ((Segment.masked hidden (.quoted q text)).text ++ rest)) :
    q = quote ∧ name = front := by
  have hmem := h.subset (List.mem_append_right name List.mem_cons_self)
  rw [Segment.masked] at h hmem
  split at hmem
  · exfalso
    simp only [Segment.text, List.mem_append] at hmem
    rcases hmem with hmem | hmem | hmem
    · exact hfront.notMem hquote hmem
    · exact (Mask.noQuote_placeholder _).notMem hquote hmem
    · exact hrest.notMem hquote hmem
  · rename_i hliteral
    rw [if_neg hliteral] at h
    have hsame : q = quote := by
      simp only [Segment.text, List.mem_append, List.mem_cons, List.not_mem_nil, or_false] at hmem
      rcases hmem with hmem | (rfl | hmem | rfl) | hmem
      · exact absurd hmem (hfront.notMem hquote)
      · rfl
      · exact absurd hmem (htext.notMem hquote)
      · rfl
      · exact absurd hmem (hrest.notMem hquote)
    subst hsame
    exact ⟨rfl, Mask.eq_of_concat_isPrefix (hname.notMem hquote) (hfront.notMem hquote) h⟩

theorem Term.eq_lead_of_isPrefix (y : Term) (hquote : Literal.isQuote quote = true)
    (hname : NoQuote name) (hfront : NoQuote front)
    (h : name ++ [quote] <+: front ++ textOf (y.segments.map (Segment.masked hidden))) :
    (∃ text, .quoted quote text ∈ y.segments) ∧ name = front ++ y.lead := by
  cases y with
  | number n =>
    have hmem := h.subset (List.mem_append_right name List.mem_cons_self)
    have htext : NoQuote n.text := by simpa [segments, Segment.Proper] using (number n).proper
    simp only [segments, List.map_singleton, Segment.masked, textOf, List.flatMap_singleton,
      Segment.text, List.mem_append] at hmem
    rcases hmem with hmem | hmem
    · exact absurd hmem (hfront.notMem hquote)
    · exact absurd hmem (htext.notMem hquote)
  | string q text plain =>
    have hend : NoQuote [] := by simp [NoQuote]
    obtain ⟨rfl, heq⟩ := eq_of_concat_isPrefix_masked hquote hname hfront
      (fun c hc => (plain c hc).1) hend h
    exact ⟨⟨text, List.mem_cons_self⟩, heq.trans (List.append_nil front).symm⟩
  | call c =>
    have hbefore : NoQuote (front ++ (call c).lead) := hfront.append (call c).noQuote_lead
    have hsplit : front ++ textOf ((call c).segments.map (Segment.masked hidden)) =
        (front ++ (call c).lead) ++
          ((Segment.masked hidden (.quoted '\'' c.payload)).text ++ (call c).trail) := by
      simp [segments, textOf, Segment.masked, Segment.text, lead, trail]
    rw [hsplit] at h
    obtain ⟨rfl, heq⟩ := eq_of_concat_isPrefix_masked hquote hname hbefore
      (fun d hd => (c.plain d hd).1) (call c).noQuote_trail h
    exact ⟨⟨c.payload, by simp [segments]⟩, heq⟩

theorem Term.bridges_append (x : Term) {rest : List Segment}
    (h : Bridges quote name (x.segments.map (Segment.masked hidden) ++ rest)) :
    Bridges quote name rest ∨ ∃ text, .quoted quote text ∈ x.segments ∧ text ≠ name ∧
      quote :: (text ++ [quote]) ∉ hidden ∧ name ++ [quote] <+: x.trail ++ textOf rest := by
  have hquoted : ∀ q text after,
      Bridges quote name (Segment.masked hidden (.quoted q text) :: after) →
      Bridges quote name after ∨ (q = quote ∧ text ≠ name ∧ q :: (text ++ [q]) ∉ hidden ∧
        name ++ [quote] <+: textOf after) := by
    intro q text after h
    rw [Segment.masked] at h
    split at h
    · exact .inl h
    · rcases h with ⟨hq, hne, hstarts⟩ | h
      · exact .inr ⟨hq, hne, ‹_›, hstarts⟩
      · exact .inl h
  cases x with
  | number n => exact .inl h
  | string q text plain =>
    refine (hquoted q.char text rest h).imp_right ?_
    rintro ⟨rfl, hne, hliteral, hstarts⟩
    exact ⟨text, List.mem_cons_self, hne, hliteral, hstarts⟩
  | call c =>
    refine (hquoted '\'' c.payload (.outside [')'] :: rest) h).imp_right ?_
    rintro ⟨rfl, hne, hliteral, hstarts⟩
    exact ⟨c.payload, by simp [segments], hne, hliteral, hstarts⟩

end Bridges

section Names

variable {f : Path} {x y : Term}

def gapText (x y : Term) : List Char :=
  x.trail ++ andText ++ y.lead

theorem noQuote_gapText (x y : Term) : NoQuote (gapText x y) :=
  (x.noQuote_trail.append noQuote_andText).append y.noQuote_lead

theorem blank_mem_gapText (x y : Term) : ' ' ∈ gapText x y :=
  List.mem_append_left _ (List.mem_append_right _ (by decide))

/-- The string of the first bound is empty, and the string of the second one is the text between the
two. -/
def Entangled (x y : Term) : Prop :=
  ∃ q, .quoted q [] ∈ x.segments ∧ .quoted q (gapText x y) ∈ y.segments

theorem Term.quoted_of_mem_names {t : Term} {name : List Char} (hblank : ' ' ∈ name)
    (h : String.ofList name ∈ t.names) {q : Char} {text : List Char}
    (hquoted : .quoted q text ∈ t.segments) : name = text := by
  cases t with
  | number n => cases h
  | string quote other plain =>
    obtain ⟨-, rfl⟩ := Segment.quoted.inj (List.mem_singleton.mp hquoted)
    exact String.ofList_inj.mp (List.mem_singleton.mp h)
  | call c =>
    obtain ⟨-, rfl⟩ : q = '\'' ∧ text = c.payload := by simpa [segments] using hquoted
    rcases List.mem_pair.mp h with h | h
    · rw [String.ofList_inj.mp h] at hblank
      exact absurd hblank c.function.blank_notMem
    · exact String.ofList_inj.mp h

theorem noQuote_betweenNames : ∀ name ∈ betweenNames f x y, NoQuote name.toList := by
  intro name hname
  rcases List.mem_append.mp (mem_distinct.mp hname) with hname | hname
  · rcases List.mem_append.mp hname with hname | hname
    · exact f.noQuote_names name hname
    · exact x.noQuote_names name hname
  · exact y.noQuote_names name hname

/-- Only where the bounds are entangled is a name found from one to the other. -/
theorem entangled_of_bridges {quote : Char} {name : List Char} {front back hidden : List (List Char)}
    (hsplit : candidates (betweenNames f x y) = front ++ (quote :: (name ++ [quote])) :: back)
    (hhides : Hides (pairSegments x y) front hidden)
    (h : Bridges quote name ((pairSegments x y).map (Segment.masked hidden))) : Entangled x y := by
  have hcandidate : quote :: (name ++ [quote]) ∈ candidates (betweenNames f x y) :=
    hsplit ▸ List.mem_append_right front List.mem_cons_self
  have hquote : Literal.isQuote quote = true := by
    obtain ⟨_, _, _, q, hq, heq⟩ := Mask.eq_of_mem_candidates hcandidate
    rwa [(List.cons.inj heq).1]
  obtain ⟨-, hlisted⟩ := (Mask.mem_candidates_iff hquote).mp hcandidate
  have hname : NoQuote name := by simpa using noQuote_betweenNames _ hlisted
  have hright : ¬ Bridges quote name (y.segments.map (Segment.masked hidden)) := by
    have hempty : NoQuote [] := by simp [NoQuote]
    have hnot := y.not_bridges hquote hempty name [] hidden
    rw [List.map_cons, List.map_append] at hnot
    exact fun hb => hnot (Mask.bridges_append_outside_nil.mpr hb)
  rw [pairSegments, List.map_append] at h
  rcases x.bridges_append h with h | ⟨first, hfirst, hne, hliteral, hstarts⟩
  · exact absurd h hright
  -- The name is the text between the strings.
  have hgap : NoQuote (x.trail ++ andText) := x.noQuote_trail.append noQuote_andText
  rw [List.map_cons, textOf_cons, ← List.append_assoc] at hstarts
  obtain ⟨⟨second, hsecond⟩, heq⟩ := y.eq_lead_of_isPrefix hquote hname hgap hstarts
  have hblank : ' ' ∈ name := heq ▸ blank_mem_gapText x y
  -- So it is the string of the second bound, which is listed after that of the first one.
  have hnew : String.ofList name ∉ f.names ++ x.names := by
    intro hmem
    rcases List.mem_append.mp hmem with hmem | hmem
    · exact f.blank_notMem_names _ hmem (by simpa using hblank)
    · exact hne (Term.quoted_of_mem_names hblank hmem hfirst).symm
  have hown : name = second := by
    refine Term.quoted_of_mem_names hblank ?_ hsecond
    exact (List.mem_append.mp (mem_distinct.mp hlisted)).resolve_left hnew
  have hnil : first = [] := by
    by_contra hsome
    refine hliteral ((hhides.mem_iff _).mpr ⟨?_, quote, first, List.mem_append_left _ hfirst, rfl⟩)
    refine Mask.mem_of_mem_candidates_takeWhile hquote hsplit
      ((Mask.mem_candidates_iff hquote).mpr ⟨hsome, ?_⟩)
    obtain ⟨more, hmore⟩ := exists_distinct_append (f.names ++ x.names) y.names
    have hearlier : ∀ a ∈ Statement.distinct (f.names ++ x.names),
        (a != String.ofList name) = true := by
      intro a ha
      rw [bne_iff_ne]
      rintro rfl
      exact hnew (mem_distinct.mp ha)
    rw [betweenNames, hmore, List.takeWhile_append_of_pos hearlier]
    refine List.mem_append_left _ (mem_distinct.mpr (List.mem_append_right _ ?_))
    exact Term.mem_names_of_quoted hfirst
  exact ⟨quote, hnil ▸ hfirst, by rwa [gapText, ← heq, hown]⟩

end Names

/-! ### Masking the bounds -/

/-- The bounds are masked as two words, and restored. -/
def MasksApart (names : List String) (x y : Term) : Prop :=
  ∃ literals left right, Wordlike left ∧ Wordlike right ∧
    Mask.protect names (x.text ++ andText ++ y.text) =
      (numbered literals, left ++ andText ++ right) ∧
    restore (numbered literals) (left ++ andText ++ right) = x.text ++ andText ++ y.text

theorem restore_pair (literals : List (List Char)) (left right : List Char) :
    restore (numbered literals) (left ++ andText ++ right) =
      restore (numbered literals) left ++ andText ++ restore (numbered literals) right := by
  have hsplit : ∀ u v : List Char, u ++ andText ++ v = u ++ ' ' :: ("AND".toList ++ ' ' :: v) := by
    intro u v
    simp [andText]
  have hword : restore (numbered literals) "AND".toList = "AND".toList :=
    Mask.restore_numbered_of_clear (by decide) literals
  rw [hsplit, hsplit, Mask.restore_append_cons (by decide) (by decide),
    Mask.restore_append_cons (by decide) (by decide), hword]

section Apart

variable {f : Path} {x y : Term} {literals done : List (List Char)}

def Term.strings : Term → List (List Char)
  | number _ => []
  | string quote text _ => [quote.char :: (text ++ [quote.char])]
  | call c => ['\'' :: (c.payload ++ ['\''])]

theorem Term.mem_strings {t : Term} {q : Char} {text : List Char}
    (h : .quoted q text ∈ t.segments) : q :: (text ++ [q]) ∈ t.strings := by
  cases t with
  | number n => simp [segments] at h
  | string quote other plain =>
    obtain ⟨rfl, rfl⟩ := Segment.quoted.inj (List.mem_singleton.mp h)
    exact List.mem_cons_self
  | call c =>
    obtain ⟨rfl, rfl⟩ : q = '\'' ∧ text = c.payload := by simpa [segments] using h
    exact List.mem_cons_self

theorem Term.length_strings_le (t : Term) : t.strings.length ≤ 1 := by
  cases t <;> simp [strings]

theorem quoted_mem_pairSegments {q : Char} {text : List Char}
    (h : .quoted q text ∈ pairSegments x y) :
    .quoted q text ∈ x.segments ∨ .quoted q text ∈ y.segments := by
  simpa [pairSegments] using h

/-- There are two strings at most, and none of them holds the placeholder of the second one. -/
theorem settled_of_hides (h : Hides (pairSegments x y) done literals)
    (hclear : ∀ t ∈ [x, y], ¬ placeholder 1 <:+: t.text) : Settled literals := by
  have hsub : literals ⊆ x.strings ++ y.strings := by
    intro literal hliteral
    obtain ⟨-, q, text, hquoted, rfl⟩ := (h.mem_iff literal).mp hliteral
    rcases quoted_mem_pairSegments hquoted with hquoted | hquoted
    · exact List.mem_append_left _ (Term.mem_strings hquoted)
    · exact List.mem_append_right _ (Term.mem_strings hquoted)
  have hlength : literals.length ≤ 2 := by
    have hle := (h.nodup.subperm hsub).length_le
    have hx := x.length_strings_le
    have hy := y.length_strings_le
    rw [List.length_append] at hle
    omega
  intro k j literal hk hlt hj hoccurs
  obtain rfl : j = 1 := by omega
  obtain ⟨-, q, text, hquoted, rfl⟩ := (h.mem_iff literal).mp (List.mem_of_getElem? hk)
  have hinside : ∀ t : Term, .quoted q text ∈ t.segments → q :: (text ++ [q]) <:+: t.text := by
    intro t ht
    refine ⟨t.lead, t.trail, ?_⟩
    rw [Term.text_of_quoted ht]
    simp
  rcases quoted_mem_pairSegments hquoted with hquoted | hquoted
  · exact hclear x (by simp) (hoccurs.trans (hinside x hquoted))
  · exact hclear y (by simp) (hoccurs.trans (hinside y hquoted))

theorem Term.wordlike_masked {t : Term} (h : t.HiddenBy literals) : Wordlike (t.masked literals) :=
  ⟨Term.masked_ne_nil, fun c hc =>
    ⟨(Term.solid_masked h).not_blank c hc, Term.not_comparatorChar_masked h c hc⟩⟩

theorem masksApart_of_not_entangled (h : ¬ Entangled x y)
    (hclear : ∀ t ∈ [x, y], ¬ placeholder 1 <:+: t.text) :
    MasksApart (betweenNames f x y) x y := by
  obtain ⟨literals, hhides, hprotect⟩ := Mask.protect_textOf
    (noQuote_betweenNames (f := f) (x := x) (y := y)) (proper_pairSegments x y)
    fun _ _ _ _ _ hsplit hhidden hbridges => h (entangled_of_bridges hsplit hhidden hbridges)
  have hsettled := settled_of_hides hhides hclear
  have hx : x.HiddenBy literals := by
    refine Term.hiddenBy_of_hides hhides (fun s hs => List.mem_append_left _ hs) fun name hname => ?_
    exact mem_distinct.mpr (List.mem_append_left _ (List.mem_append_right _ hname))
  have hy : y.HiddenBy literals := by
    refine Term.hiddenBy_of_hides hhides (fun s hs => ?_) fun name hname => ?_
    · exact List.mem_append_right _ (List.mem_cons_of_mem _ hs)
    · exact mem_distinct.mpr (List.mem_append_right _ hname)
  rw [textOf_pairSegments_eq, textOf_pairSegments] at hprotect
  refine ⟨literals, x.masked literals, y.masked literals, Term.wordlike_masked hx,
    Term.wordlike_masked hy, hprotect, ?_⟩
  rw [restore_pair, Term.restore_masked hx hsettled, Term.restore_masked hy hsettled]

end Apart

section Entangled

variable {f : Path} {x y : Term} {q : Char}

theorem Term.clear_lead (t : Term) : Text.contains "__literal_".toList t.lead = false := by
  cases t with
  | call c =>
    have hends : "__literal_".toList = "__literal".toList ++ ['_'] := by decide
    rw [lead, hends, Text.contains_concat (by decide), ← hends]
    exact c.clear
  | _ => rfl

theorem Term.wordlike_lead (t : Term) :
    ∀ c ∈ t.lead, isBlank c = false ∧ isComparatorChar c = false := by
  cases t with
  | call call =>
    intro c hc
    rcases List.mem_append.mp hc with hc | hc
    · refine call.function.forall_mem (P := fun c => isBlank c = false ∧ isComparatorChar c = false)
        ?_ ?_ c hc
      · exact fun d hd => ⟨Lexeme.isBlank_of_isNameStart hd, isComparatorChar_of_class hd (by decide)⟩
      · exact fun d hd => ⟨Lexeme.isBlank_of_isNameChar hd, isComparatorChar_of_class hd (by decide)⟩
    · rw [List.mem_singleton.mp hc]
      decide
  | _ => simp [lead]

theorem Term.wordlike_trail (t : Term) :
    ∀ c ∈ t.trail, isBlank c = false ∧ isComparatorChar c = false := by
  have hclose : ∀ c ∈ [')'], isBlank c = false ∧ isComparatorChar c = false := by decide
  cases t with
  | call c => exact hclose
  | _ => simp [trail]

theorem wordlike_quote (hq : Literal.isQuote q = true) :
    isBlank q = false ∧ isComparatorChar q = false ∧ q ∉ "__literal_".toList ∧
      q.isDigit = false :=
  Mask.forall_quote (P := fun q => isBlank q = false ∧ isComparatorChar q = false ∧
    q ∉ "__literal_".toList ∧ q.isDigit = false) (by decide) hq

/-- The closing quote of the first bound and the opening quote of the second one are taken for a
string. The quote before it and the string after it stay. -/
theorem hide_entangled (hq : Literal.isQuote q = true) (x y : Term) :
    Mask.hide ([], x.lead ++ q :: (q :: (gapText x y ++ [q]) ++ (gapText x y ++ q :: y.trail)))
        (q :: (gapText x y ++ [q])) =
      (numbered [q :: (gapText x y ++ [q])],
        x.lead ++ q :: (placeholder 0 ++ (gapText x y ++ q :: y.trail))) := by
  have hgap := (noQuote_gapText x y).notMem hq
  have hoccurs : q :: (gapText x y ++ [q]) <:+:
      x.lead ++ q :: (q :: (gapText x y ++ [q]) ++ (gapText x y ++ q :: y.trail)) :=
    ⟨x.lead ++ [q], gapText x y ++ q :: y.trail, by simp⟩
  have hfirst : ¬ q :: (gapText x y ++ [q]) <+:
      q :: (q :: (gapText x y ++ [q]) ++ (gapText x y ++ q :: y.trail)) := by
    intro hstarts
    have hnil : gapText x y = [] :=
      Mask.eq_of_concat_isPrefix hgap List.not_mem_nil (List.cons_prefix_cons.mp hstarts).2
    have hblank := blank_mem_gapText x y
    rw [hnil] at hblank
    cases hblank
  have hlast : ¬ q :: (gapText x y ++ [q]) <+: q :: y.trail := by
    intro hstarts
    have hmem := (List.cons_prefix_cons.mp hstarts).2.subset
      (List.mem_append_right _ List.mem_cons_self)
    exact y.noQuote_trail.notMem hq hmem
  have hend : ¬ q :: (gapText x y ++ [q]) <:+: y.trail := fun hinside =>
    y.noQuote_trail.notMem hq (hinside.subset List.mem_cons_self)
  have hempty : numbered [] = [] := rfl
  rw [← hempty, Mask.hide_numbered_of_isInfix hoccurs, Text.replaceAll,
    Text.replaceFrom_append_of_notMem (x.noQuote_lead.notMem hq), Text.replaceFrom_cons _ hfirst,
    Text.replaceFrom_append (List.cons_ne_nil _ _), Text.replaceFrom_append_of_notMem hgap,
    Text.replaceFrom_cons _ hlast, Text.replaceFrom_of_not_isInfix _ hend]
  rfl

theorem not_isPrefix_trail (hq : Literal.isQuote q = true) (t : Term) {name : List Char} :
    ¬ name ++ [q] <+: textOf [.outside t.trail] := by
  intro hstarts
  have htrail : textOf [.outside t.trail] = t.trail := by simp [textOf, Segment.text]
  rw [htrail] at hstarts
  exact t.noQuote_trail.notMem hq (hstarts.subset (List.mem_append_right _ List.mem_cons_self))

theorem eq_of_isInfix_entangled (hx : .quoted q [] ∈ x.segments)
    (hy : .quoted q (gapText x y) ∈ y.segments) {c : List Char}
    (hc : c ∈ candidates (betweenNames f x y)) (hoccurs : c <:+: x.text ++ andText ++ y.text) :
    c = q :: (gapText x y ++ [q]) := by
  have hq : Literal.isQuote q = true := (x.proper _ hx).1
  have hgap := noQuote_gapText x y
  have hsegments : x.text ++ andText ++ y.text = textOf [.outside x.lead, .quoted q [],
      .outside (gapText x y), .quoted q (gapText x y), .outside y.trail] := by
    rw [Term.text_of_quoted hx, Term.text_of_quoted hy]
    simp [textOf, Segment.text, gapText]
  have hproper : ∀ s ∈ [Segment.outside x.lead, .quoted q [], .outside (gapText x y),
      .quoted q (gapText x y), .outside y.trail], s.Proper := by
    simpa [Segment.Proper, hq, NoQuote] using ⟨x.noQuote_lead, hgap, y.noQuote_trail⟩
  obtain ⟨q', name, hq', hname, rfl⟩ := Mask.candidates_quoted noQuote_betweenNames hc
  by_contra hne
  rw [hsegments] at hoccurs
  have hbridges : ¬ Bridges q' name [.outside x.lead, .quoted q [], .outside (gapText x y),
      .quoted q (gapText x y), .outside y.trail] := by
    rintro (⟨rfl, -, hstarts⟩ | ⟨rfl, -, hstarts⟩ | h)
    · have hsame := Mask.eq_of_concat_isPrefix (hname.notMem hq) (hgap.notMem hq) hstarts
      exact hne (by rw [hsame])
    · exact not_isPrefix_trail hq y hstarts
    · exact h
  have hmem := Mask.mem_of_isInfix hq' hname hproper hbridges hoccurs
  rcases (by simpa using hmem : q' = q ∧ name = [] ∨ q' = q ∧ name = gapText x y) with
    ⟨-, rfl⟩ | ⟨rfl, rfl⟩
  · exact ((Mask.mem_candidates_iff hq').mp hc).1 rfl
  · exact hne rfl

theorem not_isInfix_entangled (hx : .quoted q [] ∈ x.segments)
    (hy : .quoted q (gapText x y) ∈ y.segments) {c : List Char}
    (hc : c ∈ candidates (betweenNames f x y)) :
    ¬ c <:+: x.lead ++ q :: (placeholder 0 ++ (gapText x y ++ q :: y.trail)) := by
  intro hoccurs
  have hq : Literal.isQuote q = true := (x.proper _ hx).1
  have hinside : NoQuote (placeholder 0 ++ gapText x y) :=
    (Mask.noQuote_placeholder 0).append (noQuote_gapText x y)
  have hsegments : x.lead ++ q :: (placeholder 0 ++ (gapText x y ++ q :: y.trail)) =
      textOf [.outside x.lead, .quoted q (placeholder 0 ++ gapText x y), .outside y.trail] := by
    simp [textOf, Segment.text]
  have hproper : ∀ s ∈ [Segment.outside x.lead, .quoted q (placeholder 0 ++ gapText x y),
      .outside y.trail], s.Proper := by
    simpa [Segment.Proper, hq] using ⟨x.noQuote_lead, hinside, y.noQuote_trail⟩
  obtain ⟨q', name, hq', hname, rfl⟩ := Mask.candidates_quoted noQuote_betweenNames hc
  have hbridges : ¬ Bridges q' name [.outside x.lead, .quoted q (placeholder 0 ++ gapText x y),
      .outside y.trail] := by
    rintro (⟨rfl, -, hstarts⟩ | h)
    · exact not_isPrefix_trail hq y hstarts
    · exact h
  rw [hsegments] at hoccurs
  have hmem := Mask.mem_of_isInfix hq' hname hproper hbridges hoccurs
  obtain ⟨rfl, rfl⟩ : q' = q ∧ name = placeholder 0 ++ gapText x y := by simpa using hmem
  have hblank : ' ' ∈ placeholder 0 ++ gapText x y :=
    List.mem_append_right _ (blank_mem_gapText x y)
  have hlisted := ((Mask.mem_candidates_iff hq').mp hc).2
  rcases List.mem_append.mp (mem_distinct.mp hlisted) with hlisted | hlisted
  · rcases List.mem_append.mp hlisted with hlisted | hlisted
    · exact f.blank_notMem_names _ hlisted (by simpa using hblank)
    · have hnil := Term.quoted_of_mem_names hblank hlisted hx
      rw [hnil] at hblank
      cases hblank
  · have hsame := Term.quoted_of_mem_names hblank hlisted hy
    have hnil : placeholder 0 = [] := List.append_cancel_right (hsame.trans (List.nil_append _).symm)
    exact absurd hnil (by decide)

theorem Term.restore_lead (t : Term) (literals : List (List Char)) :
    restore (numbered literals) t.lead = t.lead :=
  Mask.restore_numbered_of_clear t.clear_lead literals

theorem Term.restore_append_trail (t : Term) (literals : List (List Char)) (text : List Char) :
    restore (numbered literals) (text ++ t.trail) =
      restore (numbered literals) text ++ t.trail := by
  have hempty : restore (numbered literals) [] = [] :=
    Mask.restore_numbered_of_clear (by decide) literals
  cases t with
  | call c =>
    rw [trail, Mask.restore_append_cons (by decide) (by decide), hempty]
  | number n => simp [trail]
  | string quote text plain => simp [trail]

/-- Entangled bounds are still two words, and they are restored. -/
theorem masksApart_of_entangled (h : Entangled x y) : MasksApart (betweenNames f x y) x y := by
  obtain ⟨q, hx, hy⟩ := h
  have hq : Literal.isQuote q = true := (x.proper _ hx).1
  obtain ⟨hblank, hcomparator, hletter, hdigit⟩ := wordlike_quote hq
  have htext : x.text ++ andText ++ y.text =
      x.lead ++ q :: (q :: (gapText x y ++ [q]) ++ (gapText x y ++ q :: y.trail)) := by
    rw [Term.text_of_quoted hx, Term.text_of_quoted hy]
    simp [gapText]
  have hin : q :: (gapText x y ++ [q]) ∈ candidates (betweenNames f x y) := by
    refine Mask.mem_candidates hq (mem_distinct.mpr (List.mem_append_right _ ?_)) ?_
    · exact Term.mem_names_of_quoted hy
    · exact List.ne_nil_of_mem (blank_mem_gapText x y)
  have hpair : (x.lead ++ q :: (placeholder 0 ++ x.trail)) ++ andText ++ (y.lead ++ q :: y.trail) =
      x.lead ++ q :: (placeholder 0 ++ (gapText x y ++ q :: y.trail)) := by
    simp [gapText]
  -- Hidden is what stands from the closing quote of the first bound to the opening quote of the
  -- second one.
  refine ⟨[q :: (gapText x y ++ [q])], x.lead ++ q :: (placeholder 0 ++ x.trail),
    y.lead ++ q :: y.trail, ⟨by simp, ?_⟩, ⟨by simp, ?_⟩, ?_, ?_⟩
  · intro c hc
    simp only [List.mem_append, List.mem_cons] at hc
    rcases hc with hc | rfl | hc | hc
    · exact x.wordlike_lead c hc
    · exact ⟨hblank, hcomparator⟩
    · have hchar := isNameChar_of_mem_placeholder hc
      exact ⟨Lexeme.isBlank_of_isNameChar hchar, isComparatorChar_of_class hchar (by decide)⟩
    · exact x.wordlike_trail c hc
  · intro c hc
    simp only [List.mem_append, List.mem_cons] at hc
    rcases hc with hc | rfl | hc
    · exact y.wordlike_lead c hc
    · exact ⟨hblank, hcomparator⟩
    · exact y.wordlike_trail c hc
  · rw [hpair]
    refine Mask.foldl_hide_of_unique (fun c hc => eq_of_isInfix_entangled hx hy hc) ?_
      (fun c hc => not_isInfix_entangled hx hy hc) hin
    rw [htext]
    exact hide_entangled hq x y
  · have hliteral : restore (numbered [q :: (gapText x y ++ [q])]) (placeholder 0) =
        q :: (gapText x y ++ [q]) :=
      Mask.restore_numbered_placeholder (Mask.settled_of_length_le_one (by simp)) rfl
    have hempty : restore (numbered [q :: (gapText x y ++ [q])]) [] = [] :=
      Mask.restore_numbered_of_clear (by decide) _
    have htrail := y.restore_append_trail [q :: (gapText x y ++ [q])] []
    rw [List.nil_append, hempty, List.nil_append] at htrail
    rw [restore_pair, Mask.restore_append_cons hletter hdigit,
      Mask.restore_append_cons hletter hdigit, Term.restore_append_trail, hliteral, htrail,
      Term.restore_lead, Term.restore_lead, htext]
    simp [gapText]

theorem masksApart (hclear : ∀ t ∈ [x, y], ¬ placeholder 1 <:+: t.text) :
    MasksApart (betweenNames f x y) x y := by
  by_cases h : Entangled x y
  · exact masksApart_of_entangled h
  · exact masksApart_of_not_entangled h hclear

end Entangled

end DocQuery.Where
