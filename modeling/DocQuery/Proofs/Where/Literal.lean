import DocQuery.Proofs.Token.Spelling
import DocQuery.Proofs.Where.Holes
import DocQuery.Proofs.Where.Term

/-! Comparisons of a field with a string, in every spelling of the string. The reader decodes the
string. The filter is made from the text of the comparison, in which the string is looked for by its
decoded value. -/

namespace DocQuery

abbrev Quote.around (quote : Quote) (text : List Char) : List Char :=
  quote.char :: (text ++ [quote.char])

namespace Where

open Comparison (respaced)
open Lexeme (Scans Spells isMark)
open Mask (NoQuote QuotedName Masked Slot candidates fill hide numbered placeholder protect restore)

def equated (f : Path) (literal : List Char) : List Char :=
  f.text ++ [' '] ++ Comparator.eq.text ++ [' '] ++ literal

def equatedNames (f : Path) (value : List Char) : List String :=
  Statement.distinct (f.names ++ [String.ofList value])

/-- Some step of the path stands in the text in quotes of some kind. -/
def Path.QuotedIn (f : Path) (text : List Char) : Prop :=
  ∃ literal ∈ candidates f.names, literal <:+: text

/-! ### Reading -/

section Reading

variable (f : Path) {quote : Quote} {raw value : List Char}

theorem readsAs_equated (h : Spells quote.char raw value) :
    ReadsAs (equated f (quote.around raw))
      [.leaf (String.ofList (equated f (quote.around raw)))
        (equatedNames f value)] := by
  have hspace : ∀ c ∈ [' '], isBlank c = true := by decide
  have hstring : Inner (.string (String.ofList value) quote) :=
    ⟨fun _ => Bool.and_false _, rfl, rfl, fun _ => rfl⟩
  let tail : List Lexeme := [⟨[' '], Comparator.eq.text, .eq⟩,
    ⟨[' '], quote.around raw, .string (String.ofList value) quote⟩]
  have hsource : Lexeme.source (f.lexemes [' '] ++ tail) =
      [' '] ++ equated f (quote.around raw) := by
    simp [tail, equated, Path.source_lexemes]
  have hscans : Scans (f.lexemes [' '] ++ tail) [] := by
    refine Lexeme.scans_append (f.scans hspace ?_) ⟨hspace, Comparator.eq.reads ?_, hspace,
      h.reads (by simp), trivial⟩
    · exact (stops_space _).not_class (fun _ => Lexeme.isBlank_of_isNameChar) (by decide)
    · rintro d ⟨rfl⟩
      decide
  have hstays : Stays (f.lexemes [' '] ++ tail) :=
    (stays_of_inner (f.inner [' '])).append
      (stays_of_inner (by simpa [tail] using ⟨Comparator.eq.inner, hstring⟩))
  refine ⟨f.lexemes [' '] ++ tail, hsource, hscans, ?_⟩
  have htext : [' '] ++ Lexeme.runText (f.lexemes [' '] ++ tail) =
      [' '] ++ equated f (quote.around raw) := by
    rw [← hsource]
    simp [Path.lexemes, Lexeme.runText, Lexeme.source]
  have hmentioned : Statement.mentions tail = [String.ofList value] := rfl
  have hne : f.lexemes [' '] ++ tail ≠ [] := List.cons_ne_nil _ _
  rw [readConditions_of_stays hne hstays, Statement.Part.condition,
    Statement.textOf, List.append_cancel_left htext, Statement.mentions_append, f.mentioned,
    hmentioned, equatedNames]

theorem ofSql_equated (h : Spells quote.char raw value) (registry : Registry) (table : Name) :
    Query.ofSql registry (rowsWhere table (equated f (quote.around raw))) =
      found table (Comparison.convert registry (equatedNames f value)
        (equated f (quote.around raw))) := by
  refine ofSql_bare ?_ ?_ ?_ (readsAs_equated f h) registry table
  · refine Text.Tight.trim_eq ⟨?_, fun c hc => ?_⟩
    · rintro c ⟨rfl⟩
      exact Lexeme.isBlank_of_isNameStart f.first.start
    · rw [equated, Quote.around, ← List.cons_append, ← List.append_assoc,
        List.getLast?_concat] at hc
      cases hc
      cases quote <;> decide
  · have hquote : Condition.balance [quote.char] = 0 := by cases quote <;> rfl
    have hliteral : Condition.balance (quote.around raw) =
        Condition.balance value := by
      rw [Condition.balance_cons, Condition.balance_append, hquote,
        h.balance_eq (by cases quote <;> decide) hquote]
      omega
    have hfront : Condition.balance [' '] = 0 ∧ Condition.balance Comparator.eq.text = 0 := ⟨rfl, rfl⟩
    rw [Condition.depth_leaf, equatedNames, namesBalance_distinct_concat f.bracketBalance_names,
      Condition.bracketBalance_ofList, equated, Condition.balance_append, Condition.balance_append,
      Condition.balance_append, Condition.balance_append,
      Condition.balance_of_not_delimiter f.not_delimiter, hliteral, hfront.1, hfront.2]
    omega
  · have hne : f.first.first ≠ '(' := by
      intro heq
      have hstart := f.first.start
      rw [heq] at hstart
      exact absurd hstart (by decide)
    have hhead : (equated f (quote.around raw)).head? = some f.first.first := rfl
    rw [Condition.isWrapped, hhead]
    simp [hne]

end Reading

/-! ### Conversion -/

/-- The text of an operand once it is masked, split into words and restored. -/
def recovered (names : List String) (operand : List Char) : List Char :=
  restore (protect names operand).1 (respaced (protect names operand).2)

section Conversion

variable (names : List String) (f : Path) (operand : List Char)

theorem protect_equated : protect names (equated f operand) =
    ((protect names operand).1, equated f (protect names operand).2) := by
  have hfront : NoQuote (f.text ++ [' '] ++ Comparator.eq.text ++ [' ']) :=
    ((f.noQuote.append (by decide)).append (by decide)).append (by decide)
  refine Mask.foldl_hide_append hfront (fun c hc => ?_) [] operand
  obtain ⟨name, -, -, q, hq, heq⟩ := Mask.eq_of_mem_candidates hc
  exact ⟨q, _, hq, heq⟩

theorem restore_path : restore (protect names operand).1 f.text = f.text := by
  obtain ⟨literals, masked, heq⟩ := Mask.exists_numbered_foldl_hide (candidates names) [] operand
  have hprotect : protect names operand = (numbered literals, masked) := heq
  rw [hprotect]
  exact Mask.restore_numbered_of_clear f.clear literals

theorem convert_equated (registry : Registry) :
    Comparison.convert registry names (equated f operand) =
      (Comparison.coerce registry names f.text (recovered names operand)).map fun value =>
        .ofField (String.ofList f.text) (.equals value) := by
  obtain ⟨gap, hgap⟩ : ∃ g : Gap, g.text = [' '] := ⟨⟨[' '], by decide, by decide⟩, rfl⟩
  have hwords := words_operand f gap gap .eq (protect names operand).2
  rw [hgap] at hwords
  rw [Comparison.convert, protect_equated, equated]
  simp only [hwords]
  exact ofWords_operand registry names .eq (restore_path names f operand) rfl

theorem convert_of_recovered {quote : Quote} {text : List Char}
    (h : recovered names operand = quote.around text) (registry : Registry) :
    Comparison.convert registry names (equated f operand) =
      .ok (.ofField (String.ofList f.text) (.equals (.string (String.ofList text)))) := by
  rw [convert_equated, h, Comparison.coerce, Literal.scalar?_quoted (isQuote_char quote)]
  rfl

end Conversion

/-! ### What is looked for -/

theorem mem_candidates_distinct {names : List String} {c : List Char} :
    c ∈ candidates (Statement.distinct names) ↔ c ∈ candidates names := by
  have hof : ∀ {xs ys : List String}, (∀ name ∈ xs, name ∈ ys) → c ∈ candidates xs →
      c ∈ candidates ys := by
    intro xs ys hsub hc
    obtain ⟨name, hname, hne, q, hq, rfl⟩ := Mask.eq_of_mem_candidates hc
    refine Mask.mem_candidates hq ?_ (by simpa using hne)
    rw [String.ofList_toList]
    exact hsub name hname
  exact ⟨hof fun _ => mem_distinct.mp, hof fun _ => mem_distinct.mpr⟩

theorem exists_candidates_equated (f : Path) (value : List Char) :
    ∃ extra, candidates (equatedNames f value) = candidates (Statement.distinct f.names) ++ extra ∧
      extra.Nodup ∧ ∀ c ∈ extra, ∃ q, Literal.isQuote q = true ∧ c = q :: (value ++ [q]) := by
  rw [equatedNames, distinct_concat]
  split
  · exact ⟨[], by simp, List.nodup_nil, by simp⟩
  · refine ⟨candidates [String.ofList value], Mask.candidates_append _ _,
      Mask.nodup_candidates (List.nodup_singleton _), fun c hc => ?_⟩
    obtain ⟨name, hname, -, q, hq, rfl⟩ := Mask.eq_of_mem_candidates hc
    rw [List.mem_singleton.mp hname, String.toList_ofList]
    exact ⟨q, hq, rfl⟩

section Candidates

variable {f : Path} {c : List Char}

theorem Path.exists_of_mem_candidates (hc : c ∈ candidates f.names) : ∃ q, ∃ n : Name,
    Literal.isQuote q = true ∧ Text.contains "__literal_".toList n.text = false ∧
      c = q :: (n.text ++ [q]) := by
  obtain ⟨name, hname, -, q, hq, rfl⟩ := Mask.eq_of_mem_candidates hc
  have hclear := f.clear_names name hname
  obtain ⟨n, rfl⟩ : ∃ n : Name, name = String.ofList n.text :=
    f.forall_names (P := fun name => ∃ n : Name, name = String.ofList n.text) (fun n => ⟨n, rfl⟩)
      name hname
  have htext : (String.ofList n.text).toList = n.text := String.toList_ofList
  rw [htext] at hclear ⊢
  exact ⟨q, n, hq, hclear, rfl⟩

theorem Path.quotedName (hc : c ∈ candidates f.names) : QuotedName c := by
  obtain ⟨q, n, hq, hclear, rfl⟩ := f.exists_of_mem_candidates hc
  have hquote : isBlank q = false ∧ isComparatorChar q = false :=
    Mask.forall_quote (P := fun d => isBlank d = false ∧ isComparatorChar d = false) (by decide) hq
  refine ⟨⟨q, n.text, hq, noQuote_of_not_delimiter n.not_delimiter, hclear, rfl⟩,
    List.cons_ne_nil _ _, fun d hd => ?_⟩
  rcases List.mem_cons.mp hd with rfl | hd
  · exact hquote
  · rcases List.mem_append.mp hd with hd | hd
    · refine n.forall_mem (P := fun d => isBlank d = false ∧ isComparatorChar d = false)
        (fun e he => ?_) (fun e he => ?_) d hd
      · exact ⟨Lexeme.isBlank_of_isNameStart he, isComparatorChar_of_class he (by decide)⟩
      · exact ⟨Lexeme.isBlank_of_isNameChar he, isComparatorChar_of_class he (by decide)⟩
    · rw [List.mem_singleton.mp hd]
      exact hquote

theorem Path.isInfix_around {quote : Quote} {raw value : List Char}
    (h : Spells quote.char raw value) (hc : c ∈ candidates f.names)
    (hoccurs : c <:+: quote.around raw) : c <:+: quote.around value := by
  obtain ⟨q, n, hq, -, rfl⟩ := f.exists_of_mem_candidates hc
  have hquote : q ≠ '\\' ∧ Lexeme.unescape q = q :=
    Mask.forall_quote (P := fun d => d ≠ '\\' ∧ Lexeme.unescape d = d) (by decide) hq
  refine h.isInfix (List.cons_ne_nil _ _) ?_ hquote.1 hquote.2 hoccurs
  refine n.forall_mem (P := fun d => d ≠ quote.char ∧ d ≠ '\\') (fun e he => ?_) fun e he => ?_
  all_goals
    have hnot : e ∉ [quote.char, '\\'] := notMem_of_class he (by cases quote <;> decide)
    simpa using hnot

end Candidates

/-! ### Recovering the string -/

section Recovery

variable {f : Path} {quote : Quote} {raw value : List Char}

theorem isMark_unescape (quote : Quote) (c : Char) :
    isMark quote.char (Lexeme.unescape c) = isMark quote.char c :=
  Lexeme.unescape_class (by cases quote <;> decide) c

theorem isMark_of_isBlank (quote : Quote) (c : Char) (hc : isBlank c = true) :
    isMark quote.char c = false := by
  have hnot : c ∉ [quote.char, '\\'] := notMem_of_class hc (by cases quote <;> decide)
  simpa [isMark] using hnot

theorem exists_respaced_around (quote : Quote) (text : List Char) :
    ∃ spaced, respaced (quote.around text) = quote.around spaced := by
  have hblank : isBlank quote.char = false := by cases quote <;> decide
  have hnot : isComparatorChar quote.char = false := by cases quote <;> decide
  have hspaced : Comparison.spaceComparators (quote.around text) =
      quote.around (Comparison.spaceComparators text) := by
    rw [spaceComparators_cons hnot, Comparison.spaceComparators_append_cons hnot]
    rfl
  have hlast : Text.squeeze [quote.char] = [quote.char] := by
    rw [Text.squeeze_cons hblank]
    rfl
  obtain ⟨blanks, -, hsqueeze⟩ :=
    Text.exists_squeeze_append (Comparison.spaceComparators text) hblank []
  refine ⟨Text.joint (Comparison.spaceComparators text ++ [quote.char]) ++
    (Text.squeeze (Comparison.spaceComparators text) ++ blanks), ?_⟩
  rw [respaced, hspaced, Text.squeeze_cons hblank, hsqueeze, hlast]
  simp

/-- Spacing never hides that a string is spelled otherwise than its value. -/
theorem eq_of_respaced_eq (h : Spells quote.char raw value)
    (heq : respaced (quote.around raw) = quote.around value) : raw = value := by
  have hcount := Comparison.countP_respaced (isMark_of_isBlank quote) (quote.around raw)
  rw [heq, List.countP_cons, List.countP_cons, List.countP_append, List.countP_append] at hcount
  exact (h.eq_or_countP_lt (isMark_unescape quote)).resolve_right (by omega)

/-- Between other quotes the value has too many of these quotes to be found in the string. -/
theorem countP_lt_of_ne (h : Spells quote.char raw value) {q : Char}
    (hq : Literal.isQuote q = true) (hne : q ≠ quote.char) :
    (quote.around raw).countP (· == q) < (q :: (value ++ [q])).countP (· == q) := by
  have hslash : q ≠ '\\' := Mask.forall_quote (P := (· ≠ '\\')) (by decide) hq
  have hescape : ∀ c, (Lexeme.unescape c == q) = (c == q) :=
    Lexeme.unescape_class (Mask.forall_quote (P := fun q => ∀ d ∈ ['t', 'r', '0', '\n', '\t', '\r',
      '\x00'], (d == q) = ('n' == q)) (by decide) hq)
  have hcount := h.countP_eq (p := (· == q)) (by simpa using hne.symm) (by simpa using hslash.symm)
    hescape
  have hquote : (quote.char == q) = false := by simpa using hne.symm
  simp only [Quote.around, List.countP_cons, List.countP_append, List.countP_nil, hquote, hcount,
    beq_self_eq_true, if_true, Bool.false_eq_true, if_false]
  omega

theorem foldl_hide_steps {text : List Char} (hnone : ¬ f.QuotedIn text) :
    (candidates (Statement.distinct f.names)).foldl hide ([], text) = ([], text) :=
  Mask.foldl_hide_of_not_isInfix fun c hc hoccurs =>
    hnone ⟨c, mem_candidates_distinct.mp hc, hoccurs⟩

theorem recovered_self (hnone : ¬ f.QuotedIn (quote.around value)) :
    recovered (equatedNames f value) (quote.around value) = quote.around value := by
  have hstep : ∀ c ∈ candidates (equatedNames f value), c <:+: quote.around value →
      c = quote.around value ∧ value ≠ [] := by
    intro c hc hoccurs
    obtain ⟨name, hname, hne, q, hq, rfl⟩ := Mask.eq_of_mem_candidates hc
    rcases List.mem_append.mp (mem_distinct.mp hname) with hmem | hmem
    · have hcandidate := Mask.mem_candidates hq (by rwa [String.ofList_toList]) (by simpa using hne)
      exact absurd ⟨_, hcandidate, hoccurs⟩ hnone
    · rw [List.mem_singleton.mp hmem] at hne hoccurs ⊢
      rw [String.toList_ofList] at hoccurs ⊢
      exact ⟨hoccurs.eq_of_length (by simp), by simpa using hne⟩
  by_cases hnil : value = []
  · have hprotect : protect (equatedNames f value) (quote.around value) =
        ([], quote.around value) :=
      Mask.foldl_hide_of_not_isInfix fun c hc hoccurs => (hstep c hc hoccurs).2 hnil
    rw [recovered, hprotect, hnil]
    cases quote <;> rfl
  · have hhide : hide ([], quote.around value) (quote.around value) =
        ([(placeholder 0, quote.around value)], placeholder 0) := by
      have hcontains : Text.contains (quote.around value) (quote.around value) = true :=
        Text.contains_iff_isInfix.mpr List.infix_rfl
      have hreplace : Text.replaceAll (quote.around value) (placeholder 0) (quote.around value) =
          placeholder 0 := by
        have hempty : quote.char ∉ ([] : List Char) := by simp
        exact Text.replaceAll_append_part hempty _ _
      simp [hide, hcontains, hreplace]
    have hmem : quote.around value ∈ candidates (equatedNames f value) :=
      Mask.mem_candidates (isQuote_char quote) (mem_distinct.mpr (by simp)) hnil
    have hprotect : protect (equatedNames f value) (quote.around value) =
        ([(placeholder 0, quote.around value)], placeholder 0) :=
      Mask.foldl_hide_of_unique (fun c hc hoccurs => (hstep c hc hoccurs).1) hhide
        (fun c hc => Mask.not_isInfix_of_noQuote (Mask.noQuote_placeholder 0) hc) hmem
    rw [recovered, hprotect]
    dsimp only
    rw [Comparison.respaced_wordlike (Mask.wordlike_placeholder 0), Mask.restore_placeholder]

/-- If the value in its quotes is found in another spelling of it, then only quotes and backslashes
stand around it, and it is found once. -/
theorem exists_hide_value (h : Spells quote.char raw value)
    (hoccurs : quote.around value <:+: quote.around raw) :
    ∃ front rest, quote.around raw = front ++ (quote.around value ++ rest) ∧
      (∀ c ∈ front ++ rest, isMark quote.char c = true) ∧
      hide ([], quote.around raw) (quote.around value) =
        ([(placeholder 0, quote.around value)], front ++ (placeholder 0 ++ rest)) := by
  obtain ⟨front, rest, hsplit, hreplace⟩ :=
    Text.exists_replaceFrom_split (List.cons_ne_nil _ _) hoccurs (placeholder 0)
  have hmarks : ∀ c ∈ front ++ rest, isMark quote.char c = true := by
    have hquote : isMark quote.char quote.char = true := by simp [isMark]
    have hcount := h.countP_eq (p := fun c => !isMark quote.char c) (by simp [hquote])
      (by simp [isMark]) fun c => by rw [isMark_unescape]
    have hall := congrArg (List.countP fun c => !isMark quote.char c) hsplit
    simp only [Quote.around, List.countP_cons, List.countP_append, List.countP_nil, hquote,
      Bool.not_true, Bool.false_eq_true, if_false] at hall
    have hzero : (front ++ rest).countP (fun c => !isMark quote.char c) = 0 := by
      rw [List.countP_append]
      omega
    intro c hc
    simpa using List.countP_eq_zero.mp hzero c hc
  have hrest : ¬ quote.around value <:+: rest := by
    intro hagain
    have hlength := congrArg List.length hsplit
    have hle := hagain.length_le
    have htwice := h.length_le
    simp only [Quote.around, List.length_cons, List.length_append, List.length_nil] at hlength hle
    omega
  refine ⟨front, rest, hsplit, hmarks, ?_⟩
  have hcontains : Text.contains (quote.around value) (quote.around raw) = true :=
    Text.contains_iff_isInfix.mpr hoccurs
  rw [Text.replaceFrom_of_not_isInfix _ hrest] at hreplace
  simp only [hide, hcontains, if_true, Text.replaceAll, hreplace, List.length_nil,
    List.nil_append]

theorem notMem_marks {front rest : List Char}
    (hmarks : ∀ c ∈ front ++ rest, isMark quote.char c = true) {q : Char}
    (hq : Literal.isQuote q = true) (hquote : q ≠ quote.char) :
    q ∉ front ++ (placeholder 0 ++ rest) := by
  intro hin
  have hslash : q ≠ '\\' := Mask.forall_quote (P := (· ≠ '\\')) (by decide) hq
  have hmark : isMark quote.char q = false := by simp [isMark, hquote, hslash]
  have hplace := (Mask.noQuote_placeholder 0).notMem hq
  simp only [List.mem_append, hplace, false_or] at hin
  rw [hmarks q (List.mem_append.mpr hin)] at hmark
  cases hmark

theorem restore_marks {front rest : List Char}
    (hmarks : ∀ c ∈ front ++ rest, isMark quote.char c = true) (literal : List Char) :
    restore [(placeholder 0, literal)] (respaced (front ++ (placeholder 0 ++ rest))) =
      front ++ (literal ++ rest) := by
  have hclass : ∀ c ∈ front ++ rest, isBlank c = false ∧ isComparatorChar c = false ∧ c ≠ '_' := by
    intro c hc
    have hmark : c = quote.char ∨ c = '\\' := by simpa [isMark] using hmarks c hc
    rcases hmark with rfl | rfl
    · cases quote <;> decide
    · decide
  have hwordlike : Wordlike (front ++ (placeholder 0 ++ rest)) := by
    have hne := (Mask.wordlike_placeholder 0).ne_nil
    refine ⟨fun hnil => hne ?_, fun c hc => ?_⟩
    · exact (List.append_eq_nil_iff.mp (List.append_eq_nil_iff.mp hnil).2).1
    rcases List.mem_append.mp hc with hc | hc
    · exact ⟨(hclass c (by simp [hc])).1, (hclass c (by simp [hc])).2.1⟩
    · rcases List.mem_append.mp hc with hc | hc
      · exact (Mask.wordlike_placeholder 0).forall_mem c hc
      · exact ⟨(hclass c (by simp [hc])).1, (hclass c (by simp [hc])).2.1⟩
  have hfront : '_' ∉ front := fun hmem => (hclass '_' (by simp [hmem])).2.2 rfl
  have hrest : '_' ∉ rest := fun hmem => (hclass '_' (by simp [hmem])).2.2 rfl
  obtain ⟨holder, hholder⟩ : ∃ holder, placeholder 0 = '_' :: holder := ⟨_, rfl⟩
  have hafter : Text.replaceFrom ('_' :: holder) literal 0 rest = rest :=
    Text.replaceFrom_of_not_isInfix literal fun hoccurs =>
      hrest (hoccurs.subset List.mem_cons_self)
  rw [Comparison.respaced_wordlike hwordlike, Mask.restore_cons, hholder, Text.replaceAll,
    Text.replaceFrom_append_of_notMem hfront, Text.replaceFrom_append (List.cons_ne_nil _ _),
    hafter]
  rfl

theorem value_ne_nil (h : Spells quote.char raw value) (hne : raw ≠ value) : value ≠ [] := by
  rintro rfl
  have hlength := h.length_le
  exact hne (List.length_eq_zero_iff.mp (by simpa using hlength))

/-- Where no step of the path is found in a string, its escapes stay. -/
theorem recovered_of_ne (h : Spells quote.char raw value) (hne : raw ≠ value)
    (hnone : ¬ f.QuotedIn (quote.around raw)) :
    recovered (equatedNames f value) (quote.around raw) = quote.around raw ∨
      recovered (equatedNames f value) (quote.around raw) = respaced (quote.around raw) := by
  obtain ⟨extra, hcandidates, hnodup, hextra⟩ := exists_candidates_equated f value
  have hprotect : protect (equatedNames f value) (quote.around raw) =
      extra.foldl hide ([], quote.around raw) := by
    rw [protect, hcandidates, List.foldl_append, foldl_hide_steps hnone]
  -- Other quotes occur in the value as often as in the string, and two more stand around it.
  have hother : ∀ c ∈ extra, c ≠ quote.around value → ¬ c <:+: quote.around raw := by
    intro c hc hcne hoccurs
    obtain ⟨q, hq, rfl⟩ := hextra c hc
    have hquote : q ≠ quote.char := fun heq => hcne (by rw [heq])
    have hle := hoccurs.sublist.countP_le (p := (· == q))
    have hlt := countP_lt_of_ne h hq hquote
    omega
  -- If the value is found, it is hidden once, and what is left around it is restored as it was.
  by_cases hoccurs : quote.around value <:+: quote.around raw
  · obtain ⟨front, rest, hsplit, hmarks, hhide⟩ := exists_hide_value h hoccurs
    have hmem : quote.around value ∈ extra := by
      have hall : quote.around value ∈ candidates (equatedNames f value) :=
        Mask.mem_candidates (isQuote_char quote) (mem_distinct.mpr (by simp)) (value_ne_nil h hne)
      rw [hcandidates] at hall
      refine (List.mem_append.mp hall).resolve_left fun hstep => hnone ?_
      exact ⟨_, mem_candidates_distinct.mp hstep, hoccurs⟩
    obtain ⟨before, after, rfl⟩ := List.append_of_mem hmem
    have hunique := List.nodup_middle.mp hnodup
    have hfold : (before ++ quote.around value :: after).foldl hide ([], quote.around raw) =
        ([(placeholder 0, quote.around value)], front ++ (placeholder 0 ++ rest)) := by
      have hbefore : ∀ c ∈ before, ¬ c <:+: quote.around raw := by
        intro c hc
        refine hother c (by simp [hc]) fun heq => ?_
        exact (List.nodup_cons.mp hunique).1 (List.mem_append_left _ (heq ▸ hc))
      have hafter : ∀ c ∈ after, ¬ c <:+: front ++ (placeholder 0 ++ rest) := by
        intro c hc hfound
        obtain ⟨q, hq, rfl⟩ := hextra c (by simp [hc])
        have hquote : q ≠ quote.char := by
          rintro rfl
          exact (List.nodup_cons.mp hunique).1 (List.mem_append_right _ hc)
        exact notMem_marks hmarks hq hquote (hfound.subset List.mem_cons_self)
      rw [List.foldl_append, Mask.foldl_hide_of_not_isInfix hbefore, List.foldl_cons, hhide,
        Mask.foldl_hide_of_not_isInfix hafter]
    left
    rw [recovered, hprotect, hfold, hsplit]
    exact restore_marks hmarks _
  · have hfold : extra.foldl hide ([], quote.around raw) = ([], quote.around raw) := by
      refine Mask.foldl_hide_of_not_isInfix fun c hc hfound => ?_
      by_cases hc' : c = quote.around value
      · exact hoccurs (hc' ▸ hfound)
      · exact hother c hc hc' hfound
    right
    rw [recovered, hprotect, hfold]
    rfl

/-- Where a step of the path is found in a string, the string is not looked for as a whole. -/
theorem recovered_of_quotedIn (h : Spells quote.char raw value)
    (hin : f.QuotedIn (quote.around raw)) (hclear : ¬ "literal_".toList <:+: quote.around raw) :
    recovered (equatedNames f value) (quote.around raw) = respaced (quote.around raw) := by
  obtain ⟨step, hstep, hfound⟩ := hin
  obtain ⟨extra, hcandidates, -, hextra⟩ := exists_candidates_equated f value
  have hnames : ∀ c ∈ candidates (Statement.distinct f.names), QuotedName c :=
    fun c hc => f.quotedName (mem_candidates_distinct.mp hc)
  obtain ⟨literals, slots, hfold, hmasked⟩ := (Masked.start (quote.around raw)).foldl_hide hnames
  rw [List.nil_append] at hmasked
  have hgone : ∀ c ∈ extra, ¬ c <:+: fill placeholder slots := by
    intro c hc hoccurs
    obtain ⟨q, hq, rfl⟩ := hextra c hc
    by_cases hquote : q = quote.char
    · have hinside : step <:+: q :: (value ++ [q]) := by
        rw [hquote]
        exact f.isInfix_around h hstep hfound
      exact hmasked.not_isInfix step (mem_candidates_distinct.mpr hstep)
        (((f.quotedName hstep).isInfix_fill_iff slots).mp (hinside.trans hoccurs))
    · have hholder : ∀ k, (placeholder k).countP (· == q) ≤ (Mask.held literals k).countP (· == q) := by
        intro k
        have hzero : (placeholder k).countP (· == q) = 0 := by
          refine List.countP_eq_zero.mpr fun d hd => ?_
          have hne : d ≠ q := fun heq => (Mask.noQuote_placeholder k).notMem hq (heq ▸ hd)
          simpa using hne
        omega
      have hcount := Mask.countP_fill_le hholder slots
      have hle := hoccurs.sublist.countP_le (p := (· == q))
      have hlt := countP_lt_of_ne h hq hquote
      rw [hmasked.fill_eq] at hcount
      omega
  have hprotect : protect (equatedNames f value) (quote.around raw) =
      (numbered literals, fill placeholder slots) := by
    have hstart : fill placeholder ((quote.around raw).map Slot.char) = quote.around raw :=
      Mask.fill_map_char _ _
    rw [hstart] at hfold
    rw [protect, hcandidates, List.foldl_append, ← Mask.foldl_hide_of_not_isInfix hgone, ← hfold]
    rfl
  rw [recovered, hprotect]
  exact hmasked.restore_respaced hnames hclear

theorem recovered_eq_or (h : Spells quote.char raw value)
    (hclear : f.QuotedIn (quote.around raw) → ¬ "literal_".toList <:+: quote.around raw) :
    recovered (equatedNames f value) (quote.around raw) = quote.around raw ∨
      recovered (equatedNames f value) (quote.around raw) = respaced (quote.around raw) := by
  by_cases hin : f.QuotedIn (quote.around raw)
  · exact .inr (recovered_of_quotedIn h hin (hclear hin))
  · by_cases heq : raw = value
    · left
      rw [heq] at hin ⊢
      exact recovered_self hin
    · exact recovered_of_ne h heq hin

theorem recovered_eq_value_iff (h : Spells quote.char raw value)
    (hclear : f.QuotedIn (quote.around raw) → ¬ "literal_".toList <:+: quote.around raw) :
    recovered (equatedNames f value) (quote.around raw) = quote.around value ↔
      raw = value ∧
        (f.QuotedIn (quote.around raw) → respaced (quote.around raw) = quote.around raw) := by
  by_cases hin : f.QuotedIn (quote.around raw)
  · rw [recovered_of_quotedIn h hin (hclear hin)]
    constructor
    · intro heq
      have hraw := eq_of_respaced_eq h heq
      exact ⟨hraw, fun _ => by rw [heq, hraw]⟩
    · rintro ⟨rfl, hspaced⟩
      exact hspaced hin
  · by_cases heq : raw = value
    · rw [heq] at hin ⊢
      exact ⟨fun _ => ⟨rfl, fun h => absurd h hin⟩, fun _ => recovered_self hin⟩
    · refine ⟨fun hvalue => absurd ?_ heq, fun hraw => absurd hraw.1 heq⟩
      rcases recovered_of_ne h heq hin with hrecovered | hrecovered
      · rw [hrecovered] at hvalue
        exact List.append_cancel_right (List.cons.inj hvalue).2
      · rw [hrecovered] at hvalue
        exact eq_of_respaced_eq h hvalue

end Recovery

/-- A field compared with a string finds the rows with that string as it is spelled, up to its
spacing. This is the string as it is read if and only if it is spelled without escapes, and no step
of the field stands in quotes in it, or else its spacing is the one that comparisons are given. -/
theorem ofSql_literal_iff (registry : Registry) (table : Name) (f : Path) {literal value : String}
    {quote : Quote}
    (hlex : Lexeme.ofSource literal = .ok [⟨[], literal.toList, .string value quote⟩, ending])
    (hclear : f.QuotedIn literal.toList → ¬ "literal_".toList <:+: literal.toList) :
    ∃ kept : String,
      Query.ofSql registry (rowsWhere table (f.text ++ " = ".toList ++ literal.toList)) =
        found table (.ok (.ofField (String.ofList f.text) (.equals (.string kept)))) ∧
      (quote.around kept.toList = literal.toList ∨
        quote.around kept.toList = respaced literal.toList) ∧
      (kept = value ↔ literal.toList = quote.around value.toList ∧
        (f.QuotedIn literal.toList → respaced literal.toList = literal.toList)) := by
  obtain ⟨raw, hliteral, hspells⟩ : ∃ raw, literal.toList = quote.around raw ∧
      Spells quote.char raw value.toList :=
    Lexeme.spells_of_all (Lexeme.ofSource_eq_ok_iff.mp hlex) List.mem_cons_self
  rw [hliteral] at hclear ⊢
  have hrecovered := recovered_eq_or hspells hclear
  obtain ⟨text, htext⟩ : ∃ text, recovered (equatedNames f value.toList) (quote.around raw) =
      quote.around text := by
    rcases hrecovered with heq | heq
    · exact ⟨raw, heq⟩
    · rw [heq]
      exact exists_respaced_around quote raw
  have hiff := recovered_eq_value_iff hspells hclear
  have hcancel : ∀ {x y : List Char}, quote.around x = quote.around y ↔ x = y := by
    simp [Quote.around]
  have hequated : f.text ++ " = ".toList ++ quote.around raw = equated f (quote.around raw) := by
    simp [equated, Comparator.text]
  rw [htext] at hrecovered hiff
  refine ⟨String.ofList text, ?_, ?_, ?_⟩
  · rw [hequated, ofSql_equated f hspells, convert_of_recovered _ f _ htext]
  · rwa [String.toList_ofList]
  · have hvalue : String.ofList text = value ↔ text = value.toList := by
      rw [← String.toList_inj, String.toList_ofList]
    rw [hvalue, hcancel, ← hiff, hcancel]

/-- The field stands in double quotes in the string, and the string is spaced like a comparison. -/
theorem ofSql_literal_iff_step :
    let t : Name := ⟨'t', [], by decide, by decide, by decide⟩
    let f : Path := ⟨⟨'f', [], by decide, by decide, by decide⟩, [], by decide⟩
    let literal := "'say \"f\" = ok'"
    f.QuotedIn literal.toList ∧
      Lexeme.ofSource literal =
        .ok [⟨[], literal.toList, .string "say \"f\" = ok" .single⟩, ending] ∧
      ¬ "literal_".toList <:+: literal.toList ∧
      Query.ofSql .default (rowsWhere t (f.text ++ " = ".toList ++ literal.toList)) =
        found t (.ok (.ofField "f" (.equals (.string "say \"f\" = ok")))) := by
  intro t f literal
  have hlex : Lexeme.ofSource literal =
      .ok [⟨[], literal.toList, .string "say \"f\" = ok" .single⟩, ending] :=
    Statement.eq_ok_of_toOption (by decide +kernel)
  have hin : f.QuotedIn literal.toList :=
    ⟨"\"f\"".toList, by decide, Text.contains_iff_isInfix.mp (by decide)⟩
  have hclear : ¬ "literal_".toList <:+: literal.toList :=
    fun hoccurs => absurd (Text.contains_iff_isInfix.mpr hoccurs) (by decide)
  have hspaced : respaced literal.toList = literal.toList := by decide +kernel
  obtain ⟨kept, hsql, -, hiff⟩ := ofSql_literal_iff .default t f hlex fun _ => hclear
  have hkept : kept = "say \"f\" = ok" := hiff.mpr ⟨by decide, fun _ => hspaced⟩
  rw [hkept] at hsql
  exact ⟨hin, hlex, hclear, hsql⟩

/-- A doubled quote is read as one quote, but looked for as two. -/
theorem literal_doubled_quote :
    Lexeme.ofSource "'it''s'" =
        .ok [⟨[], "'it''s'".toList, .string "it's" .single⟩, ending] ∧
      Query.ofSql .default "SELECT * FROM t WHERE f = 'it''s'" =
        .ok (some (.find ⟨"t", .ofField "f" (.equals (.string "it''s")),
          none, none, 0, 0, none⟩)) := by
  let t : Name := ⟨'t', [], by decide, by decide, by decide⟩
  let f : Path := ⟨⟨'f', [], by decide, by decide, by decide⟩, [], by decide⟩
  have hspells : Spells Quote.single.char "it''s".toList "it's".toList :=
    .plain (by decide) (by decide) (.plain (by decide) (by decide)
      (.doubled (.plain (by decide) (by decide) .nil)))
  have htext : rowsWhere t (equated f (Quote.single.around "it''s".toList)) =
      "SELECT * FROM t WHERE f = 'it''s'" := by decide
  have hnames : equatedNames f "it's".toList = ["f", "it's"] := by decide
  have hequated : equated f (Quote.single.around "it''s".toList) = "f = 'it''s'".toList := by decide
  have hconvert : Comparison.convert .default ["f", "it's"] "f = 'it''s'".toList =
      .ok (.ofField "f" (.equals (.string "it''s"))) := rfl
  have hsql := ofSql_equated f hspells .default t
  rw [htext, hnames, hequated, hconvert] at hsql
  exact ⟨Statement.eq_ok_of_toOption (by decide +kernel), hsql⟩

end Where

end DocQuery
