import DocQuery.Proofs.Condition.Meaning
import DocQuery.Proofs.Condition.Segments
import DocQuery.Proofs.Where.ConditionList
import DocQuery.Proofs.Where.Conversion
import DocQuery.Proofs.Where.Number
import DocQuery.Proofs.Where.Sentence

/-! Comparisons with a number, a string or an inline call. Strings are masked while such a
comparison is split, and an inline call gets its function and its payload from the names of the
comparison. -/

namespace DocQuery.Where

open Condition (isBalancedFrom balance bracketBalance_ofList)
open Lexeme (Reads Scans Stops)
open Mask (NoQuote Segment Hides textOf numbered candidates placeholder restore)

/-- A function with a payload between single quotes. The function does not look like a
placeholder. -/
structure Call where
  function : Name
  payload : List Char
  clear : Text.contains "__literal_".toList function.text = false
  plain : ∀ c ∈ payload, Literal.isQuote c = false ∧ c ≠ '\\'

inductive Term where
  | number (n : Number)
  | string (quote : Quote) (text : List Char)
    (plain : ∀ c ∈ text, Literal.isQuote c = false ∧ c ≠ '\\')
  | call (c : Call)

namespace Term

def segments : Term → List Segment
  | number n => [.outside n.text]
  | string quote text _ => [.quoted quote.char text]
  | call c => [.outside (c.function.text ++ ['(']), .quoted '\'' c.payload, .outside [')']]

def text (t : Term) : List Char :=
  textOf t.segments

def names : Term → List String
  | number _ => []
  | string _ text _ => [String.ofList text]
  | call c => [String.ofList c.function.text, String.ofList c.payload]

/-- The value of a term, or why there is none. A function of a call is one that is registered. -/
inductive Evaluates (registry : Registry) : Term → Except InlineError Value → Prop where
  | number (n : Number) : Evaluates registry (.number n) (.ok n.value)
  | string (quote : Quote) (text : List Char)
    (plain : ∀ c ∈ text, Literal.isQuote c = false ∧ c ≠ '\\') :
    Evaluates registry (.string quote text plain) (.ok (.string (String.ofList text)))
  | call (c : Call) (builder : Builder)
    (registered : registry.get? (String.ofList c.function.text) = some builder) :
    Evaluates registry (.call c) ((builder (String.ofList c.payload)).mapError
      (⟨String.ofList c.function.text, String.ofList c.payload, ·⟩))

end Term

theorem Call.text_eq (c : Call) :
    (Term.call c).text = c.function.text ++ '(' :: '\'' :: (c.payload ++ ['\'', ')']) := by
  simp [Term.text, Term.segments, textOf, Segment.text]

theorem Term.text_number (n : Number) : (number n).text = n.text := by
  simp [text, segments, textOf, Segment.text]

theorem Term.text_string (quote : Quote) (text : List Char)
    (plain : ∀ c ∈ text, Literal.isQuote c = false ∧ c ≠ '\\') :
    (string quote text plain).text = quote.char :: (text ++ [quote.char]) := by
  simp [Term.text, segments, textOf, Segment.text]

/-! ### Reading -/

def Sign.token : Sign → Token
  | plus => .plus
  | minus => .minus

def Number.lexemes (gap : List Char) (n : Number) : List Lexeme :=
  match n.sign with
  | none => [⟨gap, n.body, n.token⟩]
  | some sign => [⟨gap, [sign.char], sign.token⟩, ⟨[], n.body, n.token⟩]

def stringLexeme (gap : List Char) (quote : Quote) (text : List Char) : Lexeme :=
  ⟨gap, quote.char :: (text ++ [quote.char]), .string (String.ofList text) quote⟩

def Term.lexemes (gap : List Char) : Term → List Lexeme
  | number n => n.lexemes gap
  | string quote text _ => [stringLexeme gap quote text]
  | call c => ⟨gap, c.function.text, c.function.token⟩ :: ⟨[], ['('], .lparen⟩ ::
      ([stringLexeme [] .single c.payload] ++ [⟨[], [')'], .rparen⟩])

theorem Term.source_lexemes (t : Term) (gap : List Char) :
    Lexeme.source (t.lexemes gap) = gap ++ t.text := by
  cases t with
  | number n =>
    rw [text_number, Number.text, lexemes, Number.lexemes]
    cases n.sign <;> simp [signText]
  | string quote text => simp [lexemes, stringLexeme, text_string]
  | call c =>
    rw [c.text_eq]
    simp [lexemes, stringLexeme, Quote.char]

theorem Term.mentioned (t : Term) (gap : List Char) :
    Statement.mentions (t.lexemes gap) = t.names := by
  cases t with
  | number n =>
    rw [lexemes, Number.lexemes]
    cases n.sign with
    | none => rfl
    | some sign => cases sign <;> rfl
  | string quote text => rfl
  | call c =>
    have hopen : Statement.mentioned? .lparen = none := rfl
    have hclose : Statement.mentioned? .rparen = none := rfl
    have hstring : ∀ value quote, Statement.mentioned? (.string value quote) = some value :=
      fun _ _ => rfl
    simp only [lexemes, stringLexeme, List.singleton_append, Statement.mentions_cons,
      c.function.mentioned, hopen, hstring, hclose, Statement.mentions_nil, names]

theorem reads_sign (sign : Sign) {c : Char} (hc : c.isDigit = true ∨ c = '.') (text : List Char) :
    Reads [sign.char] sign.token (c :: text) := by
  have hnot : c ≠ '-' ∧ c ≠ '*' := by
    rcases hc with hc | rfl
    · have hmem : c ∉ ['-', '*'] := notMem_of_class hc (by decide)
      simpa using hmem
    · decide
  refine .intro (by cases sign <;> decide) ?_ (by cases sign <;> rfl)
  intro d hd
  cases hd
  exact ⟨fun h => hnot.1 h.2, fun h => hnot.2 h.2⟩

theorem Number.scans (n : Number) {gap rest : List Char} (hgap : ∀ c ∈ gap, isBlank c = true)
    (h : Stops rest) : Scans (n.lexemes gap) rest := by
  have hbody := n.reads_body h
  rw [lexemes]
  cases n.sign with
  | none => exact ⟨hgap, hbody, trivial⟩
  | some sign =>
    refine ⟨hgap, ?_, by simp, hbody, trivial⟩
    obtain ⟨c, tail, htext, hc⟩ := n.exists_body_cons
    simpa [htext] using reads_sign sign hc (tail ++ rest)

theorem isQuote_char (quote : Quote) : Literal.isQuote quote.char = true := by
  cases quote <;> decide

theorem reads_plain (quote : Quote) {text rest : List Char}
    (hplain : ∀ c ∈ text, Literal.isQuote c = false ∧ c ≠ '\\')
    (h : ∀ c ∈ rest.head?, c ≠ quote.char) :
    Reads (quote.char :: (text ++ [quote.char])) (.string (String.ofList text) quote) rest := by
  refine Lexeme.reads_string quote (fun c hc => ⟨?_, (hplain c hc).2⟩) h
  rintro rfl
  exact Bool.false_ne_true ((hplain _ hc).1.symm.trans (isQuote_char quote))

theorem Term.scans (t : Term) {gap rest : List Char} (hgap : ∀ c ∈ gap, isBlank c = true)
    (h : Stops rest) : Scans (t.lexemes gap) rest := by
  cases t with
  | number n => exact n.scans hgap h
  | string quote text hplain =>
    refine ⟨hgap, reads_plain quote hplain ?_, trivial⟩
    exact h.head_ne (by cases quote <;> decide) (by cases quote <;> decide)
  | call c =>
    have hnone : ∀ d ∈ ([] : List Char), isBlank d = true := by simp
    refine ⟨hgap, c.function.reads ?_, hnone, .of_notMem (by decide) (by decide) rfl, hnone,
      reads_plain .single c.plain ?_, hnone, .of_notMem (by decide) (by decide) rfl, trivial⟩
    · rintro d ⟨rfl⟩
      decide
    · rintro d ⟨rfl⟩
      decide

theorem Sign.inner (sign : Sign) : Inner sign.token := by
  cases sign <;> exact ⟨fun _ => Bool.and_false _, rfl, rfl, fun _ => rfl⟩

theorem Term.stays (t : Term) (gap : List Char) : Stays (t.lexemes gap) := by
  have hstring : ∀ text quote, Inner (.string text quote) :=
    fun _ _ => ⟨fun _ => Bool.and_false _, rfl, rfl, fun _ => rfl⟩
  cases t with
  | number n =>
    have hnumber : Inner n.token := inner_number _
    rw [lexemes, Number.lexemes]
    cases n.sign with
    | none => exact stays_of_inner (by simpa using hnumber)
    | some sign => exact stays_of_inner (by simpa using ⟨sign.inner, hnumber⟩)
  | string quote text => exact stays_of_inner (by simpa [lexemes, stringLexeme] using hstring _ _)
  | call c =>
    have hfunction : Stays [⟨gap, c.function.text, c.function.token⟩] :=
      stays_of_inner (by simpa using c.function.inner)
    have hpayload : Stays [stringLexeme [] .single c.payload] :=
      stays_of_inner (by simpa [stringLexeme] using hstring _ _)
    exact hfunction.append (hpayload.brackets [] [])

/-! ### Comparisons with a term -/

def compared (f : Path) (op : Comparator) (t : Term) : List Char :=
  f.text ++ [' '] ++ op.text ++ [' '] ++ t.text

def comparedNames (f : Path) (t : Term) : List String :=
  Statement.distinct (f.names ++ t.names)

def comparedLexemes (gap : List Char) (f : Path) (op : Comparator) (t : Term) : List Lexeme :=
  f.lexemes gap ++ (⟨[' '], op.text, op.token⟩ :: t.lexemes [' '])

section Compared

variable (f : Path) (op : Comparator) (t : Term)

theorem source_compared (gap : List Char) :
    Lexeme.source (comparedLexemes gap f op t) = gap ++ compared f op t := by
  simp [comparedLexemes, compared, Path.source_lexemes, Term.source_lexemes]

theorem scans_compared {gap rest : List Char} (hgap : ∀ c ∈ gap, isBlank c = true)
    (h : Stops rest) : Scans (comparedLexemes gap f op t) rest := by
  have hspace : ∀ c ∈ [' '], isBlank c = true := by decide
  refine Lexeme.scans_append (f.scans hgap ?_) ⟨hspace, op.reads ?_, t.scans hspace h⟩
  · rw [Lexeme.source_cons]
    exact (stops_space _).not_class (fun _ => Lexeme.isBlank_of_isNameChar) (by decide)
  · rw [t.source_lexemes]
    rintro d ⟨rfl⟩
    decide

theorem stays_compared (gap : List Char) : Stays (comparedLexemes gap f op t) := by
  have hop : Stays [⟨[' '], op.text, op.token⟩] := stays_of_inner (by simpa using op.inner)
  exact (stays_of_inner (f.inner gap)).append (hop.append (t.stays [' ']))

theorem condition_compared (gap : List Char) :
    (Statement.Part.leaf (comparedLexemes gap f op t)).condition =
      .leaf (String.ofList (compared f op t)) (comparedNames f t) := by
  have hop : Statement.mentioned? op.token = none := by cases op <;> rfl
  have htext : gap ++ Lexeme.runText (comparedLexemes gap f op t) = gap ++ compared f op t := by
    rw [← source_compared]
    simp [comparedLexemes, Path.lexemes, Lexeme.runText, Lexeme.source]
  rw [Statement.Part.condition, Statement.textOf, List.append_cancel_left htext, comparedLexemes,
    Statement.mentions_append, f.mentioned, Statement.mentions_cons, hop, t.mentioned,
    comparedNames]

end Compared

/-! ### The comparison in a condition list -/

theorem Term.exists_getLast (t : Term) : ∃ front c, t.text = front ++ [c] ∧ isBlank c = false := by
  cases t with
  | number n =>
    obtain ⟨front, c, htext⟩ := (List.eq_nil_or_concat n.text).resolve_left n.solid.ne_nil
    rw [List.concat_eq_append] at htext
    refine ⟨front, c, by rw [text_number, htext], n.solid.not_blank c ?_⟩
    rw [htext]
    exact List.mem_append_right front List.mem_cons_self
  | string quote text plain =>
    exact ⟨quote.char :: text, quote.char, text_string quote text plain, by cases quote <;> decide⟩
  | call c =>
    refine ⟨c.function.text ++ '(' :: '\'' :: (c.payload ++ ['\'']), ')', ?_, by decide⟩
    rw [c.text_eq]
    simp

theorem Term.isBalancedFrom_text (t : Term) : isBalancedFrom 0 none t.text = true := by
  have hquoted : ∀ quote {text : List Char}, Literal.isQuote quote = true →
      (∀ c ∈ text, Literal.isQuote c = false ∧ c ≠ '\\') → ∀ depth rest,
        isBalancedFrom depth none (quote :: (text ++ quote :: rest)) =
          isBalancedFrom depth none rest := by
    intro quote text hquote hplain depth rest
    have hnot : quote ∉ text := by
      intro hmem
      rw [(hplain quote hmem).1] at hquote
      cases hquote
    rw [isBalancedFrom]
    simp only [hquote, if_true]
    exact isBalancedFrom_quoted hnot depth rest
  cases t with
  | number n =>
    rw [text_number]
    exact Condition.isBalancedFrom_of_not_delimiter
      (n.forall_mem (fun _ hc => Condition.isDelimiter_of_class hc (by decide)) (by decide))
  | string quote text plain =>
    rw [text_string, hquoted _ (isQuote_char quote) plain]
    rfl
  | call c =>
    have hfunction := Condition.isBalancedFrom_of_not_delimiter c.function.not_delimiter
    have hpayload := hquoted '\'' (by decide) c.plain 1 [')']
    rw [c.text_eq]
    refine (Condition.isBalancedFrom_append hfunction 0 _).trans ?_
    exact hpayload

theorem namesBalance_comparedNames (f : Path) (t : Term) :
    Condition.namesBalance (comparedNames f t) = balance t.text := by
  have hquoted : ∀ {quote : Char} {text rest : List Char}, Literal.isQuote quote = true →
      balance (quote :: (text ++ quote :: rest)) = balance text + balance rest := by
    intro quote text rest hquote
    have hopen : quote ≠ '(' := by rintro rfl; cases hquote
    have hclose : quote ≠ ')' := by rintro rfl; cases hquote
    simp only [balance, List.count_cons, List.count_append, beq_iff_eq, hopen, hclose, if_false]
    omega
  unfold comparedNames
  cases t with
  | number n =>
    rw [Term.names, List.append_nil, Term.text_number, namesBalance_eq_zero fun name hn =>
      f.bracketBalance_names name (mem_distinct.mp hn)]
    exact (Condition.balance_of_not_delimiter
      (n.forall_mem (fun _ hc => Condition.isDelimiter_of_class hc (by decide)) (by decide))).symm
  | string quote text plain =>
    rw [Term.names, Term.text_string, namesBalance_distinct_concat f.bracketBalance_names,
      bracketBalance_ofList, hquoted (isQuote_char quote)]
    simp
  | call c =>
    have hfunction : ∀ name ∈ f.names ++ [String.ofList c.function.text],
        Condition.bracketBalance name = 0 := by
      intro name hn
      rcases List.mem_append.mp hn with hn | hn
      · exact f.bracketBalance_names name hn
      · rw [List.mem_singleton.mp hn, bracketBalance_ofList,
          Condition.balance_of_not_delimiter c.function.not_delimiter]
    have hnames : f.names ++ (Term.call c).names =
        (f.names ++ [String.ofList c.function.text]) ++ [String.ofList c.payload] := by
      simp [Term.names]
    rw [hnames, namesBalance_distinct_concat hfunction, bracketBalance_ofList, c.text_eq,
      Condition.balance_append, Condition.balance_of_not_delimiter c.function.not_delimiter,
      Condition.balance_open, hquoted (by decide), Condition.balance_close, Condition.balance_nil]
    omega

theorem isLeaf_around (f : Path) (t : Term) (before after : List Char)
    (hbalanced : ∀ text, isBalancedFrom 0 none text = true →
      isBalancedFrom 0 none (before ++ text ++ after) = true)
    (hbalance : balance before + balance after = 0)
    (hafter : ∀ c ∈ after.getLast?, isBlank c = false) :
    Text.trim (f.text ++ (before ++ t.text ++ after)) = f.text ++ (before ++ t.text ++ after) ∧
      f.text ++ (before ++ t.text ++ after) ≠ [] ∧
      (Condition.leaf (String.ofList (f.text ++ (before ++ t.text ++ after)))
        (comparedNames f t)).depth = 0 ∧
      isBalancedFrom 0 none (f.text ++ (before ++ t.text ++ after)) = true ∧
      Condition.isWrapped (f.text ++ (before ++ t.text ++ after)) = false := by
  have htight : Text.Tight (f.text ++ (before ++ t.text ++ after)) := by
    refine ⟨?_, fun c hc => ?_⟩
    · rintro c ⟨rfl⟩
      exact Lexeme.isBlank_of_isNameStart f.first.start
    · obtain ⟨front, d, htext, hd⟩ := t.exists_getLast
      rw [← List.append_assoc, List.getLast?_append, Option.mem_def, Option.or_eq_some_iff] at hc
      rcases hc with hc | ⟨-, hc⟩
      · exact hafter c hc
      · rw [htext, ← List.append_assoc, ← List.append_assoc, List.getLast?_concat] at hc
        cases hc
        exact hd
  refine ⟨htight.trim_eq, List.cons_ne_nil _ _, ?_, ?_, ?_⟩
  · rw [Condition.depth_leaf, namesBalance_comparedNames, Condition.balance_append,
      Condition.balance_append, Condition.balance_append,
      Condition.balance_of_not_delimiter f.not_delimiter]
    omega
  · have hpath := Condition.isBalancedFrom_of_not_delimiter f.not_delimiter
    exact (Condition.isBalancedFrom_append hpath 0 _).trans (hbalanced _ t.isBalancedFrom_text)
  · have hne : f.first.first ≠ '(' := by
      intro h
      have hstart := f.first.start
      rw [h] at hstart
      exact absurd hstart (by decide)
    have hhead : (f.text ++ (before ++ t.text ++ after)).head? = some f.first.first := rfl
    rw [Condition.isWrapped, hhead]
    simp [hne]

/-! ### The query of one comparison -/

def found (table : Name) : Except InlineError Filter → Except QueryError (Option Query)
  | .ok filter => .ok (some (.find ⟨String.ofList table.text, filter, none, none, 0, 0, none⟩))
  | .error e => .error (.condition (.inline e))

theorem readConditions_of_stays {ls : List Lexeme} (hne : ls ≠ []) (h : Stays ls) :
    Statement.readConditions (ls ++ [ending]) = ([(Statement.Part.leaf ls).condition], [ending]) := by
  have hend : Statement.splitConditions 0 false [ending] = ([], [ending]) := by
    rw [Statement.splitConditions]
    exact if_pos rfl
  rw [Statement.readConditions, h, hend, foldr_consLeaf hne startsJoined_nil]
  rfl

theorem ofSql_bare {text : List Char} {names : List String} (htrim : Text.trim text = text)
    (hdepth : (Condition.leaf (String.ofList text) names).depth = 0)
    (hwrapped : Condition.isWrapped text = false)
    (h : ReadsAs text [.leaf (String.ofList text) names]) (registry : Registry) (table : Name) :
    Query.ofSql registry (rowsWhere table text) =
      found table (Comparison.convert registry names text) := by
  have hreduce : Condition.reduce registry [.leaf (String.ofList text) names] =
      (Comparison.convert registry names text).mapError .inline := by
    rw [Condition.reduce, Condition.reduceFrom_leaf _ _ _ hdepth, String.toList_ofList, htrim,
      Condition.stripWrapping_of_not_isWrapped hwrapped]
    cases Comparison.convert registry names text with
    | error e => rfl
    | ok f => exact (Condition.reduceFrom_nil _ _).trans (by rw [Filter.nil_and]; rfl)
  rw [h.ofSql, Query.reduceConditions, hreduce]
  cases Comparison.convert registry names text <;> rfl

theorem ofSql_leaf {text : List Char} {names : List String}
    (hleaf : Text.trim text = text ∧ text ≠ [] ∧
      (Condition.leaf (String.ofList text) names).depth = 0 ∧
      isBalancedFrom 0 none text = true ∧ Condition.isWrapped text = false)
    (h : ReadsAs text [.leaf (String.ofList text) names]) (registry : Registry) (table : Name) :
    Query.ofSql registry (rowsWhere table text) =
      found table (Comparison.convert registry names text) :=
  ofSql_bare hleaf.1 hleaf.2.2.1 hleaf.2.2.2.2 h registry table

theorem isLeaf_compared (f : Path) (op : Comparator) (t : Term) :
    Text.trim (compared f op t) = compared f op t ∧ compared f op t ≠ [] ∧
      (Condition.leaf (String.ofList (compared f op t)) (comparedNames f t)).depth = 0 ∧
      isBalancedFrom 0 none (compared f op t) = true ∧
      Condition.isWrapped (compared f op t) = false := by
  have htext : compared f op t = f.text ++ (([' '] ++ op.text ++ [' ']) ++ t.text ++ []) := by
    simp [compared]
  have hop : ∀ c ∈ [' '] ++ op.text ++ [' '], Condition.isDelimiter c = false := by
    intro c hc
    simp only [List.mem_append, List.mem_singleton] at hc
    rcases hc with (rfl | hc) | rfl
    · decide
    · exact op.not_delimiter c hc
    · decide
  have hleaf := isLeaf_around f t ([' '] ++ op.text ++ [' ']) []
    (fun text h => by
      rw [List.append_nil]
      exact (Condition.isBalancedFrom_append
        (Condition.isBalancedFrom_of_not_delimiter hop) 0 _).trans h)
    (by rw [Condition.balance_of_not_delimiter hop]; rfl) (by simp)
  rwa [← htext] at hleaf

theorem ofSql_compared (registry : Registry) (table : Name) (f : Path) (op : Comparator)
    (t : Term) :
    Query.ofSql registry (rowsWhere table (compared f op t)) =
      found table (Comparison.convert registry (comparedNames f t) (compared f op t)) := by
  refine ofSql_leaf (isLeaf_compared f op t) ?_ registry table
  have hspace : ∀ c ∈ [' '], isBlank c = true := by decide
  refine ⟨comparedLexemes [' '] f op t, source_compared f op t [' '],
    scans_compared f op t hspace (by simp [Stops]), ?_⟩
  have hne : comparedLexemes [' '] f op t ≠ [] := List.cons_ne_nil _ _
  rw [readConditions_of_stays hne (stays_compared f op t [' ']), condition_compared]

end DocQuery.Where
