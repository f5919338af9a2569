import DocQuery.Proofs.Respacing.Lists
import DocQuery.Proofs.Where.Coercion

/-! Lists of terms after `IN` and `NOT IN`: how they are read, and how they are taken apart at their
commas once their strings are masked. -/

namespace DocQuery.Where

open Comparison (listItem listPredicate spaceComparators)
open Lexeme (Scans Stops)
open Mask (NoQuote Segment Hides Settled textOf textOf_append textOf_cons numbered restore)
open Text (squeeze words fields)

def comma : List Char :=
  [',', ' ']

def listWords (negated : Bool) : List Char :=
  if negated then " NOT IN ".toList else " IN ".toList

def listed (negated : Bool) (f : Path) (ts : List Term) : List Char :=
  f.text ++ listWords negated ++ '(' :: (comma.intercalate (ts.map Term.text) ++ [')'])

def listedNames (f : Path) (ts : List Term) : List String :=
  Statement.distinct (f.names ++ ts.flatMap Term.names)

def listSegments : List Term → List Segment
  | [] => []
  | t :: ts => t.segments ++ ts.flatMap fun u => .outside comma :: u.segments

theorem intercalate_cons (sep first : List Char) (rest : List (List Char)) :
    sep.intercalate (first :: rest) = first ++ rest.flatMap (sep ++ ·) := by
  induction rest generalizing first with
  | nil => simp
  | cons next rest ih => simp [List.intercalate_cons_cons, ih next]

theorem textOf_listSegments (literals : List (List Char)) (ts : List Term) :
    textOf ((listSegments ts).map (Segment.masked literals)) =
      comma.intercalate (ts.map (Term.masked literals)) := by
  cases ts with
  | nil => rfl
  | cons t ts =>
    rw [listSegments, List.map_cons, intercalate_cons, List.map_append, textOf_append]
    congr 1
    induction ts with
    | nil => rfl
    | cons u ts ih =>
      rw [List.flatMap_cons, List.map_append, List.map_cons, List.cons_append, textOf_cons,
        textOf_append, ih, List.map_cons, List.flatMap_cons, List.append_assoc]
      rfl

theorem textOf_listSegments_eq (ts : List Term) :
    textOf (listSegments ts) = comma.intercalate (ts.map Term.text) := by
  have hmasked := textOf_listSegments [] ts
  have hterm : Term.masked [] = Term.text := by
    funext t
    rw [Term.masked, Mask.map_masked_nil, Term.text]
  rwa [Mask.map_masked_nil, hterm] at hmasked

/-! ### Reading -/

def listKeywords (negated : Bool) : List Lexeme :=
  if negated then [keyword "NOT", keyword "IN"] else [keyword "IN"]

def listLexemes : List Term → List Lexeme
  | [] => []
  | t :: ts => t.lexemes [] ++ ts.flatMap fun u => ⟨[], [','], .comma⟩ :: u.lexemes [' ']

def listedLexemes (gap : List Char) (negated : Bool) (f : Path) (ts : List Term) : List Lexeme :=
  f.lexemes gap ++ (listKeywords negated ++
    (⟨[' '], ['('], .lparen⟩ :: (listLexemes ts ++ [⟨[], [')'], .rparen⟩])))

theorem source_listLexemes (ts : List Term) :
    Lexeme.source (listLexemes ts) = comma.intercalate (ts.map Term.text) := by
  cases ts with
  | nil => rfl
  | cons t ts =>
    rw [listLexemes, List.map_cons, intercalate_cons, Lexeme.source_append, t.source_lexemes,
      List.nil_append]
    congr 1
    induction ts with
    | nil => rfl
    | cons u ts ih =>
      simp only [List.flatMap_cons, List.cons_append, Lexeme.source_cons, Lexeme.source_append, ih,
        List.map_cons, u.source_lexemes, comma, List.nil_append]

theorem source_listed (gap : List Char) (negated : Bool) (f : Path) (ts : List Term) :
    Lexeme.source (listedLexemes gap negated f ts) = gap ++ listed negated f ts := by
  rw [listedLexemes, listed, Lexeme.source_append, Lexeme.source_append, f.source_lexemes]
  simp only [Lexeme.source_cons, Lexeme.source_append, source_listLexemes]
  cases negated <;> simp [listKeywords, listWords, keyword]

theorem stops_comma (text : List Char) : Stops (',' :: text) := by
  rintro c ⟨rfl⟩
  exact .inr (by decide)

theorem stops_close (text : List Char) : Stops (')' :: text) := by
  rintro c ⟨rfl⟩
  exact .inr (by decide)

theorem scans_listLexemes (ts : List Term) {rest : List Char} (h : Stops rest) :
    Scans (listLexemes ts) rest := by
  have hspace : ∀ c ∈ [' '], isBlank c = true := by decide
  have hmore : ∀ us : List Term,
      Scans (us.flatMap fun u => ⟨[], [','], .comma⟩ :: u.lexemes [' ']) rest ∧
      Stops (Lexeme.source (us.flatMap fun u => ⟨[], [','], .comma⟩ :: u.lexemes [' ']) ++ rest) := by
    intro us
    induction us with
    | nil => exact ⟨trivial, h⟩
    | cons u us ih =>
      rw [List.flatMap_cons, List.cons_append]
      refine ⟨⟨by simp, .of_notMem (by decide) (by decide) rfl, ?_⟩, stops_comma _⟩
      exact Lexeme.scans_append (u.scans hspace ih.2) ih.1
  cases ts with
  | nil => trivial
  | cons t ts => exact Lexeme.scans_append (t.scans (by simp) (hmore ts).2) (hmore ts).1

theorem scans_listed {gap rest : List Char} (hgap : ∀ c ∈ gap, isBlank c = true) (negated : Bool)
    (f : Path) (ts : List Term) : Scans (listedLexemes gap negated f ts) rest := by
  have hspace : ∀ c ∈ [' '], isBlank c = true := by decide
  have hbrackets : Scans (⟨[' '], ['('], .lparen⟩ :: (listLexemes ts ++ [⟨[], [')'], .rparen⟩]))
      rest := by
    refine ⟨hspace, .of_notMem (by decide) (by decide) rfl, ?_⟩
    refine Lexeme.scans_append (scans_listLexemes ts (stops_close rest)) ⟨by simp, ?_, trivial⟩
    exact .of_notMem (by decide) (by decide) rfl
  have hkeywords : ∀ tail, Scans (listKeywords negated) (' ' :: tail) := by
    intro tail
    cases negated with
    | false => exact ⟨hspace, reads_keyword (by decide) (stops_space _), trivial⟩
    | true =>
      exact ⟨hspace, reads_keyword (by decide) (stops_space _), hspace,
        reads_keyword (by decide) (stops_space _), trivial⟩
  refine Lexeme.scans_append (f.scans hgap ?_) (Lexeme.scans_append (hkeywords _) hbrackets)
  have hnext : ∀ tail, Stops (Lexeme.source (listKeywords negated) ++ tail) := by
    intro tail
    cases negated <;> exact stops_space _
  rw [Lexeme.source_append, List.append_assoc]
  exact (hnext _).not_class (fun _ => Lexeme.isBlank_of_isNameChar) (by decide)

theorem stays_listed (gap : List Char) (negated : Bool) (f : Path) (ts : List Term) :
    Stays (listedLexemes gap negated f ts) := by
  have hcomma : Stays [⟨[], [','], .comma⟩] :=
    stays_of_inner (by simpa using ⟨fun _ => Bool.and_false _, rfl, rfl, fun _ => rfl⟩)
  have hmore : ∀ us : List Term,
      Stays (us.flatMap fun u => ⟨[], [','], .comma⟩ :: u.lexemes [' ']) := by
    intro us
    induction us with
    | nil => exact stays_of_inner (by simp)
    | cons u us ih => exact (hcomma.append (u.stays [' '])).append ih
  have hlist : Stays (listLexemes ts) := by
    cases ts with
    | nil => exact stays_of_inner (by simp [listLexemes])
    | cons t ts => exact (t.stays []).append (hmore ts)
  have hword : ∀ word, (Token.word word).isAnyKeyword Token.clauseWords = false →
      (Token.word word).connective? = none → (Token.word word).isKeyword "BETWEEN" = false →
      Inner (Token.word word) := by
    intro word hclause hconnective hbetween
    refine ⟨fun depth => ?_, hconnective, hbetween, fun _ => rfl⟩
    show (depth == 0 && (Token.word word).isAnyKeyword Token.clauseWords) = false
    rw [hclause, Bool.and_false]
  have hkeywords : Stays (listKeywords negated) := by
    have hin : Inner (keyword "IN").token := hword "IN" (by decide) (by decide) (by decide)
    have hnot : Inner (keyword "NOT").token := hword "NOT" (by decide) (by decide) (by decide)
    cases negated with
    | false => exact stays_of_inner (by simpa [listKeywords] using hin)
    | true => exact stays_of_inner (by simpa [listKeywords] using ⟨hnot, hin⟩)
  exact (stays_of_inner (f.inner gap)).append (hkeywords.append (hlist.brackets [' '] []))

theorem mentioned_listLexemes (ts : List Term) :
    Statement.mentions (listLexemes ts) = ts.flatMap Term.names := by
  have hcomma : Statement.mentioned? .comma = none := rfl
  cases ts with
  | nil => rfl
  | cons t ts =>
    rw [listLexemes, Statement.mentions_append, t.mentioned, List.flatMap_cons]
    congr 1
    induction ts with
    | nil => rfl
    | cons u ts ih =>
      simp only [List.flatMap_cons, List.cons_append, Statement.mentions_cons, hcomma,
        Statement.mentions_append, u.mentioned, ih]

theorem condition_listed (gap : List Char) (negated : Bool) (f : Path) (ts : List Term) :
    (Statement.Part.leaf (listedLexemes gap negated f ts)).condition =
      .leaf (String.ofList (listed negated f ts)) (listedNames f ts) := by
  have hopen : Statement.mentioned? .lparen = none := rfl
  have hclose : Statement.mentioned? .rparen = none := rfl
  have hkeywords : Statement.mentions (listKeywords negated) = [] := by
    cases negated <;> rfl
  have htext : gap ++ Lexeme.runText (listedLexemes gap negated f ts) =
      gap ++ listed negated f ts := by
    rw [← source_listed]
    simp [listedLexemes, Path.lexemes, Lexeme.runText, Lexeme.source]
  rw [Statement.Part.condition, Statement.textOf, List.append_cancel_left htext, listedLexemes]
  simp only [Statement.mentions_append, f.mentioned, hkeywords, Statement.mentions_cons, hopen,
    mentioned_listLexemes, hclose, Statement.mentions_nil, List.append_nil, List.nil_append,
    listedNames]

theorem readsAs_listed (negated : Bool) (f : Path) (ts : List Term) :
    ReadsAs (listed negated f ts)
      [.leaf (String.ofList (listed negated f ts)) (listedNames f ts)] := by
  have hspace : ∀ c ∈ [' '], isBlank c = true := by decide
  have hne : listedLexemes [' '] negated f ts ≠ [] := List.cons_ne_nil _ _
  refine ⟨listedLexemes [' '] negated f ts, source_listed [' '] negated f ts,
    scans_listed hspace negated f ts, ?_⟩
  rw [readConditions_of_stays hne (stays_listed [' '] negated f ts), condition_listed]

/-! ### Converting -/

theorem fields_spaceComparators (text : List Char) :
    fields ',' (spaceComparators text) = (fields ',' text).map spaceComparators := by
  induction text using Text.splitOnP_induction (· == ',') with
  | free text hfree =>
    have hspaced : ∀ c ∈ spaceComparators text, (c == ',') = false := by
      intro c hc
      rcases Comparison.mem_of_mem_spaceComparators hc with hc | rfl
      · exact hfree c hc
      · decide
    rw [Text.fields_of_forall hspaced, Text.fields_of_forall hfree, List.map_singleton]
  | cut front sep rest hfree hsep ih =>
    obtain rfl : sep = ',' := eq_of_beq hsep
    have hspaced : ∀ c ∈ spaceComparators front, (c == ',') = false := by
      intro c hc
      rcases Comparison.mem_of_mem_spaceComparators hc with hc | rfl
      · exact hfree c hc
      · decide
    rw [Comparison.spaceComparators_append_cons (by decide), Text.fields_append_cons hspaced, ih,
      Text.fields_append_cons hfree, List.map_cons]

/-- The value of an item between commas. -/
def itemValue (registry : Registry) (mask : Mask) (item : List Char) : Except InlineError Value :=
  listItem registry mask (squeeze (spaceComparators item))

/-- Once its strings are masked, a list is taken apart at its commas. -/
theorem convert_listed (registry : Registry) {names : List String} {mask : Mask} {negated : Bool}
    {f : Path} {ts : List Term} {body : List Char} (hf : mask.restore f.text = f.text)
    (hprotect : Mask.protect names (listed negated f ts) =
      (mask, f.text ++ listWords negated ++ '(' :: (body ++ [')']))) :
    Comparison.convert registry names (listed negated f ts) =
      ((fields ',' body).mapM (itemValue registry mask)).map fun items =>
        .ofField (String.ofList f.text) (listPredicate negated items) := by
  have hwords : words (spaceComparators (f.text ++ listWords negated)) =
      if negated then [f.text, "NOT".toList, "IN".toList] else [f.text, "IN".toList] := by
    have hspaced : spaceComparators (listWords negated) = listWords negated := by
      cases negated <;> rfl
    rw [spaceComparators_append f.not_comparatorChar, hspaced]
    cases negated with
    | false => exact Text.words_append f.solid (by simp [listWords, show isBlank ' ' = true by decide])
    | true => exact Text.words_append f.solid (by simp [listWords, show isBlank ' ' = true by decide])
  have hlast : ∀ c ∈ (f.text ++ listWords negated).getLast?, isBlank c = true := by
    intro c hc
    have hspace : (f.text ++ listWords negated).getLast? = some ' ' := by
      cases negated <;> rw [List.getLast?_append] <;> rfl
    rw [hspace] at hc
    cases hc
    decide
  have hbody : spaceComparators ('(' :: (body ++ [')'])) =
      '(' :: (spaceComparators body ++ [')']) := by
    rw [spaceComparators_cons (by decide), Comparison.spaceComparators_append_cons (by decide)]
    rfl
  have hfield : Comparison.isOperand mask f.text = true := by
    rw [Comparison.isOperand, hf, f.not_isReversedOperand]
    rfl
  have hitems : Comparison.listItems registry mask
      (Text.unwords (words ('(' :: (spaceComparators body ++ [')'])))) =
        (fields ',' body).mapM (itemValue registry mask) := by
    have hsqueeze := Comparison.listItems_squeeze registry mask (spaceComparators body)
    rw [fields_spaceComparators, List.map_map, List.mapM_map] at hsqueeze
    exact hsqueeze
  -- Both forms of the operator come to the same once its negation is split off.
  have hresult : ∀ {op : List Char} {rest : List (List Char)},
      Comparison.splitNegation (Text.lower op) rest =
        (negated, "in".toList, words ('(' :: (spaceComparators body ++ [')']))) →
      Comparison.ofWords registry names mask (f.text :: op :: rest) =
        ((fields ',' body).mapM (itemValue registry mask)).map fun items =>
          .ofField (String.ofList f.text) (listPredicate negated items) := by
    intro op rest h
    rw [Comparison.ofWords_isIn registry names mask hfield (by decide) h, hf, f.unquoted_text, hitems]
  rw [Comparison.convert, hprotect]
  simp only [Comparison.words_spaceComparators_append hlast, hwords, hbody]
  cases negated with
  | false =>
    refine hresult ?_
    cases words ('(' :: (spaceComparators body ++ [')'])) <;> rfl
  | true => exact hresult rfl

/-! ### Items that are terms -/

theorem itemValue_word {word : List Char} (hword : Text.Solid word)
    (hnot : ∀ c ∈ word, isComparatorChar c = false) {blanks : List Char}
    (hblanks : ∀ c ∈ blanks, isBlank c = true) (registry : Registry) (mask : Mask) :
    itemValue registry mask (blanks ++ word) = listItem registry mask word := by
  have hall : ∀ c ∈ blanks ++ word, isComparatorChar c = false := by
    intro c hc
    rcases List.mem_append.mp hc with hc | hc
    · exact isComparatorChar_of_class (hblanks c hc) (by decide)
    · exact hnot c hc
  rw [itemValue, spaceComparators_eq_self hall, squeeze, Text.words_blanks_append hblanks,
    Text.words_solid hword]
  simp [Text.unwords]

section Items

variable {literals : List (List Char)} {ts : List Term}

theorem not_comma_masked {t : Term} (h : t.HiddenBy literals) {blanks : List Char}
    (hblanks : ∀ c ∈ blanks, isBlank c = true) :
    ∀ c ∈ blanks ++ t.masked literals, (c == ',') = false := by
  intro c hc
  rw [beq_eq_false_iff_ne]
  rcases List.mem_append.mp hc with hc | hc
  · rintro rfl
    exact absurd (hblanks _ hc) (by decide)
  · refine Term.forall_mem_masked (P := (· ≠ ',')) h ?_ ?_ ?_ (by decide) c hc
    all_goals
      rintro d hd rfl
      exact absurd hd (by decide)

theorem mapM_fields_joined (hne : ts ≠ []) (h : ∀ t ∈ ts, t.HiddenBy literals)
    (registry : Registry) (mask : Mask) :
    (fields ',' (comma.intercalate (ts.map (Term.masked literals)))).mapM
        (itemValue registry mask) =
      ts.mapM fun t => listItem registry mask (t.masked literals) := by
  have hterm : ∀ t ∈ ts, ∀ blanks : List Char, (∀ c ∈ blanks, isBlank c = true) →
      itemValue registry mask (blanks ++ t.masked literals) =
        listItem registry mask (t.masked literals) := fun t ht blanks hblanks =>
    itemValue_word (Term.solid_masked (h t ht)) (Term.not_comparatorChar_masked (h t ht)) hblanks
      registry mask
  have hnot : ∀ t ∈ ts, ∀ blanks : List Char, (∀ c ∈ blanks, isBlank c = true) →
      ∀ c ∈ blanks ++ t.masked literals, (c == ',') = false := fun t ht blanks hblanks =>
    not_comma_masked (h t ht) hblanks
  -- Items after the first one start with a blank.
  have hrun : ∀ blanks : List Char, (∀ c ∈ blanks, isBlank c = true) →
      (fields ',' (blanks ++ comma.intercalate (ts.map (Term.masked literals)))).mapM
          (itemValue registry mask) =
        ts.mapM fun t => listItem registry mask (t.masked literals) := by
    clear h
    induction ts with
    | nil => exact absurd rfl hne
    | cons t ts ih =>
      intro blanks hblanks
      have hfirst := hterm t List.mem_cons_self blanks hblanks
      have hclean := hnot t List.mem_cons_self blanks hblanks
      cases ts with
      | nil =>
        rw [List.map_singleton, List.intercalate_singleton, Text.fields_of_forall hclean]
        simp only [List.mapM_cons, List.mapM_nil, hfirst]
      | cons u ts =>
        have hrest := ih (List.cons_ne_nil _ _) (fun s hs => hterm s (List.mem_cons_of_mem t hs))
          (fun s hs => hnot s (List.mem_cons_of_mem t hs)) [' '] (by decide)
        have hsplit : blanks ++ comma.intercalate ((t :: u :: ts).map (Term.masked literals)) =
            (blanks ++ t.masked literals) ++
              ',' :: ([' '] ++ comma.intercalate ((u :: ts).map (Term.masked literals))) := by
          simp [List.intercalate_cons_cons, comma]
        rw [hsplit, Text.fields_append_cons hclean, List.mapM_cons, List.mapM_cons, hfirst, hrest]
  exact hrun [] (by simp)

theorem listItem_string {quote : Quote} {text : List Char}
    {plain : ∀ c ∈ text, Literal.isQuote c = false ∧ c ≠ '\\'}
    (h : (Term.string quote text plain).HiddenBy literals) (hsettled : Settled literals)
    (registry : Registry) :
    listItem registry (numbered literals) ((Term.string quote text plain).masked literals) =
      .ok (.string (String.ofList text)) := by
  have hitem : ((numbered literals).restoreCollecting
      (Text.trim ((Term.string quote text plain).masked literals))).1 =
        quote.char :: (text ++ [quote.char]) := by
    rw [(Term.solid_masked h).tight.trim_eq, Mask.fst_restoreCollecting,
      Term.restore_masked h hsettled, Term.text_string]
  have hscalar := Literal.scalar?_quoted (isQuote_char quote) text
  rw [listItem]
  simp only [hitem, hscalar]
  rfl

end Items

end DocQuery.Where
