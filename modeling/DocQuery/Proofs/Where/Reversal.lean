import DocQuery.Proofs.Where.Constant

/-! Comparisons with the constant in front of the field. They have the filter of the comparison that
is written the other way round, with the operator as it is seen from the other side. -/

namespace DocQuery.Where

open Mask (NoQuote)

/-! ### Operators -/

inductive Operator where
  | comparator (c : Comparator)
  | nullSafeEq
  | like

def Comparator.opposite : Comparator → Comparator
  | lt => gt
  | ltEq => gtEq
  | gt => lt
  | gtEq => ltEq
  | c => c

namespace Operator

def text : Operator → List Char
  | comparator c => c.text
  | nullSafeEq => "<=>".toList
  | like => "LIKE".toList

def token : Operator → Token
  | comparator c => c.token
  | nullSafeEq => .nullSafeEq
  | like => .word "LIKE"

def opposite : Operator → Operator
  | comparator c => comparator c.opposite
  | op => op

def comparison : Operator → Comparison
  | comparator c => c.comparison
  | nullSafeEq => .eq
  | like => .like

def predicate (value : Value) : Operator → Predicate
  | comparator c => c.predicate value
  | nullSafeEq => .equals value
  | like => .pattern value.searchText

theorem comparison_opposite (op : Operator) :
    op.opposite.comparison = op.comparison.reversed := by
  cases op with
  | comparator c => cases c <;> rfl
  | nullSafeEq => rfl
  | like => rfl

theorem valuePredicate_comparison (op : Operator) (value : Value) :
    op.comparison.valuePredicate false value = op.predicate value := by
  cases op with
  | comparator c => cases c <;> rfl
  | nullSafeEq => rfl
  | like => rfl

theorem solid (op : Operator) : Text.Solid op.text := by
  cases op with
  | comparator c => exact c.solid
  | nullSafeEq => exact ⟨by decide, by decide⟩
  | like => exact ⟨by decide, by decide⟩

theorem noQuote (op : Operator) : NoQuote op.text := by
  cases op with
  | comparator c => exact noQuote_of_not_delimiter c.not_delimiter
  | nullSafeEq => exact show NoQuote "<=>".toList by decide
  | like => exact show NoQuote "LIKE".toList by decide

theorem phrase (op : Operator) : Phrase [' '] op.text [⟨[' '], op.text, op.token⟩] := by
  have hspace : ∀ c ∈ [' '], isBlank c = true := by decide
  refine ⟨⟨_, _, rfl, rfl⟩, by simp, fun {rest} hrest => ⟨hspace, ?_, trivial⟩, ?_⟩
  · rw [Lexeme.source_nil, List.nil_append]
    cases op with
    | comparator c => exact c.reads hrest
    | nullSafeEq => exact .of_notMem (by decide) (by decide) rfl
    | like => exact reads_keyword (by decide) fun c hc => .inl (hrest c hc)
  · apply stays_of_inner
    intro l hl
    rw [List.mem_singleton.mp hl]
    cases op with
    | comparator c => exact c.inner
    | nullSafeEq => exact ⟨fun _ => Bool.and_false _, rfl, rfl, fun _ => rfl⟩
    | like => exact inner_word (by decide)

theorem mentioned (op : Operator) : Statement.mentioned? op.token = none := by
  cases op with
  | comparator c => cases c <;> rfl
  | nullSafeEq => rfl
  | like => decide

theorem words_text (op : Operator) (rest : List Char) :
    Text.words (Comparison.spaceComparators (op.text ++ ' ' :: rest)) =
      op.text :: Text.words (Comparison.spaceComparators rest) := by
  have hspace : isBlank ' ' = true := by decide
  have hhead : ∀ text : List Char, ∀ c ∈ (' ' :: text).head?, isBlank c = true := by
    rintro text c ⟨rfl⟩
    decide
  have hcons : Comparison.spaceComparators (' ' :: rest) = ' ' :: Comparison.spaceComparators rest :=
    spaceComparators_cons (by decide) rest
  obtain ⟨before, after, hspaced, hbefore, hafter⟩ : ∃ before after : List Char,
      Comparison.spaceComparators (op.text ++ ' ' :: rest) =
        before ++ (op.text ++ ' ' :: (after ++ Comparison.spaceComparators rest)) ∧
      (∀ c ∈ before, isBlank c = true) ∧ ∀ c ∈ after, isBlank c = true := by
    cases op with
    | comparator c =>
      refine ⟨[' '], [' '], ?_, by decide, by decide⟩
      exact (c.spaceComparators_text (hhead rest)).trans (by rw [hcons]; rfl)
    | nullSafeEq =>
      refine ⟨[' '], [' '], ?_, by decide, by decide⟩
      show " <=> ".toList ++ Comparison.spaceComparators (' ' :: rest) = _
      rw [hcons]
      rfl
    | like =>
      refine ⟨[], [], ?_, by simp, by simp⟩
      have hnot : ∀ c ∈ "LIKE".toList, isComparatorChar c = false := by decide
      exact (spaceComparators_append hnot _).trans (by rw [hcons]; rfl)
  rw [hspaced, Text.words_blanks_append hbefore, Text.words_append op.solid (hhead _),
    Text.words_cons_blank hspace, Text.words_blanks_append hafter]

theorem splitNegation_text (op : Operator) (rest : List (List Char)) :
    Comparison.splitNegation (Text.lower op.text) rest = (false, Text.lower op.text, rest) := by
  cases op with
  | comparator c =>
    have hlower : Text.lower c.text = c.text := by
      cases c with
      | notEq spelling => cases spelling <;> rfl
      | _ => rfl
    exact (c.splitNegation_text rest).trans (by rw [text, hlower])
  | nullSafeEq => cases rest <;> rfl
  | like => cases rest <;> rfl

theorem ofWord?_text (op : Operator) :
    Comparison.ofWord? (Text.lower op.text) = some op.comparison := by
  cases op with
  | comparator c =>
    cases c with
    | notEq spelling => cases spelling <;> rfl
    | _ => rfl
  | nullSafeEq => rfl
  | like => rfl

end Operator

/-! ### Conversion -/

def written (left : List Char) (op : Operator) (right : List Char) : List Char :=
  left ++ ' ' :: (op.text ++ ' ' :: right)

theorem words_written {left right : List Char} (hleft : Wordlike left) (hright : Wordlike right)
    (op : Operator) : Text.words (Comparison.spaceComparators (written left op right)) =
      [left, op.text, right] := by
  have hnot : ∀ {text : List Char}, Wordlike text → ∀ c ∈ text, isComparatorChar c = false :=
    fun h c hc => (h.forall_mem c hc).2
  rw [written, spaceComparators_append (hnot hleft), spaceComparators_cons (by decide),
    Text.words_append hleft.solid (by simp [show isBlank ' ' = true by decide]),
    Text.words_cons_blank (by decide), op.words_text, spaceComparators_eq_self (hnot hright),
    Text.words_solid hright.solid]

theorem Path.wordlike (f : Path) : Wordlike f.text :=
  ⟨f.solid.ne_nil, fun c hc => ⟨f.solid.not_blank c hc, f.not_comparatorChar c hc⟩⟩

section OfWords

variable (registry : Registry) (names : List String) {mask : Mask} {f : Path} (op : Operator)
  (v : Constant) {left right : List Char}

theorem ofWords_forward (hleft : mask.restore left = f.text) (hright : mask.restore right = v.text) :
    Comparison.ofWords registry names mask [left, op.text, right] =
      .ok (.ofField (String.ofList f.text) (op.predicate v.value)) := by
  have hword : Text.unwords [right] = right := by simp [Text.unwords]
  rw [Comparison.ofWords]
  simp only [op.splitNegation_text, op.ofWord?_text, hword, hleft, hright,
    f.not_isReversedOperand, Bool.false_eq_true, and_false, if_false, f.unquoted_text,
    v.coerce_text]
  rw [← op.valuePredicate_comparison]
  cases op with
  | comparator c => cases c <;> rfl
  | nullSafeEq => rfl
  | like => rfl

theorem ofWords_backward (hleft : mask.restore left = v.text) (hright : mask.restore right = f.text) :
    Comparison.ofWords registry names mask [left, op.text, right] =
      .ok (.ofField (String.ofList f.text) (op.opposite.predicate v.value)) := by
  have hword : Text.unwords [right] = right := by simp [Text.unwords]
  have hbetween : op.comparison ≠ .between := by
    intro h
    cases op with
    | comparator c => cases c <;> cases h
    | nullSafeEq => cases h
    | like => cases h
  rw [Comparison.ofWords]
  simp only [op.splitNegation_text, op.ofWord?_text, hword, hleft, hright, hbetween,
    v.isReversedOperand, ne_eq, not_false_eq_true, and_self, if_true, f.unquoted_text,
    v.coerce_text]
  rw [← op.opposite.valuePredicate_comparison, op.comparison_opposite]
  cases op with
  | comparator c => cases c <;> rfl
  | nullSafeEq => rfl
  | like => rfl

end OfWords

section Convert

variable (registry : Registry) (f : Path) (op : Operator) (v : Constant) {names : List String}

theorem convert_forward (h : v.NamedBy names) :
    Comparison.convert registry names (written f.text op v.text) =
      .ok (.ofField (String.ofList f.text) (op.predicate v.value)) := by
  have hspace : NoQuote [' '] := by decide
  have hfront : NoQuote (f.text ++ ' ' :: (op.text ++ [' '])) :=
    f.noQuote.append (hspace.append (op.noQuote.append hspace))
  obtain ⟨mask, word, hprotect, hword, hrestore, hpath⟩ :=
    v.exists_protect hfront (show NoQuote [] by simp [NoQuote]) h
  have hwritten : ∀ text, f.text ++ ' ' :: (op.text ++ [' ']) ++ text ++ [] =
      written f.text op text := by
    intro text
    simp [written]
  rw [hwritten, hwritten] at hprotect
  rw [Comparison.convert, hprotect]
  dsimp only
  rw [words_written f.wordlike hword]
  exact ofWords_forward registry names op v (hpath f) hrestore

theorem convert_backward (h : v.NamedBy names) :
    Comparison.convert registry names (written v.text op f.text) =
      .ok (.ofField (String.ofList f.text) (op.opposite.predicate v.value)) := by
  have hspace : NoQuote [' '] := by decide
  have hback : NoQuote (' ' :: (op.text ++ ' ' :: f.text)) :=
    hspace.append (op.noQuote.append (hspace.append f.noQuote))
  obtain ⟨mask, word, hprotect, hword, hrestore, hpath⟩ :=
    v.exists_protect (show NoQuote [] by simp [NoQuote]) hback h
  rw [List.nil_append, List.nil_append] at hprotect
  rw [Comparison.convert, written, hprotect]
  dsimp only
  rw [← written, words_written hword f.wordlike]
  exact ofWords_backward registry names op v hrestore (hpath f)

end Convert

/-! ### Reading -/

/-- The text is read as one comparison with these names. -/
def Mentions (text : List Char) (names : List String) : Prop :=
  ReadsAs text [.leaf (String.ofList text) names]

theorem Mentions.unique {text : List Char} {names others : List String} (h : Mentions text names)
    (h' : Mentions text others) : names = others := by
  have heq := ReadsAs.unique h h'
  simpa using heq

section Reading

variable {f : Path} {op : Operator} {v : Constant} {names : List String}

theorem exists_mentions_backward (hv : (Literal.scalar? v.text).isSome = true) :
    ∃ names, Mentions (written v.text op f.text) names := by
  obtain ⟨ls, hls⟩ := v.exists_phrase hv
  exact ⟨_, (hls.append (op.phrase.append f.phrase)).readsAs⟩

theorem exists_mentions_forward (hv : (Literal.scalar? v.text).isSome = true) :
    ∃ names, Mentions (written f.text op v.text) names := by
  obtain ⟨ls, hls⟩ := v.exists_phrase hv
  exact ⟨_, (f.phrase.append (op.phrase.append hls)).readsAs⟩

theorem namedBy_of_mem_iff (f : Path) {quote : Quote} {text : List Char}
    {plain : ∀ c ∈ text, Literal.isQuote c = false ∧ c ≠ '\\'}
    (h : ∀ name, name ∈ names ↔ name = String.ofList text ∨ name ∈ f.names) :
    (Constant.string quote text plain).NamedBy names := by
  refine ⟨(h _).mpr (.inl rfl), fun name hname => ?_⟩
  rcases (h name).mp hname with rfl | hname
  · rw [String.toList_ofList]
    exact fun c hc => (plain c hc).1
  · exact f.noQuote_names name hname

theorem Mentions.namedBy_of_backward (h : Mentions (written v.text op f.text) names) :
    v.NamedBy names := by
  cases v with
  | number text hnumber hblank => trivial
  | string quote text plain =>
    have hphrase := ((Term.string quote text plain).phrase).append (op.phrase.append f.phrase)
    rw [h.unique hphrase.readsAs]
    apply namedBy_of_mem_iff f
    intro name
    rw [mem_distinct, Statement.mentions_append, Statement.mentions_append, Term.mentioned,
      f.mentioned]
    simp [Statement.mentions_cons, Statement.mentions_nil, op.mentioned, Term.names]

theorem Mentions.namedBy_of_forward (h : Mentions (written f.text op v.text) names) :
    v.NamedBy names := by
  cases v with
  | number text hnumber hblank => trivial
  | string quote text plain =>
    have hphrase := f.phrase.append (op.phrase.append (Term.string quote text plain).phrase)
    rw [h.unique hphrase.readsAs]
    apply namedBy_of_mem_iff f
    intro name
    rw [mem_distinct, Statement.mentions_append, Statement.mentions_append, Term.mentioned,
      f.mentioned]
    simp [Statement.mentions_cons, Statement.mentions_nil, op.mentioned, Term.names, or_comm]

end Reading

/-- A comparison of a constant with a field has the filter of the one of the field with the constant
by the opposite operator, which tests this field alone, whatever names the two are read with. Where
the constant has a value, they are read. -/
theorem convert_constant_first (registry : Registry) (f : Path) (op : Operator) (v : Constant) :
    (∀ names, Mentions (written v.text op f.text) names →
      Comparison.convert registry names (written v.text op f.text) =
        .ok (.ofField (String.ofList f.text) (op.opposite.predicate v.value))) ∧
    (∀ names, Mentions (written f.text op.opposite v.text) names →
      Comparison.convert registry names (written f.text op.opposite v.text) =
        .ok (.ofField (String.ofList f.text) (op.opposite.predicate v.value))) ∧
    ((Literal.scalar? v.text).isSome = true →
      (∃ names, Mentions (written v.text op f.text) names) ∧
        ∃ names, Mentions (written f.text op.opposite v.text) names) := by
  refine ⟨fun names h => ?_, fun names h => ?_, fun hv => ?_⟩
  · exact convert_backward registry f op v h.namedBy_of_backward
  · exact convert_forward registry f op.opposite v h.namedBy_of_forward
  · exact ⟨exists_mentions_backward hv, exists_mentions_forward hv⟩

end DocQuery.Where
