import DocQuery.Proofs.Respacing.Mask
import DocQuery.Proofs.Respacing.Words

/-! The filter of a comparison that is spelled in two ways. In the list of an `IN`, blanks next to
the commas and next to the outer brackets do not count. -/

namespace DocQuery

namespace Comparison

open Text (words)
open Where (isComparatorChar)

theorem head?_append_cons_ne {text : List Char} (rest : List Char) {c d : Char}
    (hc : isComparatorChar c = false) (hd : isComparatorChar d = true)
    (h : ∀ tail, text = d :: tail → False) :
    (text ++ c :: rest).head? ≠ some d := by
  intro hhead
  cases text with
  | nil =>
    cases hhead
    rw [hc] at hd
    cases hd
  | cons e text =>
    cases hhead
    exact h text rfl

theorem spaceComparators_append_cons {c : Char} (hc : isComparatorChar c = false)
    (front text : List Char) :
    spaceComparators (front ++ c :: text) =
      spaceComparators front ++ c :: spaceComparators text := by
  -- Where the shorter of two comparators is taken, the other one did not fit, and with `c` next it
  -- does not fit either.
  fun_induction spaceComparators front with
  | case1 front ih =>
    rw [List.append_assoc, ← ih]
    rfl
  | case2 front hgt ih =>
    have hhead := head?_append_cons_ne text hc (by decide) hgt
    rw [List.append_assoc, ← ih]
    exact Twin.spaceComparators_ltEq hhead
  | case3 front ih =>
    rw [List.append_assoc, ← ih]
    rfl
  | case4 front ih =>
    rw [List.append_assoc, ← ih]
    rfl
  | case5 front ih =>
    rw [List.append_assoc, ← ih]
    rfl
  | case6 front _ heq hgt ih =>
    have hhead := head?_append_cons_ne text hc (by decide) heq
    have hhead' := head?_append_cons_ne text hc (by decide) hgt
    rw [List.append_assoc, ← ih]
    exact Twin.spaceComparators_lt hhead hhead'
  | case7 front heq ih =>
    have hhead := head?_append_cons_ne text hc (by decide) heq
    rw [List.append_assoc, ← ih]
    exact Twin.spaceComparators_gt hhead
  | case8 front ih =>
    rw [List.append_assoc, ← ih]
    rfl
  | case9 d front _ _ _ _ hbang hlt hgt heq ih =>
    by_cases hd : d = '!'
    · subst hd
      have hhead := head?_append_cons_ne text hc (by decide) fun tail => hbang tail rfl
      rw [List.cons_append, List.cons_append, ← ih]
      exact Twin.spaceComparators_bang hhead
    · have hd' : isComparatorChar d = false := by
        simp only [isComparatorChar, List.contains_eq_mem, decide_eq_false_iff_not]
        simpa [hd] using ⟨hlt, hgt, heq⟩
      rw [List.cons_append, Where.spaceComparators_cons hd', ih, List.cons_append]
  | case10 => exact Where.spaceComparators_cons hc text

theorem mem_of_mem_spaceComparators {c : Char} {text : List Char} (h : c ∈ spaceComparators text) :
    c ∈ text ∨ c = ' ' := by
  fun_induction spaceComparators text <;> simp_all <;> grind

theorem isInfix_spaceComparators {part text : List Char}
    (hpart : ∀ c ∈ part, isComparatorChar c = false) (h : part <:+: text) :
    part <:+: spaceComparators text := by
  cases part with
  | nil => exact List.nil_infix
  | cons c part =>
    obtain ⟨front, rest, rfl⟩ := h
    refine ⟨spaceComparators front, spaceComparators rest, ?_⟩
    rw [List.append_assoc, List.cons_append, List.append_assoc, List.cons_append,
      spaceComparators_append_cons (hpart c List.mem_cons_self),
      Where.spaceComparators_append fun d hd => hpart d (List.mem_cons_of_mem c hd)]

theorem countP_spaceComparators {p : Char → Bool} (hp : p ' ' = false) (text : List Char) :
    (spaceComparators text).countP p = text.countP p := by
  fun_induction spaceComparators text <;> simp [List.countP_cons, *]

theorem isPrefix_of_isPrefix_spaceComparators {part text : List Char}
    (hpart : ∀ c ∈ part, isBlank c = false ∧ isComparatorChar c = false)
    (h : part <+: spaceComparators text) : part <+: text := by
  induction part generalizing text with
  | nil => exact List.nil_prefix
  | cons d part ih =>
    obtain ⟨hblank, hd⟩ := hpart d List.mem_cons_self
    cases text with
    | nil => exact h
    | cons c text =>
      by_cases hc : isComparatorChar c = true
      · have hhead : d = ' ' ∨ isComparatorChar d = true := by
          rw [spaceComparators.eq_def] at h
          split at h <;> simp_all [List.cons_prefix_cons]
        rcases hhead with rfl | hhead
        · cases hblank
        · rw [hd] at hhead
          cases hhead
      · rw [Where.spaceComparators_cons (by simpa using hc)] at h
        obtain ⟨rfl, htail⟩ := List.cons_prefix_cons.mp h
        exact List.cons_prefix_cons.mpr
          ⟨rfl, ih (fun e he => hpart e (List.mem_cons_of_mem d he)) htail⟩

theorem isInfix_of_isInfix_spaceComparators {part text : List Char}
    (hpart : ∀ c ∈ part, isBlank c = false ∧ isComparatorChar c = false)
    (h : part <:+: spaceComparators text) : part <:+: text := by
  cases part with
  | nil => exact List.nil_infix
  | cons d part =>
    obtain ⟨hblank, hd⟩ := hpart d List.mem_cons_self
    have hfree : ∀ front : List Char, (∀ c ∈ front, (c == d) = false) →
        d ∉ spaceComparators front := by
      intro front hfront hmem
      rcases mem_of_mem_spaceComparators hmem with hmem | rfl
      · simpa using hfront d hmem
      · cases hblank
    induction text using Text.splitOnP_induction (p := (· == d)) with
    | free text htext => exact absurd (h.subset List.mem_cons_self) (hfree text htext)
    | cut front c rest hfront hc ih =>
      obtain rfl : c = d := by simpa using hc
      rw [spaceComparators_append_cons hd] at h
      refine List.IsInfix.trans ?_ (List.suffix_append front (c :: rest)).isInfix
      rcases List.infix_cons_iff.mp (Mask.isInfix_of_isInfix_append (hfree front hfront) h)
        with h | h
      · have hrest := isPrefix_of_isPrefix_spaceComparators
          (fun e he => hpart e (List.mem_cons_of_mem c he)) (List.cons_prefix_cons.mp h).2
        exact (List.cons_prefix_cons.mpr ⟨rfl, hrest⟩).isInfix
      · exact (ih h).trans (List.suffix_cons c rest).isInfix

theorem words_spaceComparators_append {front : List Char}
    (h : ∀ c ∈ front.getLast?, isBlank c = true) (text : List Char) :
    words (spaceComparators (front ++ text)) =
      words (spaceComparators front) ++ words (spaceComparators text) := by
  rcases List.eq_nil_or_concat front with rfl | ⟨front, c, rfl⟩
  · rfl
  · have hc : isBlank c = true := h c (by simp)
    have hnot := Twin.isComparatorChar_of_isBlank hc
    have hend : words (spaceComparators (front ++ [c])) = words (spaceComparators front) := by
      rw [spaceComparators_append_cons hnot, Text.words_append_blank hc]
      exact List.append_nil _
    rw [List.concat_eq_append, hend, List.append_assoc, List.singleton_append,
      spaceComparators_append_cons hnot, Text.words_append_blank hc]

/-! ### Lists -/

section Lists

variable (registry : Registry) (names : List String) (mask : Mask)

theorem listItem_trim (item : List Char) :
    listItem registry mask (Text.trim item) = listItem registry mask item := by
  have htext : Text.trim item = Twin.text false (Twin.trim (item.map .char)) := by
    rw [← Twin.trim_text, Twin.text_map_char]
  have htrim : Text.trim (Text.trim item) = Text.trim item := by
    rw [htext, (Twin.tight_trim _).text.trim_eq]
  rw [listItem, htrim, listItem]

theorem listItems_squeeze (text : List Char) :
    listItems registry mask (Text.squeeze ('(' :: (text ++ [')']))) =
      ((Text.fields ',' text).map Text.squeeze).mapM (listItem registry mask) := by
  obtain ⟨blanks, hblanks, hclose⟩ := Text.exists_squeeze_append text (d := ')') (by decide) []
  have hend : Text.squeeze [')'] = [')'] := by decide
  have hopen : isBlank '(' = false := by decide
  have hsqueeze : Text.squeeze ('(' :: (text ++ [')'])) =
      '(' :: (Text.joint (text ++ [')']) ++ Text.squeeze text ++ blanks ++ [')']) := by
    rw [Text.squeeze_cons hopen, hclose, hend]
    simp
  have htrim := (Text.tight_squeeze ('(' :: (text ++ [')']))).trim_eq
  have hitems : ∀ items : List (List Char), items.mapM (listItem registry mask) =
      (items.map Text.trim).mapM (listItem registry mask) := by
    intro items
    rw [List.mapM_map]
    congr 1
    funext item
    exact (listItem_trim registry mask item).symm
  rw [listItems, htrim, hsqueeze]
  simp only [Text.stripFirst, if_true, Text.stripLast, List.reverse_append, List.reverse_singleton,
    List.singleton_append, List.reverse_reverse]
  rw [hitems, Text.trim_fields (by decide) (fun _ => Text.isBlank_of_mem_joint) hblanks]

def isOperand (mask : Mask) (word : List Char) : Bool :=
  !isReversedOperand (mask.restore word)

def introducesList (mask : Mask) : List (List Char) → Bool
  | [field, op] => isOperand mask field && Text.lower op == "in".toList
  | [field, no, op] =>
    isOperand mask field && Text.lower no == "not".toList && Text.lower op == "in".toList
  | _ => false

theorem ofWords_isIn {field op word : List Char} {rest list : List (List Char)} {negated : Bool}
    (hfield : isOperand mask field = true) (hop : ofWord? word = some isIn)
    (h : splitNegation (Text.lower op) rest = (negated, word, list)) :
    ofWords registry names mask (field :: op :: rest) =
      (listItems registry mask (Text.unwords list)).map fun items =>
        .ofField (String.ofList (Literal.unquoted (mask.restore field)))
          (listPredicate negated items) := by
  have hleft : isReversedOperand (mask.restore field) = false := by simpa [isOperand] using hfield
  simp only [ofWords, h, hop, hleft]
  cases listItems registry mask (Text.unwords list) <;> simp <;> rfl

theorem exists_ofWords_append {start : List (List Char)} (h : introducesList mask start = true) :
    ∃ field negated, ∀ list,
      ofWords registry names mask (start ++ list) =
        (listItems registry mask (Text.unwords list)).map
          fun items => .ofField field (listPredicate negated items) := by
  have hop : ofWord? "in".toList = some isIn := by decide
  have hin : ∀ rest, splitNegation "in".toList rest = (false, "in".toList, rest) := by
    intro rest
    cases rest <;> rfl
  rcases start with _ | ⟨field, _ | ⟨op, _ | ⟨last, _ | _⟩⟩⟩
  · cases h
  · cases h
  · simp only [introducesList, Bool.and_eq_true, beq_iff_eq] at h
    refine ⟨_, false, fun list => ofWords_isIn registry names mask h.1 hop ?_⟩
    rw [h.2]
    exact hin list
  · simp only [introducesList, Bool.and_eq_true, beq_iff_eq] at h
    refine ⟨_, true, fun list => ofWords_isIn registry names mask h.1.1 hop ?_⟩
    rw [h.1.2, ← h.2]
    rfl
  · cases h

end Lists

end Comparison

namespace Twin

open Comparison (introducesList spaceComparators)
open Text (squeeze words)

variable {second? : Bool}

def Cell.is (c : Char) : Cell → Bool
  | char d => d == c
  | gap _ _ => false

/-- Words are kept apart in both spellings. -/
def Cell.separates : Cell → Bool
  | char c => DocQuery.isBlank c
  | gap first second => !first.val.isEmpty && !second.val.isEmpty

theorem Cell.eq_of_is {c : Char} {cell : Cell} (h : cell.is c = true) : cell = .char c := by
  cases cell with
  | char d => rw [eq_of_beq h]
  | gap first second => cases h

theorem beq_of_mem_spaceComparators {t : List Cell} (h : ∀ cell ∈ t, cell.is ',' = false) :
    ∀ c ∈ spaceComparators (text second? t), (c == ',') = false := by
  intro c hc
  rw [beq_eq_false_iff_ne]
  rintro rfl
  rcases Comparison.mem_of_mem_spaceComparators hc with hmem | heq
  · obtain ⟨cell, hcell, hmem⟩ := List.mem_flatMap.mp hmem
    cases cell with
    | char d =>
      have hne : d = ',' := (List.mem_singleton.mp hmem).symm
      simpa [Cell.is, hne] using h _ hcell
    | gap first second => exact absurd (isBlank_of_mem_gap hmem) (by decide)
  · cases heq

theorem fields_text (t : List Cell) :
    Text.fields ',' (spaceComparators (text second? t)) =
      (t.splitOnP (Cell.is ',')).map fun item => spaceComparators (text second? item) := by
  induction t using Text.splitOnP_induction (Cell.is ',') with
  | free t hfree =>
    rw [Text.fields_of_forall (beq_of_mem_spaceComparators hfree),
      List.splitOnP_eq_singleton hfree]
    rfl
  | cut front sep rest hfree hsep ih =>
    have hnot : Where.isComparatorChar ',' = false := by decide
    rw [List.splitOnP_append_cons_of_forall_mem hfree sep hsep, Cell.eq_of_is hsep, text_append,
      text_char_cons, Comparison.spaceComparators_append_cons hnot,
      Text.fields_append_cons (beq_of_mem_spaceComparators hfree), ih]
    rfl

/-- The spellings differ in the gaps of a list only. -/
def fitsList (mask : Mask) (t : List Cell) : Bool :=
  let start := t.takeWhile (!Cell.is '(' ·)
  let list := (t.dropWhile (!Cell.is '(' ·)).tail
  fits none start && start.getLast?.any Cell.separates
    && introducesList mask (words (spaceComparators (text false start)))
    && list.getLast?.any (Cell.is ')') && (list.dropLast.splitOnP (Cell.is ',')).all (fits none)

theorem exists_of_fitsList {mask : Mask} {t : List Cell} (h : fitsList mask t = true) :
    ∃ start items : List Cell, t = start ++ .char '(' :: (items ++ [Cell.char ')']) ∧
      fits none start = true ∧
      (∀ cell ∈ start.getLast?, cell.separates = true) ∧
      introducesList mask (words (spaceComparators (text false start))) = true ∧
      ∀ item ∈ items.splitOnP (Cell.is ','), fits none item = true := by
  simp only [fitsList, Bool.and_eq_true, Option.any_eq_true, List.all_eq_true] at h
  obtain ⟨⟨⟨⟨hfits, last, hlast, hsep⟩, hintro⟩, close, hclose, his⟩, hitems⟩ := h
  have hdrop := List.head?_dropWhile_not (fun cell => !Cell.is '(' cell) t
  cases hlist : t.dropWhile (fun cell => !Cell.is '(' cell) with
  | nil => simp [hlist] at hclose
  | cons first list =>
    rw [hlist] at hclose hitems hdrop
    obtain ⟨items, hend⟩ := List.getLast?_eq_some_iff.mp hclose
    rw [List.tail_cons] at hend
    rw [List.tail_cons, hend, List.dropLast_concat] at hitems
    refine ⟨_, items, ?_, hfits, ?_, hintro, hitems⟩
    · have hopen : first = .char '(' := Cell.eq_of_is (by simpa using hdrop)
      rw [← Cell.eq_of_is his, ← hend, ← hopen, ← hlist, List.takeWhile_append_dropWhile]
    · intro cell hcell
      rw [hlast] at hcell
      cases hcell
      exact hsep

theorem isBlank_of_separates {start : List Cell}
    (h : ∀ cell ∈ start.getLast?, cell.separates = true) :
    ∀ c ∈ (text second? start).getLast?, isBlank c = true := by
  rcases List.eq_nil_or_concat start with rfl | ⟨front, cell, rfl⟩
  · simp
  · have hcell : cell.separates = true := h cell (by simp)
    intro c hc
    rw [List.concat_eq_append, text_append] at hc
    cases cell with
    | char d =>
      rw [text_char_cons, text_nil, List.getLast?_concat] at hc
      cases hc
      exact hcell
    | gap first second =>
      have hne : first.val ≠ [] ∧ second.val ≠ [] := by simpa [Cell.separates] using hcell
      obtain ⟨blanks, d, hend⟩ := List.eq_nil_or_concat ((Cell.gap first second).text second?)
        |>.resolve_left (text_gap_ne_nil hne second?)
      have hd : isBlank d = true := isBlank_of_mem_gap (by rw [hend]; simp)
      rw [text_gap_cons, text_nil, List.append_nil, hend, List.concat_eq_append,
        ← List.append_assoc, List.getLast?_concat] at hc
      cases hc
      exact hd

theorem spaceComparators_bracketed (items : List Cell) (second? : Bool) :
    spaceComparators (text second? (.char '(' :: (items ++ [Cell.char ')']))) =
      '(' :: (spaceComparators (text second? items) ++ [')']) := by
  rw [text_char_cons, text_append, Where.spaceComparators_cons (by decide)]
  exact congrArg _ (Comparison.spaceComparators_append_cons (by decide) _ [])

theorem listItems_text {items : List Cell}
    (h : ∀ item ∈ items.splitOnP (Cell.is ','), fits none item = true) (registry : Registry)
    (mask : Mask) (second? : Bool) :
    Comparison.listItems registry mask
        (squeeze (spaceComparators (text second? (.char '(' :: (items ++ [Cell.char ')']))))) =
      Comparison.listItems registry mask
        (squeeze (spaceComparators (text false (.char '(' :: (items ++ [Cell.char ')']))))) := by
  rw [spaceComparators_bracketed, spaceComparators_bracketed, Comparison.listItems_squeeze,
    Comparison.listItems_squeeze, fields_text, fields_text, List.map_map, List.map_map]
  congr 1
  apply List.map_congr_left
  intro item hitem
  simp only [Function.comp_apply, squeeze, words_spaceComparators (h item hitem) second?]

theorem ofWords_text_of_fitsList {mask : Mask} {t : List Cell} (h : fitsList mask t = true)
    (registry : Registry) (names : List String) (second? : Bool) :
    Comparison.ofWords registry names mask (words (spaceComparators (text second? t))) =
      Comparison.ofWords registry names mask (words (spaceComparators (text false t))) := by
  obtain ⟨start, items, rfl, hfits, hsep, hintro, hitems⟩ := exists_of_fitsList h
  obtain ⟨field, negated, hof⟩ := Comparison.exists_ofWords_append registry names mask hintro
  have hlist := listItems_text hitems registry mask second?
  rw [text_append, text_append,
    Comparison.words_spaceComparators_append (isBlank_of_separates hsep),
    Comparison.words_spaceComparators_append (isBlank_of_separates hsep),
    words_spaceComparators hfits, hof, hof]
  exact congrArg _ hlist

def settles (names : List String) (t : List Cell) : Bool :=
  match protect? names t with
  | none => false
  | some (mask, r) => fits none r || fitsList mask r

theorem convert_text {names : List String} {t : List Cell} (h : settles names t = true)
    (registry : Registry) (second? : Bool) :
    Comparison.convert registry names (text second? t) =
      Comparison.convert registry names (text false t) := by
  unfold settles at h
  split at h
  · cases h
  · rename_i mask r hprotect
    have hmask := protect_text hprotect
    rw [Comparison.convert, hmask, Comparison.convert, hmask]
    rcases Bool.or_eq_true_iff.mp h with hfits | hlist
    · simp only [words_spaceComparators hfits second?]
    · exact ofWords_text_of_fitsList hlist registry names second?

end Twin

end DocQuery
