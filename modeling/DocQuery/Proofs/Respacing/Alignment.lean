import DocQuery.Proofs.Respacing.Reduction
import DocQuery.Statement.ConditionList

/-! Two condition lists of a statement, laid side by side: their comparisons become cells where the
lexemes are the same and the gaps that differ are blank. -/

namespace DocQuery.Twin

open Statement (Part distinct mentions)

/-- A gap that changes has to be blank. -/
def ofGaps? (gap other : List Char) : Option (List Cell) :=
  if gap = other then some (gap.map .char)
  else if h : (∀ c ∈ gap, isBlank c = true) ∧ ∀ c ∈ other, isBlank c = true then
    some [.gap ⟨gap, h.1⟩ ⟨other, h.2⟩]
  else none

def ofLexemes? : List Lexeme → List Lexeme → Option (List Cell)
  | [], [] => some []
  | l :: ls, m :: ms =>
    if l.token = m.token ∧ l.text = m.text then do
      let gap ← ofGaps? l.gap m.gap
      let rest ← ofLexemes? ls ms
      return gap ++ (l.text.map .char ++ rest)
    else none
  | _, _ => none

def dropGap (l : Lexeme) : Lexeme :=
  { l with gap := [] }

/-- The cells of two runs, their first gaps left out. -/
def ofRuns? (run other : List Lexeme) : Option (List Cell) :=
  ofLexemes? (run.modifyHead dropGap) (other.modifyHead dropGap)

def Entry.ofParts? : Part → Part → Option Entry
  | .leaf run, .leaf other => (ofRuns? run other).map (.leaf · (distinct (mentions run)))
  | .connective word, .connective other => if word = other then some (.connective word) else none
  | _, _ => none

def entries? : List Part → List Part → Option (List Entry)
  | [], [] => some []
  | part :: parts, other :: others => do
    let e ← Entry.ofParts? part other
    let es ← entries? parts others
    return e :: es
  | _, _ => none

/-- Conditions that are read as the same comparisons. -/
def agree (parts others : List Part) : Bool :=
  match entries? parts others with
  | none => false
  | some es => (compared es).all fun (names, t) => settles names t

theorem text_ofGaps {gap other : List Char} {t : List Cell} (h : ofGaps? gap other = some t) :
    text false t = gap ∧ text true t = other := by
  unfold ofGaps? at h
  split at h
  · rename_i heq
    cases h
    rw [text_map_char, text_map_char]
    exact ⟨rfl, heq⟩
  · split at h
    · cases h
      simp [text_gap_cons, Cell.text]
    · cases h

theorem text_ofLexemes {ls ms : List Lexeme} {t : List Cell} (h : ofLexemes? ls ms = some t) :
    text false t = ls.flatMap (fun l => l.gap ++ l.text) ∧
      text true t = ms.flatMap (fun l => l.gap ++ l.text) ∧
      ls.map Lexeme.token = ms.map Lexeme.token := by
  fun_induction ofLexemes? ls ms generalizing t with
  | case1 =>
    cases h
    exact ⟨rfl, rfl, rfl⟩
  | case2 l ls m ms hsame ih =>
    obtain ⟨gap, hgap, h⟩ := Option.bind_eq_some_iff.mp h
    obtain ⟨rest, hrest, h⟩ := Option.bind_eq_some_iff.mp h
    cases h
    have hgaps := text_ofGaps hgap
    have hrests := ih hrest
    simp [text_map_char, hgaps, hrests, hsame]
  | case3 => cases h
  | case4 => cases h

theorem flatMap_dropGap (run : List Lexeme) :
    (run.modifyHead dropGap).flatMap (fun l => l.gap ++ l.text) = Lexeme.runText run := by
  cases run <;> rfl

theorem map_token_dropGap (run : List Lexeme) :
    (run.modifyHead dropGap).map Lexeme.token = run.map Lexeme.token := by
  cases run <;> rfl

theorem mentions_congr {run other : List Lexeme}
    (h : run.map Lexeme.token = other.map Lexeme.token) : mentions run = mentions other := by
  have hmap : ∀ ls : List Lexeme, ls.filterMap (fun l => Statement.mentioned? l.token) =
      (ls.map Lexeme.token).filterMap Statement.mentioned? := by
    intro ls
    rw [List.filterMap_map]
    rfl
  rw [mentions, mentions, hmap, hmap, h]

theorem condition_ofParts {part other : Part} {e : Entry} (h : Entry.ofParts? part other = some e) :
    part.condition = e.condition false ∧ other.condition = e.condition true := by
  unfold Entry.ofParts? at h
  split at h
  · rename_i run other
    obtain ⟨t, ht, rfl⟩ := Option.map_eq_some_iff.mp h
    obtain ⟨hfirst, hsecond, htokens⟩ := text_ofLexemes ht
    rw [flatMap_dropGap] at hfirst hsecond
    rw [map_token_dropGap, map_token_dropGap] at htokens
    rw [Entry.condition, Entry.condition, hfirst, hsecond]
    refine ⟨rfl, ?_⟩
    rw [mentions_congr htokens]
    rfl
  · split at h
    · rename_i heq
      cases h
      exact ⟨rfl, by rw [heq]; rfl⟩
    · cases h
  · cases h

theorem conditions_entries {parts others : List Part} {es : List Entry}
    (h : entries? parts others = some es) :
    parts.map Part.condition = conditions false es ∧
      others.map Part.condition = conditions true es := by
  fun_induction entries? parts others generalizing es with
  | case1 =>
    cases h
    exact ⟨rfl, rfl⟩
  | case2 part parts other others ih =>
    obtain ⟨e, he, h⟩ := Option.bind_eq_some_iff.mp h
    obtain ⟨rest, hrest, h⟩ := Option.bind_eq_some_iff.mp h
    cases h
    have hhead := condition_ofParts he
    have htail := ih hrest
    simp [hhead, htail]
  | case3 => cases h

end DocQuery.Twin
