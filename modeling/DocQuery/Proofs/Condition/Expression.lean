import DocQuery.Proofs.Condition.Brackets
import DocQuery.Proofs.Filter.Verdict

/-! Conditions as expressions: comparisons joined by `AND` and `OR`, of which `AND` binds tighter,
and grouped by brackets. A condition list is such an expression laid flat, with the brackets of a
group left in the texts of its first and its last comparison. -/

namespace DocQuery.Condition

/-- A comparison without brackets around it. Its brackets and quotes are closed, its names account
for all brackets of its text that are not, and its text starts and ends with itself. -/
structure Leaf where
  text : List Char
  names : List String
  trimmed : Text.trim text = text
  nonempty : text ≠ []
  depth_eq_zero : (leaf (String.ofList text) names).depth = 0
  balanced : isBalancedFrom 0 none text = true
  bare : stripWrapping text = text

def Leaf.ofText (text : List Char) (names : List String)
    (h : Text.trim text = text ∧ text ≠ [] ∧ (leaf (String.ofList text) names).depth = 0 ∧
      isBalancedFrom 0 none text = true ∧ isWrapped text = false) : Leaf :=
  ⟨text, names, h.1, h.2.1, h.2.2.1, h.2.2.2.1, stripWrapping_of_not_isWrapped h.2.2.2.2⟩

inductive Level where
  | primary
  | conjunction
  | disjunction
deriving DecidableEq

inductive Expression : Level → Type where
  | leaf (l : Leaf) : Expression .primary
  /-- An expression between brackets, with blanks inside them. -/
  | group (opening closing : Text.Blanks) (e : Expression .disjunction) : Expression .primary
  | primary (p : Expression .primary) : Expression .conjunction
  | and (x : Expression .conjunction) (p : Expression .primary) : Expression .conjunction
  | conjunction (x : Expression .conjunction) : Expression .disjunction
  | or (d : Expression .disjunction) (x : Expression .conjunction) : Expression .disjunction

namespace Expression

variable {level : Level}

/-- The flat list of an expression. The texts `opening` and `closing` go in front of its first
comparison and after its last one. -/
def conditions {level : Level} : Expression level → List Char → List Char → List Condition
  | leaf l, opening, closing => [.leaf (String.ofList (opening ++ l.text ++ closing)) l.names]
  | group a b e, opening, closing =>
    e.conditions (opening ++ '(' :: a.val) (b.val ++ ')' :: closing)
  | primary p, opening, closing => p.conditions opening closing
  | and x p, opening, closing =>
    x.conditions opening [] ++ .connective "AND" :: p.conditions [] closing
  | conjunction x, opening, closing => x.conditions opening closing
  | or d x, opening, closing =>
    d.conditions opening [] ++ .connective "OR" :: x.conditions [] closing

def leaves {level : Level} : Expression level → List Leaf
  | leaf l => [l]
  | group _ _ e => e.leaves
  | primary p => p.leaves
  | and x p => x.leaves ++ p.leaves
  | conjunction x => x.leaves
  | or d x => d.leaves ++ x.leaves

/-- The filters of the comparisons, combined as the expression says; the leftmost comparison without
a filter decides the error. -/
def filter {ε : Type} {level : Level} (convert : Leaf → Except ε Filter) :
    Expression level → Except ε Filter
  | leaf l => convert l
  | group _ _ e => e.filter convert
  | primary p => p.filter convert
  | and x p => do
    let f ← x.filter convert
    let g ← p.filter convert
    return f.and g
  | conjunction x => x.filter convert
  | or d x => do
    let f ← d.filter convert
    let g ← x.filter convert
    return f.or g

def eval {level : Level} (truth : Leaf → Bool) : Expression level → Bool
  | leaf l => truth l
  | group _ _ e => e.eval truth
  | primary p => p.eval truth
  | and x p => x.eval truth && p.eval truth
  | conjunction x => x.eval truth
  | or d x => d.eval truth || x.eval truth

def verdict {level : Level} (judge : Leaf → Verdict) : Expression level → Verdict
  | leaf l => judge l
  | group _ _ e => e.verdict judge
  | primary p => p.verdict judge
  | and x p => (x.verdict judge).combine (· && ·) (p.verdict judge)
  | conjunction x => x.verdict judge
  | or d x => (d.verdict judge).combine (· || ·) (x.verdict judge)

def sole? {level : Level} : Expression level → Option Leaf
  | leaf l => some l
  | group _ _ e => e.sole?
  | primary p => p.sole?
  | and _ _ => none
  | conjunction x => x.sole?
  | or _ _ => none

theorem verdict_of_forall_decided {e : Expression level} {judge : Leaf → Verdict}
    {truth : Leaf → Bool} (h : ∀ l ∈ e.leaves, judge l = .decided (truth l)) :
    e.verdict judge = .decided (e.eval truth) := by
  induction e with
  | leaf l => exact h l List.mem_cons_self
  | group a b e ih => exact ih h
  | primary p ih => exact ih h
  | and x p ihx ihp =>
    have hx := ihx fun l hl => h l (List.mem_append_left _ hl)
    have hp := ihp fun l hl => h l (List.mem_append_right _ hl)
    simp [verdict, eval, hx, hp]
  | conjunction x ih => exact ih h
  | or d x ihd ihx =>
    have hd := ihd fun l hl => h l (List.mem_append_left _ hl)
    have hx := ihx fun l hl => h l (List.mem_append_right _ hl)
    simp [verdict, eval, hd, hx]

end Expression

/-! ### The shape of the flat list -/

theorem Leaf.tight (l : Leaf) : Text.Tight l.text :=
  Text.tight_of_trim_eq l.trimmed

theorem Leaf.balance_text (l : Leaf) : balance l.text = namesBalance l.names := by
  have h := l.depth_eq_zero
  rw [depth_leaf] at h
  omega

theorem Leaf.depth_padded (l : Leaf) (opening closing : List Char) :
    (leaf (String.ofList (opening ++ l.text ++ closing)) l.names).depth =
      balance opening + balance closing := by
  rw [depth_leaf, ← l.balance_text, balance_append, balance_append]
  omega

namespace Expression

variable {level : Level}

/-- The list of a lone comparison is one text: the comparison with all brackets around it. -/
theorem conditions_of_sole? {e : Expression level} {l : Leaf} (h : e.sole? = some l) :
    ∃ text, Text.Tight text ∧ isBalancedFrom 0 none text = true ∧ balance text = balance l.text ∧
      stripWrapping text = l.text ∧
      ∀ opening closing, e.conditions opening closing =
        [.leaf (String.ofList (opening ++ text ++ closing)) l.names] := by
  induction e with
  | leaf k =>
    cases h
    exact ⟨l.text, l.tight, l.balanced, rfl, l.bare, fun _ _ => rfl⟩
  | group a b e ih =>
    obtain ⟨text, htight, hbalanced, hbalance, hstrip, hconditions⟩ := ih h
    refine ⟨wrap a b text, tight_wrap a b text, isBalancedFrom_wrap hbalanced a b, ?_, ?_, ?_⟩
    · simp only [wrap, List.cons_append, balance_open, balance_append, balance_blanks, hbalance,
        balance_close, balance_nil]
      omega
    · rw [stripWrapping_wrap htight hbalanced, hstrip]
    · intro opening closing
      simp [conditions, hconditions, wrap]
  | primary p ih => exact ih h
  | and x p => cases h
  | conjunction x ih => exact ih h
  | or d x => cases h

/-- Whatever is put in front of it, the list starts with the given comparison. This ends with itself
and closes no bracket that stands before it. -/
structure StartsWith (list : List Char → List Condition) (text : List Char)
    (names : List String) : Prop where
  last : ∃ front c, text = front ++ [c] ∧ isBlank c = false
  depth_nonneg : 0 ≤ (Condition.leaf (String.ofList text) names).depth
  eq_cons : ∃ tail, ∀ opening, list opening =
    .leaf (String.ofList (opening ++ text)) names :: tail

theorem StartsWith.append {list : List Char → List Condition} {text : List Char}
    {names : List String} (h : StartsWith list text names) (more : List Condition) :
    StartsWith (fun opening => list opening ++ more) text names := by
  obtain ⟨tail, htail⟩ := h.eq_cons
  refine ⟨h.last, h.depth_nonneg, tail ++ more, fun opening => ?_⟩
  rw [htail, List.cons_append]

theorem StartsWith.group {list : List Char → List Condition} {text : List Char}
    {names : List String} (h : StartsWith list text names) (blanks : Text.Blanks) :
    StartsWith (fun opening => list (opening ++ '(' :: blanks.val))
      ('(' :: (blanks.val ++ text)) names := by
  obtain ⟨front, c, rfl, hc⟩ := h.last
  obtain ⟨tail, htail⟩ := h.eq_cons
  refine ⟨⟨'(' :: (blanks.val ++ front), c, by simp, hc⟩, ?_, tail, fun opening => ?_⟩
  · have hdepth := h.depth_nonneg
    rw [depth_leaf] at hdepth ⊢
    rw [balance_open, balance_append blanks.val, balance_blanks]
    omega
  · simp [htail]

theorem startsWith_of_sole? {e : Expression level} {l : Leaf} (h : e.sole? = some l) :
    ∃ text, StartsWith (e.conditions · []) text l.names := by
  obtain ⟨text, htight, _, hbalance, hstrip, hconditions⟩ := conditions_of_sole? h
  have hne : text ≠ [] := by
    rintro rfl
    rw [stripWrapping, dif_neg (by decide)] at hstrip
    exact l.nonempty hstrip.symm
  refine ⟨text, ⟨text.dropLast, text.getLast hne, ?_, ?_⟩, ?_, [], fun opening => ?_⟩
  · exact (List.dropLast_concat_getLast hne).symm
  · exact htight.last _ (List.getLast?_eq_some_getLast hne)
  · rw [depth_leaf, hbalance, l.balance_text]
    omega
  · simp [hconditions]

/-- What stands after the list changes its start only when there is just one comparison. -/
theorem conditions_startsWith (e : Expression level) :
    ∃ text names, StartsWith (e.conditions · []) text names ∧
      (e.sole? = none → ∀ closing, StartsWith (e.conditions · closing) text names) := by
  induction e with
  | leaf l =>
    obtain ⟨text, h⟩ := startsWith_of_sole? (e := leaf l) rfl
    exact ⟨text, l.names, h, fun hs => by cases hs⟩
  | group a b e ih =>
    cases hs : e.sole? with
    | none =>
      obtain ⟨text, names, _, h⟩ := ih
      exact ⟨_, names, (h hs _).group a, fun _ closing => (h hs _).group a⟩
    | some l =>
      obtain ⟨text, h⟩ := startsWith_of_sole? (e := group a b e) hs
      exact ⟨text, l.names, h, fun hn => by rw [sole?, hs] at hn; cases hn⟩
  | primary p ih => exact ih
  | and x p ihx _ =>
    obtain ⟨text, names, h, _⟩ := ihx
    exact ⟨text, names, h.append _, fun _ closing => h.append _⟩
  | conjunction x ih => exact ih
  | or d x ihd _ =>
    obtain ⟨text, names, h, _⟩ := ihd
    exact ⟨text, names, h.append _, fun _ closing => h.append _⟩

end Expression

end DocQuery.Condition
