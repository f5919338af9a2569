import DocQuery.Proofs.Respacing.Alignment
import DocQuery.Proofs.Statement.Remainder

/-! Statements that differ in the gaps between their lexemes are read alike, since readers look at
tokens only. -/

namespace DocQuery

namespace Statement

/-- The same tokens with other gaps before them. The conditions of every `WHERE` have to agree. -/
inductive Respaced : List Lexeme → List Lexeme → Prop where
  | nil : Respaced [] []
  | cons {l m : Lexeme} {ls ms : List Lexeme} (token : l.token = m.token)
    (conditions : l.token.isKeyword "WHERE" = true →
      Twin.agree (splitConditions 0 false ls).1 (splitConditions 0 false ms).1 = true)
    (tail : Respaced ls ms) : Respaced (l :: ls) (m :: ms)

instance Respaced.decidable : (ls ms : List Lexeme) → Decidable (Respaced ls ms)
  | [], [] => .isTrue .nil
  | [], _ :: _ => .isFalse nofun
  | _ :: _, [] => .isFalse nofun
  | l :: ls, m :: ms =>
    have := decidable ls ms
    decidable_of_iff (l.token = m.token ∧ (l.token.isKeyword "WHERE" = true →
        Twin.agree (splitConditions 0 false ls).1 (splitConditions 0 false ms).1 = true) ∧
        Respaced ls ms)
      ⟨fun ⟨token, conditions, tail⟩ => .cons token conditions tail,
        fun | .cons token conditions tail => ⟨token, conditions, tail⟩⟩

variable {ls ms : List Lexeme}

namespace Respaced

theorem peek_eq (h : Respaced ls ms) : peek ls = peek ms := by
  cases h with
  | nil => rfl
  | cons token => exact token

theorem drop (h : Respaced ls ms) (n : Nat) : Respaced (ls.drop n) (ms.drop n) := by
  induction n generalizing ls ms with
  | zero => exact h
  | succ n ih =>
    cases h with
    | nil => exact .nil
    | cons _ _ tail => exact ih tail

theorem dropWhile (h : Respaced ls ms) (p : Token → Bool) :
    Respaced (ls.dropWhile fun l => p l.token) (ms.dropWhile fun l => p l.token) := by
  induction h with
  | nil => exact .nil
  | @cons l m ls ms token conditions tail ih =>
    rw [List.dropWhile_cons, List.dropWhile_cons, ← token]
    split
    · exact ih
    · exact .cons token conditions tail

theorem splitItems (h : Respaced ls ms) (depth : Nat) :
    Respaced (splitItems depth ls).2 (splitItems depth ms).2 := by
  induction h generalizing depth with
  | nil => exact .nil
  | @cons l m ls ms token conditions tail ih =>
    rw [Statement.splitItems, Statement.splitItems, ← token]
    split
    · split
      · exact ih 0
      · exact .cons token conditions tail
    · exact ih _

theorem splitConditions (h : Respaced ls ms) (depth : Nat) (between : Bool) :
    Respaced (splitConditions depth between ls).2 (splitConditions depth between ms).2 := by
  induction h generalizing depth between with
  | nil => exact .nil
  | @cons l m ls ms token conditions tail ih =>
    rw [Statement.splitConditions, Statement.splitConditions, ← token]
    split
    · exact .cons token conditions tail
    · split
      · exact ih _ _
      · split
        · exact ih _ _
        · exact ih _ _

/-! ### Tables -/

theorem readQualified (h : Respaced ls ms) (first : String) :
    (readQualified first ls).1 = (readQualified first ms).1 ∧
      (readQualified first ls).2.1 = (readQualified first ms).2.1 ∧
      Respaced (readQualified first ls).2.2 (readQualified first ms).2.2 := by
  cases h with
  | nil => exact ⟨rfl, rfl, .nil⟩
  | cons token conditions tail =>
    cases tail with
    | nil => exact ⟨rfl, rfl, .cons token conditions .nil⟩
    | cons token' conditions' tail =>
      rw [Statement.readQualified, Statement.readQualified, ← token, ← token']
      split
      · exact ⟨rfl, rfl, tail⟩
      · exact ⟨rfl, rfl, .cons token conditions (.cons token' conditions' tail)⟩

theorem readLabel (h : Respaced ls ms) :
    (readLabel ls).1 = (readLabel ms).1 ∧ Respaced (readLabel ls).2 (readLabel ms).2 := by
  cases h with
  | nil => exact ⟨rfl, .nil⟩
  | cons token conditions tail =>
    rw [Statement.readLabel, Statement.readLabel, ← token, ← tail.peek_eq]
    split
    · exact ⟨rfl, tail.drop 1⟩
    · split
      · exact ⟨rfl, tail⟩
      · exact ⟨rfl, .cons token conditions tail⟩

theorem readTable_cases (h : Respaced ls ms) :
    (readTable ls = none ∧ readTable ms = none) ∨
      ∃ table rest rest', readTable ls = some (table, rest) ∧ readTable ms = some (table, rest') ∧
        Respaced rest rest' := by
  cases h with
  | nil => exact .inl ⟨rfl, rfl⟩
  | cons token conditions tail =>
    rw [readTable, readTable, ← token]
    split
    · exact .inl ⟨rfl, rfl⟩
    · rename_i first hfirst
      obtain ⟨htable, hdatabase, hrest⟩ := tail.readQualified first
      obtain ⟨hlabel, hend⟩ := hrest.readLabel
      simp only [htable, hdatabase, hlabel]
      exact .inr ⟨_, _, _, rfl, rfl, hend⟩

theorem readTables (h : Respaced ls ms) :
    (readTables ls).1 = (readTables ms).1 ∧ Respaced (readTables ls).2 (readTables ms).2 := by
  induction hlen : ls.length using Nat.strongRecOn generalizing ls ms with
  | ind n ih =>
    rcases h.readTable_cases with ⟨hnone, hnone'⟩ | ⟨table, rest, rest', hsome, hsome', hrest⟩
    · rw [readTables_of_none hnone, readTables_of_none hnone']
      exact ⟨rfl, h⟩
    · cases hrest with
      | nil =>
        rw [readTables_of_nil hsome, readTables_of_nil hsome']
        exact ⟨rfl, .nil⟩
      | cons token conditions tail =>
        have hshort := length_readTable_lt hsome
        rw [List.length_cons] at hshort
        have htail := ih _ (by omega) tail rfl
        rw [readTables_of_cons hsome, readTables_of_cons hsome', ← token]
        split
        · exact ⟨congrArg (table :: ·) htail.1, htail.2⟩
        · exact ⟨rfl, .cons token conditions tail⟩

end Respaced

/-! ### Clauses -/

/-- Where the first computation succeeds, so does the second, with a related result. -/
def Matched {α β : Type} (R : α → β → Prop) (x : Except Mismatch α) (y : Except Mismatch β) :
    Prop :=
  ∀ a, x = .ok a → ∃ b, y = .ok b ∧ R a b

def Alike {α : Type} (x y : α × List Lexeme) : Prop :=
  x.1 = y.1 ∧ Respaced x.2 y.2

namespace Matched

variable {α β γ δ : Type} {R : α → β → Prop} {S : γ → δ → Prop}

theorem ok {a : α} {b : β} (h : R a b) : Matched R (.ok a) (.ok b) := by
  intro a' ha
  cases ha
  exact ⟨b, rfl, h⟩

theorem error (e : Mismatch) (y : Except Mismatch β) : Matched R (.error e) y := by
  intro a ha
  cases ha

theorem bind {x : Except Mismatch α} {y : Except Mismatch β} {f : α → Except Mismatch γ}
    {g : β → Except Mismatch δ} (h : Matched R x y) (hfg : ∀ a b, R a b → Matched S (f a) (g b)) :
    Matched S (x >>= f) (y >>= g) := by
  intro c hc
  obtain ⟨a, ha, hfa⟩ := exists_of_bind_eq_ok hc
  obtain ⟨b, rfl, hab⟩ := h a ha
  exact hfg a b hab c hfa

theorem map {x y : Except Mismatch (α × List Lexeme)} (h : Matched Alike x y) (f : α → γ) :
    Matched Alike (x >>= fun p => .ok (f p.1, p.2)) (y >>= fun p => .ok (f p.1, p.2)) :=
  h.bind fun _ _ hab => .ok ⟨congrArg f hab.1, hab.2⟩

end Matched

namespace Respaced

theorem readKeyword (h : Respaced ls ms) (keyword : String) (expected : Expectation) :
    Matched Respaced (readKeyword keyword expected ls) (readKeyword keyword expected ms) := by
  rw [Statement.readKeyword, Statement.readKeyword, h.peek_eq]
  split
  · exact .ok (h.drop 1)
  · exact .error _ _

theorem readRowCount (h : Respaced ls ms) :
    Matched Alike (readRowCount ls) (readRowCount ms) := by
  rw [Statement.readRowCount, Statement.readRowCount, h.peek_eq]
  split
  · exact .ok ⟨rfl, h.drop 1⟩
  · exact .error _ _

theorem readLimit (h : Respaced ls ms) : Matched Alike (readLimit ls) (readLimit ms) := by
  refine h.readRowCount.bind ?_
  rintro ⟨first, rest⟩ ⟨_, rest'⟩ ⟨rfl, hrest⟩
  dsimp only at hrest ⊢
  rw [hrest.peek_eq]
  split
  · exact (hrest.drop 1).readRowCount.map (Limit.mk first)
  · split
    · exact (hrest.drop 1).readRowCount.map fun offset => Limit.mk offset first
    · exact .ok ⟨rfl, hrest⟩

theorem readIndexNames (h : Respaced ls ms) :
    Matched Alike (readIndexNames ls) (readIndexNames ms) := by
  induction hlen : ls.length using Nat.strongRecOn generalizing ls ms with
  | ind n ih =>
    cases h with
    | nil => exact .error _ _
    | cons token conditions tail =>
      rw [Statement.readIndexNames.eq_def (_ :: _), Statement.readIndexNames.eq_def (_ :: _)]
      dsimp only
      rw [← token]
      split
      · exact .ok ⟨rfl, tail⟩
      · split
        · exact .error _ _
        · cases tail with
          | nil => exact .error _ _
          | cons token' conditions' tail' =>
            simp only [List.length_cons] at hlen
            dsimp only
            rw [← token']
            split
            · exact (ih _ (by omega) tail' rfl).map _
            · exact (ih _ (by simp; omega) (.cons token' conditions' tail') rfl).map _

theorem readPurpose (h : Respaced ls ms) :
    Matched Respaced (readPurpose ls) (readPurpose ms) := by
  rw [Statement.readPurpose, Statement.readPurpose, h.peek_eq]
  dsimp only
  rw [(h.drop 1).peek_eq]
  split
  · split
    · exact ((h.drop 1).drop 1).readKeyword _ _
    · exact (h.drop 1).readKeyword _ _
  · exact .ok h

theorem readHint (h : Respaced ls ms) (kind : HintKind) :
    Matched Alike (readHint kind ls) (readHint kind ms) := by
  rw [Statement.readHint, Statement.readHint, h.peek_eq]
  split
  · exact .error _ _
  · refine (h.drop 1).readPurpose.bind ?_
    intro rest rest' hrest
    rw [hrest.peek_eq]
    split
    · exact (hrest.drop 1).readIndexNames.map (IndexHint.mk kind)
    · split
      · exact .ok ⟨rfl, hrest.drop 1⟩
      · exact .error _ _

end Respaced

end Statement

/-- Statements with the same tables, whose comparisons are read as the same. -/
structure Select.Twins (s t : Select) : Prop where
  tables : s.tables = t.tables
  conditions : ∃ es, (∀ p ∈ Twin.compared es, Twin.settles p.1 p.2 = true) ∧
    s.conditions = Twin.conditions false es ∧ t.conditions = Twin.conditions true es

namespace Statement

theorem exists_of_agree
    (h : Twin.agree (splitConditions 0 false ls).1 (splitConditions 0 false ms).1 = true) :
    ∃ es, (∀ p ∈ Twin.compared es, Twin.settles p.1 p.2 = true) ∧
      (readConditions ls).1 = Twin.conditions false es ∧
      (readConditions ms).1 = Twin.conditions true es := by
  unfold Twin.agree at h
  split at h
  · cases h
  · rename_i es hes
    exact ⟨es, List.all_eq_true.mp h, Twin.conditions_entries hes⟩

/-- Clauses that keep statements twins, before respaced lexemes. -/
def KeepsTwins (x y : Clause × List Lexeme) : Prop :=
  (∀ s t : Select, s.Twins t → (s.add x.1).Twins (t.add y.1)) ∧ Respaced x.2 y.2

theorem Respaced.readClause {l m : Lexeme} (h : Respaced (l :: ls) (m :: ms)) (hasTables : Bool) :
    Matched KeepsTwins (readClause hasTables l ls) (readClause hasTables m ms) := by
  obtain _ | ⟨token, conditions, tail⟩ := h
  rw [Statement.readClause, Statement.readClause, ← token]
  split
  · rename_i hwhere
    obtain ⟨es, hsettles, hfirst, hsecond⟩ := exists_of_agree (conditions hwhere)
    exact .ok ⟨fun s t hst => ⟨hst.tables, es, hsettles, hfirst, hsecond⟩,
      tail.splitConditions 0 false⟩
  split
  · refine (tail.readKeyword _ _).bind fun rest rest' hrest => ?_
    exact .ok ⟨fun s t hst => ⟨hst.tables, hst.conditions⟩, hrest.splitItems 0⟩
  split
  · exact .ok ⟨fun s t hst => ⟨hst.tables, hst.conditions⟩, tail.splitConditions 0 false⟩
  split
  · refine (tail.readKeyword _ _).bind fun rest rest' hrest => ?_
    exact .ok ⟨fun s t hst => ⟨hst.tables, hst.conditions⟩, hrest.splitItems 0⟩
  split
  · refine tail.readLimit.bind fun x y hxy => ?_
    exact .ok ⟨fun s t hst => ⟨hst.tables, hst.conditions⟩, hxy.2⟩
  split
  · refine (tail.readHint _).bind fun x y hxy => ?_
    exact .ok ⟨fun s t hst => ⟨hst.tables, hst.conditions⟩, hxy.2⟩
  split
  · obtain ⟨htables, hrest⟩ := tail.readTables
    exact .ok ⟨fun s t hst => ⟨htables, hst.conditions⟩, hrest⟩
  · exact .error _ _

theorem Respaced.readClauses (h : Respaced ls ms) {s t : Select} (hst : s.Twins t) :
    Matched Select.Twins (readClauses s ls) (readClauses t ms) := by
  induction hlen : ls.length using Nat.strongRecOn generalizing ls ms s t with
  | ind n ih =>
    cases h with
    | nil =>
      rw [Statement.readClauses, Statement.readClauses]
      exact .ok hst
    | cons token conditions tail =>
      rw [List.length_cons] at hlen
      rw [readClauses_cons, readClauses_cons, ← token, ← hst.tables]
      split
      · exact .ok hst
      split
      · exact ih _ (by omega) tail hst rfl
      intro r hr
      obtain ⟨⟨clause, rest⟩, hclause, hr⟩ := exists_of_bind_eq_ok hr
      obtain ⟨⟨clause', rest'⟩, hclause', hkeeps, hrest⟩ :=
        (Respaced.cons token conditions tail).readClause _ _ hclause
      have hshort := length_readClause_le hclause
      rw [hclause']
      exact ih rest.length (by omega) hrest (hkeeps s t hst) rfl r hr

theorem Respaced.readSelect (h : Respaced ls ms) :
    Matched Select.Twins (readSelect ls) (readSelect ms) := by
  have hitems : Respaced
      (readSelectItems (ls.dropWhile (·.token.isAnyKeyword ["DISTINCT", "ALL"]))).2
      (readSelectItems (ms.dropWhile (·.token.isAnyKeyword ["DISTINCT", "ALL"]))).2 :=
    (h.dropWhile (·.isAnyKeyword ["DISTINCT", "ALL"])).splitItems 0
  rw [Statement.readSelect, Statement.readSelect]
  dsimp only
  rw [hitems.peek_eq]
  split
  · obtain ⟨htables, hrest⟩ := (hitems.drop 1).readTables
    exact hrest.readClauses ⟨htables, [], by simp [Twin.compared], rfl, rfl⟩
  · exact hitems.readClauses ⟨rfl, [], by simp [Twin.compared], rfl, rfl⟩

end Statement

end DocQuery
