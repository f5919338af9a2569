import DocQuery.Statement.Reader

/-! A select item that calls a function has an opening bracket in its text. A lexeme of that token
is spelled so, the runs of a select list are made of the lexemes of the source, and no later clause
changes the items. -/

namespace DocQuery

namespace Lexeme

open Statement (exists_of_bind_eq_ok)

theorem quotedToken_ne {make : String → Token} {token : Token} (h : ∀ value, make value ≠ token)
    (quote : Char) (escapes : Bool) (text : List Char) (n : Nat) :
    quotedToken quote escapes make text ≠ .ok (token, n) := by
  intro hq
  obtain ⟨⟨value, length⟩, -, hv⟩ := exists_of_bind_eq_ok hq
  cases hv
  exact h _ rfl

theorem eq_of_next_lparen {c : Char} {text : List Char} {n : Nat}
    (h : next c text = .ok (.lparen, n)) : c = '(' := by
  fun_cases next c text <;> simp_all [next, quotedToken_ne]

/-- What holds of every token where it is read holds of all lexemes of a source text. -/
theorem forall_mem_of_all {P : Lexeme → Prop} (heof : ∀ gap, P ⟨gap, [], .eof⟩)
    (hnext : ∀ {c : Char} {text : List Char} {token : Token} {n : Nat} (gap : List Char),
      next c text = .ok (token, n) → P ⟨gap, c :: text.take n, token⟩)
    {source : List Char} {ls : List Lexeme} (h : all source = .ok ls) : ∀ l ∈ ls, P l := by
  induction source using all.induct generalizing ls with
  | case1 source gap hsplit =>
    have hls : ls = [⟨gap, [], .eof⟩] := by
      rw [all] at h
      split at h <;> simp_all
    simpa [hls] using heof gap
  | case2 source gap c text hsplit fault hfault =>
    rw [all] at h
    split at h <;> simp_all
  | case3 source gap c text hsplit token n htoken e hrest ih =>
    rw [all] at h
    split at h <;> simp_all
  | case4 source gap c text hsplit token n htoken lexemes hrest ih =>
    have hls : ls = ⟨gap, c :: text.take n, token⟩ :: lexemes := by
      rw [all] at h
      split at h <;> simp_all
    subst hls
    intro l hl
    rcases List.mem_cons.mp hl with rfl | hl
    · exact hnext gap htoken
    · exact ih hrest l hl

theorem lparen_mem_text_of_all {source : List Char} {ls : List Lexeme} (h : all source = .ok ls) :
    ∀ l ∈ ls, l.token = .lparen → '(' ∈ l.text := by
  refine forall_mem_of_all (fun _ => by simp) ?_ h
  intro c text token n gap hnext htoken
  simp only at htoken
  rw [htoken] at hnext
  simp [eq_of_next_lparen hnext]

end Lexeme

namespace Statement

theorem eq_ok_of_toOption {ε α : Type} {x : Except ε α} {a : α} (h : x.toOption = some a) :
    x = .ok a := by
  cases x with
  | error e => cases h
  | ok b =>
    cases h
    rfl

theorem mem_consRun {l : Lexeme} {run : List Lexeme} {runs : List (List Lexeme)}
    (h : run ∈ consRun l runs) : ∀ m ∈ run, m = l ∨ ∃ other ∈ runs, m ∈ other := by
  cases runs with
  | nil =>
    have hrun : run = [l] := by simpa [consRun] using h
    simp [hrun]
  | cons first runs =>
    rcases List.mem_cons.mp h with rfl | h
    · intro m hm
      exact (List.mem_cons.mp hm).imp_right fun hm => ⟨first, List.mem_cons_self, hm⟩
    · exact fun m hm => .inr ⟨run, List.mem_cons_of_mem _ h, hm⟩

theorem mem_of_mem_splitItems {depth : Nat} {ls : List Lexeme} :
    ∀ run ∈ (splitItems depth ls).1, ∀ l ∈ run, l ∈ ls := by
  fun_induction splitItems depth ls with
  | case1 => simp
  | case2 depth l ls hends hcomma runs rest hsplit ih =>
    rw [hsplit] at ih
    intro run hrun m hm
    rcases List.mem_cons.mp hrun with rfl | hrun
    · simp at hm
    · exact List.mem_cons_of_mem _ (ih run hrun m hm)
  | case3 => simp
  | case4 depth l ls hends runs rest hsplit ih =>
    rw [hsplit] at ih
    intro run hrun m hm
    rcases mem_consRun hrun m hm with rfl | ⟨other, hother, hm⟩
    · exact List.mem_cons_self
    · exact List.mem_cons_of_mem _ (ih other hother m hm)

theorem mem_of_mem_splitLabel {ls : List Lexeme} {l : Lexeme} (h : l ∈ (splitLabel ls).2) :
    l ∈ ls := by
  fun_cases splitLabel ls <;> grind [splitLabel]

theorem exists_lparen_of_calledFunction {ls : List Lexeme} (h : (calledFunction ls).isSome) :
    ∃ l ∈ ls, l.token = .lparen := by
  fun_induction calledFunction ls with
  | case1 l m ls name hm hl => exact ⟨m, by simp, hm⟩
  | case2 l m ls hnot ih =>
    obtain ⟨k, hk, hlparen⟩ := ih h
    exact ⟨k, List.mem_cons_of_mem _ hk, hlparen⟩
  | case3 => simp at h

theorem mem_runText {run : List Lexeme} {l : Lexeme} (hl : l ∈ run) {c : Char} (hc : c ∈ l.text) :
    c ∈ Lexeme.runText run := by
  cases run with
  | nil => simp at hl
  | cons first rest =>
    rcases List.mem_cons.mp hl with rfl | hl
    · exact List.mem_append_left _ hc
    · refine List.mem_append_right _ (List.mem_flatMap.mpr ⟨l, hl, ?_⟩)
      exact List.mem_append_right _ hc

end Statement

/-- A function is called in the text. -/
def SelectItem.IsSpelled (item : SelectItem) : Prop :=
  item.function.isSome → '(' ∈ item.expr.toList

namespace Statement

theorem isSpelled_selectItem {run : List Lexeme}
    (h : ∀ l ∈ run, l.token = .lparen → '(' ∈ l.text) : (selectItem run).IsSpelled := by
  intro hcalled
  obtain ⟨l, hl, hlparen⟩ := exists_lparen_of_calledFunction hcalled
  have hrun : l ∈ run := by
    simpa using mem_of_mem_splitLabel (List.mem_reverse.mp hl)
  have hmem := mem_runText hl (h l hrun hlparen)
  change '(' ∈ (textOf _).toList
  rwa [textOf, String.toList_ofList]

theorem items_of_readClauses {s t : Select} {ls : List Lexeme} (h : readClauses s ls = .ok t) :
    t.items = s.items := by
  fun_induction readClauses s ls with
  | case1 => simp_all
  | case2 => simp_all
  | case3 s l ls _ _ ih => exact ih h
  | case4 => simp at h
  | case5 s l ls _ _ clause rest hclause ih =>
    rw [ih h]
    cases clause <;> rfl

theorem items_of_readSelect {ls : List Lexeme} {s : Select} (h : readSelect ls = .ok s) :
    s.items = (readSelectItems (ls.dropWhile (·.token.isAnyKeyword ["DISTINCT", "ALL"]))).1 := by
  exact items_of_readClauses h

theorem exists_readSelect_of_ofLexemes {ls : List Lexeme} {s : Select}
    (h : ofLexemes ls = .ok (some (.select s))) :
    ∃ l rest, ls.dropWhile (·.token = .semicolon) = l :: rest ∧ readSelect rest = .ok s := by
  unfold ofLexemes at h
  split at h
  · simp at h
  · rename_i l rest hls
    refine ⟨l, rest, hls, ?_⟩
    split at h
    · simp only at h
      split at h
      · cases hread : readSelect rest <;> simp_all [Except.map]
      · split at h <;> simp at h
    · simp at h

theorem isSpelled_of_ofLexemes {ls : List Lexeme}
    (hls : ∀ l ∈ ls, l.token = .lparen → '(' ∈ l.text) {s : Select}
    (h : ofLexemes ls = .ok (some (.select s))) : ∀ item ∈ s.items, item.IsSpelled := by
  obtain ⟨l, rest, hstart, hread⟩ := exists_readSelect_of_ofLexemes h
  have hrest : ∀ m ∈ rest, m ∈ ls := by
    intro m hm
    have hmem : m ∈ ls.dropWhile (·.token = .semicolon) := hstart ▸ List.mem_cons_of_mem _ hm
    exact (List.dropWhile_sublist _).subset hmem
  intro item hitem
  rw [items_of_readSelect hread] at hitem
  obtain ⟨run, hrun, rfl⟩ := List.mem_map.mp hitem
  apply isSpelled_selectItem
  intro m hm
  have hmem := mem_of_mem_splitItems run (List.mem_filter.mp hrun).1 m hm
  exact hls m (hrest m ((List.dropWhile_sublist _).subset hmem))

theorem exists_lexemes_of_ofSource {sql : String} {statement : Statement}
    (h : ofSource sql = .ok (some statement)) :
    ∃ ls, Lexeme.ofSource sql = .ok ls ∧ ofLexemes ls = .ok (some statement) := by
  unfold ofSource at h
  cases hls : Lexeme.ofSource sql with
  | error e => simp [hls] at h
  | ok ls =>
    refine ⟨ls, rfl, ?_⟩
    cases hof : ofLexemes ls <;> simp_all

theorem isSpelled_of_ofSource {sql : String} {s : Select}
    (h : ofSource sql = .ok (some (.select s))) : ∀ item ∈ s.items, item.IsSpelled := by
  obtain ⟨ls, hls, hof⟩ := exists_lexemes_of_ofSource h
  exact isSpelled_of_ofLexemes (Lexeme.lparen_mem_text_of_all (Lexeme.ofSource_eq_ok_iff.mp hls)) hof

end Statement

end DocQuery
