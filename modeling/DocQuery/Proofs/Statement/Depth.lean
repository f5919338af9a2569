import DocQuery.Proofs.Statement.Remainder
import DocQuery.Proofs.Token.Brackets

/-! The depth of a comparison is computed from its text, less the brackets in the names and strings
it mentions. It is the number of bracket tokens left open, except that two kinds of other brackets
count as well: those in comments, and those in a name or string that is mentioned again. -/

namespace DocQuery.Statement

open Condition (balance balance_append bracketBalance namesBalance namesBalance_append)
open Lexeme (tokenBalance runText)

def nesting (run : List Lexeme) : Int :=
  (run.countP (·.token = .lparen) : Int) - run.countP (·.token = .rparen)

/-- The names that have been seen before. -/
def repeated (seen : List String) : List String → List String
  | [] => []
  | name :: names =>
    if seen.contains name then name :: repeated seen names else repeated (seen ++ [name]) names

/-- Opening minus closing brackets that are no tokens and count all the same. -/
def strayBalance (run : List Lexeme) : Int :=
  balance (run.tail.flatMap Lexeme.gap) + namesBalance (repeated [] (mentions run))

theorem nesting_cons (l : Lexeme) (run : List Lexeme) :
    nesting (l :: run) = l.token.nesting + nesting run := by
  simp only [nesting, List.countP_cons, decide_eq_true_eq]
  cases l.token <;> simp [Token.nesting] <;> omega

theorem namesBalance_mentions_cons (l : Lexeme) (run : List Lexeme) :
    namesBalance (mentions (l :: run)) =
      namesBalance (mentioned? l.token).toList + namesBalance (mentions run) := by
  cases hl : mentioned? l.token with
  | none => simp [mentions, hl, namesBalance]
  | some name => simp [mentions, hl, namesBalance]

/-- Listing a name once leaves out the brackets of its repetitions. -/
theorem namesBalance_distinct (names : List String) :
    namesBalance (distinct names) + namesBalance (repeated [] names) = namesBalance names := by
  have hseen : ∀ seen : List String,
      namesBalance (names.foldl (fun seen name => if seen.contains name then seen
        else seen ++ [name]) seen) + namesBalance (repeated seen names) =
      namesBalance seen + namesBalance names := by
    induction names with
    | nil => simp [repeated]
    | cons name names ih =>
      intro seen
      by_cases hname : seen.contains name = true
      · have hih := ih seen
        simp only [List.foldl_cons, repeated, hname, if_true, namesBalance]
        omega
      · have hih := ih (seen ++ [name])
        simp only [namesBalance_append, namesBalance] at hih
        simp only [List.foldl_cons, repeated, hname, Bool.false_eq_true, if_false, namesBalance]
        omega
  simpa [distinct, namesBalance] using hseen []

theorem balance_source {run : List Lexeme} (h : ∀ l ∈ run, balance l.text = tokenBalance l.token) :
    balance (run.flatMap fun l => l.gap ++ l.text) =
      balance (run.flatMap Lexeme.gap) + nesting run + namesBalance (mentions run) := by
  induction run with
  | nil => rfl
  | cons l run ih =>
    have hl := h l List.mem_cons_self
    have hrun := ih fun m hm => h m (List.mem_cons_of_mem l hm)
    simp only [List.flatMap_cons, balance_append, nesting_cons, namesBalance_mentions_cons, hrun, hl,
      tokenBalance]
    omega

theorem depth_condition {run : List Lexeme}
    (h : ∀ l ∈ run, balance l.text = tokenBalance l.token) :
    (Part.leaf run).condition.depth = nesting run + strayBalance run := by
  have hnames := namesBalance_distinct (mentions run)
  rw [Part.condition, textOf, Condition.depth_leaf]
  cases run with
  | nil => rfl
  | cons l run =>
    have hl := h l List.mem_cons_self
    have hrun := balance_source fun m hm => h m (List.mem_cons_of_mem l hm)
    rw [namesBalance_mentions_cons] at hnames
    simp only [runText, balance_append, hrun, hl, tokenBalance, nesting_cons, strayBalance,
      List.tail_cons]
    omega

/-- The conditions behind `WHERE` and `HAVING` cover the lexemes up to the end of their clause. The
depth of each comparison there is the number of opening less that of closing bracket tokens among
its lexemes, if and only if the stray brackets in it cancel out. -/
theorem depth_eq_nesting_iff {sql : String} {s : Select}
    (h : ofSource sql = .ok (some (.select s))) :
    ∃ ls, Lexeme.ofSource sql = .ok ls ∧
      ∀ clause ∈ [("WHERE", s.conditions), ("HAVING", s.having)],
        clause.2 = [] ∨ ∃ before l pieces after,
          ls = before ++ l :: (pieces.flatMap Piece.lexemes ++ after) ∧
          l.token.isKeyword clause.1 = true ∧ Cut [] pieces ∧
          clause.2 = pieces.map (fun p => p.part.condition) ∧
          ∀ run, .leaf run ∈ pieces →
            (Part.leaf run).condition.depth = nesting run + strayBalance run ∧
            ((Part.leaf run).condition.depth = nesting run ↔ strayBalance run = 0) := by
  obtain ⟨ls, hls, hwhere, hhaving⟩ := isReadFrom_of_ofSource h
  refine ⟨ls, hls, ?_⟩
  have hstands : ∀ clause ∈ [("WHERE", s.conditions), ("HAVING", s.having)],
      StandsAfter clause.1 clause.2 ls := by
    simpa using ⟨hwhere, hhaving⟩
  intro clause hclause
  obtain hnone | ⟨before, l, rest, rfl, hword, hread⟩ := hstands clause hclause
  · exact .inl hnone
  obtain ⟨pieces, hconditions, hrest, hcut⟩ := readConditions_cut rest
  refine .inr ⟨before, l, pieces, _, by rw [← hrest], hword, hcut, hread.trans hconditions, ?_⟩
  intro run hrun
  have hmem : ∀ m ∈ run, m ∈ before ++ l :: rest := by
    intro m hm
    have hpiece : m ∈ pieces.flatMap Piece.lexemes := List.mem_flatMap.mpr ⟨.leaf run, hrun, hm⟩
    rw [hrest]
    simp [hpiece]
  have hall := Lexeme.ofSource_eq_ok_iff.mp hls
  have hdepth := depth_condition fun m hm => Lexeme.balance_text_of_all hall m (hmem m hm)
  exact ⟨hdepth, by omega⟩

/-- A group with a bracket in its string, and an `IN` list that ends with the bracket of the group:
none of the brackets is stray. -/
theorem depth_eq_nesting_group :
    let sql := "SELECT a FROM t WHERE (a = ':(' OR b IN (1, 2))"
    let s : Select :=
      { items := [⟨"a", none, none⟩], tables := [⟨"t", none, none⟩],
        conditions := [.leaf "(a = ':('" ["a", ":("], .connective "OR", .leaf "b IN (1, 2))" ["b"]] }
    ofSource sql = .ok (some (.select s)) ∧ s.conditions.map Condition.depth = [1, 0, -1] ∧
      ∃ ls before l pieces after, Lexeme.ofSource sql = .ok ls ∧
        ls = before ++ l :: (pieces.flatMap Piece.lexemes ++ after) ∧
        l.token.isKeyword "WHERE" = true ∧ Cut [] pieces ∧
        s.conditions = pieces.map (fun p => p.part.condition) ∧
        ∀ run, .leaf run ∈ pieces →
          ((Part.leaf run).condition.depth = nesting run ↔ strayBalance run = 0) := by
  intro sql s
  have hs : ofSource sql = .ok (some (.select s)) := eq_ok_of_toOption (by decide +kernel)
  obtain ⟨ls, hls, hclauses⟩ := depth_eq_nesting_iff hs
  obtain hnone | ⟨before, l, pieces, after, hsplit, hword, hcut, hread, hdepth⟩ :=
    hclauses ("WHERE", s.conditions) (by simp)
  · cases hnone
  · exact ⟨hs, by decide, ls, before, l, pieces, after, hls, hsplit, hword, hcut, hread,
      fun run hrun => (hdepth run hrun).2⟩

/-- A string with a bracket, given twice: a bracket is left open where no token is one. -/
theorem depth_ne_nesting_repeated :
    let sql := "SELECT * FROM t WHERE a BETWEEN ':(' AND ':('"
    let s : Select :=
      { items := [⟨"*", none, none⟩], tables := [⟨"t", none, none⟩],
        conditions := [.leaf "a BETWEEN ':(' AND ':('" ["a", ":("]] }
    let before : List Lexeme :=
      [⟨[], "SELECT".toList, .word "SELECT"⟩, ⟨[' '], ['*'], .star⟩,
        ⟨[' '], "FROM".toList, .word "FROM"⟩, ⟨[' '], ['t'], .word "t"⟩,
        ⟨[' '], "WHERE".toList, .word "WHERE"⟩]
    let run : List Lexeme :=
      [⟨[' '], ['a'], .word "a"⟩, ⟨[' '], "BETWEEN".toList, .word "BETWEEN"⟩,
        ⟨[' '], "':('".toList, .string ":(" .single⟩, ⟨[' '], "AND".toList, .word "AND"⟩,
        ⟨[' '], "':('".toList, .string ":(" .single⟩]
    ofSource sql = .ok (some (.select s)) ∧
      Lexeme.ofSource sql = .ok (before ++ run ++ [⟨[], [], .eof⟩]) ∧
      s.conditions = [(Part.leaf run).condition] ∧
      (Part.leaf run).condition.depth = 1 ∧ nesting run = 0 := by
  intro sql s before run
  exact ⟨eq_ok_of_toOption (by decide +kernel), eq_ok_of_toOption (by decide +kernel), rfl,
    by decide, by decide⟩

end DocQuery.Statement
