import DocQuery.Proofs.Statement.Boundary
import DocQuery.Proofs.Token.Segmentation

/-! Splitting conditions loses nothing. The lexemes up to the end of a condition list are cut into
comparisons and connectives, and each comparison is written as in the source. -/

namespace DocQuery.Statement

open Lexeme (source source_append spans spanAfter getElem?_spans runText)

/-! ### Where the conditions end -/

/-- Conditions end with the statement, and outside brackets at a closing bracket or the next clause. -/
def StopsAt (depth : Int) (token : Token) : Prop :=
  token = .eof ∨ token = .semicolon ∨
    depth = 0 ∧ (token = .rparen ∨
      ∃ keyword ∈ ["FROM", "WHERE", "GROUP", "HAVING", "ORDER", "LIMIT", "USE", "FORCE", "IGNORE"],
        token.IsWord keyword)

theorem stopsAt_iff {depth : Nat} {token : Token} :
    StopsAt depth token ↔ endsConditions depth token = true := by
  have hclause : token.isAnyKeyword Token.clauseWords = true ↔
      ∃ keyword ∈ ["FROM", "WHERE", "GROUP", "HAVING", "ORDER", "LIMIT", "USE", "FORCE", "IGNORE"],
        token.IsWord keyword := by
    simp only [Token.isAnyKeyword_iff, Token.isWord_iff, Token.clauseWords]
  rw [StopsAt, ← hclause]
  cases token <;> simp [endsConditions, Token.isAnyKeyword, Token.isKeyword]

/-- Up to the first lexeme that ends the conditions, every closing bracket has a partner. -/
theorem depthAlong_of_unstopped {used : List Lexeme}
    (h : ∀ read (l : Lexeme) unread, used = read ++ l :: unread →
      endsConditions (depthAlong 0 read) l.token = false) (read unread : List Lexeme)
    (hsplit : used = read ++ unread) : (depthAlong 0 read : Int) = nesting read := by
  induction read using List.reverseRecOn generalizing unread with
  | nil => rfl
  | append_singleton read l ih =>
    rw [List.append_assoc] at hsplit
    have hread := ih (l :: unread) hsplit
    have hl := h read l unread hsplit
    have hnext : (depthAfter (depthAlong 0 read) l.token : Int) =
        depthAlong 0 read + l.token.nesting := by
      refine depthAfter_eq_nesting fun hparen => ?_
      rw [hparen] at hl
      simpa [endsConditions, Nat.pos_iff_ne_zero] using hl
    rw [depthAlong_append, depthAlong_cons, depthAlong_nil, hnext, hread, nesting_append,
      nesting_cons]
    simp [nesting]

/-! ### The text of a comparison -/

theorem source_eq_runText {first : Lexeme} {run more : List Lexeme} (h : run = first :: more) :
    source run = first.gap ++ runText run := by
  simp [h, source, runText]

theorem extract_run {before run after : List Lexeme} (hrun : run ≠ []) :
    ∃ s t, (spans 0 (before ++ (run ++ after)))[before.length]? = some s ∧
      (spans 0 (before ++ (run ++ after)))[(before ++ run).length - 1]? = some t ∧
      (source (before ++ (run ++ after))).extract s.1 t.2.1 = runText run := by
  obtain ⟨first, more, hfirst⟩ := List.exists_cons_of_ne_nil hrun
  obtain ⟨init, last, hlast⟩ : ∃ init last, run = init ++ [last] :=
    ⟨_, _, (List.dropLast_concat_getLast hrun).symm⟩
  have hsource : source (before ++ run) = source before ++ first.gap ++ runText run := by
    rw [source_append, source_eq_runText hfirst, List.append_assoc]
  refine ⟨spanAfter before first, spanAfter (before ++ init) last, ?_, ?_, ?_⟩
  · rw [hfirst]
    exact getElem?_spans before (more ++ after) first
  · have hget := getElem?_spans (before ++ init) after last
    simpa [hlast, ← Nat.add_assoc] using hget
  · have hlength : (spanAfter (before ++ init) last).2.1 - (spanAfter before first).1 =
        (runText run).length := by
      rw [spanAfter, spanAfter, List.append_assoc, ← hlast, hsource]
      simp only [List.length_append]
      omega
    rw [List.extract, hlength, ← List.append_assoc, source_append, hsource, spanAfter,
      List.append_assoc _ (runText run), List.drop_left, List.take_left]

/-- The conditions that are read from the lexemes `ls`, which stand behind the lexemes `before`. -/
structure Splits (before ls : List Lexeme) (pieces : List Piece) (rest : List Lexeme) : Prop where
  partition : ls = pieces.flatMap Piece.lexemes ++ rest
  stops : StopsAt (nesting (pieces.flatMap Piece.lexemes)) (peek rest)
  goes_on : ∀ read l unread, pieces.flatMap Piece.lexemes = read ++ l :: unread →
    ¬ StopsAt (nesting read) l.token
  nonneg : ∀ read unread, pieces.flatMap Piece.lexemes = read ++ unread → 0 ≤ nesting read
  cut : Cut [] pieces
  /-- The text of a comparison is the source from the start of its first lexeme to the end of its
  last. -/
  slices : ∀ front run back, pieces = front ++ .leaf run :: back →
    ∃ s t names,
      (spans 0 (before ++ ls))[(before ++ front.flatMap Piece.lexemes).length]? = some s ∧
      (spans 0 (before ++ ls))[(before ++ front.flatMap Piece.lexemes ++ run).length - 1]? = some t ∧
      (Part.leaf run).condition =
        .leaf (String.ofList ((source (before ++ ls)).extract s.1 t.2.1)) names

/-- The conditions take up the lexemes in front of the first one that ends them. -/
theorem readConditions_splits (before ls : List Lexeme) :
    ∃ pieces rest, readConditions ls = (pieces.map fun p => p.part.condition, rest) ∧
      Splits before ls pieces rest := by
  obtain ⟨pieces, hconditions, hls, hcut⟩ := readConditions_cut ls
  obtain ⟨used, hused, hstop, hgo⟩ := splitConditions_stops 0 false ls
  obtain rfl : used = pieces.flatMap Piece.lexemes := List.append_cancel_right (hused.symm.trans hls)
  have hdepth := depthAlong_of_unstopped hgo
  refine ⟨pieces, (readConditions ls).2, Prod.ext hconditions rfl, ?_⟩
  constructor
  case partition => exact hls
  case cut => exact hcut
  case stops =>
    rw [← hdepth _ [] (List.append_nil _).symm, stopsAt_iff]
    cases hrest : (readConditions ls).2 with
    | nil => rfl
    | cons l rest => exact hstop l (congrArg List.head? hrest)
  case goes_on =>
    intro read l unread hsplit
    rw [← hdepth read (l :: unread) hsplit, stopsAt_iff, hgo read l unread hsplit]
    simp
  case nonneg =>
    intro read unread hsplit
    rw [← hdepth read unread hsplit]
    exact Int.natCast_nonneg _
  case slices =>
    rintro front run back rfl
    have hrun : run ≠ [] := hcut.sound (.leaf run) (by simp)
    have hbehind : before ++ ls = before ++ front.flatMap Piece.lexemes ++
        (run ++ (back.flatMap Piece.lexemes ++ (readConditions ls).2)) := by
      rw [List.append_assoc]
      refine congrArg _ (hls.trans ?_)
      simp [Piece.lexemes]
    obtain ⟨s, t, hs, ht, htext⟩ := extract_run hrun
    rw [← hbehind] at hs ht htext
    exact ⟨s, t, _, hs, ht, by rw [htext]; rfl⟩

end DocQuery.Statement
