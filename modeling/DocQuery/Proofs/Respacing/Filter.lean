import DocQuery.Proofs.Query.Stages
import DocQuery.Proofs.Respacing.Statement
import DocQuery.Proofs.Statement.Items

/-! The filter of a query does not depend on the gaps between its lexemes, as long as its conditions
agree. Outside of comparisons a gap may be anything, a comment too. In a comparison a gap that
changes has to be blank, and it may be empty in one spelling only where no word depends on it: next
to a comparator, next to the bracket of a group, and next to a comma or an outer bracket of the list
of an `IN`. -/

namespace DocQuery.Query

theorem reduce_of_find {registry : Registry} {s : Select} {q : FindQuery}
    (h : ofSelect registry s = .ok (some (.find q))) :
    (Condition.reduce registry s.conditions).toOption = some q.filter := by
  unfold ofSelect at h
  split at h
  · cases h
  · obtain ⟨filter, hfilter, h⟩ := Statement.exists_of_bind_eq_ok h
    have hq : q.filter = filter := by
      split at h
      · cases h
      split at h
      · split at h
        · cases h
          rfl
        · cases h
      · obtain ⟨query, -, h⟩ := Statement.exists_of_bind_eq_ok h
        cases h
    unfold reduceConditions at hfilter
    split at hfilter
    · rename_i reduced hreduce
      cases hfilter
      rw [hreduce, hq]
      rfl
    · cases hfilter

def findsBy (size : Nat) : Query → Bool
  | .find q => q.filter.length == size
  | .aggregate _ => false

theorem exists_of_findsBy {result : Except QueryError (Option Query)} {size : Nat}
    (h : result.toOption.join.any (findsBy size) = true) :
    ∃ q, result = .ok (some (.find q)) ∧ q.filter.length = size := by
  obtain ⟨query, hquery, hsize⟩ := exists_of_any h
  cases query with
  | find q => exact ⟨q, hquery, beq_iff_eq.mp hsize⟩
  | aggregate q => cases hsize

theorem exists_lexemes {sql other : String} {p : List Lexeme → List Lexeme → Bool}
    (h : ((Lexeme.ofSource sql).toOption.any fun ls =>
      (Lexeme.ofSource other).toOption.any fun ms => p ls ms) = true) :
    ∃ ls ms, Lexeme.ofSource sql = .ok ls ∧ Lexeme.ofSource other = .ok ms ∧ p ls ms = true := by
  obtain ⟨ls, hls, h⟩ := (Option.any_eq_true _ _).mp h
  obtain ⟨ms, hms, h⟩ := (Option.any_eq_true _ _).mp h
  exact ⟨ls, ms, Statement.eq_ok_of_toOption hls, Statement.eq_ok_of_toOption hms, h⟩

def compactSql : String :=
  "SELECT a FROM t WHERE (a=1 OR b IN ('x, y',2)) AND c = 'p  q'"

def formattedSql : String :=
  "SELECT a -- all\nFROM t WHERE ( a = 1 OR b IN ( 'x, y', 2 ) )\nAND /* c */ c= 'p  q'"

theorem filter_eq_of_respaced (registry : Registry) (sql other : String) (ls ms : List Lexeme)
    (hls : Lexeme.ofSource sql = .ok ls) (hms : Lexeme.ofSource other = .ok ms)
    (h : Statement.Respaced ls ms) (q r : FindQuery)
    (hq : ofSql registry sql = .ok (some (.find q)))
    (hr : ofSql registry other = .ok (some (.find r))) : q.filter = r.filter := by
  obtain ⟨s, hs, hfind⟩ := exists_select_of_ofSql hq
  obtain ⟨t, ht, hfind'⟩ := exists_select_of_ofSql hr
  obtain ⟨_, hls', hof⟩ := Statement.exists_lexemes_of_ofSource hs
  obtain ⟨_, hms', hof'⟩ := Statement.exists_lexemes_of_ofSource ht
  cases hls.symm.trans hls'
  cases hms.symm.trans hms'
  obtain ⟨l, rest, hstart, hread⟩ := Statement.exists_readSelect_of_ofLexemes hof
  obtain ⟨m, rest', hstart', hread'⟩ := Statement.exists_readSelect_of_ofLexemes hof'
  have hrespaced := h.dropWhile (· = .semicolon)
  rw [hstart, hstart'] at hrespaced
  cases hrespaced with
  | cons token conditions tail =>
    obtain ⟨t', hread'', hst⟩ := tail.readSelect s hread
    rw [hread'] at hread''
    cases hread''
    obtain ⟨es, hsettles, hfirst, hsecond⟩ := hst.conditions
    have hreduce := Twin.toOption_reduceFrom registry hsettles true []
    rw [← hfirst, ← hsecond] at hreduce
    have hfilter := (reduce_of_find hfind').symm.trans (hreduce.trans (reduce_of_find hfind))
    exact (Option.some.inj hfilter).symm

theorem filter_eq_of_respaced_formatted :
    ∃ ls ms q r, Lexeme.ofSource compactSql = .ok ls ∧ Lexeme.ofSource formattedSql = .ok ms ∧
      Statement.Respaced ls ms ∧ ofSql .default compactSql = .ok (some (.find q)) ∧
      ofSql .default formattedSql = .ok (some (.find r)) ∧ q.filter.length = 2 ∧
      q.filter = r.filter := by
  have hlexemes : ((Lexeme.ofSource compactSql).toOption.any fun ls =>
      (Lexeme.ofSource formattedSql).toOption.any fun ms =>
        decide (Statement.Respaced ls ms)) = true := by decide +kernel
  have hsize : (ofSql .default compactSql).toOption.join.any (findsBy 2) = true := by
    decide +kernel
  have hsize' : (ofSql .default formattedSql).toOption.join.any (findsBy 2) = true := by
    decide +kernel
  obtain ⟨ls, ms, hls, hms, h⟩ := exists_lexemes hlexemes
  obtain ⟨q, hq, hlength⟩ := exists_of_findsBy hsize
  obtain ⟨r, hr, -⟩ := exists_of_findsBy hsize'
  exact ⟨ls, ms, q, r, hls, hms, of_decide_eq_true h, hq, hr, hlength,
    filter_eq_of_respaced .default _ _ ls ms hls hms (of_decide_eq_true h) q r hq hr⟩

/-- A comment in a comparison is taken for words of it, and the condition is lost. -/
theorem filter_ne_of_comment :
    ∃ ls ms q r, Lexeme.ofSource "SELECT * FROM t WHERE a = 1" = .ok ls ∧
      Lexeme.ofSource "SELECT * FROM t WHERE a /* x */ = 1" = .ok ms ∧
      ls.map (·.token) = ms.map (·.token) ∧
      ofSql .default "SELECT * FROM t WHERE a = 1" = .ok (some (.find q)) ∧
      ofSql .default "SELECT * FROM t WHERE a /* x */ = 1" = .ok (some (.find r)) ∧
      q.filter ≠ r.filter := by
  have hlexemes : ((Lexeme.ofSource "SELECT * FROM t WHERE a = 1").toOption.any fun ls =>
      (Lexeme.ofSource "SELECT * FROM t WHERE a /* x */ = 1").toOption.any fun ms =>
        decide (ls.map (·.token) = ms.map (·.token))) = true := by decide +kernel
  have hsize : (ofSql .default "SELECT * FROM t WHERE a = 1").toOption.join.any (findsBy 1) =
      true := by decide +kernel
  have hsize' : (ofSql .default "SELECT * FROM t WHERE a /* x */ = 1").toOption.join.any
      (findsBy 0) = true := by decide +kernel
  obtain ⟨ls, ms, hls, hms, htokens⟩ := exists_lexemes hlexemes
  obtain ⟨q, hq, hlength⟩ := exists_of_findsBy hsize
  obtain ⟨r, hr, hlength'⟩ := exists_of_findsBy hsize'
  refine ⟨ls, ms, q, r, hls, hms, of_decide_eq_true htokens, hq, hr, fun heq => ?_⟩
  rw [heq] at hlength
  omega

end DocQuery.Query
