import DocQuery.Proofs.Condition.Brackets
import DocQuery.Proofs.Respacing.Twin

/-! The brackets around a comparison that is spelled in two ways are found and dropped in both
spellings alike. -/

namespace DocQuery.Condition

open Twin (Cell Tight text)

theorem enclosesFrom_blanks {blanks : List Char} (h : ∀ c ∈ blanks, isBlank c = true)
    {quote : Option Char} (hquote : ∀ q ∈ quote, isBlank q = false) (depth : Int)
    (rest : List Char) :
    enclosesFrom depth quote (blanks ++ rest) = enclosesFrom depth quote rest := by
  induction blanks with
  | nil => rfl
  | cons c blanks ih =>
    have hc := h c List.mem_cons_self
    have hih := ih fun d hd => h d (List.mem_cons_of_mem c hd)
    cases quote with
    | some q =>
      have hne : c ≠ q := by
        rintro rfl
        simp [hquote c rfl] at hc
      simpa [enclosesFrom, hne] using hih
    | none =>
      have hd := isDelimiter_of_isBlank hc
      simp only [isDelimiter, Bool.or_eq_false_iff, beq_eq_false_iff_ne] at hd
      simpa [enclosesFrom, hd] using hih

theorem text_eq_nil_iff {t : List Cell} (hlast : ∀ cell ∈ t.getLast?, cell.isBlank = false)
    (second? : Bool) : text second? t = [] ↔ t = [] := by
  constructor
  · intro h
    rcases List.eq_nil_or_concat t with rfl | ⟨front, cell, rfl⟩
    · rfl
    · obtain ⟨c, rfl, -⟩ := Cell.exists_char (hlast cell (by simp))
      simp at h
  · rintro rfl
    rfl

theorem enclosesFrom_text {t : List Cell} (hlast : ∀ cell ∈ t.getLast?, cell.isBlank = false)
    {quote : Option Char} (hquote : ∀ q ∈ quote, isBlank q = false) (depth : Int) :
    enclosesFrom depth quote (text true t) = enclosesFrom depth quote (text false t) := by
  induction t generalizing depth quote with
  | nil => rfl
  | cons cell t ih =>
    have htail : ∀ cell ∈ t.getLast?, cell.isBlank = false := by
      intro last hlast'
      apply hlast
      cases t with
      | nil => simp at hlast'
      | cons next t => simpa using hlast'
    have hopen : ∀ q ∈ (none : Option Char), isBlank q = false := by simp
    cases cell with
    | gap first second =>
      rw [Twin.text_gap_cons, Twin.text_gap_cons,
        enclosesFrom_blanks (fun _ => Twin.isBlank_of_mem_gap) hquote,
        enclosesFrom_blanks (fun _ => Twin.isBlank_of_mem_gap) hquote, ih htail hquote]
    | char c =>
      -- The scan asks whether the text ends after a bracket, and a gap is never last.
      have hnil : text true t = [] ↔ text false t = [] := by
        rw [text_eq_nil_iff htail, text_eq_nil_iff htail]
      cases quote with
      | some q =>
        have hnext : ∀ r ∈ (if c = q then none else some q), isBlank r = false := by
          by_cases hc : c = q
          · simp [hc]
          · simpa [hc] using hquote
        simpa [enclosesFrom] using ih htail hnext depth
      | none =>
        by_cases hq : Literal.isQuote c = true
        · have hblank : isBlank c = false := by
            rw [← Bool.not_eq_true]
            intro hb
            simpa [isDelimiter, hq] using isDelimiter_of_isBlank hb
          simpa [enclosesFrom, hq] using ih htail (by simpa using hblank) depth
        · by_cases ho : c = '('
          · have hih := ih htail hopen (depth + 1)
            subst ho
            simpa [enclosesFrom, hq] using hih
          · by_cases hcl : c = ')'
            · have hih := ih htail hopen (depth - 1)
              subst hcl
              simp only [Twin.text_char_cons, enclosesFrom, hq, ho, if_false, if_true, ne_eq, hnil,
                hih]
              rfl
            · simpa [enclosesFrom, hq, ho, hcl] using ih htail hopen depth

theorem isWrapped_text {t : List Cell} (h : Tight t) (second? : Bool) :
    isWrapped (text second? t) = isWrapped (text false t) := by
  cases second? with
  | false => rfl
  | true =>
    have hscan : enclosesFrom 0 none (text true t) = enclosesFrom 0 none (text false t) :=
      enclosesFrom_text h.last (by simp) 0
    have hhead : (text true t).head? = (text false t).head? := by
      rcases h.cases_head with rfl | ⟨c, rest, rfl, -⟩ <;> rfl
    have hlast : (text true t).getLast? = (text false t).getLast? := by
      rcases h.cases_last with rfl | ⟨front, c, rfl, -⟩ <;> simp
    rw [isWrapped, isWrapped, hscan, hhead, hlast]

theorem exists_inner_of_isWrapped {t : List Cell} (h : Tight t)
    (hwrapped : isWrapped (text false t) = true) :
    ∃ inner, t = .char '(' :: (inner ++ [Cell.char ')']) := by
  simp only [isWrapped, Bool.and_eq_true, beq_iff_eq] at hwrapped
  obtain ⟨⟨hhead, hlast⟩, -⟩ := hwrapped
  rcases h.cases_last with rfl | ⟨front, d, rfl, -⟩
  · simp at hhead
  · have hd : d = ')' := by simpa using hlast
    subst hd
    cases front with
    | nil => simp at hhead
    | cons cell inner =>
      obtain ⟨c, rfl, -⟩ := Cell.exists_char (h.head cell rfl)
      have hc : c = '(' := by simpa using hhead
      exact ⟨inner, by rw [hc]; rfl⟩

theorem balance_text (second? : Bool) (t : List Cell) :
    balance (text second? t) = balance (text false t) := by
  induction t with
  | nil => rfl
  | cons cell t ih =>
    cases cell with
    | char c =>
      have hcons : ∀ s : List Char, balance (c :: s) = balance [c] + balance s :=
        balance_append [c]
      rw [Twin.text_char_cons, Twin.text_char_cons, hcons, ih, ← hcons]
    | gap first second =>
      cases second? with
      | false => rfl
      | true => simp [Twin.text_gap_cons, Cell.text, ih]

theorem depth_text (second? : Bool) (t : List Cell) (names : List String) :
    (leaf (String.ofList (text second? t)) names).depth =
      (leaf (String.ofList (text false t)) names).depth := by
  rw [depth_leaf, depth_leaf, balance_text]

end DocQuery.Condition

namespace DocQuery.Twin

open Condition (isWrapped isWrapped_text exists_inner_of_isWrapped)

def stripWrapping (t : List Cell) : List Cell :=
  if _h : isWrapped (text false t) then stripWrapping (trim t.tail.dropLast) else t
termination_by t.length
decreasing_by
  have hpos : t ≠ [] := by
    rintro rfl
    simp [isWrapped] at _h
  have hlen := List.length_pos_iff.mpr hpos
  have htrim := length_trim_le t.tail.dropLast
  simp only [List.length_dropLast, List.length_tail] at htrim
  omega

def stripClosing : Nat → List Cell → List Cell
  | 0, t => t
  | n + 1, t => stripClosing n (trimEnd (stripClose t))

def bare (depth : Int) (t : List Cell) : List Cell :=
  stripClosing (-depth).toNat (stripWrapping (trim t))

def open? (t : List Cell) : Option (List Cell) :=
  match trim t with
  | .char '(' :: inner => some inner
  | _ => none

def close (t : List Cell) : List Cell :=
  stripClose (trim t)

theorem stripWrapping_text {t : List Cell} (h : Tight t) :
    Tight (stripWrapping t) ∧
      ∀ second?, Condition.stripWrapping (text second? t) = text second? (stripWrapping t) := by
  fun_induction stripWrapping t with
  | case1 t hw ih =>
    obtain ⟨hr, htext⟩ := ih (tight_trim _)
    refine ⟨hr, fun second? => ?_⟩
    obtain ⟨inner, rfl⟩ := exists_inner_of_isWrapped h hw
    rw [Condition.stripWrapping, dif_pos (by rw [isWrapped_text h, hw]), ← htext]
    simp [trim_text]
  | case2 t hw =>
    refine ⟨h, fun second? => Condition.stripWrapping_of_not_isWrapped ?_⟩
    rw [isWrapped_text h]
    simpa using hw

theorem stripClosing_text (n : Nat) {t : List Cell} (h : Tight t) (second? : Bool) :
    Condition.stripClosing n (text second? t) = text second? (stripClosing n t) := by
  induction n generalizing t with
  | zero => rfl
  | succ n ih =>
    have hhead := head_stripClose h
    rw [Condition.stripClosing, stripLast_text h, trimEnd_text hhead, ih (tight_trimEnd hhead),
      stripClosing]

theorem bareText_text (depth : Int) (t : List Cell) (second? : Bool) :
    Condition.bareText depth (text second? t) = text second? (bare depth t) := by
  obtain ⟨htight, hstrip⟩ := stripWrapping_text (tight_trim t)
  rw [Condition.bareText, trim_text, hstrip, stripClosing_text _ htight, bare]

theorem openText?_text (t : List Cell) (second? : Bool) :
    Condition.openText? (String.ofList (text second? t)) = (open? t).map (text second?) := by
  rw [Condition.openText?, String.toList_ofList, trim_text, open?]
  rcases (tight_trim t).cases_head with hnil | ⟨c, rest, hrest, -⟩
  · rw [hnil]
    rfl
  · rw [hrest, text_char_cons]
    by_cases hc : c = '('
    · subst hc
      rfl
    · split <;> split <;> simp_all

theorem closeText_text (t : List Cell) (second? : Bool) :
    Condition.closeText (String.ofList (text second? t)) =
      String.ofList (text second? (close t)) := by
  rw [Condition.closeText, String.toList_ofList, trim_text, stripLast_text (tight_trim t), close]

end DocQuery.Twin
