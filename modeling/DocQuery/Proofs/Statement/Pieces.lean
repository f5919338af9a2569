import DocQuery.Statement.ConditionList
import Mathlib.Data.List.Basic

/-! A condition list is cut into comparisons and the connectives between them. Every lexeme is in
one of the pieces, and a connective is inside a comparison only as the `AND` of a `BETWEEN`. -/

namespace DocQuery

namespace Token

/-- A word that spells the keyword in any letter case. -/
def IsWord (keyword : String) (token : Token) : Prop :=
  ∃ name, token = .word name ∧ name.toList.map Char.toUpper = keyword.toList

theorem isWord_iff {keyword : String} {token : Token} :
    token.IsWord keyword ↔ token.isKeyword keyword = true := by
  cases token <;> simp [IsWord, isKeyword, Text.upper]

/-- The tokens that join two conditions. -/
inductive Joins : Token → String → Prop where
  | and {token : Token} (h : token.IsWord "AND") : Joins token "AND"
  | or {token : Token} (h : token.IsWord "OR") : Joins token "OR"
  | andAnd : Joins .andAnd "AND"
  | orOr : Joins .orOr "OR"

theorem joins_iff {token : Token} {word : String} :
    token.Joins word ↔ token.connective? = some word := by
  constructor
  · rintro (⟨name, rfl, hname⟩ | ⟨name, rfl, hname⟩ | _ | _)
    · simp [connective?, isKeyword, Text.upper, hname]
    · simp [connective?, isKeyword, Text.upper, hname]
    · rfl
    · rfl
  · intro h
    unfold connective? at h
    split at h
    · cases h
      exact .andAnd
    · cases h
      exact .orOr
    split at h
    · rename_i hand
      cases h
      exact .and (isWord_iff.mpr hand)
    split at h
    · rename_i hor
      cases h
      exact .or (isWord_iff.mpr hor)
    · cases h

theorem Joins.unique {token : Token} {word other : String} (h : token.Joins word)
    (h' : token.Joins other) : word = other :=
  Option.some.inj ((joins_iff.mp h).symm.trans (joins_iff.mp h'))

theorem Joins.not_between {token : Token} {word : String} (h : token.Joins word) :
    ¬ token.IsWord "BETWEEN" := by
  rintro ⟨name, rfl, hname⟩
  rw [joins_iff] at h
  simp [connective?, isKeyword, Text.upper, hname] at h

end Token

namespace Statement

inductive Piece where
  | leaf (run : List Lexeme)
  | connective (l : Lexeme) (word : String)

namespace Piece

def part : Piece → Part
  | leaf run => .leaf run
  | connective _ word => .connective word

def isLeaf : Piece → Bool
  | leaf _ => true
  | connective _ _ => false

def lexemes : Piece → List Lexeme
  | leaf run => run
  | connective l _ => [l]

/-- A comparison has a lexeme, and a connective is the one that its lexeme stands for. -/
def Sound : Piece → Prop
  | leaf run => run ≠ []
  | connective l word => l.token.Joins word

/-- The lexemes, each with whether it is inside a comparison. -/
def tagged : Piece → List (Lexeme × Bool)
  | leaf run => run.map (·, true)
  | connective l _ => [(l, false)]

end Piece

/-- Behind these lexemes the next `AND` belongs to a `BETWEEN`. -/
def AwaitsAnd (read : List Lexeme) : Prop :=
  ∃ (earlier : List Lexeme) (l : Lexeme) (later : List Lexeme), read = earlier ++ l :: later ∧
    l.token.IsWord "BETWEEN" ∧ ∀ m ∈ later, ¬ m.token.Joins "AND"

/-- A connective behind the lexemes `earlier` is inside a comparison if and only if it is the `AND`
of a `BETWEEN`. -/
def Marked (earlier : List Lexeme) (tags : List (Lexeme × Bool)) : Prop :=
  ∀ read l inside unread word, tags = read ++ (l, inside) :: unread → l.token.Joins word →
    (inside = true ↔ word = "AND" ∧ AwaitsAnd (earlier ++ read.map Prod.fst))

/-- The pieces are comparisons with connectives between them. -/
structure Cut (earlier : List Lexeme) (pieces : List Piece) : Prop where
  sound : ∀ p ∈ pieces, p.Sound
  apart : pieces.IsChain fun p q => ¬ (p.isLeaf = true ∧ q.isLeaf = true)
  marked : Marked earlier (pieces.flatMap Piece.tagged)

theorem not_awaitsAnd_nil : ¬ AwaitsAnd [] := by
  rintro ⟨earlier, l, later, h, -⟩
  simp at h

theorem awaitsAnd_concat (read : List Lexeme) (l : Lexeme) :
    AwaitsAnd (read ++ [l]) ↔
      l.token.IsWord "BETWEEN" ∨ AwaitsAnd read ∧ ¬ l.token.Joins "AND" := by
  constructor
  · rintro ⟨earlier, m, later, hsplit, hm, hlater⟩
    rcases List.eq_nil_or_concat later with rfl | ⟨later, x, rfl⟩
    · obtain ⟨-, hl⟩ := List.append_inj' hsplit rfl
      cases hl
      exact .inl hm
    · have hlast : read ++ [l] = earlier ++ m :: later ++ [x] := by simpa using hsplit
      obtain ⟨rfl, hl⟩ := List.append_inj' hlast rfl
      cases hl
      exact .inr ⟨⟨earlier, m, later, rfl, hm, fun y hy => hlater y (by simp [hy])⟩,
        hlater l (by simp)⟩
  · rintro (hl | ⟨⟨earlier, m, later, rfl, hm, hlater⟩, hl⟩)
    · exact ⟨read, l, [], rfl, hl, by simp⟩
    · refine ⟨earlier, m, later ++ [l], by simp, hm, fun y hy => ?_⟩
      rcases List.mem_append.mp hy with hy | hy
      · exact hlater y hy
      · rwa [List.mem_singleton.mp hy]

theorem Marked.cons {earlier : List Lexeme} {tags : List (Lexeme × Bool)} {l : Lexeme} {inside : Bool}
    (h : Marked (earlier ++ [l]) tags)
    (hl : ∀ word, l.token.Joins word →
      (inside = true ↔ word = "AND" ∧ AwaitsAnd earlier)) :
    Marked earlier ((l, inside) :: tags) := by
  intro read m inside' unread word hsplit hword
  cases read with
  | nil =>
    cases hsplit
    simpa using hl word hword
  | cons first read =>
    cases hsplit
    simpa using h read m inside' unread word rfl hword

/-- A lexeme that goes on with the first comparison, or starts one. -/
def consPiece (l : Lexeme) : List Piece → List Piece
  | .leaf run :: pieces => .leaf (l :: run) :: pieces
  | pieces => .leaf [l] :: pieces

section ConsPiece

variable (l : Lexeme) (pieces : List Piece)

theorem map_part_consPiece :
    (consPiece l pieces).map Piece.part = consLeaf l (pieces.map Piece.part) := by
  cases pieces with
  | nil => rfl
  | cons piece pieces => cases piece <;> rfl

theorem flatMap_lexemes_consPiece :
    (consPiece l pieces).flatMap Piece.lexemes = l :: pieces.flatMap Piece.lexemes := by
  fun_cases consPiece l pieces <;> simp [Piece.lexemes]

theorem flatMap_tagged_consPiece :
    (consPiece l pieces).flatMap Piece.tagged = (l, true) :: pieces.flatMap Piece.tagged := by
  fun_cases consPiece l pieces <;> simp [Piece.tagged]

end ConsPiece

theorem Cut.consPiece {earlier : List Lexeme} {pieces : List Piece} {l : Lexeme}
    (h : Cut (earlier ++ [l]) pieces)
    (hl : ∀ word, l.token.Joins word → word = "AND" ∧ AwaitsAnd earlier) :
    Cut earlier (consPiece l pieces) := by
  have hmarked : Marked earlier ((Statement.consPiece l pieces).flatMap Piece.tagged) := by
    rw [flatMap_tagged_consPiece]
    exact h.marked.cons fun word hword => by simpa using hl word hword
  obtain ⟨sound, apart, -⟩ := h
  cases pieces with
  | nil => exact ⟨by simp [Statement.consPiece, Piece.Sound], .singleton _, hmarked⟩
  | cons piece pieces =>
    obtain ⟨hpiece, hpieces⟩ := List.forall_mem_cons.mp sound
    cases piece with
    | leaf run =>
      refine ⟨List.forall_mem_cons.mpr ⟨List.cons_ne_nil l run, hpieces⟩, ?_, hmarked⟩
      cases apart with
      | singleton => exact .singleton _
      | cons_cons hnext htail => exact .cons_cons hnext htail
    | connective m word =>
      refine ⟨List.forall_mem_cons.mpr ⟨List.cons_ne_nil l [], sound⟩, ?_, hmarked⟩
      exact .cons_cons (by simp [Piece.isLeaf]) apart

theorem Cut.connective {earlier : List Lexeme} {pieces : List Piece} {l : Lexeme} {word : String}
    (h : Cut (earlier ++ [l]) pieces) (hword : l.token.Joins word)
    (hl : ¬ (word = "AND" ∧ AwaitsAnd earlier)) : Cut earlier (.connective l word :: pieces) := by
  constructor
  case sound => exact List.forall_mem_cons.mpr ⟨hword, h.sound⟩
  case apart =>
    have hapart := h.apart
    cases pieces with
    | nil => exact .singleton _
    | cons piece pieces => exact .cons_cons (by simp [Piece.isLeaf]) hapart
  case marked =>
    refine h.marked.cons fun word' hword' => ?_
    rw [hword.unique hword'] at hl
    simpa using hl

/-- The flag of the splitter tells whether an `AND` is awaited. -/
theorem exists_pieces (depth : Nat) (between : Bool) (ls : List Lexeme) {earlier : List Lexeme}
    (h : between = true ↔ AwaitsAnd earlier) :
    ∃ pieces, (splitConditions depth between ls).1 = pieces.map Piece.part ∧
      ls = pieces.flatMap Piece.lexemes ++ (splitConditions depth between ls).2 ∧
      Cut earlier pieces := by
  fun_induction splitConditions depth between ls generalizing earlier with
  | case1 => exact ⟨[], rfl, rfl, by simp, .nil, by simp [Marked]⟩
  | case2 => exact ⟨[], rfl, rfl, by simp, .nil, by simp [Marked]⟩
  -- A lexeme that is no connective goes on with a comparison.
  | case3 depth between l ls hends hnone next parts rest hsplit =>
    rename_i ih
    have hnone' : ∀ word, ¬ l.token.Joins word := by simp [Token.joins_iff, hnone]
    have hnext : (between || l.token.isKeyword "BETWEEN") = true ↔ AwaitsAnd (earlier ++ [l]) := by
      simp [awaitsAnd_concat, Token.isWord_iff, hnone', h, or_comm]
    obtain ⟨pieces, hparts, hls, hcut⟩ := ih hnext
    rw [hsplit] at hparts hls
    refine ⟨consPiece l pieces, ?_, ?_, hcut.consPiece fun word hword => absurd hword (hnone' word)⟩
    · rw [map_part_consPiece, ← hparts]
    · rw [flatMap_lexemes_consPiece, List.cons_append, ← hls]
  -- The `AND` of a `BETWEEN` goes on with it, too, and answers the `BETWEEN`.
  | case4 depth between l ls hends word hword hand parts rest hsplit ih =>
    have hjoins : l.token.Joins "AND" := hand.1 ▸ Token.joins_iff.mpr hword
    have hnext : false = true ↔ AwaitsAnd (earlier ++ [l]) := by
      simp [awaitsAnd_concat, hjoins, hjoins.not_between]
    obtain ⟨pieces, hparts, hls, hcut⟩ := ih hnext
    rw [hsplit] at hparts hls
    refine ⟨consPiece l pieces, ?_, ?_,
      hcut.consPiece fun other hother => ⟨hother.unique hjoins, h.mp hand.2⟩⟩
    · rw [map_part_consPiece, ← hparts]
    · rw [flatMap_lexemes_consPiece, List.cons_append, ← hls]
  -- Any other connective cuts, and an awaited `AND` stays awaited behind it.
  | case5 depth between l ls hends word hword hand parts rest hsplit ih =>
    have hjoins := Token.joins_iff.mpr hword
    have houtside : ¬ (word = "AND" ∧ AwaitsAnd earlier) := by rwa [← h]
    have hnext : between = true ↔ AwaitsAnd (earlier ++ [l]) := by
      rw [h, awaitsAnd_concat, or_iff_right hjoins.not_between]
      exact ⟨fun hawaits => ⟨hawaits, fun hand => houtside ⟨hjoins.unique hand, hawaits⟩⟩,
        And.left⟩
    obtain ⟨pieces, hparts, hls, hcut⟩ := ih hnext
    rw [hsplit] at hparts hls
    refine ⟨.connective l word :: pieces, ?_, ?_, hcut.connective hjoins houtside⟩
    · rw [List.map_cons, ← hparts]
      rfl
    · rw [List.flatMap_cons, List.append_assoc, ← hls]
      rfl

theorem readConditions_cut (ls : List Lexeme) :
    ∃ pieces, (readConditions ls).1 = pieces.map (fun p => p.part.condition) ∧
      ls = pieces.flatMap Piece.lexemes ++ (readConditions ls).2 ∧ Cut [] pieces := by
  obtain ⟨pieces, hparts, hls, hcut⟩ :=
    exists_pieces 0 false ls (by simp [not_awaitsAnd_nil] : false = true ↔ AwaitsAnd [])
  refine ⟨pieces, ?_, hls, hcut⟩
  simp only [readConditions, hparts, List.map_map]
  rfl

end Statement

end DocQuery
