import DocQuery.Proofs.Condition.Mask
import DocQuery.Proofs.Text.Classes
import Mathlib.Data.List.Basic

/-! Masking a text with any number of strings, and restoring it. A quoted name may also be found
from the closing quote of one string to the opening quote of the next. Where that does not happen,
every string becomes its own placeholder. -/

namespace DocQuery.Mask

inductive Segment where
  | outside (text : List Char)
  | quoted (quote : Char) (text : List Char)
deriving DecidableEq

namespace Segment

def text : Segment → List Char
  | outside text => text
  | quoted quote text => quote :: (text ++ [quote])

def Proper : Segment → Prop
  | outside text => NoQuote text
  | quoted quote text => Literal.isQuote quote = true ∧ NoQuote text

/-- What is left of a segment when some quoted texts are hidden. -/
def masked (literals : List (List Char)) : Segment → Segment
  | outside text => outside text
  | quoted quote text =>
    if quote :: (text ++ [quote]) ∈ literals then
      outside (placeholder (literals.idxOf (quote :: (text ++ [quote]))))
    else quoted quote text

end Segment

def textOf (segments : List Segment) : List Char :=
  segments.flatMap Segment.text

theorem textOf_append (left right : List Segment) :
    textOf (left ++ right) = textOf left ++ textOf right :=
  List.flatMap_append

theorem textOf_cons (s : Segment) (segments : List Segment) :
    textOf (s :: segments) = s.text ++ textOf segments :=
  List.flatMap_cons

/-- From the end of some other string on, the text goes on like the name in quotes. -/
def Bridges (quote : Char) (name : List Char) : List Segment → Prop
  | [] => False
  | .outside _ :: segments => Bridges quote name segments
  | .quoted q text :: segments =>
    (q = quote ∧ text ≠ name ∧ name ++ [quote] <+: textOf segments) ∨ Bridges quote name segments

section Hiding

variable {quote : Char} {name : List Char} {segments : List Segment}

theorem bridges_iff : Bridges quote name segments ↔ ∃ front text rest,
    segments = front ++ Segment.quoted quote text :: rest ∧ text ≠ name ∧
      name ++ [quote] <+: textOf rest := by
  induction segments with
  | nil => simp [Bridges]
  | cons s segments ih =>
    constructor
    · intro h
      cases s with
      | outside other =>
        obtain ⟨front, text, rest, rfl, hne, hnext⟩ := ih.mp h
        exact ⟨.outside other :: front, text, rest, rfl, hne, hnext⟩
      | quoted q other =>
        rcases h with ⟨rfl, hne, hnext⟩ | h
        · exact ⟨[], other, segments, rfl, hne, hnext⟩
        · obtain ⟨front, text, rest, rfl, hne, hnext⟩ := ih.mp h
          exact ⟨.quoted q other :: front, text, rest, rfl, hne, hnext⟩
    · rintro ⟨front, text, rest, hsplit, hne, hnext⟩
      cases front with
      | nil =>
        cases hsplit
        exact .inl ⟨rfl, hne, hnext⟩
      | cons s' front =>
        obtain ⟨rfl, hrest⟩ := List.cons.inj hsplit
        have htail := ih.mpr ⟨front, text, rest, hrest, hne, hnext⟩
        cases s with
        | outside other => exact htail
        | quoted q other => exact .inr htail

/-- Where no string leads into another one, a quoted name is found as a string only. -/
theorem mem_of_isInfix (hquote : Literal.isQuote quote = true) (hname : NoQuote name)
    (hproper : ∀ s ∈ segments, s.Proper) (hbridge : ¬ Bridges quote name segments)
    (h : quote :: (name ++ [quote]) <:+: textOf segments) : .quoted quote name ∈ segments := by
  induction segments with
  | nil => simp [textOf] at h
  | cons s segments ih =>
    have hs := hproper s List.mem_cons_self
    have hrest := fun t ht => hproper t (List.mem_cons_of_mem s ht)
    cases s with
    | outside text =>
      have hnext := isInfix_of_isInfix_append (NoQuote.notMem hs hquote) h
      exact List.mem_cons_of_mem _ (ih hrest hbridge hnext)
    | quoted q text =>
      rw [Bridges, not_or] at hbridge
      have hopen : quote :: (name ++ [quote]) <:+: q :: (text ++ q :: textOf segments) := by
        simpa [textOf, Segment.text] using h
      rcases List.infix_cons_iff.mp hopen with hprefix | hinfix
      · obtain ⟨rfl, hprefix⟩ := List.cons_prefix_cons.mp hprefix
        rw [eq_of_concat_isPrefix (hname.notMem hquote) (hs.2.notMem hquote) hprefix]
        exact List.mem_cons_self
      · rcases List.infix_cons_iff.mp (isInfix_of_isInfix_append (hs.2.notMem hquote) hinfix) with
          hprefix | hinfix
        · obtain ⟨rfl, hnext⟩ := List.cons_prefix_cons.mp hprefix
          by_cases htext : text = name
          · rw [htext]
            exact List.mem_cons_self
          · exact absurd ⟨rfl, htext, hnext⟩ hbridge.1
        · exact List.mem_cons_of_mem _ (ih hrest hbridge.2 hinfix)

/-- A quoted name is replaced string by string up to where it is found between two of them. -/
theorem replaceFrom_textOf_append (hquote : Literal.isQuote quote = true) (hname : NoQuote name)
    (hproper : ∀ s ∈ segments, s.Proper) {rest : List Char}
    (hbridge : ¬ Bridges quote name (segments ++ [Segment.outside rest])) (holder : List Char) :
    Text.replaceFrom (quote :: (name ++ [quote])) holder 0 (textOf segments ++ rest) =
      textOf (segments.map fun s => if s = .quoted quote name then .outside holder else s) ++
        Text.replaceFrom (quote :: (name ++ [quote])) holder 0 rest := by
  induction segments with
  | nil => rfl
  | cons s segments ih =>
    have hs := hproper s List.mem_cons_self
    have hnext := ih fun t ht => hproper t (List.mem_cons_of_mem s ht)
    rw [textOf_cons, List.map_cons, textOf_cons, List.append_assoc, List.append_assoc]
    cases s with
    | outside text =>
      rw [if_neg (by simp), Segment.text,
        Text.replaceFrom_append_of_notMem (NoQuote.notMem hs hquote), hnext hbridge]
    | quoted q text =>
      rw [List.cons_append, Bridges, not_or, textOf_append] at hbridge
      by_cases hhit : Segment.quoted q text = .quoted quote name
      · obtain ⟨rfl, rfl⟩ := Segment.quoted.inj hhit
        rw [if_pos rfl, Segment.text, Segment.text, ← hnext hbridge.2]
        exact Text.replaceFrom_append (List.cons_ne_nil _ _) _ _
      · -- Neither quote of the string starts an occurrence.
        have hopen : ¬ quote :: (name ++ [quote]) <+:
            q :: (text ++ q :: (textOf segments ++ rest)) := by
          intro hstarts
          obtain ⟨rfl, hstarts⟩ := List.cons_prefix_cons.mp hstarts
          exact hhit (by rw [eq_of_concat_isPrefix (hname.notMem hquote) (hs.2.notMem hquote) hstarts])
        have hclose : ¬ quote :: (name ++ [quote]) <+: q :: (textOf segments ++ rest) := by
          intro hstarts
          obtain ⟨rfl, hafter⟩ := List.cons_prefix_cons.mp hstarts
          refine hbridge.1 ⟨rfl, fun htext => hhit (by rw [htext]), ?_⟩
          simpa [textOf, Segment.text] using hafter
        have htext : Segment.text (.quoted q text) ++ (textOf segments ++ rest) =
            q :: (text ++ q :: (textOf segments ++ rest)) := by
          simp [Segment.text]
        rw [if_neg hhit, htext, Text.replaceFrom_cons _ hopen,
          Text.replaceFrom_append_of_notMem (hs.2.notMem hquote), Text.replaceFrom_cons _ hclose,
          hnext hbridge.2]
        simp [Segment.text]

theorem bridges_append_outside_nil :
    Bridges quote name (segments ++ [Segment.outside []]) ↔ Bridges quote name segments := by
  induction segments with
  | nil => rfl
  | cons s segments ih =>
    cases s with
    | outside text => exact ih
    | quoted q text =>
      have htext : textOf (segments ++ [Segment.outside []]) = textOf segments := by
        simp [textOf, Segment.text]
      rw [List.cons_append, Bridges, Bridges, htext, ih]

theorem replaceAll_textOf (hquote : Literal.isQuote quote = true) (hname : NoQuote name)
    (hproper : ∀ s ∈ segments, s.Proper) (hbridge : ¬ Bridges quote name segments)
    (holder : List Char) :
    Text.replaceAll (quote :: (name ++ [quote])) holder (textOf segments) =
      textOf (segments.map fun s => if s = .quoted quote name then .outside holder else s) := by
  have hreplace := replaceFrom_textOf_append hquote hname hproper
    (mt bridges_append_outside_nil.mp hbridge) holder
  rwa [List.append_nil, Text.replaceFrom, List.append_nil] at hreplace

theorem hide_textOf (hquote : Literal.isQuote quote = true) (hname : NoQuote name)
    (hproper : ∀ s ∈ segments, s.Proper) (hbridge : ¬ Bridges quote name segments) (mask : Mask) :
    hide (mask, textOf segments) (quote :: (name ++ [quote])) =
      if .quoted quote name ∈ segments then
        (mask ++ [(placeholder mask.length, quote :: (name ++ [quote]))],
          textOf (segments.map fun s =>
            if s = .quoted quote name then .outside (placeholder mask.length) else s))
      else (mask, textOf segments) := by
  by_cases hmem : Segment.quoted quote name ∈ segments
  · have hcontains : Text.contains (quote :: (name ++ [quote])) (textOf segments) = true := by
      rw [Text.contains_iff_isInfix]
      exact List.infix_of_mem_flatten (List.mem_map_of_mem (f := Segment.text) hmem)
    simp only [hide, hcontains, if_true, hmem,
      replaceAll_textOf hquote hname hproper hbridge]
  · rw [if_neg hmem]
    exact hide_of_not_isInfix fun h => hmem (mem_of_isInfix hquote hname hproper hbridge h)

end Hiding

/-! ### All the strings of a text -/

def numbered (literals : List (List Char)) : Mask :=
  literals.zipIdx.map fun (literal, k) => (placeholder k, literal)

theorem numbered_concat (literals : List (List Char)) (literal : List Char) :
    numbered (literals ++ [literal]) =
      numbered literals ++ [(placeholder (numbered literals).length, literal)] := by
  simp [numbered, List.zipIdx_append]

/-- Hidden are those strings of a text that are among some quoted names. -/
structure Hides (segments : List Segment) (done literals : List (List Char)) : Prop where
  nodup : literals.Nodup
  mem_iff : ∀ literal, literal ∈ literals ↔
    literal ∈ done ∧ ∃ q text, .quoted q text ∈ segments ∧ literal = q :: (text ++ [q])

theorem mem_placeholder {k : Nat} {c : Char} (h : c ∈ placeholder k) :
    c ∈ "__literal_".toList ∨ c.isDigit = true := by
  rcases List.mem_append.mp h with h | h
  · rcases List.mem_append.mp h with h | h
    · exact .inl h
    · exact .inr (Nat.isDigit_of_mem_toDigits (by decide) (by decide) h)
  · have hend : ∀ d ∈ "__".toList, d ∈ "__literal_".toList := by decide
    exact .inl (hend c h)

theorem noQuote_placeholder (k : Nat) : NoQuote (placeholder k) := by
  intro c hc
  rcases mem_placeholder hc with hc | hc
  · have hstart : ∀ d ∈ "__literal_".toList, Literal.isQuote d = false := by decide
    exact hstart c hc
  · have hnot : c ∉ quoteChars := notMem_of_class hc (by decide)
    simpa [Literal.isQuote, quoteChars, and_assoc] using hnot

section Masking

variable {segments : List Segment} {done literals : List (List Char)}

theorem proper_masked (hproper : ∀ s ∈ segments, s.Proper) :
    ∀ s ∈ segments.map (Segment.masked literals), s.Proper := by
  intro s hs
  obtain ⟨t, ht, rfl⟩ := List.mem_map.mp hs
  cases t with
  | outside text => exact hproper _ ht
  | quoted q text =>
    rw [Segment.masked]
    split
    · exact noQuote_placeholder _
    · exact hproper _ ht

theorem map_masked_nil (segments : List Segment) :
    segments.map (Segment.masked []) = segments := by
  rw [List.map_congr_left (g := id), List.map_id]
  rintro (_ | _) _ <;> simp [Segment.masked]

theorem quoted_mem_masked_iff {q : Char} {text : List Char} :
    .quoted q text ∈ segments.map (Segment.masked literals) ↔
      .quoted q text ∈ segments ∧ q :: (text ++ [q]) ∉ literals := by
  constructor
  · intro hmem
    obtain ⟨s, hs, heq⟩ := List.mem_map.mp hmem
    cases s with
    | outside text => cases heq
    | quoted q' text' =>
      rw [Segment.masked] at heq
      split at heq
      · cases heq
      · cases heq
        exact ⟨hs, ‹_›⟩
  · rintro ⟨hs, hnot⟩
    exact List.mem_map.mpr ⟨_, hs, if_neg hnot⟩

theorem masked_concat {q : Char} {name : List Char} (hnew : q :: (name ++ [q]) ∉ literals)
    (s : Segment) :
    Segment.masked (literals ++ [q :: (name ++ [q])]) s =
      if Segment.masked literals s = .quoted q name then .outside (placeholder literals.length)
      else Segment.masked literals s := by
  cases s with
  | outside text => simp [Segment.masked]
  | quoted q' text =>
    by_cases hold : q' :: (text ++ [q']) ∈ literals
    · have hmem := List.mem_append_left [q :: (name ++ [q])] hold
      simp only [Segment.masked, hold, hmem, if_true, List.idxOf_append]
      rw [if_neg (by simp)]
    · simp only [Segment.masked, List.mem_append, hold, false_or, List.mem_singleton, if_false,
        Segment.quoted.injEq]
      by_cases hhit : q' = q ∧ text = name
      · obtain ⟨rfl, rfl⟩ := hhit
        simp [List.idxOf_append, hold]
      · have hne : q' :: (text ++ [q']) ≠ q :: (name ++ [q]) := by
          intro heq
          obtain ⟨rfl, heq⟩ := List.cons.inj heq
          exact hhit ⟨rfl, List.append_cancel_right heq⟩
        rw [if_neg hne, if_neg hhit]

theorem quoted_injective {q q' : Char} {text text' : List Char}
    (h : q :: (text ++ [q]) = q' :: (text' ++ [q'])) :
    Segment.quoted q text = .quoted q' text' := by
  obtain ⟨rfl, htext⟩ := List.cons.inj h
  rw [List.append_cancel_right htext]

theorem Hides.hide (h : Hides segments done literals) (hproper : ∀ s ∈ segments, s.Proper)
    {quote : Char} {name : List Char} (hquote : Literal.isQuote quote = true)
    (hname : NoQuote name)
    (hbridge : ¬ Bridges quote name (segments.map (Segment.masked literals))) :
    ∃ next, Hides segments (done ++ [quote :: (name ++ [quote])]) next ∧
      Mask.hide (numbered literals, textOf (segments.map (Segment.masked literals)))
        (quote :: (name ++ [quote])) =
          (numbered next, textOf (segments.map (Segment.masked next))) := by
  rw [hide_textOf hquote hname (proper_masked hproper) hbridge]
  by_cases hmem : .quoted quote name ∈ segments.map (Segment.masked literals)
  · obtain ⟨hs, hnew⟩ := quoted_mem_masked_iff.mp hmem
    refine ⟨literals ++ [quote :: (name ++ [quote])], ⟨?_, fun literal => ?_⟩, ?_⟩
    · exact List.nodup_append.mpr ⟨h.nodup, by simp, fun a ha b hb => by
        rw [List.mem_singleton.mp hb]
        rintro rfl
        exact hnew ha⟩
    · rw [List.mem_append, List.mem_append, h.mem_iff, List.mem_singleton]
      constructor
      · rintro (⟨hdone, hs'⟩ | rfl)
        · exact ⟨.inl hdone, hs'⟩
        · exact ⟨.inr rfl, quote, name, hs, rfl⟩
      · rintro ⟨hdone | heq, hs'⟩
        · exact .inl ⟨hdone, hs'⟩
        · exact .inr heq
    · rw [if_pos hmem, numbered_concat, List.map_map]
      have hlength : (numbered literals).length = literals.length := by simp [numbered]
      congr 2
      refine List.map_congr_left fun s _ => ?_
      rw [masked_concat hnew, hlength]
      rfl
  · rw [if_neg hmem]
    refine ⟨literals, ⟨h.nodup, fun literal => ?_⟩, rfl⟩
    rw [List.mem_append, List.mem_singleton, h.mem_iff]
    constructor
    · rintro ⟨hdone, hs⟩
      exact ⟨.inl hdone, hs⟩
    · rintro ⟨hdone | rfl, q, text, hs, hliteral⟩
      · exact ⟨hdone, q, text, hs, hliteral⟩
      · -- The name occurs, so it was hidden before.
        have hold : quote :: (name ++ [quote]) ∈ literals := by
          by_contra hnot
          rw [← quoted_injective hliteral] at hs
          exact hmem (quoted_mem_masked_iff.mpr ⟨hs, hnot⟩)
        exact (h.mem_iff _).mp hold

theorem Hides.foldl_hide (h : Hides segments done literals) (hproper : ∀ s ∈ segments, s.Proper)
    {cs : List (List Char)}
    (hcs : ∀ c ∈ cs, ∃ q text, Literal.isQuote q = true ∧ NoQuote text ∧ c = q :: (text ++ [q]))
    (hbridge : ∀ front quote name rest hidden, cs = front ++ (quote :: (name ++ [quote])) :: rest →
      Hides segments (done ++ front) hidden →
      ¬ Bridges quote name (segments.map (Segment.masked hidden))) :
    ∃ last, Hides segments (done ++ cs) last ∧
      cs.foldl Mask.hide (numbered literals, textOf (segments.map (Segment.masked literals))) =
        (numbered last, textOf (segments.map (Segment.masked last))) := by
  induction cs generalizing done literals with
  | nil => exact ⟨literals, by simpa using h, rfl⟩
  | cons c cs ih =>
    obtain ⟨q, name, hq, hname, rfl⟩ := hcs c List.mem_cons_self
    have hfirst := hbridge [] q name cs literals rfl (by simpa using h)
    obtain ⟨next, hnext, heq⟩ := h.hide hproper hq hname hfirst
    obtain ⟨last, hlast, hfold⟩ := ih hnext (fun d hd => hcs d (List.mem_cons_of_mem _ hd)) (by
      intro front quote other rest hidden hsplit hhidden
      refine hbridge ((q :: (name ++ [q])) :: front) quote other rest hidden (by rw [hsplit]; rfl) ?_
      simpa using hhidden)
    refine ⟨last, by simpa using hlast, ?_⟩
    rw [List.foldl_cons, heq, hfold]

theorem Hides.length_le_one (h : Hides segments done literals)
    (hone : ∀ q text q' text', .quoted q text ∈ segments → .quoted q' text' ∈ segments →
      Segment.quoted q text = .quoted q' text') : literals.length ≤ 1 := by
  rcases literals with _ | ⟨a, _ | ⟨b, rest⟩⟩
  · simp
  · simp
  · obtain ⟨q, text, hmem, rfl⟩ := ((h.mem_iff a).mp (by simp)).2
    obtain ⟨q', text', hmem', rfl⟩ := ((h.mem_iff b).mp (by simp)).2
    obtain ⟨rfl, rfl⟩ := Segment.quoted.inj (hone _ _ _ _ hmem hmem')
    have hnodup := h.nodup
    simp at hnodup

/-- Masking hides the strings that are names, each behind its own placeholder. -/
theorem protect_textOf {names : List String} (hnames : ∀ name ∈ names, NoQuote name.toList)
    (hproper : ∀ s ∈ segments, s.Proper)
    (hbridge : ∀ front quote name rest hidden,
      candidates names = front ++ (quote :: (name ++ [quote])) :: rest →
      Hides segments front hidden →
      ¬ Bridges quote name (segments.map (Segment.masked hidden))) :
    ∃ literals, Hides segments (candidates names) literals ∧
      protect names (textOf segments) =
        (numbered literals, textOf (segments.map (Segment.masked literals))) := by
  have hstart : Hides segments [] [] := ⟨List.nodup_nil, fun literal => by simp⟩
  obtain ⟨literals, hlast, hfold⟩ :=
    hstart.foldl_hide hproper (fun _ hc => candidates_quoted hnames hc) hbridge
  rw [map_masked_nil] at hfold
  exact ⟨literals, hlast, hfold⟩

end Masking

/-! ### Restoring -/

theorem restore_append_mask (front back : Mask) (text : List Char) :
    restore (front ++ back) text = restore back (restore front text) :=
  List.foldl_append

theorem restore_cons (holder literal : List Char) (mask : Mask) (text : List Char) :
    restore ((holder, literal) :: mask) text =
      restore mask (Text.replaceAll holder literal text) :=
  rfl

theorem fst_restoreCollecting (mask : Mask) (text : List Char) :
    (mask.restoreCollecting text).1 = mask.restore text := by
  refine (List.foldl_hom Prod.fst ?_).symm
  rintro ⟨text, contents⟩ ⟨holder, literal⟩
  by_cases hc : Text.contains holder text = true
  · simp only [hc, if_true]
  · have hsame := Text.replaceAll_of_not_contains literal (by simpa using hc)
    simp only [hc, Bool.false_eq_true, if_false, hsame]

theorem restore_of_forall {mask : Mask} {text : List Char}
    (h : ∀ entry ∈ mask, ¬ entry.1 <:+: text) : restore mask text = text := by
  induction mask with
  | nil => rfl
  | cons entry mask ih =>
    obtain ⟨holder, literal⟩ := entry
    have hnot : Text.contains holder text = false := by
      rw [← Bool.not_eq_true, Text.contains_iff_isInfix]
      exact h _ List.mem_cons_self
    rw [restore_cons, Text.replaceAll_of_not_contains _ hnot]
    exact ih fun other ho => h other (List.mem_cons_of_mem _ ho)

theorem getElem?_numbered (literals : List (List Char)) (k : Nat) :
    (numbered literals)[k]? = literals[k]?.map (placeholder k, ·) := by
  simp [numbered, Function.comp_def]

theorem eq_placeholder_of_mem {literals : List (List Char)} {entry : List Char × List Char}
    (h : entry ∈ numbered literals) : ∃ k, entry.1 = placeholder k := by
  obtain ⟨k, hk⟩ := List.mem_iff_getElem?.mp h
  rw [getElem?_numbered] at hk
  obtain ⟨literal, -, rfl⟩ := Option.map_eq_some_iff.mp hk
  exact ⟨k, rfl⟩

theorem clear_of_notMem {text : List Char} (h : '_' ∉ text) :
    Text.contains "__literal_".toList text = false :=
  clear_iff.mpr fun hoccurs => h (hoccurs.subset (by decide))

theorem not_placeholder_isInfix {text : List Char}
    (h : Text.contains "__literal_".toList text = false) (k : Nat) :
    ¬ placeholder k <:+: text := by
  intro hoccurs
  have hstart : "__literal_".toList <+: placeholder k :=
    ⟨Nat.toDigits 10 k ++ "__".toList, (List.append_assoc _ _ _).symm⟩
  exact clear_iff.mp h (hstart.isInfix.trans hoccurs)

theorem restore_numbered_of_clear {text : List Char}
    (h : Text.contains "__literal_".toList text = false) (literals : List (List Char)) :
    restore (numbered literals) text = text := by
  refine restore_of_forall fun entry hentry => ?_
  obtain ⟨k, hk⟩ := eq_placeholder_of_mem hentry
  rw [hk]
  exact not_placeholder_isInfix h k

theorem restore_append_cons {c : Char} (hc : c ∉ "__literal_".toList) (hdigit : c.isDigit = false)
    (literals : List (List Char)) (front text : List Char) :
    restore (numbered literals) (front ++ c :: text) =
      restore (numbered literals) front ++ c :: restore (numbered literals) text := by
  have hholder : ∀ entry ∈ numbered literals, entry.1 ≠ [] ∧ c ∉ entry.1 := by
    intro entry hentry
    obtain ⟨k, hk⟩ := eq_placeholder_of_mem hentry
    rw [hk]
    refine ⟨List.append_ne_nil_of_right_ne_nil _ (by decide), fun hmem => ?_⟩
    rcases mem_placeholder hmem with hmem | hmem
    · exact hc hmem
    · rw [hmem] at hdigit
      cases hdigit
  generalize numbered literals = mask at hholder
  induction mask generalizing front text with
  | nil => rfl
  | cons entry mask ih =>
    obtain ⟨holder, literal⟩ := entry
    obtain ⟨hne, hnot⟩ := hholder _ List.mem_cons_self
    simp only [restore_cons, Text.replaceAll]
    rw [Text.replaceFrom_append_cons hne hnot]
    exact ih _ _ fun other ho => hholder other (List.mem_cons_of_mem _ ho)

theorem notMem_toDigits {c : Char} (h : c.isDigit = false) (k : Nat) : c ∉ Nat.toDigits 10 k := by
  intro hmem
  rw [Nat.isDigit_of_mem_toDigits (by decide) (by decide) hmem] at h
  cases h

theorem eq_of_placeholder_isInfix {j k : Nat} (h : placeholder j <:+: placeholder k) : j = k := by
  obtain ⟨front, back, heq⟩ := h
  have hsplit : ∀ n, placeholder n =
      "__li".toList ++ 't' :: ("eral_".toList ++ (Nat.toDigits 10 n ++ "__".toList)) := fun _ => rfl
  -- The only `t` of one is the only `t` of the other.
  have hnot : 't' ∉ "eral_".toList ++ (Nat.toDigits 10 k ++ "__".toList) := by
    simp only [List.mem_append, not_or]
    exact ⟨by decide, notMem_toDigits (by decide) k, by decide⟩
  have hcut : "__li".toList ++ 't' :: ("eral_".toList ++ (Nat.toDigits 10 k ++ "__".toList)) =
      (front ++ "__li".toList) ++
        't' :: ("eral_".toList ++ (Nat.toDigits 10 j ++ "__".toList) ++ back) := by
    rw [← hsplit k, ← heq, hsplit j]
    simp only [List.append_assoc, List.cons_append]
  obtain ⟨-, -, htail⟩ := (List.append_cons_inj_of_notMem (by decide) hnot).mp hcut
  rw [List.append_assoc, List.append_assoc] at htail
  have hdigits : Nat.toDigits 10 j ++ ['_'] <+: Nat.toDigits 10 k ++ '_' :: ['_'] := by
    refine ⟨'_' :: back, ?_⟩
    rw [List.append_assoc]
    exact (List.append_cancel_left htail).symm
  have hsame := eq_of_concat_isPrefix (notMem_toDigits (by decide) j)
    (notMem_toDigits (by decide) k) hdigits
  have hvalue := congrArg (Nat.ofDigitChars 10 · 0) hsame
  simpa only [Nat.ofDigitChars_toDigits (b := 10) (by decide) (by decide)] using hvalue

/-- No text behind a placeholder holds a later placeholder. -/
def Settled (literals : List (List Char)) : Prop :=
  ∀ k j literal, literals[k]? = some literal → k < j → j < literals.length →
    ¬ placeholder j <:+: literal

theorem settled_of_clear {literals : List (List Char)}
    (h : ∀ literal ∈ literals, Text.contains "__literal_".toList literal = false) :
    Settled literals := fun _ j _ hk _ _ =>
  not_placeholder_isInfix (h _ (List.mem_of_getElem? hk)) j

theorem settled_of_length_le_one {literals : List (List Char)} (h : literals.length ≤ 1) :
    Settled literals := by
  intro k j literal _ hlt hj
  omega

theorem restore_numbered_placeholder {literals : List (List Char)} (h : Settled literals) {k : Nat}
    {literal : List Char} (hk : literals[k]? = some literal) :
    restore (numbered literals) (placeholder k) = literal := by
  have hentry : (numbered literals)[k]? = some (placeholder k, literal) := by
    rw [getElem?_numbered, hk]
    rfl
  obtain ⟨hlt, hget⟩ := List.getElem?_eq_some_iff.mp hentry
  have hmask : numbered literals = (numbered literals).take k ++
      (placeholder k, literal) :: (numbered literals).drop (k + 1) := by
    rw [← hget, List.getElem_cons_drop, List.take_append_drop]
  have hbefore : restore ((numbered literals).take k) (placeholder k) = placeholder k := by
    refine restore_of_forall fun entry hentry hoccurs => ?_
    obtain ⟨j, hj⟩ := List.mem_iff_getElem?.mp hentry
    rw [List.getElem?_take, getElem?_numbered] at hj
    split at hj
    · obtain ⟨other, -, rfl⟩ := Option.map_eq_some_iff.mp hj
      have := eq_of_placeholder_isInfix hoccurs
      omega
    · cases hj
  have hafter : restore ((numbered literals).drop (k + 1)) literal = literal := by
    refine restore_of_forall fun entry hentry => ?_
    obtain ⟨j, hj⟩ := List.mem_iff_getElem?.mp hentry
    rw [List.getElem?_drop, getElem?_numbered] at hj
    obtain ⟨other, hother, rfl⟩ := Option.map_eq_some_iff.mp hj
    exact h k _ literal hk (by omega) (List.getElem?_eq_some_iff.mp hother).1
  have hhere : Text.replaceAll (placeholder k) literal (placeholder k) = literal := by
    have hne : placeholder k ≠ [] := List.append_ne_nil_of_right_ne_nil _ (by decide)
    simpa [Text.replaceAll, Text.replaceFrom] using Text.replaceFrom_append hne literal []
  rw [hmask, restore_append_mask, hbefore, restore_cons, hhere, hafter]

end DocQuery.Mask
