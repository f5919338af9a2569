import DocQuery.Proofs.Text.Words

/-! Words and fields. A text that is put together from its words again, with single spaces between
them, has the fields of the text, up to blanks. -/

namespace DocQuery.Text

theorem consFirst_append {c : Char} {parts : List (List Char)} (h : parts ≠ [])
    (others : List (List Char)) : consFirst c (parts ++ others) = consFirst c parts ++ others := by
  cases parts with
  | nil => exact absurd rfl h
  | cons part parts => rfl

theorem words_ne_nil {c : Char} (h : isBlank c = false) (text : List Char) :
    words (c :: text) ≠ [] := by
  cases text with
  | nil => simp [words, h]
  | cons d text =>
    by_cases hd : isBlank d = true
    · simp [words, h, hd]
    · simp only [words, h, hd]
      cases words (d :: text) <;> simp [consFirst]

theorem words_append_blank {c : Char} (h : isBlank c = true) (front text : List Char) :
    words (front ++ c :: text) = words front ++ words text := by
  induction front with
  | nil => exact words_cons_blank h text
  | cons d front ih =>
    cases front with
    | nil =>
      have hblank := words_cons_blank h text
      by_cases hd : isBlank d = true <;> simp [words, hd, h, hblank]
    | cons e front =>
      rw [List.cons_append] at ih
      by_cases hd : isBlank d = true
      · simp [words, hd, ih]
      · by_cases he : isBlank e = true
        · simp [words, hd, he, ih]
        · have hne := words_ne_nil (by simpa using he) front
          simp [words, hd, he, ih, consFirst_append hne]

theorem words_append_of_blank {front text : List Char}
    (h : (∀ c ∈ front.getLast?, isBlank c = true) ∨ (∀ c ∈ text.head?, isBlank c = true)) :
    words (front ++ text) = words front ++ words text := by
  rcases h with hlast | hhead
  · rcases List.eq_nil_or_concat front with rfl | ⟨front, c, rfl⟩
    · rfl
    · have hc : isBlank c = true := hlast c (by simp)
      have hend := words_append_blank hc front []
      rw [List.concat_eq_append, List.append_assoc, List.singleton_append, words_append_blank hc,
        hend]
      simp [words]
  · cases text with
    | nil => simp [words]
    | cons c text => rw [words_append_blank (hhead c rfl), words_cons_blank (hhead c rfl)]

theorem words_append_blanks {front blanks : List Char} (h : ∀ c ∈ blanks, isBlank c = true)
    (text : List Char) (hends : blanks ≠ [] ∨ (∀ c ∈ front.getLast?, isBlank c = true) ∨
      (∀ c ∈ text.head?, isBlank c = true)) :
    words (front ++ (blanks ++ text)) = words front ++ words text := by
  rw [← words_blanks_append h text]
  apply words_append_of_blank
  cases blanks with
  | nil => exact hends.resolve_left (by simp)
  | cons c blanks => exact .inr (by simpa using h c List.mem_cons_self)

/-! ### Words put together -/

def squeeze (text : List Char) : List Char :=
  unwords (words text)

/-- The space that is left between a character and what follows it. -/
def joint (text : List Char) : List Char :=
  if text.head?.any isBlank && !(words text).isEmpty then [' '] else []

theorem squeeze_cons_blank {c : Char} (h : isBlank c = true) (text : List Char) :
    squeeze (c :: text) = squeeze text := by
  rw [squeeze, words_cons_blank h, squeeze]

theorem unwords_consFirst (c : Char) {parts : List (List Char)} (h : parts ≠ []) :
    unwords (consFirst c parts) = c :: unwords parts := by
  rcases parts with _ | ⟨part, _ | ⟨next, parts⟩⟩
  · exact absurd rfl h
  · simp [consFirst, unwords]
  · simp [consFirst, unwords, List.intercalate_cons_cons]

theorem squeeze_cons {c : Char} (h : isBlank c = false) (text : List Char) :
    squeeze (c :: text) = c :: (joint text ++ squeeze text) := by
  cases text with
  | nil => simp [squeeze, words, h, joint, unwords]
  | cons d text =>
    by_cases hd : isBlank d = true
    · have hwords : words (c :: d :: text) = [c] :: words (d :: text) := by simp [words, h, hd]
      by_cases hnil : words (d :: text) = []
      · simp [squeeze, hwords, hnil, joint, unwords]
      · have hjoin : unwords ([c] :: words (d :: text)) =
            [c] ++ [' '] ++ unwords (words (d :: text)) :=
          List.intercalate_cons_of_ne_nil hnil
        simp [squeeze, hwords, hjoin, joint, hd, hnil]
    · have hwords : words (c :: d :: text) = consFirst c (words (d :: text)) := by
        simp [words, h, hd]
      rw [squeeze, hwords, unwords_consFirst c (words_ne_nil (by simpa using hd) text)]
      simp [joint, hd, squeeze]

theorem words_append_ne_nil (front : List Char) {d : Char} (hd : isBlank d = false)
    (rest : List Char) : words (front ++ d :: rest) ≠ [] := by
  induction front with
  | nil => exact words_ne_nil hd rest
  | cons c front ih =>
    by_cases hc : isBlank c = true
    · rw [List.cons_append, words_cons_blank hc]
      exact ih
    · exact words_ne_nil (by simpa using hc) _

theorem isBlank_of_mem_joint {text : List Char} {c : Char} (h : c ∈ joint text) :
    isBlank c = true := by
  rw [joint] at h
  split at h
  · rw [List.mem_singleton.mp h]
    decide
  · cases h

theorem joint_append {front : List Char} (h : words front ≠ []) {d : Char}
    (hd : isBlank d = false) (rest : List Char) : joint (front ++ d :: rest) = joint front := by
  cases front with
  | nil => exact absurd rfl h
  | cons c front =>
    have hne := words_append_ne_nil (c :: front) hd rest
    rw [List.cons_append] at hne
    simp [joint, h, hne]

/-- Squeezing cuts before a character that is not blank. -/
theorem exists_squeeze_append (front : List Char) {d : Char} (hd : isBlank d = false)
    (rest : List Char) : ∃ blanks, (∀ c ∈ blanks, isBlank c = true) ∧
      squeeze (front ++ d :: rest) = squeeze front ++ blanks ++ squeeze (d :: rest) := by
  induction front with
  | nil => exact ⟨[], by simp, rfl⟩
  | cons c front ih =>
    obtain ⟨blanks, hblank, heq⟩ := ih
    by_cases hc : isBlank c = true
    · refine ⟨blanks, hblank, ?_⟩
      rw [List.cons_append, squeeze_cons_blank hc, heq, squeeze_cons_blank hc]
    · have hc' : isBlank c = false := by simpa using hc
      rw [List.cons_append, squeeze_cons hc', squeeze_cons hc', heq]
      by_cases hnil : words front = []
      · refine ⟨joint (front ++ d :: rest) ++ blanks, ?_, ?_⟩
        · intro e he
          rcases List.mem_append.mp he with he | he
          · exact isBlank_of_mem_joint he
          · exact hblank e he
        · have hsqueeze : squeeze front = [] := by rw [squeeze, hnil]; rfl
          simp [hsqueeze, joint, hnil]
      · refine ⟨blanks, hblank, ?_⟩
        simp [joint_append hnil hd]

/-- Behind a word the text is squeezed on its own, but for the space between the two. -/
theorem squeeze_append_solid {word : List Char} (h : Solid word) (text : List Char) :
    squeeze (word ++ text) = word ++ (joint text ++ squeeze text) := by
  obtain ⟨hne, hmem⟩ := h
  induction word with
  | nil => exact absurd rfl hne
  | cons c word ih =>
    rw [List.cons_append, squeeze_cons (hmem c List.mem_cons_self), List.cons_append]
    cases word with
    | nil => rfl
    | cons d word =>
      have hd := hmem d (List.mem_cons_of_mem c List.mem_cons_self)
      rw [ih (List.cons_ne_nil d word) fun e he => hmem e (List.mem_cons_of_mem c he)]
      simp [joint, hd]

theorem squeeze_solid_append {part : List Char} (h : ∀ c ∈ part, isBlank c = false)
    (rest : List Char) : ∃ tail, squeeze (part ++ rest) = part ++ tail := by
  by_cases hne : part = []
  · exact ⟨squeeze rest, by rw [hne, List.nil_append, List.nil_append]⟩
  · exact ⟨_, squeeze_append_solid ⟨hne, h⟩ rest⟩

theorem isInfix_squeeze {part text : List Char} (hblank : ∀ c ∈ part, isBlank c = false)
    (h : part <:+: text) : part <:+: squeeze text := by
  cases part with
  | nil => exact List.nil_infix
  | cons d part =>
    obtain ⟨front, rest, htext⟩ := h
    rw [List.append_assoc] at htext
    obtain ⟨blanks, -, hsqueeze⟩ :=
      exists_squeeze_append front (hblank d List.mem_cons_self) (part ++ rest)
    obtain ⟨tail, htail⟩ := squeeze_solid_append hblank rest
    refine ⟨squeeze front ++ blanks, tail, ?_⟩
    rw [← htext, List.cons_append, hsqueeze, ← List.cons_append, htail, List.append_assoc]

theorem squeeze_ne_nil {text : List Char} (h : words text ≠ []) : squeeze text ≠ [] := by
  induction text with
  | nil => exact absurd rfl h
  | cons c text ih =>
    by_cases hc : isBlank c = true
    · rw [words_cons_blank hc] at h
      rw [squeeze_cons_blank hc]
      exact ih h
    · rw [squeeze_cons (by simpa using hc)]
      exact List.cons_ne_nil _ _

theorem length_joint_append_squeeze_le (text : List Char) :
    (joint text ++ squeeze text).length ≤ text.length := by
  induction text with
  | nil => simp [joint, squeeze, words, unwords]
  | cons c text ih =>
    rw [List.length_append] at ih ⊢
    by_cases hc : isBlank c = true
    · have hjoint : (joint (c :: text)).length ≤ 1 := by
        rw [joint]
        split <;> simp
      rw [squeeze_cons_blank hc, List.length_cons]
      omega
    · have hjoint : joint (c :: text) = [] := by simp [joint, hc]
      rw [hjoint, squeeze_cons (by simpa using hc), List.length_cons, List.length_append,
        List.length_nil, List.length_cons]
      omega

theorem length_squeeze_le (text : List Char) : (squeeze text).length ≤ text.length := by
  have hle := length_joint_append_squeeze_le text
  rw [List.length_append] at hle
  omega

theorem unwords_append {front rest : List (List Char)} (hfront : front ≠ []) (hrest : rest ≠ []) :
    unwords (front ++ rest) = unwords front ++ ' ' :: unwords rest := by
  induction front with
  | nil => exact absurd rfl hfront
  | cons part front ih =>
    by_cases hnil : front = []
    · subst hnil
      rw [List.singleton_append, unwords, List.intercalate_cons_of_ne_nil hrest]
      simp [unwords]
    · have hne : front ++ rest ≠ [] := List.append_ne_nil_of_left_ne_nil hnil rest
      rw [List.cons_append, unwords, List.intercalate_cons_of_ne_nil hne, ← unwords, ih hnil,
        unwords, unwords, unwords, List.intercalate_cons_of_ne_nil hnil]
      simp

theorem tight_squeeze (text : List Char) : Tight (squeeze text) := by
  induction text with
  | nil => exact ⟨by simp [squeeze, words, unwords], by simp [squeeze, words, unwords]⟩
  | cons c text ih =>
    by_cases hc : isBlank c = true
    · rwa [squeeze_cons_blank hc]
    · have hc' : isBlank c = false := by simpa using hc
      rw [squeeze_cons hc']
      refine ⟨by simpa using hc', fun d hd => ?_⟩
      by_cases hnil : words text = []
      · have hend : squeeze text = [] := by rw [squeeze, hnil]; rfl
        have hjoint : joint text = [] := by simp [joint, hnil]
        rw [hend, hjoint] at hd
        cases hd
        exact hc'
      · obtain ⟨front, e, hfront⟩ := List.eq_nil_or_concat (squeeze text) |>.resolve_left
          (squeeze_ne_nil hnil)
        rw [List.concat_eq_append] at hfront
        rw [hfront, ← List.append_assoc, ← List.cons_append, List.getLast?_concat] at hd
        exact ih.last d (by rw [hfront, List.getLast?_concat]; exact hd)

theorem mem_squeeze {c : Char} {text : List Char} (h : c ∈ squeeze text) :
    c ∈ text ∨ isBlank c = true := by
  induction text with
  | nil => cases h
  | cons d text ih =>
    by_cases hd : isBlank d = true
    · rw [squeeze_cons_blank hd] at h
      exact (ih h).imp_left (List.mem_cons_of_mem d)
    · rw [squeeze_cons (by simpa using hd)] at h
      rcases List.mem_cons.mp h with rfl | h
      · exact .inl List.mem_cons_self
      · rcases List.mem_append.mp h with h | h
        · exact .inr (isBlank_of_mem_joint h)
        · exact (ih h).imp_left (List.mem_cons_of_mem d)

theorem words_eq_nil_iff {text : List Char} : words text = [] ↔ ∀ c ∈ text, isBlank c = true := by
  constructor
  · intro h c hc
    by_cases hblank : isBlank c = true
    · exact hblank
    · obtain ⟨front, rest, rfl⟩ := List.append_of_mem hc
      exact absurd h (words_append_ne_nil front (by simpa using hblank) rest)
  · intro h
    simpa [words] using words_blanks_append h []

theorem countP_squeeze {p : Char → Bool} (hp : ∀ c, isBlank c = true → p c = false)
    (text : List Char) : (squeeze text).countP p = text.countP p := by
  induction text with
  | nil => rfl
  | cons c text ih =>
    by_cases hc : isBlank c = true
    · rw [squeeze_cons_blank hc, ih, List.countP_cons_of_neg (by simp [hp c hc])]
    · have hjoint : (joint text).countP p = 0 :=
        List.countP_eq_zero.mpr fun d hd => by simp [hp d (isBlank_of_mem_joint hd)]
      rw [squeeze_cons (by simpa using hc), List.countP_cons, List.countP_cons,
        List.countP_append, hjoint, ih, Nat.zero_add]

theorem isPrefix_of_isPrefix_squeeze {part text : List Char}
    (hpart : ∀ c ∈ part, isBlank c = false) (h : part <+: joint text ++ squeeze text) :
    part <+: text := by
  induction text generalizing part with
  | nil => exact h
  | cons c text ih =>
    cases part with
    | nil => exact List.nil_prefix
    | cons d part =>
      have hd := hpart d List.mem_cons_self
      by_cases hc : isBlank c = true
      · by_cases hnil : words (c :: text) = []
        · simp [joint, squeeze, hnil, unwords] at h
        · simp [joint, hc, hnil, List.cons_prefix_cons] at h
          rw [h.1] at hd
          cases hd
      · have hjoint : joint (c :: text) = [] := by simp [joint, hc]
        rw [hjoint, List.nil_append, squeeze_cons (by simpa using hc)] at h
        obtain ⟨rfl, htail⟩ := List.cons_prefix_cons.mp h
        exact List.cons_prefix_cons.mpr
          ⟨rfl, ih (fun e he => hpart e (List.mem_cons_of_mem d he)) htail⟩

theorem isInfix_of_isInfix_squeeze {part text : List Char}
    (hpart : ∀ c ∈ part, isBlank c = false) (h : part <:+: squeeze text) : part <:+: text := by
  induction text with
  | nil => exact h
  | cons c text ih =>
    have hsuffix := (List.suffix_cons c text).isInfix
    by_cases hc : isBlank c = true
    · rw [squeeze_cons_blank hc] at h
      exact (ih h).trans hsuffix
    · have hjoint : joint (c :: text) ++ squeeze (c :: text) = c :: (joint text ++ squeeze text) := by
        rw [squeeze_cons (by simpa using hc)]
        simp [joint, hc]
      rw [squeeze_cons (by simpa using hc)] at h
      rcases List.infix_cons_iff.mp h with h | h
      · rw [← hjoint] at h
        exact (isPrefix_of_isPrefix_squeeze hpart h).isInfix
      · rw [joint] at h
        split at h
        · rcases List.infix_cons_iff.mp h with h | h
          · cases part with
            | nil => exact List.nil_infix
            | cons d part =>
              have hd := hpart d List.mem_cons_self
              rw [(List.cons_prefix_cons.mp h).1] at hd
              cases hd
          · exact (ih h).trans hsuffix
        · exact (ih h).trans hsuffix

/-! ### Fields -/

theorem fields_eq_splitOnP (sep : Char) (text : List Char) :
    fields sep text = text.splitOnP (· == sep) := by
  induction text with
  | nil => rfl
  | cons c text ih =>
    rw [fields, List.splitOnP_cons_eq_if_modifyHead, ih]
    by_cases hc : c = sep
    · simp [hc]
    · have hne : text.splitOnP (· == sep) ≠ [] := List.splitOnP_ne_nil _ _
      cases hparts : text.splitOnP (· == sep) with
      | nil => exact absurd hparts hne
      | cons part parts => simp [hc, consFirst]

theorem splitOnP_induction {α : Type} (p : α → Bool) {motive : List α → Prop}
    (free : ∀ list, (∀ x ∈ list, p x = false) → motive list)
    (cut : ∀ front sep rest, (∀ x ∈ front, p x = false) → p sep = true → motive rest →
      motive (front ++ sep :: rest)) (list : List α) : motive list := by
  induction hlen : list.length using Nat.strongRecOn generalizing list with
  | ind n ih =>
    have hsplit := List.takeWhile_append_dropWhile (p := fun x => !p x) (l := list)
    have hfree : ∀ x ∈ list.takeWhile (fun x => !p x), p x = false := by
      intro x hx
      simpa using List.all_eq_true.mp List.all_takeWhile x hx
    have hhead := List.head?_dropWhile_not (fun x => !p x) list
    cases hdrop : list.dropWhile (fun x => !p x) with
    | nil =>
      rw [hdrop, List.append_nil] at hsplit
      rw [hsplit] at hfree
      exact free list hfree
    | cons sep rest =>
      rw [hdrop] at hsplit hhead
      have hshort : rest.length < n := by
        rw [← hlen, ← hsplit, List.length_append, List.length_cons]
        omega
      rw [← hsplit]
      exact cut _ sep rest hfree (by simpa using hhead) (ih _ hshort rest rfl)

theorem fields_of_forall {sep : Char} {text : List Char} (h : ∀ c ∈ text, (c == sep) = false) :
    fields sep text = [text] := by
  rw [fields_eq_splitOnP]
  exact List.splitOnP_eq_singleton h

theorem fields_append_cons {sep : Char} {front : List Char} (h : ∀ c ∈ front, (c == sep) = false)
    (text : List Char) : fields sep (front ++ sep :: text) = front :: fields sep text := by
  rw [fields_eq_splitOnP, fields_eq_splitOnP]
  exact List.splitOnP_append_cons_of_forall_mem h sep (by simp) text

theorem head?_fields (sep : Char) (text : List Char) :
    (fields sep text).head? = some (text.takeWhile (· != sep)) := by
  induction text with
  | nil => rfl
  | cons c text ih =>
    obtain ⟨first, rest, hfields⟩ : ∃ first rest, fields sep text = first :: rest :=
      List.exists_cons_of_ne_nil fun hnil => by simp [hnil] at ih
    rw [hfields, List.head?_cons, Option.some.injEq] at ih
    by_cases hc : c = sep
    · simp [fields, hc]
    · simp [fields, hc, hfields, consFirst, ih]

/-- Blanks around the fields of a squeezed text do not count. -/
theorem trim_fields {sep : Char} (hsep : isBlank sep = false) {text opening closing : List Char}
    (ho : ∀ c ∈ opening, isBlank c = true) (hc : ∀ c ∈ closing, isBlank c = true) :
    (fields sep (opening ++ squeeze text ++ closing)).map trim = (fields sep text).map squeeze := by
  have hfield : ∀ {front back piece : List Char}, (∀ c ∈ front, isBlank c = true) →
      (∀ c ∈ back, isBlank c = true) → (∀ c ∈ piece, (c == sep) = false) →
      ∀ c ∈ front ++ squeeze piece ++ back, (c == sep) = false := by
    intro front back piece hfront hback hpiece c hmem
    have hblank : isBlank c = true → (c == sep) = false := by
      intro hc
      rw [beq_eq_false_iff_ne]
      rintro rfl
      simp [hc] at hsep
    rcases List.mem_append.mp hmem with hmem | hmem
    · rcases List.mem_append.mp hmem with hmem | hmem
      · exact hblank (hfront c hmem)
      · exact (mem_squeeze hmem).elim (hpiece c) hblank
    · exact hblank (hback c hmem)
  induction text using splitOnP_induction (· == sep) generalizing opening with
  | free text hfree =>
    rw [fields_of_forall (hfield ho hc hfree), fields_of_forall hfree, List.map_singleton,
      List.map_singleton, (tight_squeeze text).trim_append ho hc]
  | cut front sep' rest hfree hsep' ih =>
    obtain rfl : sep' = sep := eq_of_beq hsep'
    obtain ⟨blanks, hblanks, heq⟩ := exists_squeeze_append front hsep rest
    have hjoint : ∀ c ∈ joint rest, isBlank c = true := fun _ => isBlank_of_mem_joint
    have hsplit : opening ++ squeeze (front ++ sep' :: rest) ++ closing =
        (opening ++ squeeze front ++ blanks) ++
          sep' :: (joint rest ++ squeeze rest ++ closing) := by
      rw [heq, squeeze_cons hsep]
      simp
    rw [hsplit, fields_append_cons (hfield ho hblanks hfree), fields_append_cons hfree,
      List.map_cons, List.map_cons, ih hjoint, (tight_squeeze front).trim_append ho hblanks]

end DocQuery.Text
