import Mathlib.Data.List.DropRight
import Mathlib.Algebra.GroupWithZero.Nat

/-!
# Texts of code points

The strings of Python: lists of code points, lone surrogates included, with the white space and the
operations that the standard library has for them.
-/

namespace Texts

abbrev CodePoint := Fin 0x110000

abbrev Text := List CodePoint

/-- Every literal of a code point rests on this one instance. -/
instance codePoints_neZero : NeZero 0x110000 := ⟨by decide⟩

instance codePoint_lawfulBEq : LawfulBEq CodePoint := inferInstance

instance text_lawfulBEq : LawfulBEq Text := inferInstance

def ofChar (c : Char) : CodePoint :=
  ⟨c.toNat, by
    rcases c.valid with h | h
    · exact Nat.lt_trans h (by decide)
    · exact h.2⟩

/-- The text of a literal. -/
def lit (s : String) : Text := s.toList.map ofChar

def lineFeed : CodePoint := 0x0a

def carriageReturn : CodePoint := 0x0d

def space : CodePoint := 0x20

/-- `str.isspace`. -/
def isSpace (c : CodePoint) : Bool :=
  9 ≤ c && c ≤ 13 || 28 ≤ c && c ≤ 32 || c == 0x85 || c == 0xa0 || c == 0x1680 ||
    0x2000 ≤ c && c ≤ 0x200a || c == 0x2028 || c == 0x2029 || c == 0x202f || c == 0x205f || c == 0x3000

/-- The bytes of a code point in UTF-8; a surrogate has three. -/
def utf8Size (c : CodePoint) : Nat :=
  if c < 0x80 then 1 else if c < 0x800 then 2 else if c < 0x10000 then 3 else 4

def rstrip (t : Text) : Text := t.rdropWhile isSpace

/-- `str.strip` -/
def strip (t : Text) : Text := rstrip (t.dropWhile isSpace)

/-- The code point has an encoding in UTF-8. -/
def isScalar (c : CodePoint) : Bool := c < 0xd800 || 0xdfff < c

def isBlank (t : Text) : Bool := t.all isSpace

/-! ## Lines -/

/-- Every line break as a line feed. -/
def normalizeToLf : Text → Text
  | [] => []
  | c :: rest =>
      if c = carriageReturn then
        if rest.head? = some lineFeed then normalizeToLf rest else lineFeed :: normalizeToLf rest
      else c :: normalizeToLf rest

def lines (t : Text) : List Text := (normalizeToLf t).splitOn lineFeed

/-- The text has no line break. -/
def Inline (t : Text) : Prop := lineFeed ∉ t ∧ carriageReturn ∉ t

instance : DecidablePred Inline := fun t =>
  inferInstanceAs (Decidable (lineFeed ∉ t ∧ carriageReturn ∉ t))

theorem Inline.of_cons {c : CodePoint} {t : Text} (h : Inline (c :: t)) : Inline t :=
  ⟨fun hmem => h.1 (List.mem_cons_of_mem _ hmem), fun hmem => h.2 (List.mem_cons_of_mem _ hmem)⟩

theorem inline_append {t u : Text} : Inline (t ++ u) ↔ Inline t ∧ Inline u := by
  simp only [Inline, List.mem_append, not_or]
  tauto

theorem normalizeToLf_inline_append {t : Text} (h : Inline t) (u : Text) :
    normalizeToLf (t ++ u) = t ++ normalizeToLf u := by
  induction t with
  | nil => rfl
  | cons c t ih =>
      have hc : c ≠ carriageReturn := fun heq => h.2 (heq ▸ List.mem_cons_self)
      rw [List.cons_append, normalizeToLf, if_neg hc, ih h.of_cons, List.cons_append]

/-- The end of one text and the start of the next are one line break. -/
def Seam (t u : Text) : Prop := t.getLast? = some carriageReturn ∧ u.head? = some lineFeed

instance (t u : Text) : Decidable (Seam t u) :=
  inferInstanceAs (Decidable (t.getLast? = some carriageReturn ∧ u.head? = some lineFeed))

theorem normalizeToLf_append {t u : Text} (h : ¬ Seam t u) :
    normalizeToLf (t ++ u) = normalizeToLf t ++ normalizeToLf u := by
  induction t with
  | nil => rfl
  | cons c t ih =>
      cases t with
      | nil =>
          rw [List.singleton_append, normalizeToLf, normalizeToLf]
          by_cases hc : c = carriageReturn
          · have hhead : u.head? ≠ some lineFeed := fun hu => h ⟨by rw [hc]; rfl, hu⟩
            rw [if_pos hc, if_pos hc, if_neg hhead, if_neg (by simp)]
            rfl
          · rw [if_neg hc, if_neg hc]
            rfl
      | cons d t =>
          have hrest := ih fun hseam => h ⟨by rw [List.getLast?_cons_cons]; exact hseam.1, hseam.2⟩
          have hhead : ((d :: t) ++ u).head? = (d :: t).head? := rfl
          rw [List.cons_append, normalizeToLf, normalizeToLf, hrest, hhead]
          split
          · split <;> rfl
          · rfl

/-- Across a seam one line break is counted twice. -/
theorem length_normalizeToLf_seam {t u : Text} (h : Seam t u) :
    (normalizeToLf (t ++ u)).length + 1 = (normalizeToLf t).length + (normalizeToLf u).length := by
  obtain ⟨hlast, hhead⟩ := h
  obtain ⟨front, rfl⟩ := List.getLast?_eq_some_iff.mp hlast
  have hfront : ¬ Seam front (carriageReturn :: u) := fun hseam => by cases hseam.2
  have hfront' : ¬ Seam front [carriageReturn] := fun hseam => by cases hseam.2
  rw [List.append_assoc, List.singleton_append, normalizeToLf_append hfront, normalizeToLf_append hfront',
    normalizeToLf, if_pos rfl, if_pos hhead, List.length_append, List.length_append]
  have hone : (normalizeToLf [carriageReturn]).length = 1 := rfl
  omega

theorem normalizeToLf_eq_nil {t : Text} : normalizeToLf t = [] ↔ t = [] := by
  constructor
  · intro h
    induction t with
    | nil => rfl
    | cons c t ih =>
        rw [normalizeToLf] at h
        split at h
        · split at h
          · rename_i hhead
            rw [ih h] at hhead
            cases hhead
          · cases h
        · cases h
  · rintro rfl
    rfl

/-- No piece ends in the first half of a line break that what follows it begins with the second half of. -/
def SeamFree : List Text → Prop
  | [] => True
  | t :: ts => ¬ Seam t ts.flatten ∧ SeamFree ts

instance SeamFree.decide : (ts : List Text) → Decidable (SeamFree ts)
  | [] => .isTrue trivial
  | t :: ts => @instDecidableAnd (¬ Seam t ts.flatten) (SeamFree ts) _ (SeamFree.decide ts)

theorem length_normalizeToLf_append_le (t u : Text) :
    (normalizeToLf (t ++ u)).length ≤ (normalizeToLf t).length + (normalizeToLf u).length := by
  by_cases h : Seam t u
  · exact Nat.le_of_succ_le (Nat.le_of_eq (length_normalizeToLf_seam h))
  · rw [normalizeToLf_append h, List.length_append]

theorem length_normalizeToLf_flatten_le (ts : List Text) :
    (normalizeToLf ts.flatten).length ≤ ((ts.map normalizeToLf).flatten).length := by
  induction ts with
  | nil => exact Nat.le_refl _
  | cons t ts ih =>
      rw [List.flatten_cons, List.map_cons, List.flatten_cons, List.length_append]
      exact Nat.le_trans (length_normalizeToLf_append_le t ts.flatten) (Nat.add_le_add_left ih _)

theorem SeamFree.normalizeToLf_flatten {ts : List Text} (h : SeamFree ts) :
    normalizeToLf ts.flatten = (ts.map normalizeToLf).flatten := by
  induction ts with
  | nil => rfl
  | cons t ts ih => rw [List.flatten_cons, normalizeToLf_append h.1, ih h.2, List.map_cons, List.flatten_cons]

/-- Line breaks of the pieces are lost in the whole text at the seams, and only there. -/
theorem length_normalizeToLf_flatten_iff {ts : List Text} :
    (normalizeToLf ts.flatten).length = ((ts.map normalizeToLf).flatten).length ↔ SeamFree ts := by
  constructor
  · intro h
    induction ts with
    | nil => trivial
    | cons t ts ih =>
        rw [List.flatten_cons, List.map_cons, List.flatten_cons, List.length_append] at h
        have hle := length_normalizeToLf_flatten_le ts
        have hfirst : ¬ Seam t ts.flatten := by
          intro hseam
          have hlost := length_normalizeToLf_seam hseam
          omega
        rw [normalizeToLf_append hfirst, List.length_append] at h
        exact ⟨hfirst, ih (Nat.add_left_cancel h)⟩
  · intro h
    rw [h.normalizeToLf_flatten]

theorem normalizeToLf_lf (u : Text) :
    normalizeToLf (lineFeed :: u) = lineFeed :: normalizeToLf u := by
  rw [normalizeToLf, if_neg (by decide)]

theorem normalizeToLf_crlf (u : Text) :
    normalizeToLf (carriageReturn :: lineFeed :: u) = lineFeed :: normalizeToLf u := by
  rw [normalizeToLf, if_pos rfl, List.head?_cons, if_pos rfl, normalizeToLf_lf]

theorem not_mem_normalizeToLf (t : Text) : carriageReturn ∉ normalizeToLf t := by
  induction t with
  | nil => exact List.not_mem_nil
  | cons c t ih =>
      rw [normalizeToLf]
      split
      · split
        · exact ih
        · exact List.not_mem_cons_of_ne_of_not_mem (by decide) ih
      · rename_i hc
        exact List.not_mem_cons_of_ne_of_not_mem (Ne.symm hc) ih

/-- A line feed ends what is before it, whatever that is. -/
theorem normalizeToLf_line (t u : Text) :
    normalizeToLf (t ++ lineFeed :: u) = normalizeToLf (t ++ [lineFeed]) ++ normalizeToLf u := by
  have hseam : ¬ Seam (t ++ [lineFeed]) u := by
    rintro ⟨hlast, -⟩
    rw [List.getLast?_concat] at hlast
    exact absurd hlast (by decide)
  rw [← normalizeToLf_append hseam, List.append_assoc, List.singleton_append]

/-- The first half of a line break that is cut is a line break of its own. -/
theorem normalizeToLf_seam {front : Text} (u : Text) :
    normalizeToLf (front ++ carriageReturn :: lineFeed :: u) =
        normalizeToLf (front ++ [carriageReturn]) ++ normalizeToLf u ∧
      normalizeToLf (front ++ carriageReturn :: lineFeed :: u) =
        normalizeToLf front ++ normalizeToLf (lineFeed :: u) := by
  have hfront : ∀ v, ¬ Seam front (carriageReturn :: v) := fun v hseam => by cases hseam.2
  rw [normalizeToLf_append (hfront _), normalizeToLf_append (hfront _), normalizeToLf_crlf, normalizeToLf_lf]
  exact ⟨by rw [List.append_assoc]; rfl, rfl⟩

theorem isPrefix_normalizeToLf {t u : Text} (h : t <+: u) : normalizeToLf t <+: normalizeToLf u := by
  obtain ⟨v, rfl⟩ := h
  by_cases hseam : Seam t v
  · obtain ⟨hlast, hhead⟩ := hseam
    obtain ⟨front, rfl⟩ := List.getLast?_eq_some_iff.mp hlast
    obtain ⟨rest, rfl⟩ := List.head?_eq_some_iff.mp hhead
    rw [List.append_assoc, List.singleton_append, (normalizeToLf_seam rest).1]
    exact List.prefix_append _ _
  · rw [normalizeToLf_append hseam]
    exact List.prefix_append _ _

theorem isSuffix_normalizeToLf {t u : Text} (h : t <:+ u) : normalizeToLf t <:+ normalizeToLf u := by
  obtain ⟨v, rfl⟩ := h
  by_cases hseam : Seam v t
  · obtain ⟨hlast, hhead⟩ := hseam
    obtain ⟨front, rfl⟩ := List.getLast?_eq_some_iff.mp hlast
    obtain ⟨rest, rfl⟩ := List.head?_eq_some_iff.mp hhead
    rw [List.append_assoc, List.singleton_append, (normalizeToLf_seam rest).2]
    exact List.suffix_append _ _
  · rw [normalizeToLf_append hseam]
    exact List.suffix_append _ _

/-- A part of a text is one of the text with every line break a line feed, wherever it is cut. -/
theorem isInfix_normalizeToLf {t u : Text} (h : t <:+: u) : normalizeToLf t <:+: normalizeToLf u := by
  obtain ⟨before, after, rfl⟩ := h
  have hstart : t <:+ before ++ t := List.suffix_append _ _
  exact (isSuffix_normalizeToLf hstart).isInfix.trans (isPrefix_normalizeToLf (List.prefix_append _ after)).isInfix

/-- Rows with their line breaks, and a last row without one. -/
def joinRows : List (Text × Bool) → Text → Text
  | [], last => last
  | (row, crlf) :: rows, last =>
      row ++ ((if crlf then [carriageReturn, lineFeed] else [lineFeed]) ++ joinRows rows last)

/-- Rows without line breaks are read back, whatever breaks join them. -/
theorem lines_joinRows {rows : List (Text × Bool)} {last : Text} (hrows : ∀ r ∈ rows, Inline r.1)
    (hlast : Inline last) : lines (joinRows rows last) = rows.map Prod.fst ++ [last] := by
  have hnormal : normalizeToLf (joinRows rows last) =
      [lineFeed].intercalate (rows.map Prod.fst ++ [last]) := by
    induction rows with
    | nil =>
        have h := normalizeToLf_inline_append hlast []
        rw [List.append_nil] at h
        simpa [joinRows, normalizeToLf] using h
    | cons r rows ih =>
        obtain ⟨row, crlf⟩ := r
        have hrest := ih fun r hr => hrows r (List.mem_cons_of_mem _ hr)
        have hbreak : ∀ u, normalizeToLf
            ((if crlf then [carriageReturn, lineFeed] else [lineFeed]) ++ u) =
              lineFeed :: normalizeToLf u := by
          intro u
          cases crlf with
          | true => exact normalizeToLf_crlf u
          | false => exact normalizeToLf_lf u
        rw [joinRows, normalizeToLf_inline_append (hrows _ List.mem_cons_self), hbreak, hrest,
          List.map_cons, List.cons_append, List.intercalate_cons_of_ne_nil (by simp),
          List.append_assoc, List.singleton_append]
  have hfeed : ∀ l ∈ rows.map Prod.fst ++ [last], lineFeed ∉ l := by
    intro l hl
    rcases List.mem_append.mp hl with hl | hl
    · obtain ⟨r, hr, rfl⟩ := List.mem_map.mp hl
      exact (hrows r hr).1
    · rw [List.mem_singleton.mp hl]
      exact hlast.1
  rw [lines, hnormal, List.splitOn_intercalate lineFeed hfeed (by simp)]

/-! ## Words -/

/-- Puts a code point before the first word. -/
def onFirst (c : CodePoint) : List Text → List Text
  | [] => [[c]]
  | word :: words => (c :: word) :: words

/-- `str.split` on white space. -/
def words : Text → List Text
  | [] => []
  | c :: rest =>
      if isSpace c then words rest
      else if rest.head?.all isSpace then [c] :: words rest
      else onFirst c (words rest)

/-- The words with single spaces between them. -/
def collapse (t : Text) : Text := [space].intercalate (words t)

theorem mem_words {t w : Text} (h : w ∈ words t) : w ≠ [] ∧ ∀ c ∈ w, isSpace c = false := by
  induction t generalizing w with
  | nil => cases h
  | cons c rest ih =>
      rw [words] at h
      split at h
      · exact ih h
      · rename_i hc
        have hc : isSpace c = false := by simpa using hc
        split at h
        · rcases List.mem_cons.mp h with rfl | h
          · exact ⟨by simp, by simpa using hc⟩
          · exact ih h
        · cases hwords : words rest with
          | nil =>
              rw [hwords] at h
              rw [List.mem_singleton.mp h]
              exact ⟨by simp, by simpa using hc⟩
          | cons word words =>
              rw [hwords] at h
              rcases List.mem_cons.mp h with rfl | h
              · have hword := (ih (hwords ▸ List.mem_cons_self)).2
                exact ⟨by simp, by simpa using ⟨hc, hword⟩⟩
              · exact ih (hwords ▸ List.mem_cons_of_mem _ h)

theorem words_eq_nil_iff {t : Text} : words t = [] ↔ isBlank t = true := by
  induction t with
  | nil => simp [words, isBlank]
  | cons c rest ih =>
      rw [words, isBlank, List.all_cons]
      split
      · rename_i hc
        rw [hc, Bool.true_and]
        exact ih
      · rename_i hc
        have hc : isSpace c = false := by simpa using hc
        rw [hc, Bool.false_and]
        split
        · simp
        · cases words rest <;> simp [onFirst]

theorem rstrip_append {t u : Text} (hne : u ≠ []) (h : rstrip u = u) : rstrip (t ++ u) = t ++ u := by
  rw [rstrip, List.rdropWhile_eq_self_iff] at h ⊢
  intro hall
  rw [List.getLast_append_of_ne_nil _ hne]
  exact h hne

/-- A longer head keeps what a shorter one keeps. -/
theorem rstrip_prefix {t u : Text} (h : t <+: u) : rstrip t <+: rstrip u := by
  obtain ⟨v, rfl⟩ := h
  induction v using List.reverseRecOn with
  | nil => simp only [List.append_nil, List.prefix_refl]
  | append_singleton v c ih =>
      rw [← List.append_assoc, rstrip, rstrip, List.rdropWhile_concat]
      split
      · exact ih
      · rw [List.append_assoc]
        exact (List.rdropWhile_prefix _ _).trans (List.prefix_append _ _)

theorem rstrip_of_no_space {t : Text} (h : ∀ c ∈ t, isSpace c = false) : rstrip t = t := by
  rw [rstrip, List.rdropWhile_eq_self_iff]
  intro hne
  simp [h _ (List.getLast_mem hne)]

/-- A collapsed text has no white space but single spaces, and none at its end. -/
theorem collapse_spec (t : Text) :
    (∀ c ∈ collapse t, c = space ∨ isSpace c = false) ∧ rstrip (collapse t) = collapse t ∧
      (collapse t = [] ↔ isBlank t = true) := by
  rw [collapse, ← words_eq_nil_iff]
  have hwords : ∀ w ∈ words t, w ≠ [] ∧ ∀ c ∈ w, isSpace c = false := fun w => mem_words
  generalize words t = ws at hwords ⊢
  induction ws with
  | nil => simp [rstrip]
  | cons w ws ih =>
      obtain ⟨hne, hspace⟩ := hwords w List.mem_cons_self
      obtain ⟨hchars, hstrip, hnil⟩ := ih fun v hv => hwords v (List.mem_cons_of_mem _ hv)
      cases ws with
      | nil =>
          rw [List.intercalate_singleton]
          exact ⟨fun c hc => .inr (hspace c hc), rstrip_of_no_space hspace, by simp [hne]⟩
      | cons v ws =>
          rw [List.intercalate_cons_cons]
          refine ⟨fun c hc => ?_, ?_, by simp [hne]⟩
          · rcases List.mem_append.mp hc with hc | hc
            · rcases List.mem_append.mp hc with hc | hc
              · exact .inr (hspace c hc)
              · exact .inl (List.mem_singleton.mp hc)
            · exact hchars c hc
          · exact rstrip_append (fun h => by simpa using hnil.mp h) hstrip

theorem inline_of_spaces {t : Text} (h : ∀ c ∈ t, c = space ∨ isSpace c = false) : Inline t := by
  constructor
  · intro hmem
    exact absurd (h _ hmem) (by decide)
  · intro hmem
    exact absurd (h _ hmem) (by decide)

end Texts
