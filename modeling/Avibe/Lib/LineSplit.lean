import Avibe.Lib.TextEnds

/-!
# Lines as they are counted

A trailing line feed does not start another line: `splitLines` are the lines of a text counted so, and the
text is these lines joined, with the trailing line feed if it has one (`joined_splitLines`).
-/

namespace Texts

/-- Lines with a line feed between them. -/
def joined (ls : List Text) : Text := [lineFeed].intercalate ls

/-- The text ends with a line feed. -/
def EndsLine (t : Text) : Prop := t.getLast? = some lineFeed

instance : DecidablePred EndsLine := fun t => inferInstanceAs (Decidable (t.getLast? = some lineFeed))

/-- Lines of a text; a trailing line feed does not start another line. -/
def splitLines (content : Text) : List Text :=
  if content = [] then []
  else if EndsLine content then (content.splitOn lineFeed).dropLast
  else content.splitOn lineFeed

/-! ## Joining -/

@[simp] theorem joined_nil : joined [] = [] := rfl

@[simp] theorem joined_singleton (l : Text) : joined [l] = l := List.append_nil l

theorem joined_cons {l : Text} {ls : List Text} (h : ls ≠ []) :
    joined (l :: ls) = l ++ lineFeed :: joined ls := by
  obtain ⟨next, ls, rfl⟩ := List.exists_cons_of_ne_nil h
  rfl

theorem joined_append {a b : List Text} (ha : a ≠ []) (hb : b ≠ []) :
    joined (a ++ b) = joined a ++ lineFeed :: joined b := by
  induction a with
  | nil => exact absurd rfl ha
  | cons l a ih =>
      cases a with
      | nil => rw [List.singleton_append, joined_cons hb, joined_singleton]
      | cons next a =>
          have hne : next :: a ≠ [] := List.cons_ne_nil _ _
          rw [List.cons_append, joined_cons (List.append_ne_nil_of_left_ne_nil hne _), ih hne, joined_cons hne,
            List.append_assoc]
          rfl

theorem utf8Len_lineFeed (t : Text) : utf8Len (lineFeed :: t) = 1 + utf8Len t := utf8Len_cons _ _

/-- The bytes of some lines and of the line feeds between them. -/
theorem utf8Len_joined (ls : List Text) : utf8Len (joined ls) = (ls.map utf8Len).sum + (ls.length - 1) := by
  induction ls with
  | nil => rfl
  | cons l ls ih =>
      cases ls with
      | nil => simp
      | cons next ls =>
          rw [joined_cons (List.cons_ne_nil _ _), utf8Len_append, utf8Len_lineFeed, ih]
          simp only [List.map_cons, List.sum_cons, List.length_cons]
          omega

theorem utf8Len_joined_cons {l : Text} {ls : List Text} :
    utf8Len (joined (l :: ls)) = utf8Len l + (if ls = [] then 0 else 1) + utf8Len (joined ls) := by
  cases ls with
  | nil => simp
  | cons next ls =>
      rw [joined_cons (List.cons_ne_nil _ _), utf8Len_append, utf8Len_lineFeed, if_neg (List.cons_ne_nil _ _)]
      omega

theorem utf8Len_joined_reverse (ls : List Text) : utf8Len (joined ls.reverse) = utf8Len (joined ls) := by
  rw [utf8Len_joined, utf8Len_joined, List.map_reverse, List.sum_reverse, List.length_reverse]

theorem utf8Len_joined_mono {a b : List Text} (h : a <+: b) : utf8Len (joined a) ≤ utf8Len (joined b) := by
  obtain ⟨rest, rfl⟩ := h
  rw [utf8Len_joined, utf8Len_joined, List.map_append, List.sum_append, List.length_append]
  omega

/-! ## Splitting -/

theorem splitOn_ends {content : Text} (h : EndsLine content) :
    ∃ body, content = body ++ [lineFeed] ∧ splitLines content = body.splitOn lineFeed := by
  obtain ⟨body, rfl⟩ := List.getLast?_eq_some_iff.mp h
  refine ⟨body, rfl, ?_⟩
  rw [splitLines, if_neg (List.append_ne_nil_of_right_ne_nil _ (List.cons_ne_nil _ _)), if_pos h,
    List.splitOn_append_cons_self, List.splitOn_nil, List.dropLast_concat]

theorem joined_splitLines (content : Text) :
    content = joined (splitLines content) ++ if EndsLine content then [lineFeed] else [] := by
  by_cases hends : EndsLine content
  · obtain ⟨body, hcontent, hlines⟩ := splitOn_ends hends
    rw [if_pos hends, hlines, joined, List.intercalate_splitOn]
    exact hcontent
  · rw [if_neg hends, List.append_nil]
    by_cases hnil : content = []
    · rw [splitLines, if_pos hnil, hnil]
      rfl
    · rw [splitLines, if_neg hnil, if_neg hends, joined, List.intercalate_splitOn]

theorem splitLines_eq_nil {content : Text} : splitLines content = [] ↔ content = [] := by
  constructor
  · intro h
    by_contra hne
    by_cases hends : EndsLine content
    · obtain ⟨body, -, hlines⟩ := splitOn_ends hends
      exact List.splitOn_ne_nil _ _ (hlines.symm.trans h)
    · rw [splitLines, if_neg hne, if_neg hends] at h
      exact List.splitOn_ne_nil _ _ h
  · rintro rfl
    rfl

/-- A text after a line feed has lines of its own. -/
theorem splitLines_append {before content : Text} (h : EndsLine before) :
    splitLines (before ++ content) = splitLines before ++ splitLines content := by
  obtain ⟨body, hbefore, hlines⟩ := splitOn_ends h
  by_cases hnil : content = []
  · rw [hnil, List.append_nil, splitLines_eq_nil.mpr rfl, List.append_nil]
  · have hends : EndsLine (before ++ content) ↔ EndsLine content := by
      rw [EndsLine, EndsLine, List.getLast?_append_of_ne_nil _ hnil]
    have hne : before ++ content ≠ [] := List.append_ne_nil_of_right_ne_nil _ hnil
    have hsplit : (before ++ content).splitOn lineFeed = splitLines before ++ content.splitOn lineFeed := by
      rw [hlines, hbefore, List.append_assoc, List.singleton_append, List.splitOn_append_cons_self]
    by_cases hlast : EndsLine content
    · rw [splitLines, if_neg hne, if_pos (hends.mpr hlast), hsplit,
        List.dropLast_append_of_ne_nil (List.splitOn_ne_nil _ _), splitLines, splitLines, if_neg hnil,
        if_pos hlast]
    · rw [splitLines, if_neg hne, if_neg (mt hends.mp hlast), hsplit]
      conv_rhs => rw [splitLines, splitLines, if_neg hnil, if_neg hlast]
      rw [splitLines]

/-- One line more than line feeds, unless the last line is only ended. -/
theorem length_splitLines (t : Text) :
    (splitLines t).length = t.count lineFeed + if t ≠ [] ∧ ¬ EndsLine t then 1 else 0 := by
  have hsplit : ∀ u : Text, (u.splitOn lineFeed).length = u.count lineFeed + 1 := by
    intro u
    induction u with
    | nil => rfl
    | cons c u ih =>
        rw [List.splitOn_cons_eq_if_modifyHead]
        by_cases hc : c = lineFeed
        · rw [if_pos (beq_iff_eq.mpr hc), List.length_cons, ih, hc, List.count_cons_self]
        · rw [if_neg (mt beq_iff_eq.mp hc), List.length_modifyHead, ih, List.count_cons_of_ne hc]
  by_cases hnil : t = []
  · rw [hnil]
    rfl
  · by_cases hends : EndsLine t
    · obtain ⟨body, ht, hlines⟩ := splitOn_ends hends
      rw [hlines, hsplit, if_neg fun h => h.2 hends, ht, List.count_append, List.count_singleton_self]
    · rw [splitLines, if_neg hnil, if_neg hends, hsplit, if_pos ⟨hnil, hends⟩]

theorem splitLines_line {l : Text} (hl : lineFeed ∉ l) : splitLines (l ++ [lineFeed]) = [l] := by
  obtain ⟨body, hbody, hlines⟩ := splitOn_ends (List.getLast?_concat : EndsLine (l ++ [lineFeed]))
  obtain rfl : l = body := List.append_cancel_right hbody
  rw [hlines, List.splitOn_eq_singleton hl]

theorem splitLines_open {l : Text} (hl : lineFeed ∉ l) (hne : l ≠ []) : splitLines l = [l] := by
  have hends : ¬ EndsLine l := fun h => hl (List.mem_of_getLast? h)
  rw [splitLines, if_neg hne, if_neg hends, List.splitOn_eq_singleton hl]

/-- No part holds what parts the list. -/
theorem notMem_of_mem_splitOn {α : Type} [BEq α] [LawfulBEq α] {a : α} {xs l : List α} (h : l ∈ xs.splitOn a) :
    a ∉ l := by
  induction xs generalizing l with
  | nil =>
      rw [List.splitOn_nil, List.mem_singleton] at h
      rw [h]
      exact List.not_mem_nil
  | cons x xs ih =>
      rw [List.splitOn_cons_eq_if_modifyHead] at h
      by_cases hx : (x == a) = true
      · rw [if_pos hx, List.mem_cons] at h
        cases h with
        | inl hnil => rw [hnil]; exact List.not_mem_nil
        | inr hl => exact ih hl
      · rw [if_neg hx] at h
        obtain ⟨first, rest, heq⟩ := List.exists_cons_of_ne_nil (List.splitOn_ne_nil a xs)
        rw [heq, List.modifyHead_cons, List.mem_cons] at h
        cases h with
        | inl hfirst =>
            rw [hfirst, List.mem_cons, not_or]
            exact ⟨fun hax => hx (beq_iff_eq.mpr hax.symm), ih (heq ▸ List.mem_cons_self)⟩
        | inr hl => exact ih (heq ▸ List.mem_cons_of_mem _ hl)

theorem mem_intersperse {α : Type} {ls : List α} {l : α} (sep : α) (h : l ∈ ls) : l ∈ ls.intersperse sep := by
  induction ls with
  | nil => cases h
  | cons first ls ih =>
      cases ls with
      | nil => exact h
      | cons next ls =>
          rw [List.intersperse_cons_cons]
          rcases List.mem_cons.mp h with rfl | h
          · exact List.mem_cons_self
          · exact List.mem_cons_of_mem _ (List.mem_cons_of_mem _ (ih h))

/-- A part stands in the list it is a part of. -/
theorem isInfix_of_mem_splitOn {α : Type} [BEq α] [LawfulBEq α] {a : α} {xs l : List α} (h : l ∈ xs.splitOn a) :
    l <:+: xs := by
  have hinfix := List.infix_of_mem_flatten (mem_intersperse [a] h)
  rwa [← List.intercalate, List.intercalate_splitOn] at hinfix

/-- The lines of two parts: the last line of the first one goes on in the second. -/
theorem splitOn_append {α : Type} [BEq α] [LawfulBEq α] {r : α} {a b : List α} {done rest : List (List α)}
    {cur segment : List α} (ha : a.splitOn r = done ++ [cur]) (hb : b.splitOn r = segment :: rest) :
    (a ++ b).splitOn r = done ++ (cur ++ segment) :: rest := by
  induction a generalizing done cur with
  | nil =>
      rw [List.splitOn_nil] at ha
      cases done with
      | nil =>
          obtain rfl : [] = cur := (List.cons.inj ha).1
          exact hb
      | cons first done => exact absurd (List.cons.inj ha).2 (List.append_ne_nil_of_right_ne_nil _ (by simp)).symm
  | cons c a ih =>
      obtain ⟨first, more, hsplit⟩ := List.exists_cons_of_ne_nil (List.splitOn_ne_nil r a)
      rw [List.splitOn_cons_eq_if_modifyHead, hsplit] at ha
      rw [List.cons_append, List.splitOn_cons_eq_if_modifyHead]
      by_cases hc : (c == r) = true
      · rw [if_pos hc] at ha ⊢
        cases done with
        | nil => exact absurd (List.cons.inj ha).2 (List.cons_ne_nil _ _)
        | cons head done =>
            obtain ⟨rfl, htail⟩ := List.cons.inj ha
            rw [ih (hsplit.trans htail)]
            rfl
      · rw [if_neg hc, List.modifyHead_cons] at ha
        rw [if_neg hc]
        cases done with
        | nil =>
            obtain ⟨rfl, rfl⟩ := List.cons.inj ha
            have hnext : (a ++ b).splitOn r = [] ++ (first ++ segment) :: rest := ih hsplit
            rw [hnext]
            rfl
        | cons head done =>
            obtain ⟨rfl, rfl⟩ := List.cons.inj ha
            have hnext : (a ++ b).splitOn r = (first :: done) ++ (cur ++ segment) :: rest := ih hsplit
            rw [hnext]
            rfl

/-- The lines of joined texts are the lines of each. -/
theorem splitOn_joined {ls : List Text} (h : ls ≠ []) :
    (joined ls).splitOn lineFeed = ls.flatMap (List.splitOn lineFeed) := by
  induction ls with
  | nil => exact absurd rfl h
  | cons l ls ih =>
      cases ls with
      | nil => rw [joined_singleton, List.flatMap_singleton]
      | cons next ls =>
          rw [joined_cons (List.cons_ne_nil _ _), List.splitOn_append_cons_self, ih (List.cons_ne_nil _ _)]
          rfl

theorem flatMap_splitOn {ls : List Text} (h : ∀ line ∈ ls, lineFeed ∉ line) :
    ls.flatMap (List.splitOn lineFeed) = ls := by
  induction ls with
  | nil => rfl
  | cons line ls ih =>
      rw [List.flatMap_cons, List.splitOn_eq_singleton (h line List.mem_cons_self),
        ih fun other hother => h other (List.mem_cons_of_mem _ hother)]
      rfl

/-- No line holds a line feed. -/
theorem lineFeed_notMem_splitLines {t l : Text} (h : l ∈ splitLines t) : lineFeed ∉ l := by
  by_cases hnil : t = []
  · rw [splitLines_eq_nil.mpr hnil] at h
    cases h
  · rw [splitLines, if_neg hnil] at h
    split at h
    · exact notMem_of_mem_splitOn (List.dropLast_subset _ h)
    · exact notMem_of_mem_splitOn h

theorem mem_joined {ls : List Text} {l : Text} {c : CodePoint} (hl : l ∈ ls) (hc : c ∈ l) : c ∈ joined ls := by
  obtain ⟨a, b, rfl⟩ := List.append_of_mem hl
  cases a with
  | nil =>
      rw [List.nil_append]
      cases b with
      | nil => rwa [joined_singleton]
      | cons next b =>
          rw [joined_cons (List.cons_ne_nil _ _)]
          exact List.mem_append_left _ hc
  | cons first a =>
      rw [joined_append (List.cons_ne_nil _ _) (List.cons_ne_nil _ _)]
      apply List.mem_append_right
      apply List.mem_cons_of_mem
      cases b with
      | nil => rwa [joined_singleton]
      | cons next b =>
          rw [joined_cons (List.cons_ne_nil _ _)]
          exact List.mem_append_left _ hc

/-- A text is whole lines and an open line. -/
theorem exists_openLine (t : Text) :
    ∃ done line, t = done ++ line ∧ lineFeed ∉ line ∧ (done = [] ∨ EndsLine done) := by
  induction t using List.reverseRecOn with
  | nil => exact ⟨[], [], rfl, List.not_mem_nil, .inl rfl⟩
  | append_singleton t c ih =>
      by_cases hc : c = lineFeed
      · refine ⟨t ++ [c], [], (List.append_nil _).symm, List.not_mem_nil, .inr ?_⟩
        rw [hc]
        exact List.getLast?_concat
      · obtain ⟨done, line, rfl, hline, hdone⟩ := ih
        refine ⟨done, line ++ [c], List.append_assoc _ _ _, ?_, hdone⟩
        rw [List.mem_append, List.mem_singleton, not_or]
        exact ⟨hline, Ne.symm hc⟩

theorem splitLines_append_of {done content : Text} (h : done = [] ∨ EndsLine done) :
    splitLines (done ++ content) = splitLines done ++ splitLines content := by
  cases h with
  | inl hnil => rw [hnil]; rfl
  | inr hends => exact splitLines_append hends

end Texts
