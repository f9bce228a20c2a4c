import Avibe.Edits.Exact

/-!
# Matches in groups of lines

Normalized matches that share lines form a group. A line is in a group if and only if a match touches it
(`groupsOf_covers`), and the matches of the groups, one group after the other, are all the matches in order
(`groupsOf_members`).
-/

namespace Avibe.Edits

open Texts Splice SortOn

/-- A span has a place on a line. -/
def Touches (starts : List Nat) (s : Span) (line : Nat) : Prop :=
  ∃ pos, s.lo ≤ pos ∧ pos < s.hi ∧ lineAt starts pos = line

/-! ## The line of a place -/

section Search

variable {starts : List Nat}

theorem lt_countP_iff (hs : starts.Pairwise (· < ·)) {k pos : Nat} (hk : k < starts.length) :
    k < starts.countP (· ≤ pos) ↔ starts[k] ≤ pos := by
  induction starts generalizing k with
  | nil => cases hk
  | cons a starts ih =>
      rw [List.pairwise_cons] at hs
      by_cases ha : a ≤ pos
      · rw [List.countP_cons_of_pos (by simpa using ha)]
        cases k with
        | zero => simp [ha]
        | succ k => rw [Nat.add_lt_add_iff_right, ih hs.2 (Nat.lt_of_succ_lt_succ hk), List.getElem_cons_succ]
      · have hnone : starts.countP (· ≤ pos) = 0 := by
          apply List.countP_eq_zero.mpr
          intro b hb hle
          exact ha (Nat.le_trans (Nat.le_of_lt (hs.1 b hb)) (of_decide_eq_true hle))
        rw [List.countP_cons_of_neg (by simpa using ha), hnone]
        cases k with
        | zero => simpa using ha
        | succ k =>
            have hlater := hs.1 _ (List.getElem_mem (Nat.lt_of_succ_lt_succ hk))
            rw [List.getElem_cons_succ]
            omega

theorem lineAt_mono {a b : Nat} (h : a ≤ b) : lineAt starts a ≤ lineAt starts b := by
  apply Nat.sub_le_sub_right
  apply List.countP_mono_left
  intro c _ hc
  exact decide_eq_true (Nat.le_trans (of_decide_eq_true hc) h)

theorem lineAt_lt (hne : starts ≠ []) (pos : Nat) : lineAt starts pos < starts.length := by
  have hcount : starts.countP (· ≤ pos) ≤ starts.length := List.countP_le_length
  have hlength := List.length_pos_iff.mpr hne
  rw [lineAt]
  omega

variable (hs : starts.Pairwise (· < ·))
include hs

theorem le_lineAt_iff {k pos : Nat} (hk : k < starts.length) (hstart : ∀ a ∈ starts.head?, a ≤ pos) :
    k ≤ lineAt starts pos ↔ starts[k] ≤ pos := by
  rw [← lt_countP_iff hs hk, lineAt]
  have hpos : 0 < starts.countP (· ≤ pos) := by
    rw [lt_countP_iff hs (Nat.lt_of_le_of_lt (Nat.zero_le _) hk)]
    apply hstart
    rw [List.head?_eq_getElem?]
    exact List.getElem?_eq_getElem _
  omega

/-- The lines that a span touches are those from the line of its start to the line of its end. -/
theorem touches_iff {s : Span} (hstart : ∀ a ∈ starts.head?, a ≤ s.lo) (hne : starts ≠ []) (hlt : s.lo < s.hi)
    {line : Nat} :
    Touches starts s line ↔ lineAt starts s.lo ≤ line ∧ line ≤ lineAt starts (s.hi - 1) := by
  constructor
  · rintro ⟨pos, hlo, hhi, rfl⟩
    exact ⟨lineAt_mono hlo, lineAt_mono (Nat.le_sub_one_of_lt hhi)⟩
  · rintro ⟨hfirst, hlast⟩
    cases Nat.lt_or_eq_of_le hfirst with
    | inr heq => exact ⟨s.lo, Nat.le_refl _, hlt, heq⟩
    | inl hafter =>
        have hline : line < starts.length := Nat.lt_of_le_of_lt hlast (lineAt_lt hne _)
        have hlater : ∀ a ∈ starts.head?, a ≤ s.hi - 1 :=
          fun a ha => Nat.le_trans (hstart a ha) (Nat.le_sub_one_of_lt hlt)
        have hle : starts[line] ≤ s.hi - 1 := (le_lineAt_iff hs hline hlater).mp hlast
        have hlow : s.lo < starts[line] := by
          apply not_le.mp
          rw [← le_lineAt_iff hs hline hstart]
          exact not_le.mpr hafter
        have hhere : ∀ a ∈ starts.head?, a ≤ starts[line] :=
          fun a ha => Nat.le_trans (hstart a ha) (Nat.le_of_lt hlow)
        refine ⟨starts[line], Nat.le_of_lt hlow, by omega, Nat.le_antisymm ?_ ?_⟩
        · by_contra hmore
          have hnext : line + 1 < starts.length := Nat.lt_of_le_of_lt (not_le.mp hmore) (lineAt_lt hne _)
          have hback := (le_lineAt_iff hs hnext hhere).mp (not_le.mp hmore)
          have hincrease := List.pairwise_iff_getElem.mp hs line (line + 1) hline hnext (Nat.lt_succ_self _)
          omega
        · exact (le_lineAt_iff hs hline hhere).mpr (Nat.le_refl _)

end Search

/-! ## The lines of a text -/

theorem startsFrom_lt {pos : Nat} {text : Text} : ∀ a ∈ startsFrom pos text, pos < a := by
  induction text generalizing pos with
  | nil => exact fun a ha => absurd ha List.not_mem_nil
  | cons c text ih =>
      intro a ha
      rw [startsFrom] at ha
      split at ha
      · cases List.mem_cons.mp ha with
        | inl heq => omega
        | inr hlater => exact Nat.lt_of_succ_lt (ih a hlater)
      · exact Nat.lt_of_succ_lt (ih a ha)

theorem lineStarts_pairwise (text : Text) : (lineStarts text).Pairwise (· < ·) := by
  have hfrom : ∀ (text : Text) (pos : Nat), (startsFrom pos text).Pairwise (· < ·) := by
    intro text
    induction text with
    | nil => exact fun _ => List.Pairwise.nil
    | cons c text ih =>
        intro pos
        rw [startsFrom]
        split
        · exact List.Pairwise.cons (fun a ha => startsFrom_lt a ha) (ih _)
        · exact ih _
  exact List.Pairwise.cons (fun a ha => startsFrom_lt a ha) (hfrom text 0)

theorem lineStarts_head (text : Text) (pos : Nat) : ∀ a ∈ (lineStarts text).head?, a ≤ pos := by
  intro a ha
  obtain rfl : 0 = a := Option.some.inj ha
  exact Nat.zero_le _

theorem startsFrom_le {pos : Nat} {text : Text} : ∀ a ∈ startsFrom pos text, a ≤ pos + text.length := by
  induction text generalizing pos with
  | nil => exact fun a ha => absurd ha List.not_mem_nil
  | cons c text ih =>
      have hlater : ∀ a ∈ startsFrom (pos + 1) text, a ≤ pos + (c :: text).length := by
        intro a ha
        rw [List.length_cons, Nat.add_comm text.length, ← Nat.add_assoc]
        exact ih a ha
      intro a ha
      rw [startsFrom] at ha
      split at ha
      · cases List.mem_cons.mp ha with
        | inl heq =>
            rw [heq, List.length_cons]
            omega
        | inr hmore => exact hlater a hmore
      · exact hlater a ha

theorem lineStarts_le (text : Text) {a : Nat} (h : a ∈ lineStarts text) : a ≤ text.length := by
  cases List.mem_cons.mp h with
  | inl heq => exact heq ▸ Nat.zero_le _
  | inr hlater =>
      have hle := startsFrom_le a hlater
      rwa [Nat.zero_add] at hle

/-! ## Groups -/

def firstLine (starts : List Nat) (m : Replacement) : Nat := lineAt starts m.index

def lastLine (starts : List Nat) (m : Replacement) : Nat := lineAt starts (m.index + m.length - 1)

/-- The groups that some matches, in order, are put in. -/
structure Grouped (starts : List Nat) (done : List Replacement) (groups : List Group) : Prop where
  members : groups.reverse.flatMap Group.members = done
  first : ∀ g ∈ groups, ∃ m ∈ g.members, g.first = firstLine starts m
  last : ∀ g ∈ groups, ∃ m ∈ g.members, g.last = lastLine starts m
  within : ∀ g ∈ groups, ∀ m ∈ g.members, g.first ≤ firstLine starts m ∧ lastLine starts m ≤ g.last
  covers : ∀ g ∈ groups, ∀ line, g.first ≤ line → line ≤ g.last →
    ∃ m ∈ g.members, firstLine starts m ≤ line ∧ line ≤ lastLine starts m

theorem Grouped.mem {starts : List Nat} {done : List Replacement} {groups : List Group}
    (h : Grouped starts done groups) {g : Group} (hg : g ∈ groups) {m : Replacement} (hm : m ∈ g.members) :
    m ∈ done := by
  rw [← h.members]
  exact List.mem_flatMap.mpr ⟨g, List.mem_reverse.mpr hg, hm⟩

theorem Grouped.exists_mem {starts : List Nat} {done : List Replacement} {groups : List Group}
    (h : Grouped starts done groups) {m : Replacement} (hm : m ∈ done) : ∃ g ∈ groups, m ∈ g.members := by
  rw [← h.members] at hm
  obtain ⟨g, hg, hm⟩ := List.mem_flatMap.mp hm
  exact ⟨g, List.mem_reverse.mp hg, hm⟩

/-- A match alone in a new group. -/
theorem Grouped.push {starts : List Nat} {done : List Replacement} {groups : List Group}
    (h : Grouped starts done groups) (m : Replacement) :
    Grouped starts (done ++ [m]) (⟨firstLine starts m, lastLine starts m, [m]⟩ :: groups) := by
  have hnew : ∀ {p : Group → Prop}, p ⟨firstLine starts m, lastLine starts m, [m]⟩ → (∀ g ∈ groups, p g) →
      ∀ g ∈ (⟨firstLine starts m, lastLine starts m, [m]⟩ :: groups : List Group), p g := by
    intro p hhead hrest g hg
    cases List.mem_cons.mp hg with
    | inl heq => exact heq ▸ hhead
    | inr hlater => exact hrest g hlater
  refine ⟨?_, hnew ⟨m, List.mem_singleton_self m, rfl⟩ h.first, hnew ⟨m, List.mem_singleton_self m, rfl⟩ h.last,
    hnew ?_ h.within, hnew ?_ h.covers⟩
  · rw [List.reverse_cons, List.flatMap_append, h.members]
    rfl
  · intro m' hm'
    obtain rfl := List.mem_singleton.mp hm'
    exact ⟨Nat.le_refl _, Nat.le_refl _⟩
  · intro line hfirst hlast
    exact ⟨m, List.mem_singleton_self m, hfirst, hlast⟩

/-- A match added to the group whose lines it shares. -/
theorem Grouped.merge {starts : List Nat} {done : List Replacement} {groups : List Group} {g : Group}
    (h : Grouped starts done (g :: groups)) {m : Replacement} (hafter : ∀ m' ∈ done, m'.index ≤ m.index)
    (hshare : firstLine starts m ≤ g.last) :
    Grouped starts (done ++ [m]) (⟨g.first, max g.last (lastLine starts m), g.members ++ [m]⟩ :: groups) := by
  have hnew : ∀ {p : Group → Prop}, p ⟨g.first, max g.last (lastLine starts m), g.members ++ [m]⟩ →
      (∀ g' ∈ g :: groups, p g') →
      ∀ g' ∈ (⟨g.first, max g.last (lastLine starts m), g.members ++ [m]⟩ :: groups : List Group), p g' := by
    intro p hhead hrest g' hg'
    cases List.mem_cons.mp hg' with
    | inl heq => exact heq ▸ hhead
    | inr hlater => exact hrest g' (List.mem_cons_of_mem _ hlater)
  have hg : g ∈ g :: groups := List.mem_cons_self
  have hm : m ∈ g.members ++ [m] := List.mem_append_right _ (List.mem_singleton_self m)
  obtain ⟨f, hf, hfirst⟩ := h.first g hg
  have hlow : g.first ≤ firstLine starts m := by
    rw [hfirst]
    exact lineAt_mono (hafter f (h.mem hg hf))
  refine ⟨?_, hnew ⟨f, List.mem_append_left _ hf, hfirst⟩ h.first, hnew ?_ h.last, hnew ?_ h.within,
    hnew ?_ h.covers⟩
  · rw [List.reverse_cons, List.flatMap_append, ← h.members, List.reverse_cons, List.flatMap_append]
    simp
  · cases Nat.le_total g.last (lastLine starts m) with
    | inl hle => exact ⟨m, hm, Nat.max_eq_right hle⟩
    | inr hge =>
        obtain ⟨l, hl, hlast⟩ := h.last g hg
        exact ⟨l, List.mem_append_left _ hl, (Nat.max_eq_left hge).trans hlast⟩
  · intro m' hm'
    cases List.mem_append.mp hm' with
    | inl hbefore =>
        obtain ⟨hlo, hhi⟩ := h.within g hg m' hbefore
        exact ⟨hlo, Nat.le_trans hhi (Nat.le_max_left _ _)⟩
    | inr hlast =>
        obtain rfl := List.mem_singleton.mp hlast
        exact ⟨hlow, Nat.le_max_right _ _⟩
  · intro line hline hle
    by_cases hbefore : line ≤ g.last
    · obtain ⟨m', hm', hcover⟩ := h.covers g hg line hline hbefore
      exact ⟨m', List.mem_append_left _ hm', hcover⟩
    · refine ⟨m, hm, Nat.le_trans hshare (Nat.le_of_lt (not_le.mp hbefore)), ?_⟩
      rw [Nat.max_def] at hle
      split at hle
      · exact hle
      · exact absurd hle hbefore

theorem Grouped.addMatch {starts : List Nat} {done : List Replacement} {groups : List Group}
    (h : Grouped starts done groups) {m : Replacement} (hafter : ∀ m' ∈ done, m'.index ≤ m.index) :
    Grouped starts (done ++ [m]) (addMatch starts groups m) := by
  cases groups with
  | nil => exact h.push m
  | cons g groups =>
      rw [Edits.addMatch]
      split
      · rename_i hshare
        exact h.merge hafter hshare
      · exact h.push m

theorem Grouped.foldl {starts : List Nat} {done found : List Replacement} {groups : List Group}
    (h : Grouped starts done groups) (hsorted : (done ++ found).Pairwise fun a b => a.index ≤ b.index) :
    Grouped starts (done ++ found) (found.foldl (Edits.addMatch starts) groups) := by
  induction found generalizing done groups with
  | nil => rwa [List.append_nil]
  | cons m found ih =>
      rw [← List.singleton_append, ← List.append_assoc] at hsorted ⊢
      apply ih (h.addMatch _) hsorted
      intro m' hm'
      exact (List.pairwise_append.mp (List.pairwise_append.mp hsorted).1).2.2 m' hm' m
        (List.mem_singleton_self m)

theorem grouped_groupsOf (normalized : Text) (found : List Replacement) :
    Grouped (lineStarts normalized) (sortOn Replacement.index found) (groupsOf normalized found).reverse := by
  rw [groupsOf, List.reverse_reverse]
  have hnone : Grouped (lineStarts normalized) [] [] :=
    ⟨rfl, fun _ hg => absurd hg List.not_mem_nil, fun _ hg => absurd hg List.not_mem_nil,
      fun _ hg => absurd hg List.not_mem_nil, fun _ hg => absurd hg List.not_mem_nil⟩
  exact hnone.foldl (sortOn_pairwise _ _)

/-- The groups have all the matches, in order. -/
theorem groupsOf_members (normalized : Text) (found : List Replacement) :
    (groupsOf normalized found).flatMap Group.members = sortOn Replacement.index found := by
  have h := (grouped_groupsOf normalized found).members
  rwa [List.reverse_reverse] at h

/-- A line is in a group if and only if a match touches it. -/
theorem groupsOf_covers {normalized : Text} {found : List Replacement} (hpos : ∀ m ∈ found, 0 < m.length)
    (line : Nat) :
    (∃ g ∈ groupsOf normalized found, g.first ≤ line ∧ line ≤ g.last) ↔
      ∃ m ∈ found, Touches (lineStarts normalized) (spanOf m) line := by
  have h := grouped_groupsOf normalized found
  have htouches : ∀ m ∈ found, Touches (lineStarts normalized) (spanOf m) line ↔
      firstLine (lineStarts normalized) m ≤ line ∧ line ≤ lastLine (lineStarts normalized) m :=
    fun m hm => touches_iff (lineStarts_pairwise _) (lineStarts_head _ _) (List.cons_ne_nil _ _)
      (Nat.lt_add_of_pos_right (hpos m hm))
  constructor
  · rintro ⟨g, hg, hfirst, hlast⟩
    have hg := List.mem_reverse.mpr hg
    obtain ⟨m, hm, hcover⟩ := h.covers g hg line hfirst hlast
    have hfound := mem_sortOn.mp (h.mem hg hm)
    exact ⟨m, hfound, (htouches m hfound).mpr hcover⟩
  · rintro ⟨m, hm, htouch⟩
    obtain ⟨g, hg, hmem⟩ := h.exists_mem (mem_sortOn.mpr hm)
    obtain ⟨hlo, hhi⟩ := h.within g hg m hmem
    obtain ⟨hfirst, hlast⟩ := (htouches m hm).mp htouch
    exact ⟨g, List.mem_reverse.mp hg, Nat.le_trans hlo hfirst, Nat.le_trans hlast hhi⟩

end Avibe.Edits
