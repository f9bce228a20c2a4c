import Mathlib.Data.List.Sort

/-!
# Sorting on a key

`sortOn key l` is the stable sort of `l` by `key`. A list whose keys are
distinct has one strictly increasing arrangement, so `sortOn` is determined by
its elements there.
-/

namespace SortOn

variable {α κ : Type} [LinearOrder κ]

def sortOn (key : α → κ) (l : List α) : List α :=
  l.insertionSort fun a b => key a ≤ key b

/-- The keys increase strictly along the list. -/
def Increasing (key : α → κ) (l : List α) : Prop := l.Pairwise fun a b => key a < key b

theorem sortOn_perm (key : α → κ) (l : List α) : (sortOn key l).Perm l :=
  List.perm_insertionSort _ l

@[simp] theorem mem_sortOn {key : α → κ} {l : List α} {a : α} : a ∈ sortOn key l ↔ a ∈ l :=
  (sortOn_perm key l).mem_iff

theorem sortOn_pairwise (key : α → κ) (l : List α) :
    (sortOn key l).Pairwise fun a b => key a ≤ key b := by
  have : Std.Total fun a b : α => key a ≤ key b := ⟨fun a b => le_total _ _⟩
  have : IsTrans α fun a b => key a ≤ key b := ⟨fun a b c => le_trans⟩
  exact List.pairwise_insertionSort _ l

/-- Distinct keys make the sorted list strictly increasing. -/
theorem sortOn_increasing {key : α → κ} {l : List α} (h : (l.map key).Nodup) :
    Increasing key (sortOn key l) := by
  have hne : (sortOn key l).Pairwise fun a b => key a ≠ key b := by
    rw [← List.pairwise_map (R := (· ≠ ·))]
    exact ((sortOn_perm key l).map key).nodup_iff.mpr h
  exact (sortOn_pairwise key l).imp₂ (fun _ _ => lt_of_le_of_ne) hne

theorem Increasing.nodup {key : α → κ} {l : List α} (h : Increasing key l) :
    (l.map key).Nodup :=
  List.pairwise_map.mpr (h.imp fun h => h.ne)

/-- Two strictly increasing lists with the same elements are equal. -/
theorem Increasing.eq_of_perm {key : α → κ} {l l' : List α} (h : Increasing key l)
    (h' : Increasing key l') (hp : l.Perm l') : l = l' :=
  List.Perm.eq_of_pairwise (fun _ _ _ _ h₁ h₂ => absurd h₂ (lt_asymm h₁)) h h' hp

/-- A strictly increasing list is the sort of every arrangement of it. -/
theorem Increasing.sortOn_eq {key : α → κ} {l l' : List α} (h : Increasing key l)
    (hp : l.Perm l') : sortOn key l' = l :=
  (sortOn_increasing ((hp.map key).nodup_iff.mp h.nodup)).eq_of_perm h
    ((sortOn_perm key l').trans hp.symm)

/-- Elements that are all smaller come first. -/
theorem sortOn_append {key : α → κ} {a b : List α} (ha : (a.map key).Nodup)
    (hb : (b.map key).Nodup) (h : ∀ x ∈ a, ∀ y ∈ b, key x < key y) :
    sortOn key (b ++ a) = sortOn key a ++ sortOn key b := by
  refine Increasing.sortOn_eq (List.pairwise_append.mpr
    ⟨sortOn_increasing ha, sortOn_increasing hb, ?_⟩) ?_
  · intro x hx y hy
    exact h x (mem_sortOn.mp hx) y (mem_sortOn.mp hy)
  · exact ((sortOn_perm key a).append (sortOn_perm key b)).trans List.perm_append_comm

/-- The elements before the first one that fails `p`. -/
theorem Increasing.mem_takeWhile {key : α → κ} {l : List α} (h : Increasing key l)
    {p : α → Bool} {x : α} :
    x ∈ l.takeWhile p ↔ x ∈ l ∧ ∀ y ∈ l, key y ≤ key x → p y = true := by
  induction l with
  | nil => simp
  | cons a l ih =>
      obtain ⟨hlt, hl⟩ := List.pairwise_cons.mp h
      cases hp : p a with
      | false =>
          rw [List.takeWhile_cons_of_neg (by simp [hp])]
          refine ⟨fun hx => (by cases hx), fun ⟨hx, hall⟩ => ?_⟩
          have hle : key a ≤ key x := by
            rcases List.mem_cons.mp hx with rfl | hx
            · exact le_refl _
            · exact (hlt x hx).le
          exact absurd (hall a List.mem_cons_self hle) (by simp [hp])
      | true =>
          rw [List.takeWhile_cons_of_pos hp, List.mem_cons, List.mem_cons, ih hl]
          constructor
          · rintro (rfl | ⟨hx, hall⟩)
            · refine ⟨.inl rfl, fun y hy hle => ?_⟩
              rcases List.mem_cons.mp hy with rfl | hy
              · exact hp
              · exact absurd (hlt y hy) (not_lt.mpr hle)
            · exact ⟨.inr hx, List.forall_mem_cons.mpr ⟨fun _ => hp, hall⟩⟩
          · rintro ⟨rfl | hx, hall⟩
            · exact .inl rfl
            · exact .inr ⟨hx, fun y hy => hall y (List.mem_cons_of_mem _ hy)⟩

/-- From one element on, the keys are those at or above its key. -/
theorem Increasing.filter_ge {key : α → κ} {l : List α} (h : Increasing key l) {j : Nat} {x : α}
    (hx : l[j]? = some x) : l.filter (fun y => key x ≤ key y) = l.drop j := by
  induction l generalizing j with
  | nil => simp at hx
  | cons a l ih =>
      obtain ⟨hlt, hl⟩ := List.pairwise_cons.mp h
      cases j with
      | zero =>
          cases hx
          rw [List.drop_zero, List.filter_eq_self]
          intro y hy
          rcases List.mem_cons.mp hy with rfl | hy
          · simp
          · simpa using (hlt y hy).le
      | succ j =>
          have hmem : x ∈ l := List.mem_of_getElem? hx
          rw [List.filter_cons_of_neg (by simpa using hlt x hmem), List.drop_succ_cons]
          exact ih hl hx

theorem Increasing.find?_eq {key : α → κ} {l : List α} (h : Increasing key l) {x : α}
    (hx : x ∈ l) : l.find? (fun y => key y = key x) = some x := by
  induction l with
  | nil => simp at hx
  | cons a l ih =>
      obtain ⟨hlt, hl⟩ := List.pairwise_cons.mp h
      rcases List.mem_cons.mp hx with rfl | hx
      · simp
      · rw [List.find?_cons_of_neg (by simpa using (hlt x hx).ne)]
        exact ih hl hx

theorem Increasing.concat {key : α → κ} {l : List α} (h : Increasing key l) {x : α}
    (hx : ∀ y ∈ l, key y < key x) : Increasing key (l ++ [x]) :=
  List.pairwise_append.mpr ⟨h, List.pairwise_singleton _ _, fun y hy z hz => by
    rw [List.mem_singleton.mp hz]
    exact hx y hy⟩

theorem Increasing.lt_of_mem_take {key : α → κ} {l : List α} (h : Increasing key l) {j : Nat}
    {x y : α} (hx : x ∈ l.take j) (hy : l[j]? = some y) : key x < key y := by
  obtain ⟨hj, rfl⟩ := List.getElem?_eq_some_iff.mp hy
  obtain ⟨i, hi, rfl⟩ := List.mem_take_iff_getElem.mp hx
  exact List.pairwise_iff_getElem.mp h i j (by omega) hj (by omega)

end SortOn
