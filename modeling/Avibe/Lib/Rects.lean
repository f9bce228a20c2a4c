import Mathlib.Algebra.Order.Group.Defs
import Mathlib.Data.List.Dedup
import Mathlib.Data.List.MinMax
import Mathlib.Data.List.Sort
import Mathlib.Order.Interval.Set.Basic

/-!
# Half-open rectangles

Rectangles over a linear order, with the grid test for a rectangle that is covered by others and
the search for a covered square. The test cuts the rectangle at the edges of the others and asks
for each cell that one of them contains it; the search tries the corners that a left edge and a top
edge make. Both are exact (`isCovered_iff`, `showsSquare_iff`): a covered square slides left, and
then up, to such a corner.
-/

namespace Rects

/-- A rectangle `[left, right) × [top, bottom)`. -/
structure Rect (K : Type) where
  left : K
  top : K
  right : K
  bottom : K

section Order

variable {K : Type} [LinearOrder K]

/-- The point lies in the rectangle. -/
def Rect.Has (r : Rect K) (x y : K) : Prop := (r.left ≤ x ∧ x < r.right) ∧ r.top ≤ y ∧ y < r.bottom

/-- The point lies in one of the rectangles. -/
def OnSome (pieces : List (Rect K)) (x y : K) : Prop := ∃ piece ∈ pieces, piece.Has x y

def Rect.intersection (r s : Rect K) : Option (Rect K) :=
  let overlap : Rect K :=
    ⟨max r.left s.left, max r.top s.top, min r.right s.right, min r.bottom s.bottom⟩
  if overlap.left < overlap.right ∧ overlap.top < overlap.bottom then some overlap else none

def Rect.contains (r s : Rect K) : Bool :=
  r.left ≤ s.left && s.right ≤ r.right && r.top ≤ s.top && s.bottom ≤ r.bottom

/-- The places where edges cut `[start, stop)`, with both ends. -/
def cuts (start stop : K) (edges : List K) : List K :=
  ((edges.filter fun e => start < e && e < stop) ++ [start, stop]).mergeSort (· ≤ ·) |>.dedup

/-- The neighbours in a list. -/
def windows : List K → List (K × K)
  | a :: b :: rest => (a, b) :: windows (b :: rest)
  | _ => []

/-- Each cell of the grid that the edges of the pieces make of the target lies in one piece. -/
def isCovered (target : Rect K) (pieces : List (Rect K)) : Bool :=
  let columns := cuts target.left target.right (pieces.flatMap fun p => [p.left, p.right])
  let rows := cuts target.top target.bottom (pieces.flatMap fun p => [p.top, p.bottom])
  (windows columns).all fun column =>
    (windows rows).all fun row =>
      pieces.any fun p => p.contains ⟨column.1, row.1, column.2, row.2⟩

theorem has_intersection {r s overlap : Rect K} (h : r.intersection s = some overlap) (x y : K) :
    overlap.Has x y ↔ r.Has x y ∧ s.Has x y := by
  unfold Rect.intersection at h
  dsimp only at h
  split at h
  · cases h
    simp only [Rect.Has, max_le_iff, lt_min_iff]
    tauto
  · cases h

theorem intersection_of_has {r s : Rect K} {x y : K} (hr : r.Has x y) (hs : s.Has x y) :
    ∃ overlap, r.intersection s = some overlap := by
  unfold Rect.intersection
  dsimp only
  rw [if_pos]
  · exact ⟨_, rfl⟩
  · exact ⟨lt_of_le_of_lt (max_le hr.1.1 hs.1.1) (lt_min hr.1.2 hs.1.2),
      lt_of_le_of_lt (max_le hr.2.1 hs.2.1) (lt_min hr.2.2 hs.2.2)⟩

theorem contains_iff {r s : Rect K} :
    r.contains s = true ↔
      (r.left ≤ s.left ∧ s.right ≤ r.right) ∧ r.top ≤ s.top ∧ s.bottom ≤ r.bottom := by
  simp only [Rect.contains, Bool.and_eq_true, decide_eq_true_eq]
  tauto

theorem Rect.Has.of_contains {r s : Rect K} (h : r.contains s = true) {x y : K} (hs : s.Has x y) :
    r.Has x y := by
  obtain ⟨⟨hl, hr⟩, ht, hb⟩ := contains_iff.mp h
  exact ⟨⟨hl.trans hs.1.1, hs.1.2.trans_le hr⟩, ht.trans hs.2.1, hs.2.2.trans_le hb⟩

/-! ## Cuts -/

theorem mem_cuts {start stop c : K} {edges : List K} :
    c ∈ cuts start stop edges ↔ (c ∈ edges ∧ start < c ∧ c < stop) ∨ c = start ∨ c = stop := by
  rw [cuts, List.mem_dedup, List.mem_mergeSort]
  simp

theorem cuts_pairwise (start stop : K) (edges : List K) :
    (cuts start stop edges).Pairwise (· < ·) := by
  have hle : (((edges.filter fun e => start < e && e < stop) ++ [start, stop]).mergeSort
      (· ≤ ·)).Pairwise (· ≤ ·) := by
    have hsorted := @List.pairwise_mergeSort K (fun a b => decide (a ≤ b))
      (fun a b c hab hbc => decide_eq_true ((of_decide_eq_true hab).trans (of_decide_eq_true hbc)))
      (fun a b => by simpa using le_total a b)
      ((edges.filter fun e => start < e && e < stop) ++ [start, stop])
    exact hsorted.imp fun h => of_decide_eq_true h
  have hsub := hle.sublist (List.dedup_sublist _)
  exact (hsub.and (List.nodup_dedup _)).imp fun h => lt_of_le_of_ne h.1 h.2

/-- Neighbours in a strictly increasing list have nothing of it between them. -/
theorem windows_gap {cs : List K} (h : cs.Pairwise (· < ·)) {a b : K} (hab : (a, b) ∈ windows cs) :
    a ∈ cs ∧ b ∈ cs ∧ a < b ∧ ∀ c ∈ cs, ¬ (a < c ∧ c < b) := by
  induction cs with
  | nil => cases hab
  | cons x cs ih =>
      cases cs with
      | nil => cases hab
      | cons y cs =>
          obtain ⟨hx, hrest⟩ := List.pairwise_cons.mp h
          rw [windows] at hab
          rcases List.mem_cons.mp hab with heq | hab
          · cases heq
            refine ⟨List.mem_cons_self, List.mem_cons_of_mem _ List.mem_cons_self,
              hx b List.mem_cons_self, fun c hc hbetween => ?_⟩
            rcases List.mem_cons.mp hc with rfl | hc
            · exact lt_irrefl _ hbetween.1
            · rcases List.mem_cons.mp hc with rfl | hc
              · exact lt_irrefl _ hbetween.2
              · exact lt_asymm hbetween.2 ((List.pairwise_cons.mp hrest).1 c hc)
          · obtain ⟨ha, hb, hlt, hgap⟩ := ih hrest hab
            refine ⟨List.mem_cons_of_mem _ ha, List.mem_cons_of_mem _ hb, hlt, fun c hc hbetween => ?_⟩
            rcases List.mem_cons.mp hc with rfl | hc
            · exact lt_asymm hbetween.1 (hx a ha)
            · exact hgap c hc hbetween

/-- A place between two members of an increasing list lies in one window of it. -/
theorem exists_window {cs : List K} (h : cs.Pairwise (· < ·)) {x : K} (hlow : ∃ c ∈ cs, c ≤ x)
    (hhigh : ∃ c ∈ cs, x < c) : ∃ w ∈ windows cs, w.1 ≤ x ∧ x < w.2 := by
  induction cs with
  | nil =>
      obtain ⟨c, hc, -⟩ := hlow
      cases hc
  | cons a cs ih =>
      obtain ⟨ha, hrest⟩ := List.pairwise_cons.mp h
      have hax : a ≤ x := by
        obtain ⟨c, hc, hcx⟩ := hlow
        rcases List.mem_cons.mp hc with rfl | hc
        · exact hcx
        · exact (ha c hc).le.trans hcx
      obtain ⟨d, hd, hxd⟩ := hhigh
      have hd' : d ∈ cs := (List.mem_cons.mp hd).resolve_left fun heq => by
        rw [heq] at hxd
        exact absurd hxd (not_lt.mpr hax)
      cases cs with
      | nil => cases hd'
      | cons b cs =>
          rw [windows]
          rcases lt_or_ge x b with hxb | hbx
          · exact ⟨(a, b), List.mem_cons_self, hax, hxb⟩
          · obtain ⟨w, hw, hin⟩ := ih hrest ⟨b, List.mem_cons_self, hbx⟩ ⟨d, hd', hxd⟩
            exact ⟨w, List.mem_cons_of_mem _ hw, hin⟩

/-- A window of the cuts lies in the interval, and no edge lies inside it. -/
theorem cuts_window {start stop a b : K} {edges : List K} (hlt : start < stop)
    (h : (a, b) ∈ windows (cuts start stop edges)) :
    start ≤ a ∧ a < b ∧ b ≤ stop ∧ ∀ e ∈ edges, ¬ (a < e ∧ e < b) := by
  obtain ⟨ha, hb, hab, hgap⟩ := windows_gap (cuts_pairwise start stop edges) h
  have hstart : start ≤ a := by
    rcases mem_cuts.mp ha with ⟨-, hlow, -⟩ | rfl | rfl
    · exact hlow.le
    · exact le_refl _
    · exact hlt.le
  have hstop : b ≤ stop := by
    rcases mem_cuts.mp hb with ⟨-, -, hhigh⟩ | rfl | rfl
    · exact hhigh.le
    · exact hlt.le
    · exact le_refl _
  refine ⟨hstart, hab, hstop, fun e he hbetween => hgap e (mem_cuts.mpr (.inl ?_)) hbetween⟩
  exact ⟨he, hstart.trans_lt hbetween.1, hbetween.2.trans_le hstop⟩

theorem exists_cuts_window {start stop x : K} (edges : List K) (hlow : start ≤ x) (hhigh : x < stop) :
    ∃ w ∈ windows (cuts start stop edges), w.1 ≤ x ∧ x < w.2 :=
  exists_window (cuts_pairwise start stop edges) ⟨start, mem_cuts.mpr (.inr (.inl rfl)), hlow⟩
    ⟨stop, mem_cuts.mpr (.inr (.inr rfl)), hhigh⟩

/-- The grid test is exact. -/
theorem isCovered_iff {target : Rect K} (hwidth : target.left < target.right)
    (hheight : target.top < target.bottom) (pieces : List (Rect K)) :
    isCovered target pieces = true ↔ ∀ x y, target.Has x y → OnSome pieces x y := by
  unfold isCovered
  dsimp only
  rw [List.all_eq_true]
  constructor
  · intro h x y hxy
    obtain ⟨column, hcolumn, hx⟩ :=
      exists_cuts_window (pieces.flatMap fun p => [p.left, p.right]) hxy.1.1 hxy.1.2
    obtain ⟨row, hrow, hy⟩ :=
      exists_cuts_window (pieces.flatMap fun p => [p.top, p.bottom]) hxy.2.1 hxy.2.2
    obtain ⟨piece, hpiece, hcontains⟩ :=
      List.any_eq_true.mp (List.all_eq_true.mp (h column hcolumn) row hrow)
    exact ⟨piece, hpiece, Rect.Has.of_contains hcontains ⟨hx, hy⟩⟩
  · rintro h ⟨a, b⟩ hcolumn
    rw [List.all_eq_true]
    rintro ⟨c, d⟩ hrow
    obtain ⟨ha, hab, hb, hxs⟩ := cuts_window hwidth hcolumn
    obtain ⟨hc, hcd, hd, hys⟩ := cuts_window hheight hrow
    obtain ⟨piece, hpiece, hhas⟩ := h a c ⟨⟨ha, hab.trans_le hb⟩, hc, hcd.trans_le hd⟩
    refine List.any_eq_true.mpr ⟨piece, hpiece, contains_iff.mpr ⟨⟨hhas.1.1, ?_⟩, hhas.2.1, ?_⟩⟩
    · by_contra hlt
      exact hxs piece.right (List.mem_flatMap.mpr ⟨piece, hpiece, by simp⟩)
        ⟨hhas.1.2, not_le.mp hlt⟩
    · by_contra hlt
      exact hys piece.bottom (List.mem_flatMap.mpr ⟨piece, hpiece, by simp⟩)
        ⟨hhas.2.2, not_le.mp hlt⟩

/-! ## Sliding -/

/-- The largest of the values up to a bound. -/
theorem exists_greatest {α : Type} (f : α → K) {l : List α} {x : K} (h : ∃ a ∈ l, f a ≤ x) :
    ∃ a ∈ l, f a ≤ x ∧ ∀ b ∈ l, f b ≤ x → f b ≤ f a := by
  induction l with
  | nil =>
      obtain ⟨a, ha, -⟩ := h
      cases ha
  | cons b l ih =>
      by_cases hl : ∃ a ∈ l, f a ≤ x
      · obtain ⟨a, ha, hax, hmax⟩ := ih hl
        by_cases hb : f b ≤ x ∧ f a ≤ f b
        · refine ⟨b, List.mem_cons_self, hb.1, fun c hc hcx => ?_⟩
          rcases List.mem_cons.mp hc with rfl | hc
          · exact le_refl _
          · exact (hmax c hc hcx).trans hb.2
        · refine ⟨a, List.mem_cons_of_mem _ ha, hax, fun c hc hcx => ?_⟩
          rcases List.mem_cons.mp hc with rfl | hc
          · exact le_of_not_ge fun hge => hb ⟨hcx, hge⟩
          · exact hmax c hc hcx
      · obtain ⟨a, ha, hax⟩ := h
        have hab : a = b := (List.mem_cons.mp ha).resolve_right fun ha => hl ⟨a, ha, hax⟩
        refine ⟨a, ha, hax, fun c hc hcx => ?_⟩
        rcases List.mem_cons.mp hc with rfl | hc
        · rw [hab]
        · exact absurd ⟨c, hc, hcx⟩ hl

end Order

section Squares

variable {K : Type} [AddCommGroup K] [LinearOrder K] [IsOrderedAddMonoid K]

/-- The square with this corner and side. -/
def square (x y side : K) : Rect K := ⟨x, y, x + side, y + side⟩

/-- Whether some square of this side, cornered by a left and a top edge, lies on the pieces. -/
def showsSquare (side : K) (pieces : List (Rect K)) : Bool :=
  pieces.any fun l => pieces.any fun t => isCovered (square l.left t.top side) pieces

theorem slide_left {pieces : List (Rect K)} {x y side : K} (hside : 0 < side)
    (h : ∀ p q, (square x y side).Has p q → OnSome pieces p q) :
    ∃ l ∈ pieces, ∀ p q, (square l.left y side).Has p q → OnSome pieces p q := by
  have hcorner : (square x y side).Has x y :=
    ⟨⟨le_refl x, lt_add_of_pos_right x hside⟩, le_refl y, lt_add_of_pos_right y hside⟩
  obtain ⟨piece, hpiece, hhas⟩ := h x y hcorner
  obtain ⟨l, hl, hlx, hmax⟩ :=
    exists_greatest (fun r : Rect K => r.left) ⟨piece, hpiece, hhas.1.1⟩
  refine ⟨l, hl, fun p q hpq => ?_⟩
  rcases lt_or_ge p x with hpx | hxp
  · -- The piece at the old left edge of the square reaches back to the new one.
    obtain ⟨r, hr, hrhas⟩ := h x q ⟨⟨le_refl x, lt_add_of_pos_right x hside⟩, hpq.2⟩
    exact ⟨r, hr, ⟨(hmax r hr hrhas.1.1).trans hpq.1.1, hpx.trans hrhas.1.2⟩, hrhas.2⟩
  · exact h p q ⟨⟨hxp, hpq.1.2.trans_le (add_le_add_left hlx side)⟩, hpq.2⟩

theorem slide_up {pieces : List (Rect K)} {x y side : K} (hside : 0 < side)
    (h : ∀ p q, (square x y side).Has p q → OnSome pieces p q) :
    ∃ t ∈ pieces, ∀ p q, (square x t.top side).Has p q → OnSome pieces p q := by
  have hcorner : (square x y side).Has x y :=
    ⟨⟨le_refl x, lt_add_of_pos_right x hside⟩, le_refl y, lt_add_of_pos_right y hside⟩
  obtain ⟨piece, hpiece, hhas⟩ := h x y hcorner
  obtain ⟨t, ht, hty, hmax⟩ :=
    exists_greatest (fun r : Rect K => r.top) ⟨piece, hpiece, hhas.2.1⟩
  refine ⟨t, ht, fun p q hpq => ?_⟩
  rcases lt_or_ge q y with hqy | hyq
  · obtain ⟨r, hr, hrhas⟩ := h p y ⟨hpq.1, le_refl y, lt_add_of_pos_right y hside⟩
    exact ⟨r, hr, hrhas.1, (hmax r hr hrhas.2.1).trans hpq.2.1, hqy.trans hrhas.2.2⟩
  · exact h p q ⟨hpq.1, hyq, hpq.2.2.trans_le (add_le_add_left hty side)⟩

/-- The search finds a square exactly when there is one anywhere on the pieces. -/
theorem showsSquare_iff {side : K} (hside : 0 < side) (pieces : List (Rect K)) :
    showsSquare side pieces = true ↔
      ∃ x y, ∀ p q, (square x y side).Has p q → OnSome pieces p q := by
  have hcovered : ∀ x y, isCovered (square x y side) pieces = true ↔
      ∀ p q, (square x y side).Has p q → OnSome pieces p q := fun x y =>
    isCovered_iff (lt_add_of_pos_right x hside) (lt_add_of_pos_right y hside) pieces
  unfold showsSquare
  constructor
  · intro h
    obtain ⟨l, hl, h⟩ := List.any_eq_true.mp h
    obtain ⟨t, ht, h⟩ := List.any_eq_true.mp h
    exact ⟨l.left, t.top, (hcovered _ _).mp h⟩
  · rintro ⟨x, y, h⟩
    obtain ⟨l, hl, h⟩ := slide_left hside h
    obtain ⟨t, ht, h⟩ := slide_up hside h
    exact List.any_eq_true.mpr ⟨l, hl, List.any_eq_true.mpr ⟨t, ht, (hcovered _ _).mpr h⟩⟩

end Squares

end Rects
