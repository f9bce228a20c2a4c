import Avibe.Desktop.WindowFrame
import Mathlib.Algebra.Order.Ring.Abs
import Mathlib.Tactic.Linarith

/-!
# A restored window can be grabbed

A frame is grabbable exactly when some square of the grab size lies on its handle and on the union
of the work areas, and then it keeps its position. Any other frame is pulled into one work area, and
there its whole handle shows; a second restore leaves it alone.
-/

namespace Avibe.Desktop

open Rects

/-- The point lies on one of the work areas. -/
def OnScreen (workAreas : List WindowFrame) (p q : ℚ) : Prop :=
  ∃ area ∈ workAreas, (rectOf area).Has p q

/-- The work area shows the whole handle of the frame. -/
def ShowsHandle (frame : WindowFrame) (scaleFactor : ℚ) (area : WindowFrame) : Prop :=
  (rectOf area).contains (handle frame scaleFactor) = true

/-- The work area shows the whole width of the frame. -/
def ShowsWidth (frame area : WindowFrame) : Prop :=
  area.x.toInt ≤ frame.x.toInt ∧
    frame.x.toInt + frame.width.toNat ≤ area.x.toInt + area.width.toNat

/-- Every work area with a size is as large as the strip of the title bar that ends with the
handle. -/
def StripFits (scaleFactor : ℚ) (workAreas : List WindowFrame) : Prop :=
  ∀ area ∈ nonEmpty workAreas,
    handleRight * scaleFactor ≤ area.width.toNat ∧ handleHeight * scaleFactor ≤ area.height.toNat

/-- No work area shows more of the frame than this one, and none that shows as much is nearer. -/
def IsBest (frame : WindowFrame) (scaleFactor : ℚ) (workAreas : List WindowFrame)
    (best : WindowFrame) : Prop :=
  best ∈ nonEmpty workAreas ∧ ∀ area ∈ nonEmpty workAreas,
    overlap frame area < overlap frame best ∨
      overlap frame area = overlap frame best ∧
        moved frame (pullInto frame scaleFactor best) ≤ moved frame (pullInto frame scaleFactor area)

/-! ## Grabbable frames -/

theorem onSome_shown {frame : WindowFrame} {scaleFactor : ℚ} {workAreas : List WindowFrame}
    {p q : ℚ} : OnSome (shown frame scaleFactor workAreas) p q ↔
      (handle frame scaleFactor).Has p q ∧ OnScreen workAreas p q := by
  constructor
  · rintro ⟨piece, hpiece, hhas⟩
    obtain ⟨area, harea, hinter⟩ := List.mem_filterMap.mp hpiece
    obtain ⟨hshown, hhandle⟩ := (has_intersection hinter p q).mp hhas
    exact ⟨hhandle, area, harea, hshown⟩
  · rintro ⟨hhandle, area, harea, hshown⟩
    obtain ⟨piece, hinter⟩ := intersection_of_has hshown hhandle
    exact ⟨piece, List.mem_filterMap.mpr ⟨area, harea, hinter⟩,
      (has_intersection hinter p q).mpr ⟨hshown, hhandle⟩⟩

theorem grab_pos {scaleFactor : ℚ} (hscale : 0 < scaleFactor) : 0 < grabSize * scaleFactor :=
  mul_pos (by norm_num [grabSize]) hscale

theorem isGrabbable_iff {frame : WindowFrame} {scaleFactor : ℚ} (hscale : 0 < scaleFactor)
    (workAreas : List WindowFrame) :
    isGrabbable frame scaleFactor workAreas = true ↔
      ∃ x y, ∀ p q, (square x y (grabSize * scaleFactor)).Has p q →
        (handle frame scaleFactor).Has p q ∧ OnScreen workAreas p q := by
  rw [isGrabbable, showsSquare_iff (grab_pos hscale)]
  simp only [onSome_shown]

theorem mem_nonEmpty {workAreas : List WindowFrame} {area : WindowFrame} :
    area ∈ nonEmpty workAreas ↔ area ∈ workAreas ∧ 0 < area.width ∧ 0 < area.height := by
  simp [nonEmpty]

theorem onScreen_nonEmpty {workAreas : List WindowFrame} {p q : ℚ} :
    OnScreen (nonEmpty workAreas) p q ↔ OnScreen workAreas p q := by
  constructor
  · rintro ⟨area, harea, hhas⟩
    exact ⟨area, (mem_nonEmpty.mp harea).1, hhas⟩
  · rintro ⟨area, harea, hhas⟩
    -- A work area that has a point has a size.
    have hwidth : (0 : ℚ) < area.width.toNat := by
      have := hhas.1
      simp only [rectOf] at this
      linarith
    have hheight : (0 : ℚ) < area.height.toNat := by
      have := hhas.2
      simp only [rectOf] at this
      linarith
    refine ⟨area, mem_nonEmpty.mpr ⟨harea, ?_, ?_⟩, hhas⟩
    · exact UInt32.lt_iff_toNat_lt.mpr (Nat.cast_pos.mp hwidth)
    · exact UInt32.lt_iff_toNat_lt.mpr (Nat.cast_pos.mp hheight)

theorem isGrabbable_nonEmpty {frame : WindowFrame} {scaleFactor : ℚ} (hscale : 0 < scaleFactor)
    (workAreas : List WindowFrame) :
    isGrabbable frame scaleFactor (nonEmpty workAreas) =
      isGrabbable frame scaleFactor workAreas := by
  rw [Bool.eq_iff_iff, isGrabbable_iff hscale, isGrabbable_iff hscale]
  simp only [onScreen_nonEmpty]

/-- A frame whose whole handle shows on one work area is grabbable: the top-left corner of the
handle has room for the square. -/
theorem isGrabbable_of_showsHandle {frame area : WindowFrame} {scaleFactor : ℚ}
    (hscale : 0 < scaleFactor) {workAreas : List WindowFrame} (harea : area ∈ workAreas)
    (h : ShowsHandle frame scaleFactor area) : isGrabbable frame scaleFactor workAreas = true := by
  refine (isGrabbable_iff hscale workAreas).mpr
    ⟨(handle frame scaleFactor).left, (handle frame scaleFactor).top, fun p q hpq => ?_⟩
  have hhandle : (handle frame scaleFactor).Has p q := by
    obtain ⟨⟨hl, hr⟩, ht, hb⟩ := hpq
    simp only [square, handle, grabSize, handleLeft] at hl hr ht hb
    refine ⟨⟨hl, ?_⟩, ht, ?_⟩
    · simp only [handle, handleRight]
      linarith
    · simp only [handle, handleHeight]
      linarith
  exact ⟨hhandle, area, harea, hhandle.of_contains h⟩

/-! ## Pulling a frame in -/

theorem toPhysical_toNat (logical scaleFactor : ℚ) :
    (toPhysical logical scaleFactor).toNat = min ⌈logical * scaleFactor⌉.toNat (2 ^ 32 - 1) := by
  rw [toPhysical, UInt32.toNat_ofNat']
  exact Nat.mod_eq_of_lt (by omega)

/-- A length that fits into a number of pixels is rounded up. -/
theorem toPhysical_eq_ceil {logical scaleFactor : ℚ} {n : UInt32} (hnonneg : 0 ≤ logical * scaleFactor)
    (hfits : logical * scaleFactor ≤ n.toNat) :
    ((toPhysical logical scaleFactor).toNat : Int) = ⌈logical * scaleFactor⌉ := by
  have hn := n.toNat_lt
  have hceil : ⌈logical * scaleFactor⌉ ≤ (n.toNat : Int) :=
    Int.ceil_le.mpr (by rwa [Int.cast_natCast])
  have hpos : 0 ≤ ⌈logical * scaleFactor⌉ := Int.ceil_nonneg hnonneg
  rw [toPhysical_toNat]
  omega

theorem toPhysical_le {logical scaleFactor : ℚ} {n : UInt32}
    (hfits : logical * scaleFactor ≤ n.toNat) : (toPhysical logical scaleFactor).toNat ≤ n.toNat := by
  have hceil : ⌈logical * scaleFactor⌉ ≤ (n.toNat : Int) :=
    Int.ceil_le.mpr (by rwa [Int.cast_natCast])
  rw [toPhysical_toNat]
  omega

theorem le_of_toPhysical_le {logical scaleFactor : ℚ} {n : UInt32}
    (hfits : logical * scaleFactor ≤ 2 ^ 32 - 1)
    (h : (toPhysical logical scaleFactor).toNat ≤ n.toNat) : logical * scaleFactor ≤ n.toNat := by
  have hceil : ⌈logical * scaleFactor⌉ ≤ ((2 ^ 32 - 1 : Nat) : Int) :=
    Int.ceil_le.mpr (by exact_mod_cast hfits)
  rw [toPhysical_toNat] at h
  have hle : ⌈logical * scaleFactor⌉ ≤ (n.toNat : Int) := by omega
  exact_mod_cast Int.ceil_le.mp hle

theorem add_le_iff_add_ceil_le (n m : Int) (length : ℚ) :
    (n : ℚ) + length ≤ m ↔ n + ⌈length⌉ ≤ m := by
  rw [← le_sub_iff_add_le', ← Int.cast_sub, ← Int.ceil_le, le_sub_iff_add_le']

theorem clamp_mem (n : Int) {low high : Int} (h : low ≤ high) :
    low ≤ clamp n low high ∧ clamp n low high ≤ high := by
  unfold clamp
  split
  · omega
  · split <;> omega

theorem clamp_nearest {n low high m : Int} (hlow : low ≤ m) (hhigh : m ≤ high) :
    |clamp n low high - n| ≤ |m - n| := by
  unfold clamp
  split
  · rw [abs_of_nonneg (by omega), abs_of_nonneg (by omega)]
    omega
  · split
    · rw [abs_of_nonpos (by omega), abs_of_nonpos (by omega)]
      omega
    · simp

/-- The second clamp of the source changes nothing. -/
theorem clampPosition_toInt (position start : Int32) (extent visible : UInt32) :
    (clampPosition position start extent visible).toInt =
      clamp position.toInt start.toInt (start.toInt + (extent.toNat - visible.toNat : Nat)) := by
  have hp := position.le_toInt
  have hp' := position.toInt_lt
  have hs := start.le_toInt
  have hs' := start.toInt_lt
  have hlow : -2 ^ 31 ≤ clamp position.toInt start.toInt
      (start.toInt + (extent.toNat - visible.toNat : Nat)) := by
    unfold clamp
    split
    · exact hs
    · split <;> omega
  have hhigh : clamp position.toInt start.toInt
      (start.toInt + (extent.toNat - visible.toNat : Nat)) < 2 ^ 31 := by
    unfold clamp
    split
    · exact hs'
    · split <;> omega
  have hsame : ∀ n : Int, -2 ^ 31 ≤ n → n < 2 ^ 31 → clamp n (-2 ^ 31) (2 ^ 31 - 1) = n := by
    intro n hn hn'
    rw [clamp, if_neg (by omega), if_neg (by omega)]
  rw [clampPosition, hsame _ hlow hhigh, Int32.toInt_ofInt_of_le hlow hhigh]

theorem showsHandle_iff {frame area : WindowFrame} {scaleFactor : ℚ} :
    ShowsHandle frame scaleFactor area ↔
      ((area.x.toInt : ℚ) ≤ frame.x.toInt + handleLeft * scaleFactor ∧
        (frame.x.toInt : ℚ) + handleRight * scaleFactor ≤ area.x.toInt + area.width.toNat) ∧
      (area.y.toInt : ℚ) ≤ frame.y.toInt ∧
        (frame.y.toInt : ℚ) + handleHeight * scaleFactor ≤ area.y.toInt + area.height.toNat :=
  contains_iff

section Pull

variable {frame area : WindowFrame} {scaleFactor : ℚ}

theorem pullInto_x : (pullInto frame scaleFactor area).x.toInt =
    clamp frame.x.toInt area.x.toInt (area.x.toInt +
      (area.width.toNat - (max frame.width (toPhysical handleRight scaleFactor)).toNat : Nat)) :=
  clampPosition_toInt ..

theorem pullInto_y : (pullInto frame scaleFactor area).y.toInt =
    clamp frame.y.toInt area.y.toInt (area.y.toInt +
      (area.height.toNat - (toPhysical handleHeight scaleFactor).toNat : Nat)) :=
  clampPosition_toInt ..

theorem max_toNat (m n : UInt32) : (max m n).toNat = max m.toNat n.toNat := by
  change (if m ≤ n then n else m).toNat = _
  split
  · rename_i h
    exact (max_eq_right (UInt32.le_iff_toNat_le.mp h)).symm
  · rename_i h
    exact (max_eq_left (not_le.mp fun hle => h (UInt32.le_iff_toNat_le.mpr hle)).le).symm

/-- In whole pixels, the handle shows when the strip from the left edge of the frame to its end does,
as long as the frame does not start left of the work area. -/
theorem showsHandle_iff_of_le (hscale : 0 < scaleFactor)
    (hwidth : handleRight * scaleFactor ≤ area.width.toNat)
    (hheight : handleHeight * scaleFactor ≤ area.height.toNat)
    (hx : area.x.toInt ≤ frame.x.toInt) :
    ShowsHandle frame scaleFactor area ↔
      frame.x.toInt + (toPhysical handleRight scaleFactor).toNat ≤
          area.x.toInt + area.width.toNat ∧
        area.y.toInt ≤ frame.y.toInt ∧
        frame.y.toInt + (toPhysical handleHeight scaleFactor).toNat ≤
          area.y.toInt + area.height.toNat := by
  have hright : 0 ≤ handleRight * scaleFactor := mul_nonneg (by norm_num [handleRight]) hscale.le
  have hdown : 0 ≤ handleHeight * scaleFactor := mul_nonneg (by norm_num [handleHeight]) hscale.le
  have hleft : (area.x.toInt : ℚ) ≤ frame.x.toInt + handleLeft * scaleFactor :=
    (Int.cast_le.mpr hx).trans
      (le_add_of_nonneg_right (mul_nonneg (by norm_num [handleLeft]) hscale.le))
  rw [showsHandle_iff, toPhysical_eq_ceil hright hwidth, toPhysical_eq_ceil hdown hheight,
    ← add_le_iff_add_ceil_le, ← add_le_iff_add_ceil_le]
  push_cast
  simp only [hleft, Int.cast_le, true_and]

/-- The places a frame is pulled to. -/
theorem pullInto_mem (frame area : WindowFrame) (scaleFactor : ℚ) :
    area.x.toInt ≤ (pullInto frame scaleFactor area).x.toInt ∧
    (pullInto frame scaleFactor area).x.toInt ≤ area.x.toInt +
      (area.width.toNat - (max frame.width (toPhysical handleRight scaleFactor)).toNat : Nat) ∧
    area.y.toInt ≤ (pullInto frame scaleFactor area).y.toInt ∧
    (pullInto frame scaleFactor area).y.toInt ≤ area.y.toInt +
      (area.height.toNat - (toPhysical handleHeight scaleFactor).toNat : Nat) := by
  rw [pullInto_x, pullInto_y]
  have hroom : ∀ (start : Int) (room : Nat), start ≤ start + room := fun start room => by omega
  exact ⟨(clamp_mem _ (hroom _ _)).1, (clamp_mem _ (hroom _ _)).2, (clamp_mem _ (hroom _ _)).1,
    (clamp_mem _ (hroom _ _)).2⟩

/-- A pulled frame shows its whole handle. -/
theorem pullInto_showsHandle (hscale : 0 < scaleFactor)
    (hwidth : handleRight * scaleFactor ≤ area.width.toNat)
    (hheight : handleHeight * scaleFactor ≤ area.height.toNat) :
    ShowsHandle (pullInto frame scaleFactor area) scaleFactor area := by
  obtain ⟨hx, hx', hy, hy'⟩ := pullInto_mem frame area scaleFactor
  have hw := toPhysical_le hwidth
  have hh := toPhysical_le hheight
  rw [max_toNat] at hx'
  refine (showsHandle_iff_of_le hscale hwidth hheight hx).mpr ⟨?_, hy, ?_⟩
  · omega
  · omega

theorem pullInto_showsWidth (hfits : frame.width.toNat ≤ area.width.toNat)
    (hwidth : handleRight * scaleFactor ≤ area.width.toNat) :
    ShowsWidth (pullInto frame scaleFactor area) area := by
  obtain ⟨hx, hx', -, -⟩ := pullInto_mem frame area scaleFactor
  have hw := toPhysical_le hwidth
  rw [max_toNat] at hx'
  refine ⟨hx, ?_⟩
  change _ + (frame.width.toNat : Int) ≤ _
  omega

/-- A frame that fits is pulled to the nearest place that shows its handle and its width. -/
theorem pullInto_nearest (hscale : 0 < scaleFactor)
    (hwidth : handleRight * scaleFactor ≤ area.width.toNat)
    (hheight : handleHeight * scaleFactor ≤ area.height.toNat) (x y : Int32)
    (hhandle : ShowsHandle { frame with x := x, y := y } scaleFactor area)
    (hshows : ShowsWidth { frame with x := x, y := y } area) :
    moved frame (pullInto frame scaleFactor area) ≤ moved frame { frame with x := x, y := y } := by
  obtain ⟨hx, hx'⟩ := hshows
  obtain ⟨hstrip, hy, hy'⟩ := (showsHandle_iff_of_le hscale hwidth hheight hx).mp hhandle
  dsimp only at hx hx' hstrip hy hy'
  have hnearx : |(pullInto frame scaleFactor area).x.toInt - frame.x.toInt| ≤
      |x.toInt - frame.x.toInt| := by
    rw [pullInto_x]
    refine clamp_nearest hx ?_
    rw [max_toNat]
    omega
  have hneary : |(pullInto frame scaleFactor area).y.toInt - frame.y.toInt| ≤
      |y.toInt - frame.y.toInt| := by
    rw [pullInto_y]
    refine clamp_nearest hy ?_
    omega
  exact add_le_add (abs_le_iff_mul_self_le.mp hnearx) (abs_le_iff_mul_self_le.mp hneary)

end Pull

/-! ## The best work area -/

theorem maxBy_eq_none {α : Type} {le : α → α → Bool} {l : List α} : maxBy le l = none ↔ l = [] := by
  cases l with
  | nil => simp [maxBy]
  | cons a l => simp [maxBy]

theorem foldl_best {α : Type} {le : α → α → Bool} (htotal : ∀ a b, le a b = false → le b a = true)
    (htrans : ∀ a b c, le a b = true → le b c = true → le a c = true)
    (hrefl : ∀ a, le a a = true) (l : List α) (a : α) :
    l.foldl (fun best b => if le best b then b else best) a ∈ a :: l ∧
      ∀ b ∈ a :: l, le b (l.foldl (fun best b => if le best b then b else best) a) = true := by
  induction l generalizing a with
  | nil => simp [hrefl]
  | cons c l ih =>
      rw [List.foldl_cons]
      cases hac : le a c with
      | true =>
          obtain ⟨hmem, hmax⟩ := ih c
          rw [if_pos rfl]
          refine ⟨List.mem_cons_of_mem _ hmem, fun b hb => ?_⟩
          rcases List.mem_cons.mp hb with rfl | hb
          · exact htrans _ _ _ hac (hmax c List.mem_cons_self)
          · exact hmax b hb
      | false =>
          obtain ⟨hmem, hmax⟩ := ih a
          rw [if_neg Bool.false_ne_true]
          refine ⟨?_, fun b hb => ?_⟩
          · rcases List.mem_cons.mp hmem with heq | hmem
            · rw [heq]
              exact List.mem_cons_self
            · exact List.mem_cons_of_mem _ (List.mem_cons_of_mem _ hmem)
          · rcases List.mem_cons.mp hb with rfl | hb
            · exact hmax b List.mem_cons_self
            · rcases List.mem_cons.mp hb with rfl | hb
              · exact htrans _ _ _ (htotal _ _ hac) (hmax a List.mem_cons_self)
              · exact hmax b (List.mem_cons_of_mem _ hb)

theorem worse_iff {a b : ℚ × Int × WindowFrame} :
    worse a b = true ↔ a.1 < b.1 ∨ a.1 = b.1 ∧ b.2.1 ≤ a.2.1 := by
  simp [worse]

/-- The candidate that `max_by` keeps is one of them, and none is better. -/
theorem maxBy_worse {l : List (ℚ × Int × WindowFrame)} {c : ℚ × Int × WindowFrame}
    (h : maxBy worse l = some c) : c ∈ l ∧ ∀ b ∈ l, worse b c = true := by
  cases l with
  | nil => cases h
  | cons a l =>
      rw [maxBy, Option.some.injEq] at h
      rw [← h]
      refine foldl_best (fun a b hab => ?_) (fun a b c hab hbc => ?_) (fun a => ?_) l a
      · rw [← Bool.not_eq_true, worse_iff, not_or, not_and, not_le, not_lt] at hab
        rcases hab.1.lt_or_eq with hlt | heq
        · exact worse_iff.mpr (.inl hlt)
        · exact worse_iff.mpr (.inr ⟨heq, (hab.2 heq.symm).le⟩)
      · rw [worse_iff] at hab hbc ⊢
        rcases hab with hlt | ⟨heq, hle⟩ <;> rcases hbc with hlt' | ⟨heq', hle'⟩
        · exact .inl (hlt.trans hlt')
        · exact .inl (heq' ▸ hlt)
        · exact .inl (heq ▸ hlt')
        · exact .inr ⟨heq.trans heq', hle'.trans hle⟩
      · exact worse_iff.mpr (.inr ⟨rfl, le_refl _⟩)

/-! ## The restored frame -/

section Restored

variable {frame : WindowFrame} {scaleFactor : ℚ} {workAreas : List WindowFrame} {minimum : ℚ × ℚ}

theorem clampWindowFrame_of_grabbable (hscale : 0 < scaleFactor)
    (h : isGrabbable frame scaleFactor workAreas = true) :
    clampWindowFrame frame scaleFactor workAreas minimum = grown frame scaleFactor minimum := by
  have hgrown : isGrabbable (grown frame scaleFactor minimum) scaleFactor (nonEmpty workAreas) =
      true := (isGrabbable_nonEmpty hscale workAreas).trans h
  rw [clampWindowFrame, if_pos hgrown]

theorem clampWindowFrame_of_not_grabbable (minimum : ℚ × ℚ) (hscale : 0 < scaleFactor)
    (h : isGrabbable frame scaleFactor workAreas = false) (hsome : nonEmpty workAreas ≠ []) :
    ∃ best, IsBest (grown frame scaleFactor minimum) scaleFactor workAreas best ∧
      clampWindowFrame frame scaleFactor workAreas minimum =
        pullInto (grown frame scaleFactor minimum) scaleFactor best := by
  have hgrown : isGrabbable (grown frame scaleFactor minimum) scaleFactor (nonEmpty workAreas) =
      false := (isGrabbable_nonEmpty hscale workAreas).trans h
  rw [clampWindowFrame, if_neg (by simp [hgrown])]
  generalize grown frame scaleFactor minimum = frame
  cases hbest : maxBy worse ((nonEmpty workAreas).map (candidate frame scaleFactor)) with
  | none => exact absurd (List.map_eq_nil_iff.mp (maxBy_eq_none.mp hbest)) hsome
  | some c =>
      obtain ⟨hmem, hmax⟩ := maxBy_worse hbest
      obtain ⟨best, hmembest, rfl⟩ := List.mem_map.mp hmem
      refine ⟨best, ⟨hmembest, fun area harea => ?_⟩, rfl⟩
      have hworse := worse_iff.mp (hmax _ (List.mem_map_of_mem harea))
      simpa only [candidate] using hworse

theorem clampWindowFrame_size (frame : WindowFrame) (scaleFactor : ℚ)
    (workAreas : List WindowFrame) (minimum : ℚ × ℚ) :
    (clampWindowFrame frame scaleFactor workAreas minimum).width =
        max frame.width (toPhysical minimum.1 scaleFactor) ∧
      (clampWindowFrame frame scaleFactor workAreas minimum).height =
        max frame.height (toPhysical minimum.2 scaleFactor) := by
  rw [clampWindowFrame]
  split
  · exact ⟨rfl, rfl⟩
  · cases hbest : maxBy worse ((nonEmpty workAreas).map
        (candidate (grown frame scaleFactor minimum) scaleFactor)) with
    | none => exact ⟨rfl, rfl⟩
    | some c =>
        obtain ⟨area, -, rfl⟩ := List.mem_map.mp (maxBy_worse hbest).1
        exact ⟨rfl, rfl⟩

theorem max_max_self (m n : UInt32) : max (max m n) n = max m n := by
  rw [← UInt32.toNat_inj, max_toNat, max_toNat]
  omega

theorem grown_clampWindowFrame :
    grown (clampWindowFrame frame scaleFactor workAreas minimum) scaleFactor minimum =
      clampWindowFrame frame scaleFactor workAreas minimum := by
  obtain ⟨hwidth, hheight⟩ := clampWindowFrame_size frame scaleFactor workAreas minimum
  generalize clampWindowFrame frame scaleFactor workAreas minimum = restored at hwidth hheight ⊢
  cases restored
  dsimp only at hwidth hheight
  rw [grown, hwidth, hheight, max_max_self, max_max_self]

/-- The restored frame is at least the minimum, as far as a size can be. -/
theorem minimum_le_clampWindowFrame :
    (minimum.1 * scaleFactor ≤ 2 ^ 32 - 1 → minimum.1 * scaleFactor ≤
        (clampWindowFrame frame scaleFactor workAreas minimum).width.toNat) ∧
      (minimum.2 * scaleFactor ≤ 2 ^ 32 - 1 → minimum.2 * scaleFactor ≤
        (clampWindowFrame frame scaleFactor workAreas minimum).height.toNat) := by
  rw [(clampWindowFrame_size ..).1, (clampWindowFrame_size ..).2]
  refine ⟨fun hfits => le_of_toPhysical_le hfits ?_, fun hfits => le_of_toPhysical_le hfits ?_⟩
  · rw [max_toNat]
    exact le_max_right _ _
  · rw [max_toNat]
    exact le_max_right _ _

theorem clampWindowFrame_grabbable (hscale : 0 < scaleFactor)
    (h : isGrabbable frame scaleFactor workAreas = true ∨
      StripFits scaleFactor workAreas ∧ nonEmpty workAreas ≠ []) :
    isGrabbable (clampWindowFrame frame scaleFactor workAreas minimum) scaleFactor workAreas =
      true := by
  cases hgrab : isGrabbable frame scaleFactor workAreas with
  | true =>
      rw [clampWindowFrame_of_grabbable hscale hgrab]
      exact hgrab
  | false =>
      obtain ⟨hstrip, hsome⟩ := h.resolve_left (by simp [hgrab])
      obtain ⟨best, hbest, heq⟩ :=
        clampWindowFrame_of_not_grabbable minimum hscale hgrab hsome
      obtain ⟨hwidth, hheight⟩ := hstrip best hbest.1
      rw [heq]
      exact isGrabbable_of_showsHandle hscale (mem_nonEmpty.mp hbest.1).1
        (pullInto_showsHandle hscale hwidth hheight)

theorem clampWindowFrame_idempotent (hscale : 0 < scaleFactor)
    (h : isGrabbable frame scaleFactor workAreas = true ∨
      StripFits scaleFactor workAreas ∧ nonEmpty workAreas ≠ []) :
    clampWindowFrame (clampWindowFrame frame scaleFactor workAreas minimum) scaleFactor workAreas
        minimum = clampWindowFrame frame scaleFactor workAreas minimum := by
  rw [clampWindowFrame_of_grabbable hscale (clampWindowFrame_grabbable hscale h)]
  exact grown_clampWindowFrame

end Restored

/-- A restored window is moved only when it cannot be grabbed, and then into the best work area, to
the nearest place that shows its handle and its width if the width fits. Either way it can be
grabbed, has its minimum size, and a second restore leaves it alone. -/
theorem restored_window_is_grabbable (frame : WindowFrame) (scaleFactor : ℚ)
    (workAreas : List WindowFrame) (minimum : ℚ × ℚ) (hscale : 0 < scaleFactor) :
    let wanted := grown frame scaleFactor minimum
    let restored := clampWindowFrame frame scaleFactor workAreas minimum
    (isGrabbable frame scaleFactor workAreas = true ↔
      ∃ x y, ∀ p q, (square x y (grabSize * scaleFactor)).Has p q →
        (handle frame scaleFactor).Has p q ∧ OnScreen workAreas p q) ∧
    (isGrabbable frame scaleFactor workAreas = true → restored = wanted) ∧
    (isGrabbable frame scaleFactor workAreas = false → StripFits scaleFactor workAreas →
      nonEmpty workAreas ≠ [] →
      ∃ best, IsBest wanted scaleFactor workAreas best ∧ ShowsHandle restored scaleFactor best ∧
        (wanted.width.toNat ≤ best.width.toNat → ShowsWidth restored best ∧
          ∀ x y, ShowsHandle { wanted with x := x, y := y } scaleFactor best →
            ShowsWidth { wanted with x := x, y := y } best →
            moved wanted restored ≤ moved wanted { wanted with x := x, y := y })) ∧
    (isGrabbable frame scaleFactor workAreas = true ∨
        StripFits scaleFactor workAreas ∧ nonEmpty workAreas ≠ [] →
      isGrabbable restored scaleFactor workAreas = true ∧
      (minimum.1 * scaleFactor ≤ 2 ^ 32 - 1 → minimum.1 * scaleFactor ≤ restored.width.toNat) ∧
      (minimum.2 * scaleFactor ≤ 2 ^ 32 - 1 → minimum.2 * scaleFactor ≤ restored.height.toNat) ∧
      clampWindowFrame restored scaleFactor workAreas minimum = restored) := by
  dsimp only
  refine ⟨isGrabbable_iff hscale workAreas, clampWindowFrame_of_grabbable hscale, ?_, ?_⟩
  · intro hgrab hstrip hsome
    obtain ⟨best, hbest, heq⟩ :=
      clampWindowFrame_of_not_grabbable minimum hscale hgrab hsome
    obtain ⟨hwidth, hheight⟩ := hstrip best hbest.1
    rw [heq]
    refine ⟨best, hbest, pullInto_showsHandle hscale hwidth hheight, fun hfits => ?_⟩
    exact ⟨pullInto_showsWidth hfits hwidth, fun x y => pullInto_nearest hscale hwidth hheight x y⟩
  · intro h
    exact ⟨clampWindowFrame_grabbable hscale h, minimum_le_clampWindowFrame.1,
      minimum_le_clampWindowFrame.2, clampWindowFrame_idempotent hscale h⟩

/-- A window left on a removed display is pulled onto the live one. -/
theorem restored_window_is_grabbable_moved :
    isGrabbable ⟨2400, 5000, 1000, 700⟩ 1 [⟨0, 0, 1920, 1080⟩] = false ∧
      clampWindowFrame ⟨2400, 5000, 1000, 700⟩ 1 [⟨0, 0, 1920, 1080⟩] (880, 600) =
        ⟨920, 1052, 1000, 700⟩ ∧
      isGrabbable (clampWindowFrame ⟨2400, 5000, 1000, 700⟩ 1 [⟨0, 0, 1920, 1080⟩] (880, 600)) 1
        [⟨0, 0, 1920, 1080⟩] = true := by
  refine ⟨by decide +kernel, by decide +kernel, ?_⟩
  have hstrip : StripFits 1 [⟨0, 0, 1920, 1080⟩] := by
    intro area harea
    rw [List.mem_singleton.mp (mem_nonEmpty.mp harea).1]
    decide +kernel
  have hsome : nonEmpty [⟨0, 0, 1920, 1080⟩] ≠ [] := by decide
  obtain ⟨-, -, -, h⟩ := restored_window_is_grabbable ⟨2400, 5000, 1000, 700⟩ 1
    [⟨0, 0, 1920, 1080⟩] (880, 600) one_pos
  exact (h (.inr ⟨hstrip, hsome⟩)).1

/-- Without a work area nothing moves, and a frame wider than its work area is put at the left edge
of the area, where a nearer place would show the handle as well. -/
theorem restored_window_is_not_always_nearest :
    (isGrabbable ⟨0, 0, 1000, 700⟩ 1 [] = false ∧ StripFits 1 [] ∧
      clampWindowFrame ⟨0, 0, 1000, 700⟩ 1 [] (880, 600) = ⟨0, 0, 1000, 700⟩) ∧
    isGrabbable ⟨100, 5000, 1000, 700⟩ 1 [⟨0, 0, 800, 600⟩] = false ∧
      StripFits 1 [⟨0, 0, 800, 600⟩] ∧
      clampWindowFrame ⟨100, 5000, 1000, 700⟩ 1 [⟨0, 0, 800, 600⟩] (880, 600) =
        ⟨0, 572, 1000, 700⟩ ∧
      ShowsHandle ⟨100, 572, 1000, 700⟩ 1 ⟨0, 0, 800, 600⟩ ∧
      moved ⟨100, 5000, 1000, 700⟩ ⟨100, 572, 1000, 700⟩ <
        moved ⟨100, 5000, 1000, 700⟩ ⟨0, 572, 1000, 700⟩ := by
  have hstrip : StripFits 1 [⟨0, 0, 800, 600⟩] := by
    intro area harea
    rw [List.mem_singleton.mp (mem_nonEmpty.mp harea).1]
    decide +kernel
  refine ⟨⟨by decide, ?_, by decide +kernel⟩, by decide +kernel, hstrip, by decide +kernel,
    by unfold ShowsHandle; decide +kernel, by decide⟩
  intro area harea
  cases harea

end Avibe.Desktop
