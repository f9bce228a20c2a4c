import Mathlib.Data.Nat.Init

/-!
# Dates

Dates of the proleptic Gregorian calendar with years from 1 to 9999, as the standard
library of Python has them. A date carries the proof that it exists. Its month has an
index that counts months without a gap, so that neighbouring months are neighbouring
numbers, and its ordinal counts days from the first of January of year 1.
-/

namespace Calendar

def isLeap (year : Nat) : Bool := year % 4 = 0 && (year % 100 ≠ 0 || year % 400 = 0)

def daysInMonth (year month : Nat) : Nat :=
  if month = 2 then if isLeap year then 29 else 28
  else if month = 4 ∨ month = 6 ∨ month = 9 ∨ month = 11 then 30
  else 31

theorem daysInMonth_pos (year month : Nat) : 0 < daysInMonth year month := by
  unfold daysInMonth
  split
  · split <;> decide
  · split <;> decide

theorem daysInMonth_le (year month : Nat) : daysInMonth year month ≤ 31 := by
  unfold daysInMonth
  split
  · split <;> decide
  · split <;> decide

structure Date where
  year : Nat
  month : Nat
  day : Nat
  year_pos : 1 ≤ year
  year_le : year ≤ 9999
  month_pos : 1 ≤ month
  month_le : month ≤ 12
  day_pos : 1 ≤ day
  day_le : day ≤ daysInMonth year month
  deriving DecidableEq

/-- The date, when it exists. -/
def date? (year month day : Nat) : Option Date :=
  if h : (1 ≤ year ∧ year ≤ 9999) ∧ (1 ≤ month ∧ month ≤ 12) ∧ 1 ≤ day ∧ day ≤ daysInMonth year month
  then some ⟨year, month, day, h.1.1, h.1.2, h.2.1.1, h.2.1.2, h.2.2.1, h.2.2.2⟩
  else none

theorem date?_eq_some {year month day : Nat} {d : Date} :
    date? year month day = some d ↔ d.year = year ∧ d.month = month ∧ d.day = day := by
  constructor
  · intro h
    unfold date? at h
    split at h
    · cases h
      exact ⟨rfl, rfl, rfl⟩
    · cases h
  · rintro ⟨rfl, rfl, rfl⟩
    exact dif_pos ⟨⟨d.year_pos, d.year_le⟩, ⟨d.month_pos, d.month_le⟩, d.day_pos, d.day_le⟩

namespace Date

/-- The number of the month, counted from year 0. -/
def index (d : Date) : Nat := 12 * d.year + (d.month - 1)

instance : LT Date := ⟨fun a b => a.index < b.index ∨ a.index = b.index ∧ a.day < b.day⟩

instance : LE Date := ⟨fun a b => a.index < b.index ∨ a.index = b.index ∧ a.day ≤ b.day⟩

theorem lt_iff {a b : Date} : a < b ↔ a.index < b.index ∨ a.index = b.index ∧ a.day < b.day :=
  Iff.rfl

theorem le_iff {a b : Date} : a ≤ b ↔ a.index < b.index ∨ a.index = b.index ∧ a.day ≤ b.day :=
  Iff.rfl

instance (a b : Date) : Decidable (a < b) := inferInstanceAs (Decidable (_ ∨ _))

instance (a b : Date) : Decidable (a ≤ b) := inferInstanceAs (Decidable (_ ∨ _))

theorem month_of_index {a b : Date} (h : a.index = b.index) :
    a.year = b.year ∧ a.month = b.month := by
  have := a.month_pos
  have := a.month_le
  have := b.month_pos
  have := b.month_le
  unfold index at h
  omega

theorem ext_index {a b : Date} (hi : a.index = b.index) (hd : a.day = b.day) : a = b := by
  obtain ⟨hy, hm⟩ := month_of_index hi
  cases a
  cases b
  simp_all

theorem index_bounds (d : Date) : 12 ≤ d.index ∧ d.index ≤ 119999 := by
  have := d.year_pos
  have := d.year_le
  have := d.month_pos
  have := d.month_le
  unfold index
  omega

/-- The day before, when it exists. -/
def yesterday (d : Date) : Option Date :=
  if 1 < d.day then date? d.year d.month (d.day - 1)
  else if 1 < d.month then date? d.year (d.month - 1) (daysInMonth d.year (d.month - 1))
  else date? (d.year - 1) 12 31

/-- The date this many days earlier. -/
def minusDays (d : Date) : Nat → Option Date
  | 0 => some d
  | n + 1 => d.yesterday.bind fun y => y.minusDays n

/-! ## Ordinals -/

def daysBeforeYear (year : Nat) : Nat :=
  let y := year - 1
  y * 365 + y / 4 - y / 100 + y / 400

def daysBeforeMonth (year : Nat) : Nat → Nat
  | 0 | 1 => 0
  | month + 1 => daysBeforeMonth year month + daysInMonth year month

def toOrdinal (d : Date) : Nat := daysBeforeYear d.year + daysBeforeMonth d.year d.month + d.day

theorem daysBeforeMonth_succ (year : Nat) {month : Nat} (h : 1 ≤ month) :
    daysBeforeMonth year (month + 1) = daysBeforeMonth year month + daysInMonth year month := by
  cases month with
  | zero => omega
  | succ month => rfl

/-- A year has 365 days, and one more in a leap year. -/
theorem daysBeforeYear_add (y : Nat) :
    daysBeforeYear (y + 2) = daysBeforeYear (y + 1) + 365 + if isLeap (y + 1) then 1 else 0 := by
  have hle : y / 100 ≤ y / 4 := Nat.div_le_div_left (by decide) (by decide)
  have h4 := @Nat.succ_div y 4
  have h100 := @Nat.succ_div y 100
  have h400 := @Nat.succ_div y 400
  have h41 : 100 ∣ y + 1 → 4 ∣ y + 1 := fun h => Nat.dvd_trans (by decide) h
  have h14 : 400 ∣ y + 1 → 100 ∣ y + 1 := fun h => Nat.dvd_trans (by decide) h
  simp only [daysBeforeYear, isLeap, Nat.succ_sub_one, Bool.and_eq_true, Bool.or_eq_true,
    decide_eq_true_eq, ne_eq, ← Nat.dvd_iff_mod_eq_zero, show y + 2 - 1 = y + 1 from rfl, h4, h100,
    h400]
  generalize y / 4 = a, y / 100 = b, y / 400 = c at *
  by_cases hd4 : 4 ∣ y + 1
  · by_cases hd100 : 100 ∣ y + 1
    · by_cases hd400 : 400 ∣ y + 1
      · simp only [hd4, hd100, hd400, if_true, not_true, or_true, and_true]
        omega
      · simp only [hd4, hd100, hd400, if_true, if_false, not_true, or_false, and_false]
        omega
    · have hd400 : ¬ 400 ∣ y + 1 := fun h => hd100 (h14 h)
      simp only [hd4, hd100, hd400, if_true, if_false, not_false_eq_true, true_or, and_true]
      omega
  · have hd100 : ¬ 100 ∣ y + 1 := fun h => hd4 (h41 h)
    have hd400 : ¬ 400 ∣ y + 1 := fun h => hd100 (h14 h)
    simp only [hd4, hd100, hd400, if_false, false_and]
    omega

theorem daysBeforeMonth_twelve (year : Nat) :
    daysBeforeMonth year 12 = 334 + if isLeap year then 1 else 0 := by
  simp only [daysBeforeMonth, daysInMonth]
  cases isLeap year <;> rfl

theorem daysBeforeYear_succ {year : Nat} (h : 1 ≤ year) :
    daysBeforeYear (year + 1) = daysBeforeYear year + daysBeforeMonth year 12 + 31 := by
  obtain ⟨y, rfl⟩ : ∃ y, year = y + 1 := ⟨year - 1, by omega⟩
  rw [daysBeforeYear_add, daysBeforeMonth_twelve]
  omega

/-- From one month to the next the ordinal counts the days that are left and those of the date. -/
theorem toOrdinal_next {a b : Date} (h : b.index = a.index + 1) :
    b.toOrdinal + a.day = a.toOrdinal + daysInMonth a.year a.month + b.day := by
  have ham := a.month_pos
  have hal := a.month_le
  have hbm := b.month_pos
  have hbl := b.month_le
  have hy := a.year_pos
  unfold index at h
  unfold toOrdinal
  by_cases hm : a.month = 12
  · have hb : b.month = 1 ∧ b.year = a.year + 1 := by omega
    have hfirst : daysBeforeMonth (a.year + 1) 1 = 0 := rfl
    have hlast : daysInMonth a.year 12 = 31 := rfl
    rw [hb.1, hb.2, hm, daysBeforeYear_succ hy, hfirst, hlast]
    omega
  · have hb : b.month = a.month + 1 ∧ b.year = a.year := by omega
    rw [hb.1, hb.2, daysBeforeMonth_succ _ ham]
    omega

theorem toOrdinal_same {a b : Date} (h : b.index = a.index) :
    b.toOrdinal + a.day = a.toOrdinal + b.day := by
  obtain ⟨hy, hm⟩ := month_of_index h
  unfold toOrdinal
  rw [hy, hm]
  omega

theorem yesterday_toOrdinal {d y : Date} (h : d.yesterday = some y) :
    y.toOrdinal + 1 = d.toOrdinal := by
  have hday := d.day_pos
  have hm := d.month_pos
  unfold yesterday at h
  split at h
  · obtain ⟨hyear, hmonth, hyday⟩ := date?_eq_some.mp h
    have hordinal := toOrdinal_same (a := y) (b := d) (by rw [index, index, hyear, hmonth])
    omega
  · split at h
    · obtain ⟨hyear, hmonth, hyday⟩ := date?_eq_some.mp h
      have hordinal := toOrdinal_next (a := y) (b := d) (by rw [index, index, hyear, hmonth]; omega)
      rw [hyear, hmonth] at hordinal
      omega
    · obtain ⟨hyear, hmonth, hyday⟩ := date?_eq_some.mp h
      have hpos := y.year_pos
      have hordinal := toOrdinal_next (a := y) (b := d) (by rw [index, index, hyear, hmonth]; omega)
      have hlast : daysInMonth y.year 12 = 31 := rfl
      rw [hmonth, hlast] at hordinal
      omega

theorem minusDays_toOrdinal {d e : Date} {n : Nat} (h : d.minusDays n = some e) :
    e.toOrdinal + n = d.toOrdinal := by
  induction n generalizing d with
  | zero =>
      cases h
      rfl
  | succ n ih =>
      obtain ⟨y, hy, he⟩ := Option.bind_eq_some_iff.mp h
      have hrest := ih he
      have hone := yesterday_toOrdinal hy
      omega

theorem daysBeforeMonth_mono (year : Nat) {m n : Nat} (hm : 1 ≤ m) (h : m ≤ n) :
    daysBeforeMonth year m ≤ daysBeforeMonth year n := by
  induction h with
  | refl => exact Nat.le_refl _
  | @step n h ih =>
      rw [daysBeforeMonth_succ year (Nat.le_trans hm h)]
      omega

theorem daysBeforeYear_mono {y z : Nat} (hy : 1 ≤ y) (h : y ≤ z) :
    daysBeforeYear y ≤ daysBeforeYear z := by
  induction h with
  | refl => exact Nat.le_refl _
  | @step z h ih =>
      rw [daysBeforeYear_succ (Nat.le_trans hy h)]
      omega

/-- A month ends before the next one begins. -/
theorem day_le_next_month (d : Date) :
    daysBeforeMonth d.year d.month + d.day ≤ daysBeforeMonth d.year (d.month + 1) := by
  have := d.day_le
  rw [daysBeforeMonth_succ _ d.month_pos]
  omega

/-- An earlier date has a smaller ordinal. -/
theorem toOrdinal_lt {a b : Date} (h : a.year < b.year ∨ a.year = b.year ∧
    (a.month < b.month ∨ a.month = b.month ∧ a.day < b.day)) : a.toOrdinal < b.toOrdinal := by
  have hday := b.day_pos
  unfold toOrdinal
  rcases h with hyear | ⟨hyear, hmonth | ⟨hmonth, hlt⟩⟩
  · have hmono := daysBeforeYear_mono (Nat.le_add_left 1 a.year) hyear
    have hmonth : daysBeforeMonth a.year a.month + a.day ≤ daysBeforeMonth a.year 12 + 31 := by
      rcases Nat.lt_or_ge a.month 12 with hlt | hge
      · have := daysBeforeMonth_mono a.year (Nat.le_add_left 1 a.month) hlt
        have := a.day_le_next_month
        omega
      · have heq : a.month = 12 := Nat.le_antisymm a.month_le hge
        have := Nat.le_trans a.day_le (daysInMonth_le a.year a.month)
        rw [heq]
        omega
    rw [daysBeforeYear_succ a.year_pos] at hmono
    omega
  · have hmono := daysBeforeMonth_mono a.year (Nat.le_add_left 1 a.month) hmonth
    have := a.day_le_next_month
    rw [← hyear]
    omega
  · rw [← hyear, ← hmonth]
    omega

end Date

end Calendar
