import Avibe.Lib.Calendar

/-!
# Billing cycles

A subscription renews on one day of every month, or on the last day of a month that is
too short for it. `billingPeriod` gives the cycle that a day falls in; the cycles of one
renewal day tile the calendar.
-/

namespace Avibe.Pricing

open Calendar

inductive Basis where
  | rolling30d
  | billingCycle
  deriving DecidableEq, Repr

/-- The renewal in a month, on its last day where the month is too short. -/
def on (renewalDay year month : Nat) : Option Date :=
  match date? (if month = 12 then year + 1 else year) (month % 12 + 1) 1 with
  | none => none
  | some nextFirst =>
      match nextFirst.yesterday with
      | none => none
      | some last => date? year month (min renewalDay last.day)

/-- The basis, the first day and the next renewal of the period that ends today; `none` is a date
outside the calendar, which raises. -/
def billingPeriod (today : Date) (renewalDay : Option Nat) : Option (Basis × Date × Option Date) :=
  match renewalDay with
  | none => (today.minusDays 29).map fun first => (.rolling30d, first, none)
  | some day =>
      match on day today.year today.month with
      | none => none
      | some thisMonth =>
          if thisMonth ≤ today then
            match on day (if today.month = 12 then today.year + 1 else today.year)
              (today.month % 12 + 1) with
            | none => none
            | some renews => some (.billingCycle, thisMonth, some renews)
          else
            let (previousYear, previousMonth) :=
              if today.month = 1 then (today.year - 1, 12) else (today.year, today.month - 1)
            match on day previousYear previousMonth with
            | none => none
            | some start => some (.billingCycle, start, some thisMonth)

/-- The longest span that `quota_values` sums. -/
def valueWindowDays : Nat := 31

/-! ## The renewal of a month -/

/-- The month with this index lies in the calendar. -/
def Representable (index : Nat) : Prop := 12 ≤ index ∧ index ≤ 119999

instance (index : Nat) : Decidable (Representable index) := inferInstanceAs (Decidable (_ ∧ _))

/-- The date is the renewal of its month. -/
def Renews (day : Nat) (d : Date) : Prop := d.day = min day (daysInMonth d.year d.month)

theorem Renews.eq {day : Nat} {a b : Date} (ha : Renews day a) (hb : Renews day b)
    (h : a.index = b.index) : a = b := by
  obtain ⟨hy, hm⟩ := Date.month_of_index h
  apply Date.ext_index h
  rw [ha, hb, hy, hm]

theorem yesterday_first {year month : Nat} (hy : 1 ≤ year) (hm : 1 ≤ month) (hm' : month ≤ 12)
    {first : Date}
    (h : date? (if month = 12 then year + 1 else year) (month % 12 + 1) 1 = some first) :
    first.yesterday.map Date.day = some (daysInMonth year month) := by
  obtain ⟨hyear, hmonth, hday⟩ := date?_eq_some.mp h
  have hrange := first.year_le
  unfold Date.yesterday
  rw [if_neg (by omega)]
  by_cases hlast : month = 12
  · rw [if_pos hlast] at hyear
    rw [if_neg (by omega), date?, dif_pos]
    · rw [hlast]
      rfl
    · refine ⟨by omega, by decide, by decide, ?_⟩
      exact Nat.le_refl 31
  · rw [if_neg hlast] at hyear
    have hsame : first.month - 1 = month := by omega
    have hpos := daysInMonth_pos first.year month
    rw [if_pos (by omega), hsame, date?, dif_pos ⟨by omega, by omega, hpos, Nat.le_refl _⟩]
    exact congrArg (fun y => some (daysInMonth y month)) hyear

/-- Away from the last month of the calendar, every month has its renewal. -/
theorem on_eq {day year month : Nat} (hm : 1 ≤ month) (hm' : month ≤ 12)
    (hr : Representable (12 * year + (month - 1) + 1)) {d : Date}
    (hi : d.index = 12 * year + (month - 1)) (hd : Renews day d) : on day year month = some d := by
  have hdm := d.month_pos
  have hdm' := d.month_le
  have hdy := d.year_pos
  obtain ⟨-, hlast⟩ := hr
  unfold Date.index at hi
  have hyear : d.year = year := by omega
  have hmonth : d.month = month := by omega
  obtain ⟨first, hfirst⟩ : ∃ first,
      date? (if month = 12 then year + 1 else year) (month % 12 + 1) 1 = some first := by
    refine ⟨_, dif_pos ⟨?_, by omega, Nat.le_refl 1, daysInMonth_pos _ _⟩⟩
    split <;> omega
  obtain ⟨last, hyes, hlastday⟩ :=
    Option.map_eq_some_iff.mp (yesterday_first (hyear ▸ hdy) hm hm' hfirst)
  have hdate : date? year month (min day last.day) = some d := by
    rw [date?_eq_some, hlastday, ← hyear, ← hmonth]
    exact ⟨rfl, rfl, hd⟩
  simp only [on, hfirst, hyes, hdate]

theorem exists_renews {day i : Nat} (hday : 1 ≤ day) (hi : Representable i) :
    ∃ d : Date, d.index = i ∧ Renews day d := by
  obtain ⟨hlow, hhigh⟩ := hi
  have hpos := daysInMonth_pos (i / 12) (i % 12 + 1)
  refine ⟨⟨i / 12, i % 12 + 1, min day (daysInMonth (i / 12) (i % 12 + 1)), ?_, ?_, ?_, ?_, ?_, ?_⟩,
    ?_, rfl⟩
  · omega
  · omega
  · omega
  · omega
  · omega
  · exact Nat.min_le_right _ _
  · simp only [Date.index]
    omega

/-! ## The cycle of a day -/

/-- The renewals on both sides of a day, in neighbouring months. -/
structure Cycle (day : Nat) (today start renews : Date) : Prop where
  start_renews : Renews day start
  renews_renews : Renews day renews
  next : renews.index = start.index + 1
  since : start ≤ today
  before : today < renews

theorem exists_cycle {day : Nat} (hday : 1 ≤ day) {today : Date}
    (hprevious : Representable (today.index - 1)) (hnext : Representable (today.index + 1)) :
    ∃ start renews, Cycle day today start renews := by
  obtain ⟨hlow, hhigh⟩ := today.index_bounds
  obtain ⟨hlow', -⟩ := hprevious
  obtain ⟨this, hi, hthis⟩ := exists_renews hday (i := today.index) ⟨hlow, hhigh⟩
  rcases Nat.lt_or_ge today.day this.day with hlt | hge
  · obtain ⟨start, hs, hstart⟩ := exists_renews hday (i := today.index - 1) ⟨hlow', by omega⟩
    refine ⟨start, this, hstart, hthis, by omega, Date.le_iff.mpr (.inl (by omega)), ?_⟩
    exact Date.lt_iff.mpr (.inr ⟨hi.symm, hlt⟩)
  · obtain ⟨renews, hr, hrenews⟩ := exists_renews hday hnext
    refine ⟨this, renews, hthis, hrenews, by omega, ?_, Date.lt_iff.mpr (.inl (by omega))⟩
    exact Date.le_iff.mpr (.inr ⟨hi, hge⟩)

/-- A cycle is at most 31 days long. -/
theorem Cycle.length_le {day : Nat} {today start renews : Date} (h : Cycle day today start renews) :
    renews.toOrdinal ≤ start.toOrdinal + 31 := by
  have hordinal := Date.toOrdinal_next h.next
  have hstart := h.start_renews
  have hrenews := h.renews_renews
  have hlong := daysInMonth_le start.year start.month
  have hlong' := daysInMonth_le renews.year renews.month
  unfold Renews at hstart hrenews
  omega

/-- The days of a cycle come before its renewal. -/
theorem Cycle.toOrdinal_lt {day : Nat} {today start renews : Date}
    (h : Cycle day today start renews) : today.toOrdinal < renews.toOrdinal := by
  have hpos := renews.day_pos
  have hle := today.day_le
  have hnext := h.next
  rcases Date.lt_iff.mp h.before with hlt | ⟨heq, hday⟩
  · have hsince := Date.le_iff.mp h.since
    have hordinal := Date.toOrdinal_next (a := today) (b := renews) (by omega)
    omega
  · have hordinal := Date.toOrdinal_same heq
    omega

/-- `billingPeriod` returns the cycle that holds the day. -/
theorem billingPeriod_cycle {day : Nat} {today start renews : Date}
    (h : Cycle day today start renews) (hr : Representable (renews.index + 1)) :
    billingPeriod today (some day) = some (.billingCycle, start, some renews) := by
  have hm := today.month_pos
  have hm' := today.month_le
  have hnext := h.next
  have hstart := start.index_bounds
  have hrenews := renews.index_bounds
  obtain ⟨-, hhigh⟩ := hr
  have hindex : today.index = 12 * today.year + (today.month - 1) := rfl
  have hsince := Date.le_iff.mp h.since
  have hbefore := Date.lt_iff.mp h.before
  by_cases hsame : start.index = today.index
  · -- The day is in the month of the start.
    have hthis : on day today.year today.month = some start :=
      on_eq hm hm' ⟨by omega, by omega⟩ (by omega) h.start_renews
    have hmonth : 12 * (if today.month = 12 then today.year + 1 else today.year) +
        (today.month % 12 + 1 - 1) = today.index + 1 := by
      rw [hindex]
      split <;> omega
    have hon : on day (if today.month = 12 then today.year + 1 else today.year)
        (today.month % 12 + 1) = some renews :=
      on_eq (by omega) (by omega) ⟨by omega, by omega⟩ (by omega) h.renews_renews
    simp only [billingPeriod, hthis, if_pos h.since, hon]
  · -- The day is in the month of the renewal, before it.
    have hthis : on day today.year today.month = some renews :=
      on_eq hm hm' ⟨by omega, by omega⟩ (by omega) h.renews_renews
    have hnot : ¬ renews ≤ today := by
      rw [Date.le_iff]
      omega
    by_cases hfirst : today.month = 1
    · have hon : on day (today.year - 1) 12 = some start :=
        on_eq (by decide) (by decide) ⟨by omega, by omega⟩ (by omega) h.start_renews
      simp only [billingPeriod, hthis, if_neg hnot, if_pos hfirst, hon]
    · have hon : on day today.year (today.month - 1) = some start :=
        on_eq (by omega) (by omega) ⟨by omega, by omega⟩ (by omega) h.start_renews
      simp only [billingPeriod, hthis, if_neg hnot, if_neg hfirst, hon]

/-- The cycles of a renewal day tile the calendar. Every day whose previous month and two next
months exist lies in the cycle that `billingPeriod` gives it, as does every day of that cycle; the
next cycle starts where it ends; it starts and ends on the renewal day, or on the last day of a
month that is too short; and it is at most 31 days long, so that neither a cycle nor the rolling
period reaches back beyond the value window. -/
theorem billingPeriod_tiles {day : Nat} (hday : 1 ≤ day) {today : Date}
    (hprevious : Representable (today.index - 1)) (hsecond : Representable (today.index + 2)) :
    (∃ start renews,
      billingPeriod today (some day) = some (.billingCycle, start, some renews) ∧
      start ≤ today ∧ today < renews ∧
      (∀ d, start ≤ d → d < renews →
        billingPeriod d (some day) = some (.billingCycle, start, some renews)) ∧
      (Representable (today.index + 3) →
        ∃ later, billingPeriod renews (some day) = some (.billingCycle, renews, some later)) ∧
      start.day = min day (daysInMonth start.year start.month) ∧
      renews.day = min day (daysInMonth renews.year renews.month) ∧
      renews.toOrdinal ≤ start.toOrdinal + 31 ∧
      today.toOrdinal < start.toOrdinal + valueWindowDays) ∧
    ∀ basis first renews, billingPeriod today none = some (basis, first, renews) →
      today.toOrdinal < first.toOrdinal + valueWindowDays := by
  constructor
  · obtain ⟨-, hhigh⟩ := hsecond
    have htoday := today.index_bounds
    obtain ⟨start, renews, h⟩ := exists_cycle hday hprevious ⟨by omega, by omega⟩
    have hnext := h.next
    have hsince := Date.le_iff.mp h.since
    have hbefore := Date.lt_iff.mp h.before
    have hrenews := renews.index_bounds
    have hr : Representable (renews.index + 1) := ⟨by omega, by omega⟩
    have hlength := h.length_le
    have hreach := h.toOrdinal_lt
    refine ⟨start, renews, billingPeriod_cycle h hr, h.since, h.before, ?_, ?_,
      h.start_renews, h.renews_renews, hlength, ?_⟩
    · intro d hd hd'
      exact billingPeriod_cycle ⟨h.start_renews, h.renews_renews, hnext, hd, hd'⟩ hr
    · rintro ⟨-, hthird⟩
      obtain ⟨later, hi, hlater⟩ := exists_renews hday hr
      refine ⟨later, billingPeriod_cycle ⟨h.renews_renews, hlater, hi, ?_, ?_⟩ ?_⟩
      · exact Date.le_iff.mpr (.inr ⟨rfl, Nat.le_refl _⟩)
      · exact Date.lt_iff.mpr (.inl (by omega))
      · exact ⟨by omega, by omega⟩
    · have hwindow : valueWindowDays = 31 := rfl
      omega
  · intro basis first renews h
    obtain ⟨e, he, heq⟩ := Option.map_eq_some_iff.mp h
    cases heq
    have hordinal := Date.minusDays_toOrdinal he
    have hwindow : valueWindowDays = 31 := rfl
    omega

/-- 29 February 2028 in the cycle that starts on the last day of that month. -/
theorem billingPeriod_tiles_leap :
    ∃ start renews today : Date, date? 2028 2 29 = some today ∧ start = today ∧
      billingPeriod today (some 31) = some (.billingCycle, start, some renews) ∧
      renews.toOrdinal ≤ start.toOrdinal + 31 := by
  obtain ⟨start, renews, hperiod, -, -, -, -, -, -, hlength, -⟩ :=
    (@billingPeriod_tiles 31 (by decide) ⟨2028, 2, 29, by decide, by decide, by decide,
      by decide, by decide, by decide⟩ (by decide) (by decide)).1
  refine ⟨start, renews, _, rfl, ?_, hperiod, hlength⟩
  have hstart : (billingPeriod ⟨2028, 2, 29, by decide, by decide, by decide, by decide, by decide,
      by decide⟩ (some 31)).map (fun p => p.2.1) =
      some ⟨2028, 2, 29, by decide, by decide, by decide, by decide, by decide, by decide⟩ := by
    decide
  rw [hperiod] at hstart
  exact Option.some.inj hstart

/-- In the last months of the calendar the renewal itself has no period: the neighbouring months of
20 October 9999 exist, and its renewal on 15 November raises. -/
theorem billingPeriod_last_renewal :
    ∃ today renews : Date, date? 9999 10 20 = some today ∧ date? 9999 11 15 = some renews ∧
      Representable (today.index - 1) ∧ Representable (today.index + 1) ∧
      (billingPeriod today (some 15)).map (fun p => p.2.2) = some (some renews) ∧
      billingPeriod renews (some 15) = none :=
  ⟨⟨9999, 10, 20, by decide, by decide, by decide, by decide, by decide, by decide⟩,
    ⟨9999, 11, 15, by decide, by decide, by decide, by decide, by decide, by decide⟩,
    by decide, by decide, by decide, by decide, by decide, by decide⟩

end Avibe.Pricing
