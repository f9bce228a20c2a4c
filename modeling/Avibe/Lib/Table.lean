import Mathlib.Data.List.Nodup

/-!
# Tables

A table is a list of rows in the order of their insertion. Its schema gives the
primary key, the check every row must pass and the pairs of rows that a unique
index refuses. A `Table` carries the proof that its rows meet the schema, and a
write that would break it is refused.
-/

/-- The constraints of a table. -/
structure Schema (ρ κ : Type) where
  key : ρ → κ
  check : ρ → Bool
  /-- Two rows that a unique index does not allow together. -/
  clash : ρ → ρ → Bool
  clash_symm : ∀ a b, clash a b = clash b a

structure Table {ρ κ : Type} (S : Schema ρ κ) where
  rows : List ρ
  checked : ∀ r ∈ rows, S.check r = true
  nodup : (rows.map S.key).Nodup
  unique : ∀ a ∈ rows, ∀ b ∈ rows, S.key a ≠ S.key b → S.clash a b = false

namespace Table

variable {ρ κ : Type} {S : Schema ρ κ}

def empty : Table S := ⟨[], by simp, by simp, by simp⟩

/-- Two rows of the table with one key are the same row. -/
theorem eq_of_key {t : Table S} {a b : ρ} (ha : a ∈ t.rows) (hb : b ∈ t.rows)
    (h : S.key a = S.key b) : a = b :=
  List.inj_on_of_nodup_map t.nodup ha hb h

section Writes

variable [DecidableEq κ]

/-- The row with a key. -/
def get? (t : Table S) (k : κ) : Option ρ := t.rows.find? fun r => S.key r = k

/-- The schema accepts the row beside the rows with other keys. -/
def Fits (t : Table S) (r : ρ) : Prop :=
  S.check r = true ∧ ∀ q ∈ t.rows, S.key q ≠ S.key r → S.clash q r = false

instance (t : Table S) (r : ρ) : Decidable (t.Fits r) :=
  inferInstanceAs (Decidable (_ ∧ _))

/-- Add a row with a new key. -/
def insert? (t : Table S) (r : ρ) : Option (Table S) :=
  if h : t.Fits r ∧ S.key r ∉ t.rows.map S.key then
    some {
      rows := t.rows ++ [r]
      checked := by
        intro q hq
        rcases List.mem_append.mp hq with hq | hq
        · exact t.checked q hq
        · exact List.mem_singleton.mp hq ▸ h.1.1
      nodup := by
        rw [List.map_append, List.nodup_append]
        refine ⟨t.nodup, by simp, ?_⟩
        rintro k hk k' hk' rfl
        exact h.2 (List.mem_singleton.mp hk' ▸ hk)
      unique := by
        intro a ha b hb hne
        rcases List.mem_append.mp ha with ha | ha <;> rcases List.mem_append.mp hb with hb | hb
        · exact t.unique a ha b hb hne
        · cases List.mem_singleton.mp hb
          exact h.1.2 a ha hne
        · cases List.mem_singleton.mp ha
          rw [S.clash_symm]
          exact h.1.2 b hb hne.symm
        · cases List.mem_singleton.mp ha
          cases List.mem_singleton.mp hb
          exact absurd rfl hne }
  else none

/-- Put a row in the place of the row with its key. -/
def replace? (t : Table S) (r : ρ) : Option (Table S) :=
  if h : t.Fits r then
    some {
      rows := t.rows.map fun q => if S.key q = S.key r then r else q
      checked := by
        intro q hq
        obtain ⟨p, hp, rfl⟩ := List.mem_map.mp hq
        split
        · exact h.1
        · exact t.checked p hp
      nodup := by
        have hkeys : ∀ q, S.key (if S.key q = S.key r then r else q) = S.key q := by
          intro q
          split
          · exact Eq.symm ‹_›
          · rfl
        simpa [List.map_map, Function.comp_def, hkeys] using t.nodup
      unique := by
        intro a ha b hb hne
        obtain ⟨p, hp, rfl⟩ := List.mem_map.mp ha
        obtain ⟨q, hq, rfl⟩ := List.mem_map.mp hb
        split at hne <;> split at hne <;> simp_all only [if_true, if_false]
        · exact absurd rfl hne
        · rw [S.clash_symm]
          exact h.2 q hq (Ne.symm hne)
        · exact h.2 p hp hne
        · exact t.unique p hp q hq hne }
  else none

end Writes

section Reads

variable [DecidableEq κ] {t t' : Table S} {r : ρ} {k : κ}

theorem get?_key (h : t.get? k = some r) : S.key r = k := by
  simpa using List.find?_some h

theorem get?_mem (h : t.get? k = some r) : r ∈ t.rows :=
  List.mem_of_find?_eq_some h

theorem get?_check (h : t.get? k = some r) : S.check r = true :=
  t.checked r (get?_mem h)

theorem get?_eq_none : t.get? k = none ↔ k ∉ t.rows.map S.key := by
  simp [get?, List.find?_eq_none]

theorem mem_iff_get? : r ∈ t.rows ↔ t.get? (S.key r) = some r := by
  constructor
  · intro h
    cases hf : t.get? (S.key r) with
    | none => exact absurd (List.mem_map_of_mem h) (get?_eq_none.mp hf)
    | some q => rw [eq_of_key (get?_mem hf) h (get?_key hf)]
  · exact get?_mem

@[simp] theorem get?_empty : (empty : Table S).get? k = none := rfl

theorem insert?_rows (h : t.insert? r = some t') : t'.rows = t.rows ++ [r] := by
  unfold insert? at h
  split at h
  · cases h
    rfl
  · cases h

theorem insert?_fresh (h : t.insert? r = some t') : t.get? (S.key r) = none := by
  unfold insert? at h
  split at h
  · rename_i hf
    exact get?_eq_none.mpr hf.2
  · cases h

theorem insert?_fits (h : t.insert? r = some t') : t.Fits r := by
  unfold insert? at h
  split at h
  · rename_i hf
    exact hf.1
  · cases h

theorem get?_insert? (h : t.insert? r = some t') :
    t'.get? k = if k = S.key r then some r else t.get? k := by
  have hr := insert?_rows h
  split
  · rename_i hk
    have : r ∈ t'.rows := by rw [hr]; simp
    rw [hk]
    exact mem_iff_get?.mp this
  · rename_i hk
    unfold get?
    rw [hr, List.find?_append]
    simp [Ne.symm hk]

theorem replace?_rows (h : t.replace? r = some t') :
    t'.rows = t.rows.map fun q => if S.key q = S.key r then r else q := by
  unfold replace? at h
  split at h
  · cases h
    rfl
  · cases h

theorem get?_replace? {q : ρ} (h : t.replace? r = some t') (hq : t.get? (S.key r) = some q) :
    t'.get? k = if k = S.key r then some r else t.get? k := by
  have hr := replace?_rows h
  split
  · rename_i hk
    have : r ∈ t'.rows := by
      rw [hr]
      exact List.mem_map.mpr ⟨q, get?_mem hq, by simp [get?_key hq]⟩
    rw [hk]
    exact mem_iff_get?.mp this
  · rename_i hk
    unfold get?
    rw [hr, List.find?_map]
    have hp : ((fun p => decide (S.key p = k)) ∘ fun q => if S.key q = S.key r then r else q) =
        fun p => decide (S.key p = k) := by
      funext p
      by_cases hp : S.key p = S.key r
      · simp [hp]
      · simp [hp]
    rw [hp]
    cases hf : t.rows.find? fun p => decide (S.key p = k) with
    | none => rfl
    | some p =>
        have : S.key p = k := get?_key (t := t) hf
        have : S.key p ≠ S.key r := fun he => hk (this ▸ he)
        simp [this]

end Reads

end Table
