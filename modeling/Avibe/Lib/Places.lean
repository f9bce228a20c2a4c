import Mathlib.Data.List.Induction
import Mathlib.Data.List.TakeWhile
import Mathlib.Algebra.GroupWithZero.Nat

/-!
# Positional numbers

The places of a number in a base, the highest first: a fixed number of them (`places`) or as
many as it needs (`numeral`), and the number of a list of places (`ofPlaces`).
-/

namespace Places

/-- The last `width` places of a number, the highest first. -/
def places (base : Nat) : Nat → Nat → List Nat
  | 0, _ => []
  | width + 1, n => places base width (n / base) ++ [n % base]

def ofPlaces (base : Nat) (ds : List Nat) : Nat := ds.foldl (fun acc d => acc * base + d) 0

/-- The places without leading zeros; zero is one place. -/
def numeral (base width n : Nat) : List Nat :=
  match (places base width n).dropWhile (· == 0) with
  | [] => [0]
  | ds => ds

@[simp] theorem length_places (base width n : Nat) : (places base width n).length = width := by
  induction width generalizing n with
  | zero => rfl
  | succ width ih => simp [places, ih]

theorem ofPlaces_concat (base : Nat) (ds : List Nat) (d : Nat) :
    ofPlaces base (ds ++ [d]) = ofPlaces base ds * base + d := by
  simp [ofPlaces]

theorem ofPlaces_places {base width n : Nat} (h : n < base ^ width) :
    ofPlaces base (places base width n) = n := by
  induction width generalizing n with
  | zero =>
      rw [Nat.pow_zero] at h
      rw [places, ofPlaces, List.foldl_nil]
      omega
  | succ width ih =>
      rw [Nat.pow_succ] at h
      have hdiv : n / base < base ^ width := Nat.div_lt_of_lt_mul (by rwa [Nat.mul_comm] at h)
      rw [places, ofPlaces_concat, ih hdiv, Nat.mul_comm, Nat.div_add_mod]

theorem mem_places_lt {base width n d : Nat} (hbase : 0 < base) (h : d ∈ places base width n) :
    d < base := by
  induction width generalizing n with
  | zero => cases h
  | succ width ih =>
      rcases List.mem_append.mp h with h | h
      · exact ih h
      · rw [List.mem_singleton.mp h]
        exact Nat.mod_lt n hbase

theorem places_ofPlaces {base : Nat} {ds : List Nat} (h : ∀ d ∈ ds, d < base) :
    places base ds.length (ofPlaces base ds) = ds := by
  induction ds using List.reverseRecOn with
  | nil => rfl
  | append_singleton ds d ih =>
      have hd : d < base := h d (by simp)
      have hdiv : (ofPlaces base ds * base + d) / base = ofPlaces base ds := by
        rw [Nat.mul_comm, Nat.mul_add_div (by omega), Nat.div_eq_of_lt hd, Nat.add_zero]
      have hmod : (ofPlaces base ds * base + d) % base = d := by
        rw [Nat.mul_comm, Nat.mul_add_mod, Nat.mod_eq_of_lt hd]
      rw [List.length_append, List.length_singleton, places, ofPlaces_concat, hdiv, hmod,
        ih fun e he => h e (List.mem_append_left _ he)]

theorem ofPlaces_lt {base : Nat} {ds : List Nat} (h : ∀ d ∈ ds, d < base) :
    ofPlaces base ds < base ^ ds.length := by
  induction ds using List.reverseRecOn with
  | nil => exact Nat.one_pos
  | append_singleton ds d ih =>
      have hd : d < base := h d (by simp)
      have hds := ih fun e he => h e (List.mem_append_left _ he)
      rw [ofPlaces_concat, List.length_append, List.length_singleton, Nat.pow_succ]
      calc ofPlaces base ds * base + d
          < (ofPlaces base ds + 1) * base := by rw [Nat.add_mul, Nat.one_mul]; omega
        _ ≤ base ^ ds.length * base := Nat.mul_le_mul_right base hds

theorem pow_le_ofPlaces {base d : Nat} (hd : 0 < d) (ds : List Nat) :
    base ^ ds.length ≤ ofPlaces base (d :: ds) := by
  induction ds using List.reverseRecOn with
  | nil =>
      rw [List.length_nil, Nat.pow_zero]
      simpa [ofPlaces] using Nat.succ_le_of_lt hd
  | append_singleton ds e ih =>
      rw [List.length_append, List.length_singleton, Nat.pow_succ, ← List.cons_append,
        ofPlaces_concat]
      exact Nat.le_trans (Nat.mul_le_mul_right base ih) (Nat.le_add_right _ _)

/-- The places of a number are those of its high part and those of its low part. -/
theorem places_add (base high low n : Nat) :
    places base (high + low) n = places base high (n / base ^ low) ++ places base low n := by
  induction low generalizing n with
  | zero => simp [places]
  | succ low ih =>
      rw [← Nat.add_assoc, places, ih, places, List.append_assoc, Nat.div_div_eq_div_mul,
        Nat.pow_succ', Nat.mul_comm]

theorem ofPlaces_dropWhile (base : Nat) (ds : List Nat) :
    ofPlaces base (ds.dropWhile (· == 0)) = ofPlaces base ds := by
  induction ds with
  | nil => rfl
  | cons d ds ih =>
      by_cases hd : d = 0
      · rw [List.dropWhile_cons_of_pos (by simp [hd]), ih, hd]
        simp [ofPlaces]
      · rw [List.dropWhile_cons_of_neg (by simpa using hd)]

/-- A list that was mapped is read back element by element. -/
theorem mapM_map {α β : Type} {f : α → β} {g : β → Option α} {l : List α}
    (h : ∀ a ∈ l, g (f a) = some a) : (l.map f).mapM g = some l := by
  induction l with
  | nil => rfl
  | cons a l ih =>
      rw [List.map_cons, List.mapM_cons, h a List.mem_cons_self,
        ih fun b hb => h b (List.mem_cons_of_mem a hb)]
      rfl

section Numeral

variable {base width n : Nat}

theorem ofPlaces_numeral (h : n < base ^ width) : ofPlaces base (numeral base width n) = n := by
  have hvalue := ofPlaces_dropWhile base (places base width n)
  rw [ofPlaces_places h] at hvalue
  unfold numeral
  split
  · rename_i hnil
    rw [hnil] at hvalue
    simpa [ofPlaces] using hvalue
  · exact hvalue

theorem numeral_ne_nil : numeral base width n ≠ [] := by
  unfold numeral
  split
  · simp
  · assumption

theorem mem_numeral_lt (hbase : 0 < base) {d : Nat} (h : d ∈ numeral base width n) : d < base := by
  unfold numeral at h
  split at h
  · rw [List.mem_singleton.mp h]
    exact hbase
  · exact mem_places_lt hbase ((List.dropWhile_sublist _).subset h)

theorem length_numeral_le (hwidth : 0 < width) : (numeral base width n).length ≤ width := by
  unfold numeral
  split
  · exact hwidth
  · calc ((places base width n).dropWhile (· == 0)).length
        ≤ (places base width n).length := (List.dropWhile_sublist _).length_le
      _ = width := length_places base width n

end Numeral

end Places
