import Mathlib.Order.Defs.Unbundled

/-!
# Transactions

A transaction reads and writes a store, and may raise. `commit` is its effect on
the store: one that raised is rolled back. `Keeps R m` says that `R` relates the
store before and after every run of `m` that returned, and is proved along the
structure of `m` when `R` is reflexive and transitive.
-/

abbrev Txn (σ ε α : Type) := StateT σ (Except ε) α

namespace Txn

variable {σ ε α β ι : Type}

/-- The store after a transaction. -/
def commit (m : Txn σ ε α) (s : σ) : σ :=
  match m s with
  | .ok (_, s') => s'
  | .error _ => s

/-- The value of a transaction that returned. -/
def value? (m : Txn σ ε α) (s : σ) : Option α :=
  match m s with
  | .ok (a, _) => some a
  | .error _ => none

/-- Raise `e` when `c` holds. -/
def raiseIf (c : Prop) [Decidable c] (e : ε) : Txn σ ε Unit := if c then throw e else pure ()

theorem bind_ok {m : Txn σ ε α} {f : α → Txn σ ε β} {s s' : σ} {b : β}
    (h : (m >>= f) s = .ok (b, s')) : ∃ a t, m s = .ok (a, t) ∧ f a t = .ok (b, s') := by
  change Except.bind (m s) (fun p => f p.1 p.2) = _ at h
  cases hm : m s with
  | error e => simp [hm, Except.bind] at h
  | ok p => exact ⟨p.1, p.2, rfl, by simpa [hm, Except.bind] using h⟩

theorem get_bind_ok {f : σ → Txn σ ε β} {s : σ} {r : Except ε (β × σ)}
    (h : ((get : Txn σ ε σ) >>= f) s = r) : f s s = r := h

theorem pure_ok {a b : α} {s s' : σ} (h : (pure a : Txn σ ε α) s = .ok (b, s')) :
    a = b ∧ s = s' := by
  cases h
  exact ⟨rfl, rfl⟩

theorem set_ok {t s s' : σ} {u : PUnit} (h : (set t : Txn σ ε PUnit) s = .ok (u, s')) :
    t = s' := by
  cases h
  rfl

theorem throw_ok {e : ε} {s : σ} {r : α × σ} : (throw e : Txn σ ε α) s ≠ .ok r := by
  intro h
  cases h

theorem raiseIf_ok {c : Prop} [Decidable c] {e : ε} {s s' : σ} {u : Unit}
    (h : (raiseIf c e : Txn σ ε Unit) s = .ok (u, s')) : ¬ c ∧ s = s' := by
  unfold raiseIf at h
  split at h
  · exact absurd h throw_ok
  · exact ⟨‹_›, (pure_ok h).2⟩

/-- `R` relates the stores before and after. -/
def Keeps (R : σ → σ → Prop) (m : Txn σ ε α) : Prop :=
  ∀ s a s', m s = .ok (a, s') → R s s'

section Keeps

variable {R : σ → σ → Prop}

theorem keeps_throw {e : ε} : Keeps R (throw e : Txn σ ε α) :=
  fun _ _ _ h => absurd h throw_ok

section Refl

variable [Std.Refl R]

theorem keeps_pure (a : α) : Keeps R (pure a : Txn σ ε α) := by
  intro s b s' h
  obtain ⟨-, rfl⟩ := pure_ok h
  exact Std.Refl.refl s

theorem keeps_get : Keeps R (get : Txn σ ε σ) := by
  intro s b s' h
  cases h
  exact Std.Refl.refl s

theorem keeps_raiseIf {c : Prop} [Decidable c] {e : ε} :
    Keeps R (raiseIf c e : Txn σ ε Unit) := by
  intro s u s' h
  obtain ⟨-, rfl⟩ := raiseIf_ok h
  exact Std.Refl.refl s

end Refl

variable [IsTrans σ R]

theorem keeps_bind {m : Txn σ ε α} {f : α → Txn σ ε β} (hm : Keeps R m)
    (hf : ∀ a, Keeps R (f a)) : Keeps R (m >>= f) := by
  intro s b s' h
  obtain ⟨a, t, ha, hb⟩ := bind_ok h
  exact IsTrans.trans s t s' (hm s a t ha) (hf a t b s' hb)

theorem keeps_mapM' [Std.Refl R] {f : ι → Txn σ ε β} (l : List ι)
    (hf : ∀ x ∈ l, Keeps R (f x)) : Keeps R (l.mapM' f) := by
  induction l with
  | nil => exact keeps_pure []
  | cons x l ih =>
      refine keeps_bind (hf x List.mem_cons_self) fun _ => keeps_bind ?_ fun _ => keeps_pure _
      exact ih fun y hy => hf y (List.mem_cons_of_mem _ hy)

end Keeps

end Txn
