import Mathlib.Data.Option.Basic

/-!
# Checked computations

Code that validates its input and raises is an `Except` computation made of
`require`, `found` and the operations it calls. A computation that returned is
taken apart with one lemma for each of them.
-/

namespace Checked

variable {ε α β : Type}

/-- Raise `e` unless `p` holds. -/
def require (p : Prop) [Decidable p] (e : ε) : Except ε Unit :=
  if p then .ok () else .error e

/-- The value, or raise `e` when there is none. -/
def found (o : Option α) (e : ε) : Except ε α :=
  match o with
  | some a => .ok a
  | none => .error e

theorem bind_ok {x : Except ε α} {f : α → Except ε β} {r : β} (h : x >>= f = .ok r) :
    ∃ a, x = .ok a ∧ f a = .ok r := by
  cases x with
  | error e => simp [bind, Except.bind] at h
  | ok a => exact ⟨a, rfl, h⟩

/-- Where a computation that raised raised. -/
theorem bind_error {x : Except ε α} {f : α → Except ε β} {e : ε} (h : x >>= f = .error e) :
    x = .error e ∨ ∃ a, x = .ok a ∧ f a = .error e := by
  cases x with
  | error e' =>
      have he : e' = e := by simpa [bind, Except.bind] using h
      exact .inl (by rw [he])
  | ok a => exact .inr ⟨a, rfl, h⟩

theorem require_ok {p : Prop} [Decidable p] {e : ε} {u : Unit}
    (h : require p e = .ok u) : p := by
  unfold require at h
  split at h
  · assumption
  · simp at h

theorem require_bind_ok {p : Prop} [Decidable p] {e : ε} {f : Unit → Except ε β} {r : β}
    (h : require p e >>= f = .ok r) : p ∧ f () = .ok r := by
  obtain ⟨u, hu, hf⟩ := bind_ok h
  exact ⟨require_ok hu, hf⟩

theorem found_ok {o : Option α} {e : ε} {a : α} (h : found o e = .ok a) : o = some a := by
  cases o with
  | none => simp [found] at h
  | some b => simpa [found] using h

theorem pure_ok {a r : α} (h : (pure a : Except ε α) = .ok r) : a = r :=
  Except.ok.inj h

theorem toOption_ok {x : Except ε α} {a : α} (h : x.toOption = some a) : x = .ok a := by
  cases x with
  | error e => simp [Except.toOption] at h
  | ok b => simpa [Except.toOption] using h

theorem isOk_ok {x : Except ε α} (h : x.isOk = true) : ∃ a, x = .ok a := by
  cases x with
  | error e => simp [Except.isOk, Except.toBool] at h
  | ok a => exact ⟨a, rfl⟩

theorem bind_eq_ok {x : Except ε α} {f : α → Except ε β} {a : α} (h : x = .ok a) :
    x >>= f = f a := by
  rw [h]
  rfl

theorem require_eq_ok {p : Prop} [Decidable p] {e : ε} (h : p) : require p e = .ok () :=
  if_pos h

/-- A loop that returned computed a value for each of its elements. -/
theorem mapM'_ok {f : α → Except ε β} {l : List α} {r : List β} (h : l.mapM' f = .ok r)
    {g : α → β} (hg : ∀ a ∈ l, ∀ b, f a = .ok b → g a = b) :
    (∀ a ∈ l, f a = .ok (g a)) ∧ r = l.map g := by
  induction l generalizing r with
  | nil =>
      obtain rfl := pure_ok h
      simp
  | cons a l ih =>
      obtain ⟨b, hb, h⟩ := bind_ok h
      obtain ⟨bs, hbs, h⟩ := bind_ok h
      obtain rfl := pure_ok h
      obtain ⟨hall, rfl⟩ := ih hbs fun a' ha' => hg a' (List.mem_cons_of_mem a ha')
      have ha := hg a List.mem_cons_self b hb
      refine ⟨List.forall_mem_cons.mpr ⟨ha ▸ hb, hall⟩, ?_⟩
      rw [List.map_cons, ha]

/-- A loop returns when each of its elements does. -/
theorem mapM'_ok_iff {f : α → Except ε β} {l : List α} :
    (∃ r, l.mapM' f = .ok r) ↔ ∀ a ∈ l, ∃ b, f a = .ok b := by
  induction l with
  | nil => exact ⟨fun _ _ h => (by cases h), fun _ => ⟨[], rfl⟩⟩
  | cons a l ih =>
      rw [List.forall_mem_cons, ← ih, List.mapM'_cons]
      constructor
      · rintro ⟨r, h⟩
        obtain ⟨b, hb, h⟩ := bind_ok h
        obtain ⟨bs, hbs, -⟩ := bind_ok h
        exact ⟨⟨b, hb⟩, bs, hbs⟩
      · rintro ⟨⟨b, hb⟩, bs, hbs⟩
        rw [bind_eq_ok hb, bind_eq_ok hbs]
        exact ⟨b :: bs, rfl⟩

/-- A loop of checks that returned passed each of them. -/
theorem forM_ok {f : α → Except ε Unit} {l : List α} {u : Unit} (h : l.forM f = .ok u) :
    ∀ a ∈ l, f a = .ok () := by
  induction l with
  | nil => exact fun a ha => by cases ha
  | cons a l ih =>
      change (f a >>= fun _ => l.forM f) = .ok u at h
      obtain ⟨_, ha, h⟩ := bind_ok h
      exact List.forall_mem_cons.mpr ⟨ha, ih h⟩

/-- Each result of a loop is that of one of its elements. -/
theorem mapM'_mem {f : α → Except ε β} {l : List α} {r : List β} (h : l.mapM' f = .ok r) {b : β}
    (hb : b ∈ r) : ∃ a ∈ l, f a = .ok b := by
  induction l generalizing r with
  | nil =>
      obtain rfl := pure_ok h
      cases hb
  | cons a l ih =>
      obtain ⟨c, hc, h⟩ := bind_ok h
      obtain ⟨cs, hcs, h⟩ := bind_ok h
      obtain rfl := pure_ok h
      rcases List.mem_cons.mp hb with rfl | hb
      · exact ⟨a, List.mem_cons_self, hc⟩
      · obtain ⟨a', ha', hfa⟩ := ih hcs hb
        exact ⟨a', List.mem_cons_of_mem _ ha', hfa⟩

theorem mapM'_eq_ok {f : α → Except ε β} {g : α → β} {l : List α}
    (h : ∀ a ∈ l, f a = .ok (g a)) : l.mapM' f = .ok (l.map g) := by
  induction l with
  | nil => rfl
  | cons a l ih =>
      obtain ⟨ha, hl⟩ := List.forall_mem_cons.mp h
      rw [List.mapM'_cons, bind_eq_ok ha, bind_eq_ok (ih hl)]
      rfl

/-! ## Errors of one kind -/

/-- The computation raises only errors of this kind. -/
def Only (p : ε → Prop) (x : Except ε α) : Prop := ∀ e, x = .error e → p e

variable {p : ε → Prop}

@[simp] theorem only_ok {a : α} : Only p (.ok a) := fun _ h => by cases h

@[simp] theorem only_pure {a : α} : Only p (pure a : Except ε α) := fun _ h => by cases h

@[simp] theorem only_error {e : ε} : Only p (.error e : Except ε α) ↔ p e :=
  ⟨fun h => h e rfl, fun h e' he => by
    cases he
    exact h⟩

/-- A sequence raises only such errors when its first part does and, where that returns, the rest. -/
theorem only_bind {x : Except ε α} {f : α → Except ε β} :
    Only p (x >>= f) ↔ Only p x ∧ ∀ a, x = .ok a → Only p (f a) := by
  cases x with
  | error e =>
      refine ⟨fun h => ⟨fun e' he => h e' ?_, fun a ha => by cases ha⟩, fun h e' he => h.1 e' ?_⟩
      · cases he
        rfl
      · cases he
        rfl
  | ok a =>
      refine ⟨fun h => ⟨only_ok, fun b hb => ?_⟩, fun h => h.2 a rfl⟩
      cases hb
      exact h

theorem only_require {c : Prop} [Decidable c] {e : ε} (he : p e) : Only p (require c e) := by
  unfold require
  split
  · exact only_ok
  · exact only_error.mpr he

theorem only_found {o : Option α} {e : ε} (he : p e) : Only p (found o e) := by
  cases o with
  | none => exact only_error.mpr he
  | some a => exact only_ok

theorem only_mapM' {f : α → Except ε β} {l : List α} (h : ∀ a ∈ l, Only p (f a)) :
    Only p (l.mapM' f) := by
  induction l with
  | nil => exact only_pure
  | cons a l ih =>
      obtain ⟨ha, hl⟩ := List.forall_mem_cons.mp h
      rw [List.mapM'_cons, only_bind]
      refine ⟨ha, fun _ _ => ?_⟩
      rw [only_bind]
      exact ⟨ih hl, fun _ _ => only_pure⟩

end Checked
