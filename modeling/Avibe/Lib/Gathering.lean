import Avibe.Lib.Recency

/-!
# Gathering

An insertion-ordered dictionary that is filled from a list takes each element under its key: the first
one with a key makes the entry, the later ones change it where it stands. What comes out has the keys in
the order of their first places and, under each, the fold of the elements that share it.
-/

namespace Recency

variable {α : Type*} [DecidableEq α]

/-- The elements of the later part that the earlier part has not are appended in their order. -/
theorem unique_append_filter (xs ys : List α) :
    unique (xs ++ ys) = unique xs ++ (unique ys).filter (· ∉ xs) := by
  induction xs with
  | nil => simp [unique]
  | cons a xs ih =>
      rw [List.cons_append, unique, unique, toFront, toFront, ih, List.filter_append, List.filter_filter,
        List.cons_append]
      congr 2
      apply List.filter_congr
      intro b _
      simp

theorem unique_concat (xs : List α) (a : α) :
    unique (xs ++ [a]) = if a ∈ xs then unique xs else unique xs ++ [a] := by
  rw [unique_append_filter]
  by_cases h : a ∈ xs
  · simp [unique, toFront, h]
  · simp [unique, toFront, h]

theorem prefix_unique_append {xs : List α} (h : xs.Nodup) (ys : List α) : xs <+: unique (xs ++ ys) := by
  rw [unique_append_filter, unique_of_nodup h]
  exact List.prefix_append _ _

end Recency

namespace Gathering

open Recency

variable {κ α β γ : Type*}

/-- A dictionary given by a list of keys and the value of each. -/
def tabulate (keys : List κ) (f : κ → Option β) : List (κ × β) :=
  keys.filterMap fun k => (f k).map fun v => (k, v)

theorem map_tabulate (g : β → γ) (keys : List κ) (f : κ → Option β) :
    (tabulate keys f).map (fun e => (e.1, g e.2)) = tabulate keys fun k => (f k).map g := by
  unfold tabulate
  rw [List.map_filterMap]
  apply List.filterMap_congr
  intro k _
  cases h : f k with
  | none => simp [h]
  | some v => simp [h]

theorem mem_tabulate {keys : List κ} {f : κ → Option β} {e : κ × β} :
    e ∈ tabulate keys f ↔ e.1 ∈ keys ∧ f e.1 = some e.2 := by
  unfold tabulate
  rw [List.mem_filterMap]
  constructor
  · rintro ⟨k, hk, hmap⟩
    obtain ⟨v, hv, heq⟩ := Option.map_eq_some_iff.mp hmap
    cases heq
    exact ⟨hk, hv⟩
  · rintro ⟨hk, hv⟩
    exact ⟨e.1, hk, by rw [hv]; rfl⟩

theorem tabulate_keys {keys : List κ} {f : κ → Option β} (h : ∀ k ∈ keys, (f k).isSome) :
    (tabulate keys f).map Prod.fst = keys := by
  induction keys with
  | nil => rfl
  | cons k rest ih =>
      obtain ⟨v, hv⟩ := Option.isSome_iff_exists.mp (h k List.mem_cons_self)
      have hrest := ih fun k hk => h k (List.mem_cons_of_mem _ hk)
      unfold tabulate at hrest ⊢
      rw [List.filterMap_cons, hv]
      exact congrArg (k :: ·) hrest

theorem tabulate_of_entries {d : List (κ × β)} {f : κ → Option β} (h : ∀ e ∈ d, f e.1 = some e.2) :
    tabulate (d.map Prod.fst) f = d := by
  induction d with
  | nil => rfl
  | cons e rest ih =>
      have hrest := ih fun e he => h e (List.mem_cons_of_mem _ he)
      unfold tabulate at hrest ⊢
      rw [List.map_cons, List.filterMap_cons, h e List.mem_cons_self]
      exact congrArg (e :: ·) hrest

variable [DecidableEq κ]

/-- Write a key's value, computed from the one it has. -/
def upsert : List (κ × β) → κ → (Option β → β) → List (κ × β)
  | [], key, write => [(key, write none)]
  | (k, v) :: rest, key, write =>
      if k = key then (k, write (some v)) :: rest else (k, v) :: upsert rest key write

def value (d : List (κ × β)) (key : κ) : Option β := (d.find? (·.1 = key)).map Prod.snd

/-- Take the elements one by one under their keys. -/
def gather (key : α → κ) (write : Option β → α → β) (elements : List α) : List (κ × β) :=
  elements.foldl (fun d a => upsert d (key a) fun held => write held a) []

/-- What the elements of one key make of it. -/
def settled (write : Option β → α → β) (group : List α) : Option β :=
  group.foldl (fun held a => some (write held a)) none

@[simp] theorem settled_nil (write : Option β → α → β) : settled write [] = none := rfl

@[simp] theorem settled_concat (write : Option β → α → β) (group : List α) (a : α) :
    settled write (group ++ [a]) = some (write (settled write group) a) := by
  rw [settled, List.foldl_append]
  rfl

theorem gather_concat (key : α → κ) (write : Option β → α → β) (elements : List α) (a : α) :
    gather key write (elements ++ [a]) =
      upsert (gather key write elements) (key a) fun held => write held a := by
  rw [gather, List.foldl_append]
  rfl

theorem upsert_tabulate {keys : List κ} {f : κ → Option β} (hkeys : keys.Nodup)
    (hf : ∀ k, k ∈ keys ↔ (f k).isSome) (key : κ) (write : Option β → β) :
    upsert (tabulate keys f) key write =
      tabulate (if key ∈ keys then keys else keys ++ [key])
        fun k => if k = key then some (write (f key)) else f k := by
  have hskip : ∀ rest : List κ, key ∉ rest →
      tabulate rest (fun k => if k = key then some (write (f key)) else f k) = tabulate rest f := by
    intro rest hrest
    apply List.filterMap_congr
    intro k hk
    have hne : k ≠ key := fun he => hrest (he ▸ hk)
    simp only [if_neg hne]
  have hsome : ∀ k ∈ keys, (f k).isSome := fun k hk => (hf k).mp hk
  by_cases hmem : key ∈ keys
  · rw [if_pos hmem]
    clear hf
    induction keys with
    | nil => cases hmem
    | cons k rest ih =>
        obtain ⟨v, hv⟩ := Option.isSome_iff_exists.mp (hsome k List.mem_cons_self)
        rw [List.nodup_cons] at hkeys
        have hhead : tabulate (k :: rest) f = (k, v) :: tabulate rest f := by simp [tabulate, hv]
        rw [hhead, upsert]
        by_cases hk : k = key
        · subst hk
          rw [if_pos rfl, ← hskip rest hkeys.1]
          simp [tabulate, hv]
        · have hrest : key ∈ rest := (List.mem_cons.mp hmem).resolve_left (Ne.symm hk)
          rw [if_neg hk, ih hkeys.2 (fun k hk => hsome k (List.mem_cons_of_mem _ hk)) hrest]
          simp [tabulate, hv, hk]
  · have hnone : f key = none := by
      rw [← Option.not_isSome_iff_eq_none, ← hf]
      exact hmem
    rw [if_neg hmem, hnone, show tabulate (keys ++ [key])
      (fun k => if k = key then some (write none) else f k) = tabulate keys f ++ [(key, write none)] by
        rw [← hskip keys hmem, hnone]
        simp [tabulate]]
    clear hf hkeys
    induction keys with
    | nil => rfl
    | cons k rest ih =>
        obtain ⟨v, hv⟩ := Option.isSome_iff_exists.mp (hsome k List.mem_cons_self)
        rw [List.mem_cons, not_or] at hmem
        have hhead : tabulate (k :: rest) f = (k, v) :: tabulate rest f := by simp [tabulate, hv]
        rw [hhead, upsert, if_neg (Ne.symm hmem.1), List.cons_append,
          ih (fun k hk => hsome k (List.mem_cons_of_mem _ hk)) hmem.2]

theorem isSome_settled (write : Option β → α → β) (group : List α) :
    (settled write group).isSome ↔ group ≠ [] := by
  induction group using List.reverseRecOn with
  | nil => simp
  | append_singleton group a _ => simp

/-- What a dictionary filled from a list holds. -/
theorem gather_eq (key : α → κ) (write : Option β → α → β) (elements : List α) :
    gather key write elements =
      tabulate (unique (elements.map key)) fun k => settled write (elements.filter (key · = k)) := by
  induction elements using List.reverseRecOn with
  | nil => rfl
  | append_singleton elements a ih =>
      have hsome : ∀ k, k ∈ unique (elements.map key) ↔
          (settled write (elements.filter (key · = k))).isSome := by
        intro k
        rw [mem_unique, isSome_settled, List.mem_map, ne_eq, List.filter_eq_nil_iff]
        simp
      rw [gather_concat, ih, upsert_tabulate (nodup_unique _) hsome, List.map_append, List.map_singleton,
        unique_concat]
      simp only [mem_unique]
      apply List.filterMap_congr
      intro k _
      by_cases hk : k = key a
      · subst hk
        simp [List.filter_append]
      · simp [List.filter_append, hk, Ne.symm hk]

theorem map_upsert (g : β → γ) (d : List (κ × β)) (key : κ) (write : Option β → β)
    (write' : Option γ → γ) (h : write' ((value d key).map g) = g (write (value d key))) :
    upsert (d.map fun e => (e.1, g e.2)) key write' =
      (upsert d key write).map fun e => (e.1, g e.2) := by
  induction d with
  | nil =>
      have h' : write' none = g (write none) := h
      simp [upsert, h']
  | cons e rest ih =>
      rw [List.map_cons, upsert, upsert]
      by_cases hk : e.1 = key
      · have h' : write' (some (g e.2)) = g (write (some e.2)) := by
          simpa [value, hk] using h
        rw [if_pos hk, if_pos hk, List.map_cons, h']
      · rw [if_neg hk, if_neg hk, List.map_cons, ih]
        simpa [value, hk] using h

theorem value_upsert (d : List (κ × β)) (key : κ) (write : Option β → β) (k : κ) :
    value (upsert d key write) k = if k = key then some (write (value d key)) else value d k := by
  induction d with
  | nil =>
      by_cases hk : k = key
      · simp [upsert, value, hk]
      · simp [upsert, value, hk, Ne.symm hk]
  | cons e rest ih =>
      rw [upsert]
      by_cases he : e.1 = key
      · by_cases hk : k = key
        · simp [value, he, hk]
        · simp [value, he, hk, Ne.symm hk]
      · by_cases hk : e.1 = k
        · have hne : k ≠ key := hk ▸ he
          simp [value, hk, hne]
        · have hother : ∀ rest' : List (κ × β), value ((e.1, e.2) :: rest') k = value rest' k := by
            intro rest'
            simp [value, hk]
          have hhere : value ((e.1, e.2) :: rest) key = value rest key := by
            simp [value, he]
          rw [if_neg he, hother, hother, hhere, ih]

end Gathering
