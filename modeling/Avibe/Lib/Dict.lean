import Mathlib.Data.List.Basic
import Mathlib.Data.Option.Basic

/-!
# Dictionaries

An insertion-ordered dictionary with text keys is the list of its entries. `set` keeps the
place of a key that is there, and `overlay top bottom` is `bottom` updated with all of `top`.
-/

namespace Dict

variable {α : Type}

def get (items : List (String × α)) (key : String) : Option α :=
  (items.find? fun e => e.1 = key).map Prod.snd

def set : List (String × α) → String → α → List (String × α)
  | [], key, value => [(key, value)]
  | (k, v) :: rest, key, value =>
      if k = key then (k, value) :: rest else (k, v) :: set rest key value

def overlay (top bottom : List (String × α)) : List (String × α) :=
  bottom.map (fun e => (e.1, (get top e.1).getD e.2)) ++
    top.filter fun e => (get bottom e.1).isNone

@[simp] theorem get_nil (key : String) : get ([] : List (String × α)) key = none := rfl

theorem get_cons (e : String × α) (rest : List (String × α)) (key : String) :
    get (e :: rest) key = if e.1 = key then some e.2 else get rest key := by
  by_cases h : e.1 = key <;> simp [get, h]

theorem get_mem {items : List (String × α)} {key : String} {value : α}
    (h : get items key = some value) : (key, value) ∈ items := by
  unfold get at h
  obtain ⟨e, he, rfl⟩ := Option.map_eq_some_iff.mp h
  have hkey : e.1 = key := by simpa using List.find?_some he
  rw [← hkey]
  exact List.mem_of_find?_eq_some he

@[simp] theorem get_set (items : List (String × α)) (key : String) (value : α) (k : String) :
    get (set items key value) k = if k = key then some value else get items k := by
  induction items with
  | nil =>
      rw [set, get_cons]
      simp [eq_comm]
  | cons e rest ih =>
      rw [set]
      split
      · rename_i hkey
        rw [get_cons, get_cons]
        by_cases hk : e.1 = k <;> grind
      · rename_i hkey
        rw [get_cons, get_cons, ih]
        by_cases hk : e.1 = k <;> grind

theorem mem_set {items : List (String × α)} {key : String} {value : α} {e : String × α}
    (h : e ∈ set items key value) : e ∈ items ∨ e = (key, value) := by
  induction items with
  | nil =>
      rw [set] at h
      exact .inr (List.mem_singleton.mp h)
  | cons first rest ih =>
      rw [set] at h
      split at h
      · rename_i hkey
        rcases List.mem_cons.mp h with rfl | hrest
        · exact .inr (by rw [hkey])
        · exact .inl (List.mem_cons_of_mem _ hrest)
      · rcases List.mem_cons.mp h with rfl | hrest
        · exact .inl List.mem_cons_self
        · exact (ih hrest).imp (List.mem_cons_of_mem _) id

/-- Setting a key keeps every entry but the one it replaces. -/
theorem mem_set_of_mem {items : List (String × α)} {key : String} (value : α) {e : String × α}
    (h : e ∈ items) : e ∈ set items key value ∨ get items key = some e.2 := by
  induction items with
  | nil => cases h
  | cons first rest ih =>
      rw [set, get_cons]
      split
      · rcases List.mem_cons.mp h with rfl | hrest
        · exact .inr rfl
        · exact .inl (List.mem_cons_of_mem _ hrest)
      · rcases List.mem_cons.mp h with rfl | hrest
        · exact .inl List.mem_cons_self
        · exact (ih hrest).imp_left (List.mem_cons_of_mem _)

theorem mem_set_self (items : List (String × α)) (key : String) (value : α) :
    (key, value) ∈ set items key value :=
  get_mem (by rw [get_set, if_pos rfl])

theorem get_mapped {β : Type} (items : List (String × α)) (f : String → α → β) (key : String) :
    get (items.map fun e => (e.1, f e.1 e.2)) key = (get items key).map (f key) := by
  induction items with
  | nil => rfl
  | cons e rest ih =>
      rw [List.map_cons, get_cons, get_cons, ih]
      by_cases h : e.1 = key <;> simp [h]

theorem get_append (a b : List (String × α)) (key : String) :
    get (a ++ b) key = (get a key).or (get b key) := by
  induction a with
  | nil => simp
  | cons e rest ih =>
      rw [List.cons_append, get_cons, get_cons, ih]
      split <;> simp

theorem get_filter (items : List (String × α)) (keep : String → Bool) (key : String) :
    get (items.filter fun e => keep e.1) key = if keep key then get items key else none := by
  induction items with
  | nil => simp
  | cons e rest ih =>
      rw [get_cons, List.filter_cons]
      by_cases hk : e.1 = key
      · subst hk
        by_cases h : keep e.1 = true <;> simp [h, ih, get_cons]
      · by_cases h : keep e.1 = true <;> simp [h, hk, ih, get_cons]

@[simp] theorem get_overlay (top bottom : List (String × α)) (key : String) :
    get (overlay top bottom) key = (get top key).or (get bottom key) := by
  rw [overlay, get_append, get_mapped bottom fun k v => (get top k).getD v,
    get_filter top fun k => (get bottom k).isNone]
  cases get bottom key <;> cases get top key <;> simp

theorem mem_overlay {top bottom : List (String × α)} {e : String × α} (h : e ∈ overlay top bottom) :
    e ∈ top ∨ e ∈ bottom := by
  rcases List.mem_append.mp h with hmap | hfilter
  · obtain ⟨x, hx, rfl⟩ := List.mem_map.mp hmap
    cases hget : get top x.1 with
    | none => exact .inr hx
    | some v => exact .inl (get_mem hget)
  · exact .inl (List.mem_filter.mp hfilter).1

end Dict
