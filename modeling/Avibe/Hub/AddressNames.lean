import Avibe.Hub.AddressRepair

/-!
# The rules of one collection

Each collection comes out with the stripped names of what went in, each once. An inventory and a menu
keep the row that was spelled bare, a flat list and the hops of a route keep the first of two that meet.
-/

namespace Avibe.Repair

open Recency Gathering

section Names

variable {addresses : List Text}

/-- What is peeled is a known address and the slash behind it. -/
theorem eq_of_peel {identity remainder : Text} (h : peel addresses identity = some remainder) :
    ∃ address ∈ addresses, identity = address ++ '/' :: remainder := by
  unfold peel at h
  have hspan : identity = (identity.span (· ≠ '/')).1 ++ (identity.span (· ≠ '/')).2 := by
    simp [List.span_eq_takeWhile_dropWhile]
  have hslash : ∀ c rest, (identity.span (· ≠ '/')).2 = c :: rest → c = '/' := by
    intro c rest hcons
    have hhead := List.head?_dropWhile_not (· ≠ '/') identity
    rw [List.span_eq_takeWhile_dropWhile] at hcons
    have hcons' : identity.dropWhile (fun x => decide (x ≠ '/')) = c :: rest := hcons
    rw [hcons'] at hhead
    simpa using hhead
  split at h
  · cases h
  · cases h
  · rename_i address sep rest _ heq
    split at h
    · rename_i hknown
      cases h
      rw [heq] at hspan hslash
      rw [hslash sep remainder rfl] at hspan
      exact ⟨address, hknown, hspan⟩
    · cases h

theorem peel_length {identity remainder : Text} (h : peel addresses identity = some remainder) :
    remainder.length < identity.length := by
  obtain ⟨address, -, rfl⟩ := eq_of_peel h
  simp
  omega

theorem peel_unwrap (fuel : Nat) (identity : Text) (h : identity.length ≤ fuel) :
    peel addresses (unwrap addresses fuel identity) = none := by
  induction fuel generalizing identity with
  | zero =>
      have hnil : identity = [] := List.length_eq_zero_iff.mp (Nat.le_zero.mp h)
      subst hnil
      rfl
  | succ fuel ih =>
      rw [unwrap]
      split
      · assumption
      · rename_i remainder hpeel
        have := peel_length hpeel
        exact ih remainder (by omega)

theorem unwrap_eq_self {fuel : Nat} {identity : Text} (h : peel addresses identity = none) :
    unwrap addresses fuel identity = identity := by
  cases fuel with
  | zero => rfl
  | succ fuel => rw [unwrap, h]

end Names

/-- The name an id has without the known addresses around it. -/
abbrev strip (addresses : List Text) (value : Text) : Text :=
  modelIdWithoutCredentialAddresses value addresses

@[simp] theorem strip_strip (addresses : List Text) (value : Text) :
    strip addresses (strip addresses value) = strip addresses value :=
  unwrap_eq_self (peel_unwrap value.length value le_rfl)

@[simp] theorem strip_nil (value : Text) : strip [] value = value := by
  apply unwrap_eq_self
  unfold peel
  split <;> simp

/-! ## Inventories and menus -/

section Rows

variable {F : Type} {addresses : List Text}

/-- The row's id has no known address around it. -/
def Bare (addresses : List Text) (value : Text) : Prop := strip addresses value = value

instance (value : Text) : Decidable (Bare addresses value) := inferInstanceAs (Decidable (_ = _))

theorem bare_strip (value : Text) : Bare addresses (strip addresses value) := strip_strip _ _

theorem healRows_cons_bare {held moved : List Text} {row : Row F} (rest : List (Row F))
    (h : Bare addresses row.id) :
    healRows addresses held moved (row :: rest) =
      (row :: (healRows addresses held moved rest).1, (healRows addresses held moved rest).2) := by
  have hsame : modelIdWithoutCredentialAddresses row.id addresses = row.id := h
  rw [healRows, if_pos hsame]

theorem healRows_cons_met {held moved : List Text} {row : Row F} (rest : List (Row F))
    (h : ¬ Bare addresses row.id)
    (hmet : strip addresses row.id ∈ held ∨ strip addresses row.id ∈ moved) :
    healRows addresses held moved (row :: rest) =
      ((healRows addresses held moved rest).1, (healRows addresses held moved rest).2 + 1) := by
  have hother : ¬ modelIdWithoutCredentialAddresses row.id addresses = row.id := h
  rw [healRows, if_neg hother, if_pos hmet]

theorem healRows_cons_moved {held moved : List Text} {row : Row F} (rest : List (Row F))
    (h : ¬ Bare addresses row.id)
    (hmet : ¬ (strip addresses row.id ∈ held ∨ strip addresses row.id ∈ moved)) :
    healRows addresses held moved (row :: rest) =
      ({ row with id := strip addresses row.id } ::
          (healRows addresses held (strip addresses row.id :: moved) rest).1,
        (healRows addresses held (strip addresses row.id :: moved) rest).2 + 1) := by
  have hother : ¬ modelIdWithoutCredentialAddresses row.id addresses = row.id := h
  rw [healRows, if_neg hother, if_neg hmet]

theorem healRows_count (held moved : List Text) (rows : List (Row F)) :
    (healRows addresses held moved rows).2 = rows.countP fun row => ¬ Bare addresses row.id := by
  induction rows generalizing moved with
  | nil => rfl
  | cons row rest ih =>
      by_cases h : Bare addresses row.id
      · rw [healRows_cons_bare rest h, List.countP_cons_of_neg (by simpa using h)]
        exact ih moved
      · rw [List.countP_cons_of_pos (by simpa using h)]
        by_cases hmet : strip addresses row.id ∈ held ∨ strip addresses row.id ∈ moved
        · rw [healRows_cons_met rest h hmet]
          exact congrArg (· + 1) (ih moved)
        · rw [healRows_cons_moved rest h hmet]
          exact congrArg (· + 1) (ih _)

/-- A row that comes out was there bare, or carries the stripped id of one that was not. -/
theorem healRows_mem {held moved : List Text} {rows : List (Row F)} {row : Row F}
    (h : row ∈ (healRows addresses held moved rows).1) :
    row ∈ rows ∧ Bare addresses row.id ∨
      row.id ∉ held ∧ row.id ∉ moved ∧
        ∃ old ∈ rows, ¬ Bare addresses old.id ∧ row = { old with id := strip addresses old.id } := by
  induction rows generalizing moved with
  | nil => cases h
  | cons first rest ih =>
      have hlift : ∀ {moved' : List Text}, (∀ i ∈ moved, i ∈ moved') →
          row ∈ (healRows addresses held moved' rest).1 →
          row ∈ first :: rest ∧ Bare addresses row.id ∨ row.id ∉ held ∧ row.id ∉ moved ∧
            ∃ old ∈ first :: rest, ¬ Bare addresses old.id ∧
              row = { old with id := strip addresses old.id } := by
        intro moved' hsub hrow
        rcases ih hrow with ⟨hmem, hbare⟩ | ⟨hheld, hmoved, old, hold, hrest⟩
        · exact .inl ⟨List.mem_cons_of_mem _ hmem, hbare⟩
        · exact .inr ⟨hheld, fun hi => hmoved (hsub _ hi), old, List.mem_cons_of_mem _ hold, hrest⟩
      by_cases hbare : Bare addresses first.id
      · rw [healRows_cons_bare rest hbare] at h
        rcases List.mem_cons.mp h with rfl | hrow
        · exact .inl ⟨List.mem_cons_self, hbare⟩
        · exact hlift (fun _ hi => hi) hrow
      · by_cases hmet : strip addresses first.id ∈ held ∨ strip addresses first.id ∈ moved
        · rw [healRows_cons_met rest hbare hmet] at h
          exact hlift (fun _ hi => hi) h
        · rw [healRows_cons_moved rest hbare hmet] at h
          rcases List.mem_cons.mp h with rfl | hrow
          · rw [not_or] at hmet
            exact .inr ⟨hmet.1, hmet.2, first, List.mem_cons_self, hbare, rfl⟩
          · exact hlift (fun _ hi => List.mem_cons_of_mem _ hi) hrow

theorem healRows_keeps {held moved : List Text} {rows : List (Row F)} {row : Row F} (h : row ∈ rows)
    (hbare : Bare addresses row.id) : row ∈ (healRows addresses held moved rows).1 := by
  induction rows generalizing moved with
  | nil => cases h
  | cons first rest ih =>
      by_cases hfirst : Bare addresses first.id
      · rw [healRows_cons_bare rest hfirst]
        rcases List.mem_cons.mp h with rfl | hrest
        · exact List.mem_cons_self
        · exact List.mem_cons_of_mem _ (ih hrest)
      · have hrest : row ∈ rest := by
          rcases List.mem_cons.mp h with rfl | hrest
          · exact absurd hbare hfirst
          · exact hrest
        by_cases hmet : strip addresses first.id ∈ held ∨ strip addresses first.id ∈ moved
        · rw [healRows_cons_met rest hfirst hmet]
          exact ih hrest
        · rw [healRows_cons_moved rest hfirst hmet]
          exact List.mem_cons_of_mem _ (ih hrest)

/-- No name is lost: it comes out, or it was held or moved before. -/
theorem healRows_covers {held moved : List Text} {rows : List (Row F)} {row : Row F} (h : row ∈ rows) :
    strip addresses row.id ∈ (healRows addresses held moved rows).1.map Row.id ∨
      strip addresses row.id ∈ held ∨ strip addresses row.id ∈ moved := by
  induction rows generalizing moved with
  | nil => cases h
  | cons first rest ih =>
      by_cases hfirst : Bare addresses first.id
      · rw [healRows_cons_bare rest hfirst, List.map_cons, List.mem_cons]
        rcases List.mem_cons.mp h with rfl | hrest
        · exact .inl (.inl hfirst)
        · exact (ih hrest).imp_left .inr
      · by_cases hmet : strip addresses first.id ∈ held ∨ strip addresses first.id ∈ moved
        · rw [healRows_cons_met rest hfirst hmet]
          rcases List.mem_cons.mp h with rfl | hrest
          · exact .inr hmet
          · exact ih hrest
        · rw [healRows_cons_moved rest hfirst hmet, List.map_cons, List.mem_cons]
          rcases List.mem_cons.mp h with rfl | hrest
          · exact .inl (.inl rfl)
          · rcases @ih (strip addresses first.id :: moved) hrest with hout | hheld | hmoved
            · exact .inl (.inr hout)
            · exact .inr (.inl hheld)
            · rcases List.mem_cons.mp hmoved with heq | hmoved
              · exact .inl (.inl heq)
              · exact .inr (.inr hmoved)

theorem healRows_nodup {held moved : List Text} {rows : List (Row F)} (h : (rows.map Row.id).Nodup)
    (hheld : ∀ row ∈ rows, Bare addresses row.id → row.id ∈ held) :
    ((healRows addresses held moved rows).1.map Row.id).Nodup := by
  induction rows generalizing moved with
  | nil => exact List.nodup_nil
  | cons first rest ih =>
      rw [List.map_cons, List.nodup_cons] at h
      have hrest : ∀ row ∈ rest, Bare addresses row.id → row.id ∈ held := fun row hrow =>
        hheld row (List.mem_cons_of_mem _ hrow)
      by_cases hfirst : Bare addresses first.id
      · rw [healRows_cons_bare rest hfirst, List.map_cons, List.nodup_cons]
        refine ⟨fun hmem => ?_, ih h.2 hrest⟩
        obtain ⟨row, hrow, hid⟩ := List.mem_map.mp hmem
        rcases healRows_mem hrow with ⟨hin, -⟩ | ⟨hnot, -⟩
        · exact h.1 (hid ▸ List.mem_map_of_mem hin)
        · exact hnot (hid ▸ hheld first List.mem_cons_self hfirst)
      · by_cases hmet : strip addresses first.id ∈ held ∨ strip addresses first.id ∈ moved
        · rw [healRows_cons_met rest hfirst hmet]
          exact ih h.2 hrest
        · rw [healRows_cons_moved rest hfirst hmet, List.map_cons, List.nodup_cons]
          refine ⟨fun hmem => ?_, ih h.2 hrest⟩
          obtain ⟨row, hrow, hid⟩ := List.mem_map.mp hmem
          rcases healRows_mem hrow with ⟨hin, hbare⟩ | ⟨-, hnot, -⟩
          · have hin := hrest row hin hbare
            rw [hid] at hin
            exact hmet (.inl hin)
          · exact hnot (by rw [hid]; exact List.mem_cons_self)

theorem healedRows_count (rows : List (Row F)) :
    (healedRows addresses rows).2 = rows.countP fun row => ¬ Bare addresses row.id :=
  healRows_count _ _ rows

theorem mem_held {rows : List (Row F)} {row : Row F} (h : row ∈ rows) (hbare : Bare addresses row.id) :
    row.id ∈ (rows.map Row.id).filter fun id => modelIdWithoutCredentialAddresses id addresses = id := by
  rw [List.mem_filter]
  exact ⟨List.mem_map_of_mem h, decide_eq_true hbare⟩

theorem healedRows_nodup {rows : List (Row F)} (h : (rows.map Row.id).Nodup) :
    ((healedRows addresses rows).1.map Row.id).Nodup :=
  healRows_nodup h fun _ hrow hbare => mem_held hrow hbare

theorem healedRows_keeps {rows : List (Row F)} {row : Row F} (h : row ∈ rows)
    (hbare : Bare addresses row.id) : row ∈ (healedRows addresses rows).1 :=
  healRows_keeps h hbare

/-- The rows come out with exactly the stripped ids. -/
theorem healedRows_ids (rows : List (Row F)) (id : Text) :
    id ∈ (healedRows addresses rows).1.map Row.id ↔ id ∈ rows.map fun row => strip addresses row.id := by
  rw [List.mem_map, List.mem_map]
  constructor
  · rintro ⟨row, hrow, rfl⟩
    rcases healRows_mem hrow with ⟨hmem, hbare⟩ | ⟨-, -, old, hold, -, rfl⟩
    · exact ⟨row, hmem, hbare⟩
    · exact ⟨old, hold, rfl⟩
  · rintro ⟨row, hrow, rfl⟩
    rcases healRows_covers hrow with hout | hheld | hmoved
    · exact List.mem_map.mp hout
    · obtain ⟨hid, hbare⟩ := List.mem_filter.mp hheld
      obtain ⟨bare, hmem, heq⟩ := List.mem_map.mp hid
      refine ⟨bare, healRows_keeps hmem ?_, heq⟩
      rw [heq]
      exact of_decide_eq_true hbare
    · cases hmoved

/-- A row that is renamed onto a name keeps the fields of one that had it. -/
theorem healedRows_mem {rows : List (Row F)} {row : Row F} (h : row ∈ (healedRows addresses rows).1) :
    ∃ old ∈ rows, row = { old with id := strip addresses old.id } := by
  rcases healRows_mem h with ⟨hmem, hbare⟩ | ⟨-, -, old, hold, -, heq⟩
  · refine ⟨row, hmem, ?_⟩
    rw [show strip addresses row.id = row.id from hbare]
  · exact ⟨old, hold, heq⟩

theorem healedRows_bare {rows : List (Row F)} {row : Row F} (h : row ∈ (healedRows addresses rows).1) :
    Bare addresses row.id := by
  obtain ⟨old, -, rfl⟩ := healedRows_mem h
  exact bare_strip old.id

theorem healedRows_of_bare {rows : List (Row F)} (h : ∀ row ∈ rows, Bare addresses row.id) :
    healedRows addresses rows = (rows, 0) := by
  unfold healedRows
  generalize (rows.map Row.id).filter _ = held
  induction rows with
  | nil => rfl
  | cons row rest ih =>
      rw [healRows_cons_bare rest (h row List.mem_cons_self),
        ih fun row hrow => h row (List.mem_cons_of_mem _ hrow)]

end Rows

/-! ## Flat lists -/

section Ids

variable {addresses : List Text}

theorem healIds_eq (seen values : List Text) :
    healIds addresses seen values =
      ((unique (values.map (strip addresses))).filter (· ∉ seen),
        values.countP fun value => ¬ Bare addresses value) := by
  induction values generalizing seen with
  | nil => rfl
  | cons value rest ih =>
      have hcount : ∀ count, count + (if strip addresses value ≠ value then 1 else 0) =
          count + if ¬ Bare addresses value then 1 else 0 := fun _ => rfl
      rw [healIds, List.map_cons, unique, toFront, List.countP_cons]
      simp only [ih, decide_eq_true_eq]
      split
      · rename_i hseen
        rw [List.filter_cons_of_neg (by simpa using hseen), List.filter_filter]
        congr 1
        apply List.filter_congr
        intro b _
        by_cases hb : b = strip addresses value
        · simp [hb, hseen]
        · simp [hb]
      · rename_i hseen
        rw [List.filter_cons_of_pos (by simpa using hseen), List.filter_filter]
        congr 2
        apply List.filter_congr
        intro b _
        simp [and_comm]

theorem healedIds_eq (values : List Text) :
    healedIds addresses values =
      (unique (values.map (strip addresses)), values.countP fun value => ¬ Bare addresses value) := by
  rw [healedIds, healIds_eq]
  simp

theorem healedIds_of_bare {values : List Text} (hvalues : values.Nodup)
    (h : ∀ value ∈ values, Bare addresses value) : healedIds addresses values = (values, 0) := by
  have hmap : values.map (strip addresses) = values := by
    conv_rhs => rw [← List.map_id values]
    exact List.map_congr_left h
  rw [healedIds_eq, hmap, unique_of_nodup hvalues, List.countP_eq_zero.mpr]
  intro value hvalue
  simpa using h value hvalue

end Ids

/-! ## Hops -/

section Hops

variable {addresses : List (Text × Text)}

/-- A hop under the name its source's inventory has after the repair. -/
def stripHop (addresses : List (Text × Text)) (hop : Hop) : Hop :=
  match addresses.lookup hop.sourceId with
  | none => hop
  | some pre => { hop with modelId := strip [pre] hop.modelId }

@[simp] theorem stripHop_sourceId (hop : Hop) : (stripHop addresses hop).sourceId = hop.sourceId := by
  unfold stripHop
  split <;> rfl

@[simp] theorem stripHop_stripHop (hop : Hop) :
    stripHop addresses (stripHop addresses hop) = stripHop addresses hop := by
  cases h : addresses.lookup hop.sourceId with
  | none => simp [stripHop, h]
  | some pre => simp [stripHop, h]

theorem healHops_eq {hops : List Hop} (hhops : hops.Nodup) (seen : List (Text × Text)) :
    healHops addresses seen hops =
      ((unique (hops.map (stripHop addresses))).filter fun hop =>
          (addresses.lookup hop.sourceId).isNone ∨ (hop.sourceId, hop.modelId) ∉ seen,
        hops.countP fun hop => stripHop addresses hop ≠ hop) := by
  induction hops generalizing seen with
  | nil => rfl
  | cons hop rest ih =>
      rw [List.nodup_cons] at hhops
      rw [healHops, List.map_cons, unique, toFront, List.countP_cons]
      cases hlookup : addresses.lookup hop.sourceId with
      | none =>
          have hsame : stripHop addresses hop = hop := by simp [stripHop, hlookup]
          have hfresh : hop ∉ unique (rest.map (stripHop addresses)) := by
            rw [mem_unique, List.mem_map]
            rintro ⟨other, hother, heq⟩
            have hsource : other.sourceId = hop.sourceId := by
              rw [← heq, stripHop_sourceId]
            have hother' : stripHop addresses other = other := by simp [stripHop, hsource, hlookup]
            exact hhops.1 (by rwa [← heq, hother'])
          have hkeep : (unique (rest.map (stripHop addresses))).filter (· ≠ hop) =
              unique (rest.map (stripHop addresses)) :=
            List.filter_eq_self.mpr fun b hb => decide_eq_true fun heq => hfresh (heq ▸ hb)
          simp only [ih hhops.2, hsame, hkeep]
          rw [List.filter_cons_of_pos (by simp [hlookup])]
          simp
      | some pre =>
          have hnew : stripHop addresses hop = { hop with modelId := strip [pre] hop.modelId } := by
            simp [stripHop, hlookup]
          have hmoved : modelIdWithoutCredentialAddresses hop.modelId [pre] ≠ hop.modelId ↔
              stripHop addresses hop ≠ hop := by
            rw [hnew]
            cases hop
            simp
          simp only [ih hhops.2, modelIdWithoutCredentialAddress, decide_eq_true_eq]
          split
          · rename_i hseen
            rw [List.filter_cons_of_neg (by simp [hnew, hlookup, hseen]), List.filter_filter]
            refine Prod.ext ?_ (congrArg (_ + ·) (if_congr hmoved rfl rfl))
            apply List.filter_congr
            intro b _
            by_cases hb : b = stripHop addresses hop
            · subst hb
              simp [hnew, hlookup, hseen]
            · simp [hb]
          · rename_i hseen
            rw [List.filter_cons_of_pos (by simp [hnew, hseen]), List.filter_filter]
            refine Prod.ext ?_ (congrArg (_ + ·) (if_congr hmoved rfl rfl))
            rw [hnew]
            dsimp only
            congr 1
            apply List.filter_congr
            intro b _
            cases b
            cases hop
            simp
            grind

theorem healedHops_eq {hops : List Hop} (hhops : hops.Nodup) :
    healedHops addresses hops =
      (unique (hops.map (stripHop addresses)), hops.countP fun hop => stripHop addresses hop ≠ hop) := by
  rw [healedHops, healHops_eq hhops]
  simp

theorem healedHops_of_clean {hops : List Hop} (hhops : hops.Nodup)
    (h : ∀ hop ∈ hops, stripHop addresses hop = hop) : healedHops addresses hops = (hops, 0) := by
  have hmap : hops.map (stripHop addresses) = hops := by
    conv_rhs => rw [← List.map_id hops]
    exact List.map_congr_left h
  rw [healedHops_eq hhops, hmap, unique_of_nodup hhops, List.countP_eq_zero.mpr]
  intro hop hhop
  simpa using h hop hhop

end Hops

end Avibe.Repair
