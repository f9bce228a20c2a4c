import Avibe.Permissions.Cache

/-!
# What merging keeps

A check that looks at an object field by field holds of a merge when it holds of both
objects, so a merge of two valid projections is valid and has no sensitive key. What the
merge has of the fence, of the access entries and of each project is said here once.
-/

namespace Avibe.Permissions

open Dict

variable {t : Texts} {instanceId : String}

/-! ## Sensitive keys -/

section Clean

variable (t)

/-- No key of the entry or below it is sensitive. -/
def CleanEntry (e : String × Json) : Prop :=
  isSensitive t e.1 = false ∧ stripSensitive t e.2 = e.2

def CleanItems (items : Items) : Prop := ∀ e ∈ items, CleanEntry t e

variable {t}

theorem length_stripItems (items : Items) : (stripItems t items).length ≤ items.length := by
  induction items with
  | nil => simp [stripItems]
  | cons e rest ih =>
      rw [stripItems]
      split
      · exact ih.trans (Nat.le_succ _)
      · simpa using ih

theorem stripItems_eq {items : Items} : stripItems t items = items ↔ CleanItems t items := by
  induction items with
  | nil => simp [stripItems, CleanItems]
  | cons e rest ih =>
      rw [stripItems]
      split
      · rename_i hsensitive
        constructor
        · intro heq
          have hlen := length_stripItems (t := t) rest
          rw [heq, List.length_cons] at hlen
          omega
        · intro hclean
          have hfirst := (hclean e List.mem_cons_self).1
          rw [hsensitive] at hfirst
          cases hfirst
      · rename_i hplain
        rw [Bool.not_eq_true] at hplain
        constructor
        · intro heq
          rw [List.cons_eq_cons] at heq
          have hvalue : stripSensitive t e.2 = e.2 := congrArg Prod.snd heq.1
          intro x hx
          rcases List.mem_cons.mp hx with rfl | hrest
          · exact ⟨hplain, hvalue⟩
          · exact ih.mp heq.2 x hrest
        · intro hclean
          rw [(hclean e List.mem_cons_self).2, ih.mpr fun x hx => hclean x (List.mem_cons_of_mem _ hx)]

theorem stripSensitive_obj {items : Items} :
    stripSensitive t (.obj items) = .obj items ↔ CleanItems t items := by
  rw [stripSensitive, Json.obj.injEq, stripItems_eq]

theorem stripList_eq {values : List Json} :
    stripList t values = values ↔ ∀ value ∈ values, stripSensitive t value = value := by
  induction values with
  | nil => simp [stripList]
  | cons value rest ih => simp [stripList, ih]

theorem stripSensitive_list {values : List Json} :
    stripSensitive t (.list values) = .list values ↔
      ∀ value ∈ values, stripSensitive t value = value := by
  rw [stripSensitive, Json.list.injEq, stripList_eq]

theorem CleanItems.get {items : Items} (h : CleanItems t items) {key : String} {value : Json}
    (hget : get items key = some value) : stripSensitive t value = value :=
  (h _ (get_mem hget)).2

/-- A key that is there is not sensitive. -/
theorem CleanItems.key {items : Items} (h : CleanItems t items) {key : String} {value : Json}
    (hget : Dict.get items key = some value) : isSensitive t key = false :=
  (h _ (get_mem hget)).1

theorem CleanItems.set {items : Items} (h : CleanItems t items) {key : String} {value : Json}
    (hkey : isSensitive t key = false) (hvalue : stripSensitive t value = value) :
    CleanItems t (set items key value) := by
  intro e he
  rcases mem_set he with hmem | rfl
  · exact h e hmem
  · exact ⟨hkey, hvalue⟩

mutual

theorem clean_mergeValue : ∀ (value : Json) (other : Option Json), stripSensitive t value = value →
    (∀ w, other = some w → stripSensitive t w = w) →
    stripSensitive t (mergeValue value other) = mergeValue value other
  | .obj a, some (.obj b), ha, hb => by
      rw [mergeValue, stripSensitive_obj]
      have hbottom := stripSensitive_obj.mp (hb _ rfl)
      have hmerged := clean_mergeItems a b (stripSensitive_obj.mp ha) hbottom
      intro e he
      rcases mem_overlay he with htop | hlow
      · exact hmerged e htop
      · exact hbottom e hlow
  | .obj a, none, ha, _ => by simpa [mergeValue] using ha
  | .obj a, some .null, ha, _ => by simpa [mergeValue] using ha
  | .obj a, some (.bool _), ha, _ => by simpa [mergeValue] using ha
  | .obj a, some (.int _), ha, _ => by simpa [mergeValue] using ha
  | .obj a, some (.float _), ha, _ => by simpa [mergeValue] using ha
  | .obj a, some (.str _), ha, _ => by simpa [mergeValue] using ha
  | .obj a, some (.list _), ha, _ => by simpa [mergeValue] using ha
  | .null, _, ha, _ => by simpa [mergeValue] using ha
  | .bool _, _, ha, _ => by simpa [mergeValue] using ha
  | .int _, _, ha, _ => by simpa [mergeValue] using ha
  | .float _, _, ha, _ => by simpa [mergeValue] using ha
  | .str _, _, ha, _ => by simpa [mergeValue] using ha
  | .list _, _, ha, _ => by simpa [mergeValue] using ha

theorem clean_mergeItems : ∀ (a b : Items), CleanItems t a → CleanItems t b →
    CleanItems t (mergeItems a b)
  | [], _, _, _ => by
      intro e he
      simp [mergeItems] at he
  | (key, value) :: rest, b, ha, hb => by
      intro e he
      rw [mergeItems] at he
      rcases List.mem_cons.mp he with rfl | hrest
      · have hfirst := ha (key, value) List.mem_cons_self
        exact ⟨hfirst.1, clean_mergeValue value _ hfirst.2 fun w hw => hb.get hw⟩
      · exact clean_mergeItems rest b (fun x hx => ha x (List.mem_cons_of_mem _ hx)) hb e hrest

end

theorem CleanItems.prefer {a b : Items} (ha : CleanItems t a) (hb : CleanItems t b) :
    CleanItems t (prefer a b) := by
  intro e he
  rcases mem_overlay he with htop | hlow
  · exact clean_mergeItems a b ha hb e htop
  · exact hb e hlow

theorem CleanItems.inner {items : Items} (h : CleanItems t items) (key : String) :
    CleanItems t (inner items key) := by
  unfold Permissions.inner
  split
  · rename_i value hget
    exact stripSensitive_obj.mp (h.get hget)
  · intro e he
    cases he

end Clean

/-! ## Checks -/

/-- The check holds of a merge when it holds of both values. -/
def Closed (check : Json → Bool) : Prop :=
  ∀ v w, check v = true → check w = true → check (mergeValue v (some w)) = true

theorem closed_leaf {check : Json → Bool} (h : ∀ items, check (.obj items) = false) :
    Closed check := by
  intro v w hv _
  rw [mergeValue_of_ne fun items heq => ?_]
  · exact hv
  · rw [heq, h items] at hv
    cases hv

theorem checkFields_get {fields : List Field} {items : Items} :
    checkFields fields items = true ↔ ∀ f ∈ fields,
      (get items f.key = none → f.required = false) ∧
      ∀ value, get items f.key = some value → f.check value = true := by
  unfold checkFields
  rw [List.all_eq_true]
  refine forall_congr' fun f => imp_congr_right fun _ => ?_
  cases get items f.key with
  | none => simp
  | some value => simp

/-- A check field by field holds of a merge when it holds of both objects. -/
theorem checkFields_prefer {fields : List Field} (hclosed : ∀ f ∈ fields, Closed f.check)
    {a b : Items} (ha : checkFields fields a = true) (hb : checkFields fields b = true) :
    checkFields fields (prefer a b) = true := by
  rw [checkFields_get] at ha hb ⊢
  intro f hf
  obtain ⟨hnone, hsome⟩ := ha f hf
  obtain ⟨-, hsome'⟩ := hb f hf
  rw [get_prefer]
  cases hget : get a f.key with
  | none =>
      refine ⟨fun _ => hnone hget, fun value hvalue => ?_⟩
      exact hsome' value (by simpa using hvalue)
  | some v =>
      refine ⟨fun h => (by simp at h), fun value hvalue => ?_⟩
      have hmerged : mergeValue v (get b f.key) = value := by simpa using hvalue
      rw [← hmerged]
      cases hother : get b f.key with
      | none =>
          have hkeep : mergeValue v none = v := by cases v <;> simp [mergeValue]
          rw [hkeep]
          exact hsome v hget
      | some w => exact hclosed f hf v w (hsome v hget) (hsome' w hother)

theorem closed_object {fields : List Field} (hclosed : ∀ f ∈ fields, Closed f.check) :
    Closed (object fields) := by
  intro v w hv hw
  cases v with
  | obj a =>
      cases w with
      | obj b =>
          rw [mergeValue_obj]
          exact checkFields_prefer hclosed hv hw
      | _ => cases hw
  | _ => cases hv

theorem closed_nullable {check : Json → Bool} (hclosed : Closed check) :
    Closed (nullable check) := by
  intro v w hv hw
  cases v with
  | obj a =>
      cases w with
      | null => simpa [mergeValue] using hv
      | _ => exact hclosed _ _ hv hw
  | _ => simpa [mergeValue] using hv

/-- A value that passes the check of its field may be set. -/
theorem checkFields_set {fields : List Field} (hkeys : (fields.map Field.key).Nodup) {items : Items}
    (h : checkFields fields items = true) {f : Field} (hf : f ∈ fields) (value : Json)
    (hvalue : f.check value = true) : checkFields fields (set items f.key value) = true := by
  rw [checkFields_get] at h ⊢
  intro g hg
  rw [get_set]
  split
  · rename_i hkey
    refine ⟨fun hnone => (by cases hnone), fun v hv => ?_⟩
    cases hv
    rw [List.inj_on_of_nodup_map hkeys hg hf hkey]
    exact hvalue
  · exact h g hg

theorem closed_projectAccess : Closed (projectAccess t) := by
  apply closed_object
  intro f hf
  simp only [List.mem_cons, List.not_mem_nil, or_false] at hf
  rcases hf with rfl | rfl | rfl <;> exact closed_leaf fun _ => rfl

theorem closed_projectSync : Closed projectSync := by
  apply closed_object
  intro f hf
  simp only [List.mem_cons, List.not_mem_nil, or_false] at hf
  rcases hf with rfl | rfl | rfl | rfl | rfl <;> exact closed_leaf fun _ => rfl

theorem closed_validateProject : Closed (validateProject t) := by
  apply closed_object
  intro f hf
  simp only [List.mem_cons, List.not_mem_nil, or_false] at hf
  rcases hf with rfl | rfl | rfl | rfl | rfl
  · exact closed_leaf fun _ => rfl
  · exact closed_leaf fun _ => rfl
  · exact closed_leaf fun _ => rfl
  · exact closed_projectAccess
  · exact closed_projectSync

theorem closed_validateSyncCounts : Closed validateSyncCounts := by
  apply closed_object
  intro f hf
  obtain ⟨key, -, rfl⟩ := List.mem_map.mp hf
  exact closed_leaf fun _ => rfl

theorem closed_policySyncFields : ∀ f ∈ policySyncFields, Closed f.check := by
  intro f hf
  simp only [policySyncFields, List.mem_cons, List.not_mem_nil, or_false] at hf
  rcases hf with rfl | rfl | rfl
  · exact closed_leaf fun _ => rfl
  · exact closed_validateSyncCounts
  · exact closed_validateSyncCounts

theorem closed_accessFields : ∀ f ∈ accessFields t, Closed f.check := by
  intro f hf
  simp only [accessFields, List.mem_cons, List.not_mem_nil, or_false] at hf
  rcases hf with rfl | rfl
  · apply closed_object
    intro f hf
    simp only [List.mem_cons, List.not_mem_nil, or_false] at hf
    rcases hf with rfl | rfl <;> exact closed_leaf fun _ => rfl
  · exact closed_leaf fun _ => rfl

theorem closed_instanceFields : ∀ f ∈ instanceFields t instanceId, Closed f.check := by
  intro f hf
  simp only [instanceFields, List.mem_cons, List.not_mem_nil, or_false] at hf
  rcases hf with rfl | rfl | rfl | rfl | rfl | rfl | rfl | rfl
  case inr.inr.inr.inr.inr.inr.inr =>
    apply closed_nullable
    apply closed_object
    intro f hf
    simp only [List.mem_cons, List.not_mem_nil, or_false] at hf
    rcases hf with rfl | rfl <;> exact closed_leaf fun _ => rfl
  all_goals exact closed_leaf fun _ => rfl

theorem closed_projectionFields : ∀ f ∈ projectionFields t instanceId, Closed f.check := by
  intro f hf
  simp only [projectionFields, List.mem_cons, List.not_mem_nil, or_false] at hf
  rcases hf with rfl | rfl | rfl | rfl | rfl | rfl | rfl
  · exact closed_leaf fun _ => rfl
  · exact closed_object closed_instanceFields
  · exact closed_leaf fun _ => rfl
  · exact closed_object closed_accessFields
  · apply closed_object
    intro f hf
    simp only [List.mem_cons, List.not_mem_nil, or_false] at hf
    rcases hf with rfl | rfl <;> exact closed_leaf fun _ => rfl
  · exact closed_leaf fun _ => rfl
  · exact closed_object closed_policySyncFields

/-! ## Valid projections -/

variable (t instanceId) in
/-- A projection as `_validated_projection` returns it. -/
structure Valid (projection : Items) : Prop where
  clean : CleanItems t projection
  checked : checkFields (projectionFields t instanceId) projection = true

theorem Valid.validated {projection : Items} (h : Valid t instanceId projection) :
    validatedProjection t projection instanceId = some projection := by
  unfold validatedProjection
  dsimp only
  rw [stripItems_eq.mpr h.clean, if_pos h.checked]

/-- A required field that is checked as an object is one. -/
theorem get_of_checked {fields : List Field} {items : Items} (h : checkFields fields items = true)
    {f : Field} (hf : f ∈ fields) (hrequired : f.required = true) :
    ∃ value, get items f.key = some value ∧ f.check value = true := by
  obtain ⟨hnone, hsome⟩ := checkFields_get.mp h f hf
  cases hget : get items f.key with
  | none =>
      rw [hrequired] at hnone
      cases hnone hget
  | some value => exact ⟨value, rfl, hsome value hget⟩

theorem object_ok {fields : List Field} {value : Json} (h : object fields value = true) :
    ∃ items, value = .obj items ∧ checkFields fields items = true := by
  cases value with
  | obj items => exact ⟨items, rfl, h⟩
  | _ => cases h

theorem listOf_ok {check : List Json → Bool} {value : Json} (h : listOf check value = true) :
    ∃ values, value = .list values ∧ check values = true := by
  cases value with
  | list values => exact ⟨values, rfl, h⟩
  | _ => cases h

theorem isNonnegative_ok {value : Json} (h : isNonnegative value = true) :
    ∃ n : Nat, value = .int n := by
  cases value with
  | int n =>
      have hn : 0 ≤ n := by simpa [isNonnegative] using h
      exact ⟨n.toNat, by rw [Int.toNat_of_nonneg hn]⟩
  | _ => cases h

section ValidParts

variable {projection : Items} (h : Valid t instanceId projection)
include h

/-- A part of the projection that is checked as an object. -/
theorem Valid.part {key : String} {fields : List Field}
    (hf : required key (object fields) ∈ projectionFields t instanceId) :
    get projection key = some (.obj (inner projection key)) ∧
      checkFields fields (inner projection key) = true := by
  obtain ⟨value, hget, hcheck⟩ := get_of_checked h.checked hf rfl
  obtain ⟨items, rfl, hitems⟩ := object_ok hcheck
  have hget' : get projection key = some (.obj items) := hget
  have hinner : inner projection key = items := by
    unfold inner
    rw [hget']
  rw [hinner]
  exact ⟨hget', hitems⟩

theorem Valid.instance : get projection "instance" = some (.obj (inner projection "instance")) ∧
    checkFields (instanceFields t instanceId) (inner projection "instance") = true :=
  h.part (by simp [projectionFields])

theorem Valid.access : get projection "access" = some (.obj (inner projection "access")) ∧
    checkFields (accessFields t) (inner projection "access") = true :=
  h.part (by simp [projectionFields])

theorem Valid.policySync :
    get projection "policy_sync" = some (.obj (inner projection "policy_sync")) ∧
      checkFields policySyncFields (inner projection "policy_sync") = true :=
  h.part (by simp [projectionFields])

theorem Valid.revision : get (inner projection "instance") "authorization_revision" =
    some (.int (authorizationRevision projection)) := by
  obtain ⟨value, hget, hcheck⟩ := get_of_checked h.instance.2
    (f := required "authorization_revision" isNonnegative) (by simp [instanceFields]) rfl
  obtain ⟨n, rfl⟩ := isNonnegative_ok hcheck
  have hget' : get (inner projection "instance") "authorization_revision" = some (.int n) := hget
  have hn : authorizationRevision projection = n := by
    unfold authorizationRevision natAt
    rw [hget']
    rfl
  rw [hget', hn]

theorem Valid.entries : get (inner projection "access") "entries" =
    some (.list (entriesOf projection)) ∧ validAccessEntries t (entriesOf projection) = true := by
  obtain ⟨value, hget, hcheck⟩ := get_of_checked h.access.2
    (f := required "entries" (listOf (validAccessEntries t))) (by simp [accessFields]) rfl
  obtain ⟨values, rfl, hvalues⟩ := listOf_ok hcheck
  have hget' : get (inner projection "access") "entries" = some (.list values) := hget
  have hn : entriesOf projection = values := by
    unfold entriesOf listAt
    rw [hget']
  rw [hget', hn]
  exact ⟨rfl, hvalues⟩

end ValidParts

theorem Valid.prefer {a b : Items} (ha : Valid t instanceId a) (hb : Valid t instanceId b) :
    Valid t instanceId (prefer a b) :=
  ⟨ha.clean.prefer hb.clean, checkFields_prefer closed_projectionFields ha.checked hb.checked⟩

/-! ## Projects -/

variable (t) in
/-- A project as `_validate_project` passes it. -/
structure ValidProject (project : Items) : Prop where
  clean : CleanItems t project
  checked : validateProject t (.obj project) = true

variable (t) in
structure ValidProjects (projects : List Items) : Prop where
  each : ∀ project ∈ projects, ValidProject t project
  distinct : (projects.map projectId).Nodup

/-- What the cache has of the access of a project: its revision, its mode and its bindings. -/
def accessOf (project : Items) : Nat × Option Json × Option Json :=
  (accessRevision project, get (inner project "access") "mode",
    get (inner project "access") "bindings")

theorem ValidProject.prefer {p q : Items} (hp : ValidProject t p) (hq : ValidProject t q) :
    ValidProject t (prefer p q) := by
  refine ⟨hp.clean.prefer hq.clean, ?_⟩
  rw [← mergeValue_obj]
  exact closed_validateProject _ _ hp.checked hq.checked

theorem ValidProject.id {p : Items} (h : ValidProject t p) :
    ∃ id, get p "project_id" = some (.str id) ∧ projectId p = some id := by
  obtain ⟨value, hget, hcheck⟩ := @get_of_checked _ p h.checked
    (required "project_id" isValidProjectId) (by simp) rfl
  have hget' : get p "project_id" = some value := hget
  cases value with
  | str id => exact ⟨id, hget', by rw [projectId, hget']; rfl⟩
  | _ => cases hcheck

theorem ValidProject.access {p : Items} (h : ValidProject t p) :
    get p "access" = some (.obj (inner p "access")) ∧
      projectAccess t (.obj (inner p "access")) = true := by
  obtain ⟨value, hget, hcheck⟩ := @get_of_checked _ p h.checked
    (required "access" (projectAccess t)) (by simp) rfl
  obtain ⟨items, rfl, -⟩ := object_ok hcheck
  have hget' : get p "access" = some (.obj items) := hget
  have hinner : inner p "access" = items := by
    unfold inner
    rw [hget']
  rw [hinner]
  exact ⟨hget', hcheck⟩

theorem ValidProject.sync {p : Items} (h : ValidProject t p) :
    get p "sync" = some (.obj (inner p "sync")) ∧ projectSync (.obj (inner p "sync")) = true := by
  obtain ⟨value, hget, hcheck⟩ := @get_of_checked _ p h.checked
    (required "sync" projectSync) (by simp) rfl
  obtain ⟨items, rfl, -⟩ := object_ok hcheck
  have hget' : get p "sync" = some (.obj items) := hget
  have hinner : inner p "sync" = items := by
    unfold inner
    rw [hget']
  rw [hinner]
  exact ⟨hget', hcheck⟩

theorem get_prefer_leaf {a b : Items} {key : String} {value : Json} (h : get a key = some value)
    (hleaf : ∀ items, value ≠ .obj items) : get (prefer a b) key = some value := by
  rw [get_prefer, h]
  simp [mergeValue_of_ne hleaf]

theorem projectId_prefer {p q : Items} (hp : ValidProject t p) :
    projectId (prefer p q) = projectId p := by
  obtain ⟨id, hget, -⟩ := hp.id
  rw [projectId, projectId, hget, get_prefer_leaf hget (by simp)]

/-- Merging keeps the access of the preferred project. -/
theorem accessOf_prefer {p q : Items} (hp : ValidProject t p) (hq : ValidProject t q) :
    accessOf (prefer p q) = accessOf p := by
  obtain ⟨hget, hcheck⟩ := hp.access
  obtain ⟨hget', -⟩ := hq.access
  have hinner : inner (prefer p q) "access" = prefer (inner p "access") (inner q "access") := by
    have hmerged : get (prefer p q) "access" =
        some (.obj (prefer (inner p "access") (inner q "access"))) := by
      rw [get_prefer, hget, hget', ← mergeValue_obj]
      rfl
    rw [inner, hmerged]
  have hleaf : ∀ key, (∃ check, required key check ∈ [required "mode"
      (isEnum ["inherit", "restricted"]), required "revision" isNonnegative,
      required "bindings" (listOf (validBindings t))] ∧ ∀ items, check (.obj items) = false) →
      get (prefer (inner p "access") (inner q "access")) key = get (inner p "access") key := by
    rintro key ⟨check, hmem, hno⟩
    obtain ⟨value, hvalue, hok⟩ := @get_of_checked _ (inner p "access") hcheck _ hmem rfl
    have hvalue' : get (inner p "access") key = some value := hvalue
    rw [hvalue', get_prefer_leaf hvalue']
    rintro items rfl
    exact absurd (hno items) (by simpa [required] using hok)
  have hmode := hleaf "mode" ⟨isEnum ["inherit", "restricted"], by simp, fun _ => rfl⟩
  have hrevision := hleaf "revision" ⟨isNonnegative, by simp, fun _ => rfl⟩
  have hbindings := hleaf "bindings" ⟨listOf (validBindings t), by simp, fun _ => rfl⟩
  unfold accessOf accessRevision natAt
  rw [hinner, hmode, hrevision, hbindings]

theorem inner_set (items : Items) (key other : String) (value : Json) (h : other ≠ key) :
    inner (set items key value) other = inner items other := by
  unfold inner
  rw [get_set, if_neg h]

@[simp] theorem inner_set_same (items value : Items) (key : String) :
    inner (set items key (.obj value)) key = value := by
  unfold inner
  rw [get_set, if_pos rfl]

theorem projectId_set {p : Items} {key : String} (value : Json) (h : "project_id" ≠ key) :
    projectId (set p key value) = projectId p := by
  rw [projectId, projectId, get_set, if_neg h]

theorem accessOf_set {p : Items} {key : String} (value : Json) (h : "access" ≠ key) :
    accessOf (set p key value) = accessOf p := by
  unfold accessOf accessRevision
  rw [inner_set p key "access" value h]

/-- The acknowledged project, or the cached one where that has the newer access. -/
theorem mergeAcknowledgement_spec {p q : Items} (hp : ValidProject t p) (hq : ValidProject t q)
    (hid : projectId p = projectId q) :
    ValidProject t (mergeAcknowledgement p q) ∧
      projectId (mergeAcknowledgement p q) = projectId p ∧
      accessOf (mergeAcknowledgement p q) =
        if accessRevision p < accessRevision q then accessOf q else accessOf p := by
  unfold mergeAcknowledgement
  split
  · exact ⟨hq.prefer hp, (projectId_prefer hq).trans hid.symm, accessOf_prefer hq hp⟩
  · exact ⟨hp.prefer hq, projectId_prefer hp, accessOf_prefer hp hq⟩

theorem projectNamed_some {projects : List Items} {id : Option String} {p : Items}
    (h : projectNamed projects id = some p) : p ∈ projects ∧ projectId p = id :=
  ⟨List.mem_of_find?_eq_some h, by simpa using List.find?_some h⟩

theorem projectNamed_none {projects : List Items} {id : Option String}
    (h : projectNamed projects id = none) : ∀ p ∈ projects, projectId p ≠ id := by
  intro p hp
  simpa using List.find?_eq_none.mp h p hp

/-- A project of its own list is the one named by its id. -/
theorem projectNamed_self {projects : List Items} (h : (projects.map projectId).Nodup) {p : Items}
    (hp : p ∈ projects) : projectNamed projects (projectId p) = some p := by
  cases hnamed : projectNamed projects (projectId p) with
  | none => exact absurd rfl (projectNamed_none hnamed p hp)
  | some q =>
      obtain ⟨hq, hid⟩ := projectNamed_some hnamed
      rw [List.inj_on_of_nodup_map h hq hp hid]

theorem rebaseProject_spec {cached : List Items} {p : Items} (hp : ValidProject t p)
    (hcached : ∀ q ∈ cached, ValidProject t q)
    (hold : ∀ q ∈ cached, projectId q = projectId p → accessRevision q ≤ accessRevision p) :
    ValidProject t (rebaseProject cached p) ∧ projectId (rebaseProject cached p) = projectId p ∧
      accessOf (rebaseProject cached p) = accessOf p := by
  unfold rebaseProject
  cases hnamed : projectNamed cached (projectId p) with
  | none => exact ⟨hp, rfl, rfl⟩
  | some q =>
      obtain ⟨hq, hid⟩ := projectNamed_some hnamed
      obtain ⟨hvalid, hid', haccess⟩ := mergeAcknowledgement_spec hp (hcached q hq) hid.symm
      rw [if_neg (not_lt.mpr (hold q hq hid))] at haccess
      have hsync : projectSync (.obj (prefer (inner q "sync") (inner p "sync"))) = true := by
        rw [← mergeValue_obj]
        exact closed_projectSync _ _ (hcached q hq).sync.2 hp.sync.2
      refine ⟨⟨hvalid.clean.set (hp.clean.key hp.sync.1) (stripSensitive_obj.mpr
        (((hcached q hq).clean.inner "sync").prefer (hp.clean.inner "sync"))), ?_⟩, ?_, ?_⟩
      · refine @checkFields_set _ ?_ _ hvalid.checked (required "sync" projectSync) (by simp) _ hsync
        change ["project_id", "organization_id", "display_name", "access", "sync"].Nodup
        decide
      · exact (projectId_set _ (by decide)).trans hid'
      · exact (accessOf_set _ (by decide)).trans haccess

/-- The id and the access of each project. -/
def summaries (projects : List Items) : List (Option String × Nat × Option Json × Option Json) :=
  projects.map fun p => (projectId p, accessOf p)

theorem ids_of_summaries {ps qs : List Items} (h : summaries ps = summaries qs) :
    ps.map projectId = qs.map projectId := by
  have hids := congrArg (List.map Prod.fst) h
  simpa [summaries, List.map_map, Function.comp_def] using hids

theorem summaries_map {ps : List Items} {f : Items → Items}
    (h : ∀ p ∈ ps, projectId (f p) = projectId p ∧ accessOf (f p) = accessOf p) :
    summaries (ps.map f) = summaries ps := by
  unfold summaries
  rw [List.map_map]
  refine List.map_congr_left fun p hp => ?_
  obtain ⟨hid, haccess⟩ := h p hp
  simp [hid, haccess]

/-- A project takes what the other list has under its id. -/
theorem mergeProjects_eq (preferred fallback : List Items) :
    mergeProjects preferred fallback =
      preferred.map fun p => (projectNamed fallback (projectId p)).elim p (prefer p) := by
  unfold mergeProjects
  refine List.map_congr_left fun p _ => ?_
  cases projectNamed fallback (projectId p) with
  | none => rfl
  | some other => rfl

theorem mergeProjects_spec {preferred fallback : List Items} (hp : ValidProjects t preferred)
    (hf : ValidProjects t fallback) :
    ValidProjects t (mergeProjects preferred fallback) ∧
      summaries (mergeProjects preferred fallback) = summaries preferred := by
  have hone : ∀ p ∈ preferred,
      ValidProject t ((projectNamed fallback (projectId p)).elim p (prefer p)) ∧
      projectId ((projectNamed fallback (projectId p)).elim p (prefer p)) = projectId p ∧
      accessOf ((projectNamed fallback (projectId p)).elim p (prefer p)) = accessOf p := by
    intro p hmem
    have hvalid := hp.each p hmem
    cases hnamed : projectNamed fallback (projectId p) with
    | none => exact ⟨hvalid, rfl, rfl⟩
    | some q =>
        have hq := hf.each q (projectNamed_some hnamed).1
        exact ⟨hvalid.prefer hq, projectId_prefer hvalid, accessOf_prefer hvalid hq⟩
  rw [mergeProjects_eq]
  have hsum := summaries_map fun p hmem => (hone p hmem).2
  refine ⟨⟨fun r hr => ?_, ?_⟩, hsum⟩
  · obtain ⟨p, hmem, rfl⟩ := List.mem_map.mp hr
    exact (hone p hmem).1
  · rw [ids_of_summaries hsum]
    exact hp.distinct

/-- The list with an acknowledged project: its access replaces the cached one unless that is newer. -/
theorem replaceProject_spec {projects : List Items} {update : Items} (hp : ValidProjects t projects)
    (hu : ValidProject t update) :
    ValidProjects t (replaceProject projects update) ∧
      (∀ q ∈ replaceProject projects update, projectId q ≠ projectId update → q ∈ projects) ∧
      (∀ q ∈ projects, projectId q ≠ projectId update → q ∈ replaceProject projects update) ∧
      (∃ q ∈ replaceProject projects update, projectId q = projectId update) ∧
      ∀ q ∈ replaceProject projects update, projectId q = projectId update →
        accessOf q = match projectNamed projects (projectId update) with
          | some old => if accessRevision update < accessRevision old then accessOf old
              else accessOf update
          | none => accessOf update := by
  unfold replaceProject
  dsimp only
  cases hnamed : projectNamed projects (projectId update) with
  | some old =>
      obtain ⟨hold, hid⟩ := projectNamed_some hnamed
      obtain ⟨hvalid, hid', haccess⟩ := mergeAcknowledgement_spec hu (hp.each old hold) hid.symm
      dsimp only
      have hany : ((projects.map fun current => if projectId current = projectId update then
          mergeAcknowledgement update old else current).any fun current =>
            projectId current = projectId update) = true := by
        rw [List.any_eq_true]
        refine ⟨mergeAcknowledgement update old, List.mem_map.mpr ⟨old, hold, if_pos hid⟩, ?_⟩
        exact decide_eq_true hid'
      rw [if_pos hany]
      have hids : (projects.map fun current => if projectId current = projectId update then
          mergeAcknowledgement update old else current).map projectId = projects.map projectId := by
        rw [List.map_map]
        refine List.map_congr_left fun q _ => ?_
        simp only [Function.comp_def]
        split
        · rename_i hq
          rw [hid', hq]
        · rfl
      refine ⟨⟨fun q hq => ?_, by rw [hids]; exact hp.distinct⟩, fun q hq hne => ?_, fun q hq hne => ?_,
        ⟨mergeAcknowledgement update old, List.mem_map.mpr ⟨old, hold, if_pos hid⟩, hid'⟩,
        fun q hq heq => ?_⟩
      · obtain ⟨r, hr, rfl⟩ := List.mem_map.mp hq
        split
        · exact hvalid
        · exact hp.each r hr
      · obtain ⟨r, hr, rfl⟩ := List.mem_map.mp hq
        split at hne
        · exact absurd hid' hne
        · rename_i hr'
          rw [if_neg hr']
          exact hr
      · exact List.mem_map.mpr ⟨q, hq, if_neg hne⟩
      · obtain ⟨r, hr, rfl⟩ := List.mem_map.mp hq
        split at heq
        · rename_i hr'
          rw [if_pos hr']
          exact haccess
        · rename_i hr'
          exact absurd heq hr'
  | none =>
      have hnone := projectNamed_none hnamed
      dsimp only
      have hsame : (projects.map fun current => if projectId current = projectId update then update
          else current) = projects := by
        conv_rhs => rw [← List.map_id projects]
        exact List.map_congr_left fun q hq => if_neg (hnone q hq)
      rw [hsame]
      have hany : ¬ (projects.any fun current => projectId current = projectId update) = true := by
        rw [List.any_eq_true]
        rintro ⟨q, hq, heq⟩
        exact hnone q hq (of_decide_eq_true heq)
      rw [if_neg hany]
      refine ⟨⟨fun q hq => ?_, ?_⟩, fun q hq hne => ?_, fun q hq _ => List.mem_append_left _ hq,
        ⟨update, List.mem_append_right _ (List.mem_singleton.mpr rfl), rfl⟩, fun q hq heq => ?_⟩
      · rcases List.mem_append.mp hq with hq | hq
        · exact hp.each q hq
        · rw [List.mem_singleton.mp hq]
          exact hu
      · rw [List.map_append, List.nodup_append]
        refine ⟨hp.distinct, by simp, fun id hid other hother => ?_⟩
        obtain ⟨q, hq, rfl⟩ := List.mem_map.mp hid
        simp only [List.map_cons, List.map_nil, List.mem_singleton] at hother
        rw [hother]
        exact hnone q hq
      · rcases List.mem_append.mp hq with hq | hq
        · exact hq
        · rw [List.mem_singleton.mp hq] at hne
          exact absurd rfl hne
      · rcases List.mem_append.mp hq with hq | hq
        · exact absurd heq (hnone q hq)
        · rw [List.mem_singleton.mp hq]

/-! ## Merged projections -/

theorem objOf_valid {values : List Json} (h : values.all (validateProject t) = true) :
    (values.map objOf).map Json.obj = values ∧
      (values.map objOf).map projectId = textsOf "project_id" values := by
  rw [List.all_eq_true] at h
  constructor
  · rw [List.map_map]
    conv_rhs => rw [← List.map_id values]
    refine List.map_congr_left fun v hv => ?_
    obtain ⟨items, rfl, -⟩ := object_ok (h v hv)
    rfl
  · rw [List.map_map, textsOf]
    refine List.map_congr_left fun v hv => ?_
    obtain ⟨items, rfl, -⟩ := object_ok (h v hv)
    rfl

theorem Valid.projects {projection : Items} (h : Valid t instanceId projection) :
    get projection "projects" = some (.list ((projectsOf projection).map Json.obj)) ∧
      ValidProjects t (projectsOf projection) := by
  obtain ⟨value, hget, hcheck⟩ := get_of_checked h.checked
    (f := required "projects" (listOf (validProjects t))) (by simp [projectionFields]) rfl
  obtain ⟨values, rfl, hvalues⟩ := listOf_ok hcheck
  have hget' : get projection "projects" = some (.list values) := hget
  simp only [validProjects, Bool.and_eq_true, decide_eq_true_eq] at hvalues
  obtain ⟨hobjects, hids⟩ := objOf_valid hvalues.1
  have hprojects : projectsOf projection = values.map objOf := by
    unfold projectsOf listAt
    rw [hget']
  rw [hprojects, hobjects]
  refine ⟨hget', fun p hp => ?_, by rw [hids]; exact hvalues.2⟩
  obtain ⟨v, hv, rfl⟩ := List.mem_map.mp hp
  have hchecked := List.all_eq_true.mp hvalues.1 v hv
  have hclean := stripSensitive_list.mp (h.clean.get hget') v hv
  obtain ⟨items, rfl, -⟩ := object_ok hchecked
  exact ⟨stripSensitive_obj.mp hclean, hchecked⟩

@[simp] theorem projectsOf_setProjects (projection : Items) (projects : List Items) :
    projectsOf (setProjects projection projects) = projects := by
  unfold projectsOf setProjects listAt
  rw [get_set, if_pos rfl]
  simp [objOf, Function.comp_def]

theorem projectionFields_keys : ((projectionFields t instanceId).map Field.key).Nodup := by
  change ["schema_version", "instance", "capabilities", "access", "directory", "projects",
    "policy_sync"].Nodup
  decide

/-- A part of a valid projection may be replaced by another valid one. -/
theorem Valid.set {projection : Items} (h : Valid t instanceId projection) {key : String}
    {check : Json → Bool} (hmem : required key check ∈ projectionFields t instanceId)
    (value : Json) (hcheck : check value = true)
    (hclean : stripSensitive t value = value) : Valid t instanceId (set projection key value) := by
  obtain ⟨old, hget, -⟩ := get_of_checked h.checked hmem rfl
  exact ⟨h.clean.set (h.clean.key hget) hclean,
    checkFields_set projectionFields_keys h.checked hmem value hcheck⟩

theorem Valid.setProjects {projection : Items} (h : Valid t instanceId projection)
    {projects : List Items} (hp : ValidProjects t projects) :
    Valid t instanceId (setProjects projection projects) := by
  have hall : (projects.map Json.obj).all (validateProject t) = true := by
    rw [List.all_eq_true]
    intro v hv
    obtain ⟨p, hp', rfl⟩ := List.mem_map.mp hv
    exact (hp.each p hp').checked
  have hobj : (projects.map Json.obj).map objOf = projects := by
    simp [objOf, Function.comp_def]
  have hids := (objOf_valid hall).2
  rw [hobj] at hids
  have hfield : required "projects" (listOf (validProjects t)) ∈ projectionFields t instanceId := by
    simp [projectionFields]
  refine h.set hfield _ ?_ ?_
  · simp only [listOf, validProjects, Bool.and_eq_true, decide_eq_true_eq]
    exact ⟨hall, by rw [← hids]; exact hp.distinct⟩
  · rw [stripSensitive_list]
    intro v hv
    obtain ⟨p, hp', rfl⟩ := List.mem_map.mp hv
    exact stripSensitive_obj.mpr (hp.each p hp').clean

end Avibe.Permissions
