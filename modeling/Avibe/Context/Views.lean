import Avibe.Context.Cuts

/-!
# What a view shows

A view that was returned shows the units of a list of rows in the order of their
numbers: the inputs that the latest checkpoint kept, then the rows from its first
kept one. An append or a compaction changes that list of rows, and the units
follow.
-/

namespace Avibe.Context

open Avibe.Agent SortOn Checked

/-! ## The order of the rows -/

def ContextEntry.Sound (row : ContextEntry) : Prop :=
  row.shape = true ∧ row.body.hasRef = false

theorem checkRow_iff {row : ContextEntry} {u : Unit} : checkRow row = .ok u ↔ row.Sound := by
  constructor
  · intro h
    obtain ⟨hs, h⟩ := require_bind_ok h
    exact ⟨hs, by simpa using require_ok h⟩
  · rintro ⟨hs, hr⟩
    rw [checkRow, bind_eq_ok (require_eq_ok hs), require_eq_ok (by simp [hr])]

theorem checkRows_iff {previous : Option Nat} {rows : List ContextEntry} {u : Unit} :
    checkRows previous rows = .ok u ↔
      (∀ p ∈ previous, ∀ row ∈ rows, p < row.contextSeq) ∧
        Increasing ContextEntry.contextSeq rows ∧ ∀ row ∈ rows, row.Sound := by
  induction rows generalizing previous with
  | nil => simp [checkRows, Increasing]
  | cons row rows ih =>
      constructor
      · intro h
        obtain ⟨hp, h⟩ := require_bind_ok h
        obtain ⟨u', hrow, h⟩ := bind_ok h
        obtain ⟨hlt, hinc, hall⟩ := ih.mp h
        have hlt := hlt row.contextSeq rfl
        refine ⟨?_, List.pairwise_cons.mpr ⟨hlt, hinc⟩,
          List.forall_mem_cons.mpr ⟨checkRow_iff.mp hrow, hall⟩⟩
        rintro p rfl
        have hp : p < row.contextSeq := by simpa using hp
        exact List.forall_mem_cons.mpr ⟨hp, fun row' hr => hp.trans (hlt row' hr)⟩
      · rintro ⟨hlt, hinc, hall⟩
        obtain ⟨hrow, hinc⟩ := List.pairwise_cons.mp hinc
        obtain ⟨hsound, hall⟩ := List.forall_mem_cons.mp hall
        have hp : previous.all (· < row.contextSeq) = true := by
          cases previous with
          | none => rfl
          | some p => simpa using hlt p rfl row List.mem_cons_self
        rw [checkRows, bind_eq_ok (require_eq_ok hp),
          bind_eq_ok (checkRow_iff (u := ()).mpr hsound)]
        refine ih.mpr ⟨?_, hinc, hall⟩
        rintro _ ⟨⟩
        exact hrow

theorem ordered_iff {entries rows : List ContextEntry} :
    ordered entries none = .ok rows ↔
      rows = sortOn ContextEntry.contextSeq entries ∧
        Increasing ContextEntry.contextSeq rows ∧ ∀ row ∈ rows, row.Sound := by
  have hall : entries.filter (fun entry => (none : Option Nat).all (entry.contextSeq ≤ ·)) =
      entries := by simp
  unfold ordered
  rw [hall]
  constructor
  · intro h
    obtain ⟨u, hc, h⟩ := bind_ok h
    obtain rfl := pure_ok h
    exact ⟨rfl, (checkRows_iff.mp hc).2⟩
  · rintro ⟨rfl, hinc, hsound⟩
    have hc : checkRows none (sortOn ContextEntry.contextSeq entries) = .ok () :=
      checkRows_iff.mpr ⟨fun _ h => (by cases h), hinc, hsound⟩
    rw [bind_eq_ok hc]
    rfl

theorem mem_of_ordered {entries rows : List ContextEntry} (h : ordered entries none = .ok rows)
    {row : ContextEntry} : row ∈ rows ↔ row ∈ entries := by
  rw [(ordered_iff.mp h).1, mem_sortOn]

theorem lt_nextSeq {entries : List ContextEntry} {row : ContextEntry} (h : row ∈ entries) :
    row.contextSeq < nextSeq entries := by
  unfold nextSeq
  induction entries with
  | nil => cases h
  | cons e entries ih =>
      rw [List.map_cons, List.foldr_cons]
      rcases List.mem_cons.mp h with rfl | h
      · omega
      · have := ih h
        omega

/-- A sound row with a higher number comes last. -/
theorem ordered_concat {entries rows : List ContextEntry}
    (h : ordered entries none = .ok rows) {row : ContextEntry} (hs : row.Sound)
    (hlt : ∀ e ∈ entries, e.contextSeq < row.contextSeq) :
    ordered (entries ++ [row]) none = .ok (rows ++ [row]) := by
  obtain ⟨rfl, hinc, hsound⟩ := ordered_iff.mp h
  have hconcat := hinc.concat fun y hy => hlt y (mem_sortOn.mp hy)
  refine ordered_iff.mpr ⟨?_, hconcat, ?_⟩
  · exact (hconcat.sortOn_eq ((sortOn_perm _ entries).append_right _)).symm
  · intro r hr
    rcases List.mem_append.mp hr with hr | hr
    · exact hsound r hr
    · rwa [List.mem_singleton.mp hr]

/-- The rows of a transcript with one more row of the highest number. -/
theorem ordered_concat_inv {entries rows : List ContextEntry} {row : ContextEntry}
    (h : ordered (entries ++ [row]) none = .ok rows)
    (hlt : ∀ e ∈ entries, e.contextSeq < row.contextSeq) :
    ∃ before, ordered entries none = .ok before ∧ rows = before ++ [row] ∧ row.Sound := by
  obtain ⟨hrows, hinc, hsound⟩ := ordered_iff.mp h
  have hall : ∀ r ∈ entries ++ [row], r.Sound := fun r hr =>
    hsound r (hrows ▸ mem_sortOn.mpr hr)
  have hnodup : (entries.map ContextEntry.contextSeq).Nodup := by
    have hperm : (rows.map ContextEntry.contextSeq).Perm
        ((entries ++ [row]).map ContextEntry.contextSeq) := hrows ▸ (sortOn_perm _ _).map _
    have := hperm.nodup_iff.mp hinc.nodup
    rw [List.map_append] at this
    exact this.of_append_left
  have hbefore : ordered entries none = .ok (sortOn ContextEntry.contextSeq entries) :=
    ordered_iff.mpr ⟨rfl, sortOn_increasing hnodup, fun r hr =>
      hall r (List.mem_append_left _ (mem_sortOn.mp hr))⟩
  have hs : row.Sound := hall row (by simp)
  refine ⟨_, hbefore, ?_, hs⟩
  exact Except.ok.inj (h.symm.trans (ordered_concat hbefore hs hlt))

/-! ## The parts of a view -/

/-- The computations that a returned view went through. -/
structure Parts (rows : List ContextEntry) (calls : Calls) (facts : Facts)
    (units : List ContextUnit) : Prop where
  calls_ok : indexResults rows = .ok calls
  facts_ok : collect (rowById rows) rows = .ok facts
  units_ok : (shownRows facts rows).mapM' (unitOf calls facts.edits) = .ok units
  placed : ∀ seq ∈ facts.kept, seq ∈ (earlierInputs facts rows).map (·.contextSeq)
  sorted : facts.kept.Pairwise (· < ·)

theorem contextView_iff {entries : List ContextEntry} {view : ContextView} :
    contextView entries none = .ok view ↔
      ∃ rows calls facts units, ordered entries none = .ok rows ∧
        Parts rows calls facts units ∧ view = assemble rows facts units := by
  constructor
  · intro h
    obtain ⟨rows, hrows, h⟩ := bind_ok h
    obtain ⟨calls, hcalls, h⟩ := bind_ok h
    obtain ⟨facts, hfacts, h⟩ := bind_ok h
    obtain ⟨units, hunits, h⟩ := bind_ok h
    obtain ⟨hkept, h⟩ := require_bind_ok h
    exact ⟨rows, calls, facts, units, hrows, ⟨hcalls, hfacts, hunits, hkept.1, hkept.2⟩,
      (pure_ok h).symm⟩
  · rintro ⟨rows, calls, facts, units, hrows, hparts, rfl⟩
    rw [contextView, bind_eq_ok hrows, bind_eq_ok hparts.calls_ok, bind_eq_ok hparts.facts_ok,
      bind_eq_ok hparts.units_ok, bind_eq_ok (require_eq_ok ⟨hparts.placed, hparts.sorted⟩)]
    rfl

/-- The unit of a row, where there is one. -/
def unitAt (calls : Calls) (edits : List (String × String)) (row : ContextEntry) : ContextUnit :=
  match unitOf calls edits row with
  | .ok unit => unit
  | .error _ => ⟨row.contextSeq, []⟩

theorem unitAt_of_ok {calls : Calls} {edits : List (String × String)} {row : ContextEntry}
    {unit : ContextUnit} (h : unitOf calls edits row = .ok unit) :
    unitAt calls edits row = unit := by
  rw [unitAt, h]

theorem unitOf_input (calls : Calls) (edits : List (String × String)) {row : ContextEntry}
    (h : row.body.isInput = true) :
    ∃ m, row.body = .input m ∧
      unitOf calls edits row = .ok ⟨row.contextSeq, [(some row, .user m)]⟩ := by
  cases hb : row.body with
  | input m => exact ⟨m, rfl, by simp [unitOf, hb]⟩
  | _ => simp [hb, Body.isInput] at h

theorem unitOf_lead {calls : Calls} {edits : List (String × String)} {row : ContextEntry}
    {unit : ContextUnit} (h : unitOf calls edits row = .ok unit) (hl : row.body.leads = true) :
    unit.seq = row.contextSeq ∧ unit.lead = some row := by
  cases hb : row.body with
  | input m =>
      simp only [unitOf, hb] at h
      cases h
      exact ⟨rfl, rfl⟩
  | response m tokens =>
      simp only [unitOf, hb] at h
      obtain ⟨results, -, h⟩ := bind_ok h
      obtain rfl := pure_ok h
      exact ⟨rfl, rfl⟩
  | _ => simp [hb, Body.leads] at hl

/-- The rows of the inputs that the latest checkpoint keeps. -/
def keptRows (facts : Facts) (rows : List ContextEntry) : List ContextEntry :=
  facts.kept.filterMap fun seq => (earlierInputs facts rows).find? (·.contextSeq = seq)

def selectedRows (facts : Facts) (rows : List ContextEntry) : List ContextEntry :=
  keptRows facts rows ++ shownRows facts rows

theorem mem_keptRows {facts : Facts} {rows : List ContextEntry} {row : ContextEntry}
    (h : row ∈ keptRows facts rows) :
    row ∈ rows ∧ row.body.isInput = true ∧ row.contextSeq < facts.firstKept := by
  obtain ⟨seq, -, hfind⟩ := List.mem_filterMap.mp h
  have hmem := List.mem_of_find?_eq_some hfind
  simpa [earlierInputs] using hmem

theorem keptRows_seqs {facts : Facts} {rows : List ContextEntry}
    (h : ∀ seq ∈ facts.kept, seq ∈ (earlierInputs facts rows).map (·.contextSeq)) :
    (keptRows facts rows).map (·.contextSeq) = facts.kept := by
  unfold keptRows
  generalize facts.kept = kept at h
  induction kept with
  | nil => rfl
  | cons seq kept ih =>
      obtain ⟨hseq, hkept⟩ := List.forall_mem_cons.mp h
      obtain ⟨row, hrow, hseq⟩ := List.mem_map.mp hseq
      cases hfind : (earlierInputs facts rows).find? (·.contextSeq = seq) with
      | none =>
          have := List.find?_eq_none.mp hfind row hrow
          simp [hseq] at this
      | some found =>
          have hfound : found.contextSeq = seq := by simpa using List.find?_some hfind
          simp [hfind, hfound, ih hkept]

theorem keptUnit_eq {facts : Facts} {rows : List ContextEntry} (calls : Calls) (seq : Nat) :
    keptUnit (earlierInputs facts rows) seq =
      ((earlierInputs facts rows).find? (·.contextSeq = seq)).map
        (unitAt calls facts.edits) := by
  cases hfind : (earlierInputs facts rows).find? (·.contextSeq = seq) with
  | none => simp [keptUnit, hfind]
  | some row =>
      have hseq : row.contextSeq = seq := by simpa using List.find?_some hfind
      have hinput : row.body.isInput = true := by
        have hmem := List.mem_of_find?_eq_some hfind
        simp only [earlierInputs, List.mem_filter, Bool.and_eq_true] at hmem
        exact hmem.2.1
      obtain ⟨m, hm, hunit⟩ := unitOf_input calls facts.edits hinput
      simp [keptUnit, hfind, hm, unitAt_of_ok hunit, hseq]

section Parts

variable {rows : List ContextEntry} {calls : Calls} {facts : Facts} {units : List ContextUnit}

/-- The units are those of the selected rows. -/
theorem Parts.units_eq (h : Parts rows calls facts units) :
    (assemble rows facts units).units =
        (selectedRows facts rows).map (unitAt calls facts.edits) ∧
      ∀ row ∈ selectedRows facts rows,
        unitOf calls facts.edits row = .ok (unitAt calls facts.edits row) := by
  obtain ⟨hall, hunits⟩ := mapM'_ok h.units_ok fun _ _ _ => unitAt_of_ok
  constructor
  · simp only [assemble, selectedRows, keptRows, List.map_append, List.map_filterMap, hunits,
      keptUnit_eq calls]
  · intro row hrow
    rcases List.mem_append.mp hrow with hrow | hrow
    · obtain ⟨m, -, hunit⟩ := unitOf_input calls facts.edits (mem_keptRows hrow).2.1
      rw [unitAt_of_ok hunit, hunit]
    · exact hall row hrow

theorem mem_selectedRows {row : ContextEntry} (hrow : row ∈ selectedRows facts rows) :
    row ∈ rows ∧ row.body.leads = true := by
  rcases List.mem_append.mp hrow with hrow | hrow
  · obtain ⟨hmem, hinput, -⟩ := mem_keptRows hrow
    refine ⟨hmem, ?_⟩
    cases hb : row.body <;> simp_all [Body.isInput, Body.leads]
  · simp only [shownRows, List.mem_filter, Bool.and_eq_true] at hrow
    exact ⟨hrow.1, hrow.2.1⟩

theorem Parts.increasing (h : Parts rows calls facts units)
    (hinc : Increasing ContextEntry.contextSeq rows) :
    Increasing ContextEntry.contextSeq (selectedRows facts rows) := by
  refine List.pairwise_append.mpr ⟨?_, hinc.sublist List.filter_sublist, ?_⟩
  · have := h.sorted
    rw [← keptRows_seqs h.placed, List.pairwise_map] at this
    exact this
  · intro row hrow row' hrow'
    have hlt := (mem_keptRows hrow).2.2
    simp only [shownRows, List.mem_filter, Bool.and_eq_true, decide_eq_true_eq] at hrow'
    exact Nat.lt_of_lt_of_le hlt hrow'.2.2

theorem Parts.pinned (h : Parts rows calls facts units) :
    (assemble rows facts units).pinned = (keptRows facts rows).length := by
  have hlength := congrArg List.length (keptRows_seqs h.placed)
  rw [List.length_map] at hlength
  exact hlength.symm

end Parts

/-! ## One more row -/

theorem indexResults_concat (rows : List ContextEntry) (row : ContextEntry) :
    indexResults (rows ++ [row]) = indexResults rows >>= fun calls => indexRow calls row := by
  simp [indexResults, List.foldlM_append]

theorem collect_concat (find : String → Option ContextEntry) (rows : List ContextEntry)
    (row : ContextEntry) :
    collect find (rows ++ [row]) = collect find rows >>= fun facts =>
      collectRow find facts row := by
  simp [collect, List.foldlM_append]

theorem rowById_concat (rows : List ContextEntry) (row : ContextEntry) (rowId : String) :
    rowById (rows ++ [row]) rowId = if row.rowId = rowId then some row else rowById rows rowId := by
  by_cases h : row.rowId = rowId <;> simp [rowById, h]

theorem rowById_some {rows : List ContextEntry} {rowId : String} {row : ContextEntry}
    (h : rowById rows rowId = some row) : row ∈ rows ∧ row.rowId = rowId :=
  ⟨by simpa using List.mem_of_find?_eq_some h, by simpa using List.find?_some h⟩

/-- A fresh row does not hide the target of an edit. -/
theorem rowById_fresh {rows : List ContextEntry} {row : ContextEntry}
    (hid : row.rowId ∉ rows.map (·.rowId)) {rowId : String} {target : ContextEntry}
    (h : rowById rows rowId = some target) : rowById (rows ++ [row]) rowId = some target := by
  obtain ⟨hmem, hrow⟩ := rowById_some h
  have hne : row.rowId ≠ rowId := by
    rintro rfl
    exact hid (List.mem_map.mpr ⟨target, hmem, hrow⟩)
  rw [rowById_concat, if_neg hne, h]

theorem collectRow_mono {find find' : String → Option ContextEntry} {facts facts' : Facts}
    {row : ContextEntry} (h : collectRow find facts row = .ok facts')
    (hfind : ∀ id target, find id = some target → target.contextSeq < row.contextSeq →
      find' id = some target) : collectRow find' facts row = .ok facts' := by
  unfold collectRow at h ⊢
  cases hb : row.body with
  | contextEdit edit =>
      simp only [hb] at h ⊢
      cases ht : find edit.targetEventId with
      | none => simp [ht] at h
      | some target =>
          simp only [ht] at h
          split at h
          · rename_i hc
            rw [hfind _ _ ht hc.2]
            simp only [if_pos hc]
            exact h
          · cases h
  | _ => simpa only [hb] using h

/-- The edits find their targets again when the lookup knows more rows. -/
theorem collect_mono {find find' : String → Option ContextEntry} {rows : List ContextEntry}
    {facts : Facts} (h : collect find rows = .ok facts)
    (hfind : ∀ row ∈ rows, ∀ id target, find id = some target →
      target.contextSeq < row.contextSeq → find' id = some target) :
    collect find' rows = .ok facts := by
  unfold collect at h ⊢
  generalize (⟨"{}", none, [], [], []⟩ : Facts) = start at h ⊢
  induction rows generalizing start with
  | nil => exact h
  | cons row rows ih =>
      rw [List.foldlM_cons] at h ⊢
      obtain ⟨next, hnext, h⟩ := bind_ok h
      rw [bind_eq_ok (collectRow_mono hnext (hfind row List.mem_cons_self))]
      exact ih (fun r hr => hfind r (List.mem_cons_of_mem _ hr)) _ h

end Avibe.Context
