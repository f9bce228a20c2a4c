import Avibe.Context.Views

/-!
# Compaction keeps what the model needs

A compaction row replaces the units before its cut by a summary, except the
inputs of the Turn in flight, which stay as they are. What it builds is read
back by `contextView` as exactly that.
-/

namespace Avibe.Context

open Avibe.Agent SortOn Checked

/-- The row is an input of the Turn in flight. -/
def ContextEntry.inTurn (turnInputs : List Nat) (row : ContextEntry) : Bool :=
  row.body.isInput && row.contextSeq ∈ turnInputs

section Parts

variable {rows : List ContextEntry} {calls : Calls} {facts : Facts} {units : List ContextUnit}

/-- Cutting the units is cutting the rows. -/
theorem Parts.head_eq (h : Parts rows calls facts units) (turnInputs : List Nat) (cut : Nat) :
    ((assemble rows facts units).units.take cut).filter (inTurn turnInputs) =
      (((selectedRows facts rows).take cut).filter (·.inTurn turnInputs)).map
        (unitAt calls facts.edits) := by
  obtain ⟨hunits, hall⟩ := h.units_eq
  rw [hunits, ← List.map_take, List.filter_map]
  congr 1
  refine List.filter_congr fun row hrow => ?_
  have hmem := List.mem_of_mem_take hrow
  obtain ⟨hseq, hlead⟩ := unitOf_lead (hall row hmem) (mem_selectedRows hmem).2
  simp [inTurn, ContextEntry.inTurn, hseq, hlead]

theorem Parts.head_seqs (h : Parts rows calls facts units) (turnInputs : List Nat) (cut : Nat) :
    (((assemble rows facts units).units.take cut).filter (inTurn turnInputs)).map (·.seq) =
      (((selectedRows facts rows).take cut).filter (·.inTurn turnInputs)).map
        (·.contextSeq) := by
  rw [h.head_eq, List.map_map]
  refine List.map_congr_left fun row hrow => ?_
  have hmem := List.mem_of_mem_take (List.mem_filter.mp hrow).1
  exact (unitOf_lead (h.units_eq.2 row hmem) (mem_selectedRows hmem).2).1

/-- The unit at the cut, as the row it comes from. -/
theorem Parts.unit_at (h : Parts rows calls facts units) {cut : Nat} {first : ContextUnit}
    (hfirst : (assemble rows facts units).units[cut]? = some first) :
    ∃ row, (selectedRows facts rows)[cut]? = some row ∧ first.seq = row.contextSeq := by
  obtain ⟨hunits, hall⟩ := h.units_eq
  rw [hunits, List.getElem?_map, Option.map_eq_some_iff] at hfirst
  obtain ⟨row, hrow, rfl⟩ := hfirst
  have hmem := List.mem_of_getElem? hrow
  exact ⟨row, hrow, (unitOf_lead (hall row hmem) (mem_selectedRows hmem).2).1⟩

end Parts

/-! ## The rows after a compaction -/

section Compacted

variable {rows : List ContextEntry} {calls : Calls} {facts : Facts} {units : List ContextUnit}
  {row first : ContextEntry} {payload : Compaction} {cut : Nat} {turnInputs : List Nat}

/-- The facts once the compaction row is there. -/
def Facts.compacted (facts : Facts) (row : ContextEntry) (payload : Compaction) : Facts :=
  { facts with compaction := some (row, payload) }

theorem shownRows_compacted (h : Parts rows calls facts units)
    (hinc : Increasing ContextEntry.contextSeq rows) (hbody : row.body = .compaction payload)
    (hfirst : (selectedRows facts rows)[cut]? = some first)
    (hpin : (keptRows facts rows).length ≤ cut) (hseq : payload.firstKeptSeq = first.contextSeq) :
    shownRows (facts.compacted row payload) (rows ++ [row]) =
      (selectedRows facts rows).drop cut := by
  have hdrop : (selectedRows facts rows).drop cut =
      (shownRows facts rows).drop (cut - (keptRows facts rows).length) := by
    rw [selectedRows, List.drop_append, List.drop_eq_nil_of_le hpin, List.nil_append]
  have hget : (shownRows facts rows)[cut - (keptRows facts rows).length]? = some first := by
    rw [← hfirst, selectedRows, List.getElem?_append_right hpin]
  have hmem : facts.firstKept ≤ first.contextSeq := by
    have := List.mem_of_getElem? hget
    simp only [shownRows, List.mem_filter, Bool.and_eq_true, decide_eq_true_eq] at this
    exact this.2.2
  have hshown : Increasing ContextEntry.contextSeq (shownRows facts rows) :=
    hinc.sublist List.filter_sublist
  rw [hdrop, ← hshown.filter_ge hget]
  unfold shownRows
  rw [List.filter_append, List.filter_filter]
  have hnone : [row].filter (fun r => r.body.leads &&
      decide ((facts.compacted row payload).firstKept ≤ r.contextSeq)) = [] := by
    simp [hbody, Body.leads]
  rw [hnone, List.append_nil]
  refine List.filter_congr fun r _ => ?_
  have hkept : (facts.compacted row payload).firstKept = first.contextSeq := hseq
  rw [hkept, Bool.eq_iff_iff]
  simp only [Bool.and_eq_true, decide_eq_true_eq]
  constructor
  · rintro ⟨hl, hle⟩
    exact ⟨hle, hl, hmem.trans hle⟩
  · rintro ⟨hle, hl, -⟩
    exact ⟨hl, hle⟩

/-- The Turn's inputs before the cut are still there to be kept. -/
theorem mem_earlierInputs_compacted (h : Parts rows calls facts units)
    (hinc : Increasing ContextEntry.contextSeq rows)
    (hfirst : (selectedRows facts rows)[cut]? = some first)
    (hseq : payload.firstKeptSeq = first.contextSeq) {r : ContextEntry}
    (hr : r ∈ ((selectedRows facts rows).take cut).filter (·.inTurn turnInputs)) :
    r ∈ earlierInputs (facts.compacted row payload) (rows ++ [row]) := by
  obtain ⟨htake, hturn⟩ := List.mem_filter.mp hr
  have hlt := (h.increasing hinc).lt_of_mem_take htake hfirst
  simp only [ContextEntry.inTurn, Bool.and_eq_true] at hturn
  simp only [earlierInputs, List.mem_filter, Bool.and_eq_true, decide_eq_true_eq]
  refine ⟨List.mem_append_left _ (mem_selectedRows (List.mem_of_mem_take htake)).1, hturn.1, ?_⟩
  change r.contextSeq < payload.firstKeptSeq
  rwa [hseq]

theorem keptRows_compacted (h : Parts rows calls facts units)
    (hinc : Increasing ContextEntry.contextSeq rows)
    (hlt : ∀ r ∈ rows, r.contextSeq < row.contextSeq)
    (hfirst : (selectedRows facts rows)[cut]? = some first)
    (hseq : payload.firstKeptSeq = first.contextSeq)
    (hkept : payload.keptInputs =
      (((selectedRows facts rows).take cut).filter (·.inTurn turnInputs)).map (·.contextSeq)) :
    keptRows (facts.compacted row payload) (rows ++ [row]) =
      ((selectedRows facts rows).take cut).filter (·.inTurn turnInputs) := by
  have hearlier : Increasing ContextEntry.contextSeq
      (earlierInputs (facts.compacted row payload) (rows ++ [row])) :=
    (hinc.concat hlt).sublist List.filter_sublist
  have hin : ∀ r ∈ ((selectedRows facts rows).take cut).filter (·.inTurn turnInputs),
      r ∈ earlierInputs (facts.compacted row payload) (rows ++ [row]) :=
    fun r hr => mem_earlierInputs_compacted h hinc hfirst hseq hr
  have hk : (facts.compacted row payload).kept = payload.keptInputs := rfl
  unfold keptRows
  rw [hk, hkept, List.filterMap_map]
  generalize ((selectedRows facts rows).take cut).filter (·.inTurn turnInputs) = kept at hin
  induction kept with
  | nil => rfl
  | cons r kept ih =>
      obtain ⟨hr, hkept⟩ := List.forall_mem_cons.mp hin
      have hfind := hearlier.find?_eq hr
      rw [List.filterMap_cons, Function.comp_apply, hfind, ih hkept]

/-- The view with the compaction row: the kept inputs of the Turn, then the units from
the cut on. -/
theorem Parts.compacted (h : Parts rows calls facts units)
    (hinc : Increasing ContextEntry.contextSeq rows) (hbody : row.body = .compaction payload)
    (hlt : ∀ r ∈ rows, r.contextSeq < row.contextSeq)
    (hid : row.rowId ∉ rows.map (·.rowId))
    (hfirst : (selectedRows facts rows)[cut]? = some first)
    (hpin : (keptRows facts rows).length ≤ cut) (hseq : payload.firstKeptSeq = first.contextSeq)
    (hkept : payload.keptInputs =
      (((selectedRows facts rows).take cut).filter (·.inTurn turnInputs)).map (·.contextSeq)) :
    Parts (rows ++ [row]) calls (facts.compacted row payload)
        (((selectedRows facts rows).drop cut).map (unitAt calls facts.edits)) ∧
      selectedRows (facts.compacted row payload) (rows ++ [row]) =
        ((selectedRows facts rows).take cut).filter (·.inTurn turnInputs) ++
          (selectedRows facts rows).drop cut := by
  have hshown := shownRows_compacted h hinc hbody hfirst hpin hseq
  have hkeptRows := keptRows_compacted h hinc hlt hfirst hseq hkept
  refine ⟨⟨?_, ?_, ?_, ?_, ?_⟩, by rw [selectedRows, hkeptRows, hshown]⟩
  · rw [indexResults_concat, bind_eq_ok h.calls_ok]
    simp [indexRow, hbody]
  · have hfacts := collect_mono h.facts_ok fun _ _ _ _ ht _ => rowById_fresh hid ht
    rw [collect_concat, bind_eq_ok hfacts]
    simp [collectRow, hbody, Facts.compacted]
  · rw [hshown]
    exact mapM'_eq_ok fun r hr => h.units_eq.2 r (List.mem_of_mem_drop hr)
  · intro seq hmem
    have hmem : seq ∈ payload.keptInputs := hmem
    rw [hkept] at hmem
    obtain ⟨r, hr, rfl⟩ := List.mem_map.mp hmem
    exact List.mem_map.mpr ⟨r, mem_earlierInputs_compacted h hinc hfirst hseq hr, rfl⟩
  · change payload.keptInputs.Pairwise (· < ·)
    rw [hkept, List.pairwise_map]
    have hsub : (((selectedRows facts rows).take cut).filter (·.inTurn turnInputs)).Sublist
        (selectedRows facts rows) := List.filter_sublist.trans (List.take_sublist _ _)
    exact (h.increasing hinc).sublist hsub

end Compacted

/-! ## The compaction row -/

section Step

variable (unitTokens : ContextUnit → Nat)
  (renderSummary : CheckpointArgs → ContextView → Nat → Bool → String)

theorem compactionPayload_ok {view : ContextView} {cut : Nat} {args : CheckpointArgs}
    {payload : Compaction} (h : compactionPayload renderSummary view cut args = .ok payload) :
    ∃ first, view.units[cut]? = some first ∧ view.pinned ≤ cut ∧
      payload.firstKeptSeq = first.seq ∧
      payload.keptInputs = ((view.units.take cut).filter (inTurn args.turnInputs)).map (·.seq) ∧
      payload.summarizedToSeq = summarizedToSeq view cut := by
  obtain ⟨hpin, h⟩ := require_bind_ok h
  obtain ⟨first, hfirst, h⟩ := bind_ok h
  obtain rfl := pure_ok h
  exact ⟨first, found_ok hfirst, hpin, rfl, rfl, rfl⟩

theorem compactionPayload_memo {view : ContextView} {cut : Nat} {args : CheckpointArgs}
    {payload : Compaction} (h : compactionPayload renderSummary view cut args = .ok payload) :
    payload.memo = some args.memo := by
  obtain ⟨-, h⟩ := require_bind_ok h
  obtain ⟨first, -, h⟩ := bind_ok h
  obtain rfl := pure_ok h
  rfl

theorem compactionPayload_total {view : ContextView} {cut : Nat} (args : CheckpointArgs)
    (hcut : cut < view.units.length) (hpin : view.pinned ≤ cut) :
    ∃ payload, compactionPayload renderSummary view cut args = .ok payload := by
  unfold compactionPayload
  rw [bind_eq_ok (require_eq_ok hpin), List.getElem?_eq_getElem hcut]
  exact ⟨_, rfl⟩

/-- What a compaction leaves of the units: the Turn's inputs before the cut, then the
units from the cut on. -/
def keptUnits (view : ContextView) (turnInputs : List Nat) (cut : Nat) : List ContextUnit :=
  (view.units.take cut).filter (inTurn turnInputs)

/-- The messages of a view whose first units are the pinned ones. -/
theorem messages_of_pinned {view : ContextView} {kept rest : List ContextUnit}
    (hunits : view.units = kept ++ rest) (hpin : view.pinned = kept.length) :
    view.messages = kept.flatMap ContextUnit.messages ++
      (view.checkpoint.map Message.user).toList ++ rest.flatMap ContextUnit.messages := by
  have hmin : min view.pinned view.units.length = kept.length := by
    rw [hpin, hunits, List.length_append]
    omega
  unfold ContextView.messages ContextView.prefixAt
  rw [hmin, hunits, List.take_length, List.take_left]
  simp

theorem contextView_compacted {entries : List ContextEntry} {view : ContextView}
    (hv : contextView entries none = .ok view) (hpos : ∀ e ∈ entries, 0 < e.contextSeq)
    {cut : Nat} {args : CheckpointArgs} {payload : Compaction}
    (hp : compactionPayload renderSummary view cut args = .ok payload) (tokensAfter : Nat)
    {row : ContextEntry}
    (hbody : row.body = .compaction { payload with tokensAfterEstimate := tokensAfter })
    (hlt : ∀ e ∈ entries, e.contextSeq < row.contextSeq)
    (hid : row.rowId ∉ entries.map (·.rowId)) :
    ∃ view', contextView (entries ++ [row]) none = .ok view' ∧
      view'.compaction = some (row, { payload with tokensAfterEstimate := tokensAfter }) ∧
      view'.checkpoint = some payload.message ∧
      view'.units = keptUnits view args.turnInputs cut ++ view.units.drop cut ∧
      view'.pinned = (keptUnits view args.turnInputs cut).length := by
  obtain ⟨rows, calls, facts, units, hrows, hparts, rfl⟩ := contextView_iff.mp hv
  have hinc := (ordered_iff.mp hrows).2.1
  obtain ⟨first, hfirst, hpin, hseq, hkept, -⟩ := compactionPayload_ok renderSummary hp
  obtain ⟨firstRow, hfirstRow, hfirstSeq⟩ := hparts.unit_at hfirst
  rw [hparts.pinned] at hpin
  rw [hparts.head_seqs] at hkept
  have hmem : ∀ r, r ∈ rows ↔ r ∈ entries := fun r => mem_of_ordered hrows
  have hltRows : ∀ r ∈ rows, r.contextSeq < row.contextSeq := fun r hr => hlt r ((hmem r).mp hr)
  have hidRows : row.rowId ∉ rows.map (·.rowId) := by
    intro hin
    obtain ⟨r, hr, heq⟩ := List.mem_map.mp hin
    exact hid (List.mem_map.mpr ⟨r, (hmem r).mp hr, heq⟩)
  have hfirstMem : firstRow ∈ rows := (mem_selectedRows (List.mem_of_getElem? hfirstRow)).1
  have hsound : row.Sound := by
    refine ⟨?_, by simp [Body.hasRef, hbody]⟩
    simp only [ContextEntry.shape, hbody, Bool.and_eq_true, decide_eq_true_eq, hseq, hfirstSeq,
      List.all_eq_true, hkept, List.mem_map]
    refine ⟨⟨hpos _ ((hmem _).mp hfirstMem), ?_⟩, (hltRows _ hfirstMem).le⟩
    rintro seq ⟨r, hr, rfl⟩
    have hr := List.mem_of_mem_take (List.mem_filter.mp hr).1
    exact hpos _ ((hmem r).mp (mem_selectedRows hr).1)
  obtain ⟨hparts', hselected⟩ := hparts.compacted hinc hbody hltRows hidRows hfirstRow hpin
    (hseq.trans hfirstSeq) hkept
  refine ⟨_, contextView_iff.mpr ⟨_, _, _, _, ordered_concat hrows hsound hlt, hparts', rfl⟩, rfl,
    rfl, ?_, ?_⟩
  · have hedits : (facts.compacted row { payload with tokensAfterEstimate := tokensAfter }).edits =
        facts.edits := rfl
    rw [hparts'.units_eq.1, hselected, List.map_append, keptUnits, hparts.head_eq,
      hparts.units_eq.1, ← List.map_drop, hedits]
  · change payload.keptInputs.length = _
    rw [hkept, keptUnits, hparts.head_eq, List.length_map, List.length_map]

theorem le_foldl_max (seqs : List Nat) (previous : Nat) : previous ≤ seqs.foldl max previous := by
  induction seqs generalizing previous with
  | nil => exact Nat.le_refl _
  | cons seq seqs ih => exact (Nat.le_max_left previous seq).trans (ih _)

/-- The number up to which the view's checkpoint summarized. -/
def ContextView.summarizedTo (view : ContextView) : Nat :=
  view.compaction.elim 0 (·.2.summarizedToSeq)

theorem le_summarizedToSeq (view : ContextView) (cut : Nat) :
    view.summarizedTo ≤ summarizedToSeq view cut :=
  le_foldl_max _ _

end Step

end Avibe.Context
