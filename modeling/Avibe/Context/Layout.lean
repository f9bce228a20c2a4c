import Avibe.Context.Appends

/-!
# How a view lies in its transcript

The units of a view are numbered by the rows that lead them, in order; the first
ones are the inputs that the latest checkpoint kept. Their rows are rows of the
transcript, so a cut never summarizes past its last number.
-/

namespace Avibe.Context

open Avibe.Agent SortOn Checked

theorem indexRow_results {calls calls' : Calls} {row : ContextEntry}
    (h : indexRow calls row = .ok calls') {key : Nat × String} {result : ContextEntry}
    {m : ToolResultMessage} (hmem : (key, result, m) ∈ calls'.results) :
    (key, result, m) ∈ calls.results ∨ result = row := by
  unfold indexRow at h
  cases hb : row.body with
  | toolResult message =>
      simp only [hb] at h
      split at h
      · split at h <;> cases h
      · split at h
        · cases h
        · cases h
          rcases List.mem_cons.mp hmem with hmem | hmem
          · cases hmem
            exact .inr rfl
          · exact .inl hmem
  | response message tokens =>
      simp only [hb] at h
      obtain ⟨_, _, -, hsame⟩ := openCalls_commit row calls rfl h
      exact .inl (hsame ▸ hmem)
  | _ =>
      simp only [hb] at h
      cases h
      exact .inl hmem

theorem indexResults_results {rows : List ContextEntry} {calls : Calls}
    (h : indexResults rows = .ok calls) {key : Nat × String} {result : ContextEntry}
    {m : ToolResultMessage} (hmem : (key, result, m) ∈ calls.results) : result ∈ rows := by
  induction rows using List.reverseRecOn generalizing calls with
  | nil =>
      obtain rfl := pure_ok h
      cases hmem
  | append_singleton rows row ih =>
      rw [indexResults_concat] at h
      obtain ⟨before, hbefore, h⟩ := bind_ok h
      rcases indexRow_results h hmem with hmem | rfl
      · exact List.mem_append_left _ (ih hbefore hmem)
      · exact List.mem_append_right _ (List.mem_singleton_self _)

theorem resultOf_row {calls : Calls} {edits : List (String × String)} {row : ContextEntry}
    {call : ToolCallBlock} {entry : ContextEntry} {message : Message}
    (h : resultOf calls edits row call = .ok (some entry, message)) :
    ∃ key m, (key, entry, m) ∈ calls.results := by
  unfold resultOf at h
  split at h
  · cases h
  · rename_i result m hlookup
    have hmem := List.lookup_eq_some_iff.mp hlookup
    obtain ⟨before, after, hsplit, -⟩ := hmem
    refine ⟨(row.contextSeq, call.id), m, ?_⟩
    split at h
    · cases h
      simp [hsplit]
    · dsimp only at h
      split at h
      · cases h
        simp [hsplit]
      · cases h

/-- The rows that a unit shows. -/
def ContextUnit.rows (unit : ContextUnit) : List ContextEntry := unit.entries.filterMap Prod.fst

theorem unitOf_rows {calls : Calls} {edits : List (String × String)} {row r : ContextEntry}
    {unit : ContextUnit} (h : unitOf calls edits row = .ok unit) (hr : r ∈ unit.rows) :
    r = row ∨ ∃ key m, (key, r, m) ∈ calls.results := by
  cases hb : row.body with
  | response m tokens =>
      simp only [unitOf, hb] at h
      obtain ⟨results, hresults, h⟩ := bind_ok h
      obtain rfl := pure_ok h
      simp only [ContextUnit.rows, List.filterMap_cons, List.mem_cons] at hr
      refine hr.imp id fun hr => ?_
      obtain ⟨⟨entry, message⟩, hentry, hsome⟩ := List.mem_filterMap.mp hr
      obtain rfl : entry = some r := hsome
      obtain ⟨call, -, hcall⟩ := mapM'_mem hresults hentry
      exact resultOf_row hcall
  | input m =>
      simp only [unitOf, hb] at h
      cases h
      simp only [ContextUnit.rows, List.filterMap_cons, List.filterMap_nil,
        List.mem_singleton] at hr
      exact .inl hr
  | _ =>
      simp only [unitOf, hb] at h
      cases h
      cases hr

/-- The inputs that the latest checkpoint kept. -/
def ContextView.released (view : ContextView) : List Nat :=
  view.compaction.elim [] (·.2.keptInputs)

/-- How the units of a view lie in its transcript. -/
structure Laid (entries : List ContextEntry) (view : ContextView) : Prop where
  increasing : (view.units.map (·.seq)).Pairwise (· < ·)
  released : view.released = (view.units.take view.pinned).map (·.seq)
  lead : ∀ unit ∈ view.units, ∃ row ∈ entries, unit.lead = some row ∧ row.contextSeq = unit.seq
  rows : ∀ unit ∈ view.units, ∀ row ∈ unit.rows, row ∈ entries

theorem contextView_laid {entries : List ContextEntry} {view : ContextView}
    (hv : contextView entries none = .ok view) : Laid entries view := by
  obtain ⟨rows, calls, facts, units, hrows, hparts, rfl⟩ := contextView_iff.mp hv
  have hmem : ∀ r, r ∈ rows ↔ r ∈ entries := fun r => mem_of_ordered hrows
  obtain ⟨hunits, hall⟩ := hparts.units_eq
  have hseqs : (assemble rows facts units).units.map (·.seq) =
      (selectedRows facts rows).map (·.contextSeq) := by
    rw [hunits, List.map_map]
    exact List.map_congr_left fun r hr => (unitOf_lead (hall r hr) (mem_selectedRows hr).2).1
  refine ⟨?_, ?_, ?_, ?_⟩
  · rw [hseqs, List.pairwise_map]
    exact hparts.increasing (ordered_iff.mp hrows).2.1
  · change facts.kept = _
    rw [List.map_take, hseqs, hparts.pinned, selectedRows, List.map_append,
      List.take_left' (List.length_map _), keptRows_seqs hparts.placed]
  · intro unit hunit
    rw [hunits] at hunit
    obtain ⟨r, hr, rfl⟩ := List.mem_map.mp hunit
    obtain ⟨hseq, hlead⟩ := unitOf_lead (hall r hr) (mem_selectedRows hr).2
    exact ⟨r, (hmem r).mp (mem_selectedRows hr).1, hlead, hseq.symm⟩
  · intro unit hunit row hrow
    rw [hunits] at hunit
    obtain ⟨r, hr, rfl⟩ := List.mem_map.mp hunit
    rcases unitOf_rows (hall r hr) hrow with rfl | ⟨key, m, hresult⟩
    · exact (hmem _).mp (mem_selectedRows hr).1
    · exact (hmem _).mp (indexResults_results hparts.calls_ok hresult)

section Laid

variable {entries : List ContextEntry} {view : ContextView}

theorem foldl_max_lt {seqs : List Nat} {previous bound : Nat} :
    seqs.foldl max previous < bound ↔ previous < bound ∧ ∀ seq ∈ seqs, seq < bound := by
  induction seqs generalizing previous with
  | nil => simp
  | cons seq seqs ih =>
      rw [List.foldl_cons, ih, Nat.max_lt, List.forall_mem_cons, and_assoc]

/-- A number above all that a cut summarizes. -/
theorem summarizedToSeq_lt_iff {cut bound : Nat} :
    summarizedToSeq view cut < bound ↔
      view.summarizedTo < bound ∧
        ∀ unit ∈ view.units.take cut, ∀ row ∈ unit.rows, row.contextSeq < bound := by
  unfold summarizedToSeq
  rw [foldl_max_lt]
  refine and_congr_right fun _ => ⟨fun h unit hunit row hrow => ?_, fun h seq hseq => ?_⟩
  · obtain ⟨entry, hentry, hfst⟩ := List.mem_filterMap.mp hrow
    exact h _ (List.mem_flatMap.mpr ⟨unit, hunit,
      List.mem_filterMap.mpr ⟨entry, hentry, by rw [hfst]; rfl⟩⟩)
  · obtain ⟨unit, hunit, hseq⟩ := List.mem_flatMap.mp hseq
    obtain ⟨entry, hentry, hmap⟩ := List.mem_filterMap.mp hseq
    obtain ⟨row, hrow, rfl⟩ := Option.map_eq_some_iff.mp hmap
    exact h unit hunit row (List.mem_filterMap.mpr ⟨entry, hentry, hrow⟩)

theorem Laid.summarizedToSeq_lt (h : Laid entries view)
    (hbound : view.summarizedTo < nextSeq entries) (cut : Nat) :
    summarizedToSeq view cut < nextSeq entries :=
  summarizedToSeq_lt_iff.mpr ⟨hbound, fun unit hunit row hrow =>
    lt_nextSeq (h.rows unit (List.mem_of_mem_take hunit) row hrow)⟩

/-- The lead's number is summarized with its unit. -/
theorem Laid.le_summarizedToSeq (h : Laid entries view) {cut : Nat} {unit : ContextUnit}
    (hunit : unit ∈ view.units.take cut) : unit.seq ≤ summarizedToSeq view cut := by
  obtain ⟨row, -, hlead, hseq⟩ := h.lead unit (List.mem_of_mem_take hunit)
  have hrow : row ∈ unit.rows := by
    obtain ⟨entry, hentry, hfst⟩ := Option.bind_eq_some_iff.mp hlead
    exact List.mem_filterMap.mpr ⟨entry, List.mem_of_head? hentry, hfst⟩
  have hall := (summarizedToSeq_lt_iff.mp (Nat.lt_succ_self (summarizedToSeq view cut))).2
  rw [← hseq]
  exact Nat.lt_succ_iff.mp (hall unit hunit row hrow)

/-- A unit is on one side of a cut only. -/
theorem Laid.seq_ne (h : Laid entries view) {cut : Nat} {unit unit' : ContextUnit}
    (hunit : unit ∈ view.units.take cut) (hunit' : unit' ∈ view.units.drop cut) :
    unit.seq < unit'.seq := by
  have hinc := h.increasing
  rw [List.pairwise_map, ← List.take_append_drop cut view.units] at hinc
  exact (List.pairwise_append.mp hinc).2.2 unit hunit unit' hunit'

end Laid

end Avibe.Context
