import Avibe.Context.Compaction
import Mathlib.Data.List.Induction

/-!
# Validated appends

A writer asks `validateMessageAppend` about a candidate row before it commits the
message under the row's own id. A candidate that projects is a row that projects:
no edit can name the new row, and its results are read by number and call.
-/

namespace Avibe.Context

open Avibe.Agent SortOn Checked

/-- The rows that hold a message. -/
def Body.hasMessage : Body → Bool
  | .input _ | .response _ _ | .toolResult _ => true
  | _ => false

/-! ## Edits name rows of the transcript -/

theorem collectRow_edits {find : String → Option ContextEntry} {facts facts' : Facts}
    {row : ContextEntry} (h : collectRow find facts row = .ok facts') {key : String}
    (hkey : key ∈ facts'.edits.map Prod.fst) :
    key ∈ facts.edits.map Prod.fst ∨ ∃ id target, find id = some target ∧ target.rowId = key := by
  unfold collectRow at h
  cases hb : row.body with
  | contextEdit edit =>
      simp only [hb] at h
      cases ht : find edit.targetEventId with
      | none => simp [ht] at h
      | some target =>
          simp only [ht] at h
          split at h
          · cases h
            rcases List.mem_cons.mp hkey with rfl | hkey
            · exact .inr ⟨_, target, ht, rfl⟩
            · exact .inl hkey
          · cases h
  | _ =>
      simp only [hb] at h
      cases h
      exact .inl hkey

theorem collect_edits {find : String → Option ContextEntry} {rows : List ContextEntry}
    {facts : Facts} (h : collect find rows = .ok facts) {key : String}
    (hkey : key ∈ facts.edits.map Prod.fst) :
    ∃ id target, find id = some target ∧ target.rowId = key := by
  induction rows using List.reverseRecOn generalizing facts with
  | nil =>
      obtain rfl := pure_ok h
      simp at hkey
  | append_singleton rows row ih =>
      rw [collect_concat] at h
      obtain ⟨before, hbefore, h⟩ := bind_ok h
      rcases collectRow_edits h hkey with hkey | hkey
      · exact ih hbefore hkey
      · exact hkey

/-- No edit names a fresh row. -/
theorem lookup_edits_fresh {rows : List ContextEntry} {facts : Facts}
    (h : collect (rowById rows) rows = .ok facts) {rowId : String}
    (hid : rowId ∉ rows.map (·.rowId)) : facts.edits.lookup rowId = none := by
  rw [List.lookup_eq_none_iff]
  rintro ⟨key, text⟩ hmem
  obtain ⟨id, target, hfind, htarget⟩ :=
    collect_edits h (List.mem_map.mpr ⟨(key, text), hmem, rfl⟩)
  have hin : key ∈ rows.map (·.rowId) :=
    List.mem_map.mpr ⟨target, (rowById_some hfind).1, htarget⟩
  have hne : rowId ≠ key := by
    rintro rfl
    exact hid hin
  simpa using hne

/-! ## The row in place of its candidate -/

section Commit

variable {rows : List ContextEntry} {calls : Calls} {facts : Facts} {units : List ContextUnit}
  {row candidate : ContextEntry}

theorem openCalls_commit (row : ContextEntry) {tools : List ToolCallBlock} {calls result : Calls} (calls' : Calls)
    (hp : calls'.pending.map Prod.fst = calls.pending.map Prod.fst)
    (h : tools.foldlM (openCall candidate) calls = .ok result) :
    ∃ result', tools.foldlM (openCall row) calls' = .ok result' ∧
      result'.results = calls'.results ∧ result.results = calls.results := by
  induction tools generalizing calls calls' with
  | nil =>
      obtain rfl := pure_ok h
      exact ⟨calls', rfl, rfl, rfl⟩
  | cons tool tools ih =>
      rw [List.foldlM_cons] at h ⊢
      obtain ⟨next, hnext, h⟩ := bind_ok h
      unfold openCall at hnext
      split at hnext
      · cases hnext
      · rename_i hfresh
        cases hnext
        have hopen : openCall row calls' tool = .ok { calls' with
            seen := tool.id :: calls'.seen
            pending := calls'.pending ++ [(tool.id, row, tool)] } := by
          rw [openCall, hp, if_neg hfresh]
        rw [bind_eq_ok hopen]
        obtain ⟨result', hresult, hnew, hold⟩ := ih { calls' with
          seen := tool.id :: calls'.seen
          pending := calls'.pending ++ [(tool.id, row, tool)] } (by simp [hp]) h
        exact ⟨result', hresult, hnew, hold⟩

theorem resultOf_ok {edits : List (String × String)} {call : ToolCallBlock}
    {result : ContextEntry} {m : ToolResultMessage}
    (hlookup : calls.results.lookup (row.contextSeq, call.id) = some (result, m))
    (hedit : edits.lookup result.rowId = none) :
    resultOf calls edits row call = .ok (some result, .toolResult m) := by
  simp [resultOf, hlookup, hedit]

/-- A unit can be shown when each of its results can. -/
theorem unitOf_ok_iff {edits : List (String × String)} {row : ContextEntry} :
    (∃ unit, unitOf calls edits row = .ok unit) ↔
      ∀ m tokens, row.body = .response m tokens → ∀ call ∈ m.toolCalls,
        ∃ entry, resultOf calls edits row call = .ok entry := by
  cases hb : row.body with
  | response m tokens =>
      have hiff : (∃ unit, unitOf calls edits row = .ok unit) ↔
          ∃ results, m.toolCalls.mapM' (resultOf calls edits row) = .ok results := by
        simp only [unitOf, hb]
        constructor
        · rintro ⟨unit, h⟩
          obtain ⟨results, hresults, -⟩ := bind_ok h
          exact ⟨results, hresults⟩
        · rintro ⟨results, hresults⟩
          rw [bind_eq_ok hresults]
          exact ⟨_, rfl⟩
      rw [hiff, mapM'_ok_iff]
      constructor
      · rintro h _ _ ⟨⟩
        exact h
      · exact fun h => h m tokens rfl
  | _ => simp [unitOf, hb]

/-- Only the stored row tells a committed message from its candidate. -/
theorem indexRow_commit {result : Calls} (hbody : row.body = candidate.body)
    (h : indexRow calls candidate = .ok result) :
    ∃ result', indexRow calls row = .ok result' ∧
      ((result'.results = calls.results ∧ result.results = calls.results) ∨
        ∃ key m, row.body = .toolResult m ∧ result'.results = (key, row, m) :: calls.results) := by
  unfold indexRow at h ⊢
  rw [hbody]
  cases hb : candidate.body with
  | toolResult m =>
      simp only [hb] at h ⊢
      split at h
      · split at h <;> cases h
      · rename_i response call hlookup
        split at h
        · cases h
        · rename_i hname
          rw [if_neg hname]
          exact ⟨_, rfl, .inr ⟨(response.contextSeq, call.id), m, rfl, rfl⟩⟩
  | response m tokens =>
      simp only [hb] at h ⊢
      obtain ⟨result', hresult, hnew, hold⟩ := openCalls_commit row calls rfl h
      exact ⟨result', hresult, .inl ⟨hnew, hold⟩⟩
  | _ =>
      simp only [hb] at h ⊢
      cases h
      exact ⟨_, rfl, .inl ⟨rfl, rfl⟩⟩

theorem resultOf_congr {calls calls' : Calls} {edits : List (String × String)}
    {r r' : ContextEntry} (hresults : calls'.results = calls.results)
    (hseq : r'.contextSeq = r.contextSeq) :
    resultOf calls' edits r' = resultOf calls edits r := by
  funext call
  simp only [resultOf, hresults, hseq]

theorem collectRow_message {find : String → Option ContextEntry}
    (hm : row.body.hasMessage = true) : collectRow find facts row = .ok facts := by
  unfold collectRow
  cases hb : row.body <;> simp_all [Body.hasMessage]

/-- A candidate's own id hides nothing that an edit names. -/
theorem collect_candidate {facts' : Facts} (h : collect (rowById rows) rows = .ok facts)
    (hc : collect (rowById (rows ++ [candidate])) (rows ++ [candidate]) = .ok facts')
    (hm : candidate.body.hasMessage = true)
    (hlt : ∀ r ∈ rows, r.contextSeq < candidate.contextSeq) : facts' = facts := by
  rw [collect_concat] at hc
  obtain ⟨before, hbefore, hc⟩ := bind_ok hc
  rw [collectRow_message hm] at hc
  cases hc
  have hsame : collect (rowById rows) rows = .ok facts' := by
    refine collect_mono hbefore fun r hr id target ht hlow => ?_
    rw [rowById_concat] at ht
    split at ht
    · cases ht
      exact absurd hlow (Nat.not_lt.mpr (hlt r hr).le)
    · exact ht
  exact Except.ok.inj (hsame.symm.trans h)

/-- The calls with the new row, and that every unit can still be shown with them. -/
theorem indexResults_commit {calls' : Calls} {units' : List ContextUnit}
    (h : Parts rows calls facts units) (hc : Parts (rows ++ [candidate]) calls' facts units')
    (hbody : row.body = candidate.body) (hseq : row.contextSeq = candidate.contextSeq)
    (hid : row.rowId ∉ rows.map (·.rowId)) :
    ∃ result, indexResults (rows ++ [row]) = .ok result ∧
      ∀ r ∈ shownRows facts (rows ++ [row]), ∃ unit, unitOf result facts.edits r = .ok unit := by
  have hindex := hc.calls_ok
  rw [indexResults_concat, bind_eq_ok h.calls_ok] at hindex
  obtain ⟨result, hresult, hcase⟩ := indexRow_commit hbody hindex
  refine ⟨result, by rw [indexResults_concat, bind_eq_ok h.calls_ok, hresult], fun r hr => ?_⟩
  have hold : ∀ r ∈ shownRows facts rows, ∃ unit, unitOf calls facts.edits r = .ok unit :=
    mapM'_ok_iff.mp ⟨_, h.units_ok⟩
  rw [unitOf_ok_iff]
  intro m tokens hresponse call hcall
  rw [shownRows, List.filter_append, List.mem_append] at hr
  rcases hr with hr | hr
  · obtain ⟨entry, hentry⟩ := unitOf_ok_iff.mp (hold r hr) m tokens hresponse call hcall
    rcases hcase with ⟨hsame, -⟩ | ⟨key, message, -, hnew⟩
    · exact ⟨entry, by rw [resultOf_congr hsame rfl, hentry]⟩
    · -- the new result is read as it is: no edit names its row
      by_cases hkey : (r.contextSeq, call.id) = key
      · have hlookup : result.results.lookup (r.contextSeq, call.id) = some (row, message) := by
          rw [hnew, hkey, List.lookup_cons_self]
        exact ⟨_, resultOf_ok hlookup (lookup_edits_fresh h.facts_ok hid)⟩
      · refine ⟨entry, ?_⟩
        rw [← hentry]
        have hlookup : result.results.lookup (r.contextSeq, call.id) =
            calls.results.lookup (r.contextSeq, call.id) := by
          rw [hnew, List.lookup_cons, beq_eq_false_iff_ne.mpr hkey]
        simp only [resultOf, hlookup]
  · obtain ⟨hr, hshown⟩ := List.mem_filter.mp hr
    obtain rfl := List.mem_singleton.mp hr
    rcases hcase with ⟨hsame, hsame'⟩ | ⟨key, message, htool, -⟩
    · have hcand : candidate ∈ shownRows facts (rows ++ [candidate]) :=
        List.mem_filter.mpr ⟨by simp, by rw [← hbody, ← hseq]; exact hshown⟩
      have hunit := mapM'_ok_iff.mp ⟨_, hc.units_ok⟩ candidate hcand
      obtain ⟨entry, hentry⟩ :=
        unitOf_ok_iff.mp hunit m tokens (hbody ▸ hresponse) call hcall
      exact ⟨entry, by rw [resultOf_congr (hsame.trans hsame'.symm) hseq, hentry]⟩
    · rw [htool] at hresponse
      cases hresponse

/-- The view with the committed row has the same checkpoint. -/
theorem Parts.committed {calls' : Calls} {facts' : Facts} {units' : List ContextUnit}
    (h : Parts rows calls facts units) (hc : Parts (rows ++ [candidate]) calls' facts' units')
    (hbody : row.body = candidate.body) (hseq : row.contextSeq = candidate.contextSeq)
    (hm : row.body.hasMessage = true) (hid : row.rowId ∉ rows.map (·.rowId))
    (hlt : ∀ r ∈ rows, r.contextSeq < row.contextSeq) :
    ∃ result shown, Parts (rows ++ [row]) result facts shown := by
  obtain rfl := collect_candidate h.facts_ok hc.facts_ok (hbody ▸ hm) (hseq ▸ hlt)
  obtain ⟨result, hresult, hall⟩ := indexResults_commit h hc hbody hseq hid
  obtain ⟨shown, hshown⟩ := mapM'_ok_iff.mpr hall
  refine ⟨result, shown, hresult, ?_, hshown, ?_, h.sorted⟩
  · rw [collect_concat, bind_eq_ok (collect_mono h.facts_ok fun _ _ _ _ ht _ =>
      rowById_fresh hid ht), collectRow_message hm]
  · intro seq hkept
    rw [earlierInputs, List.filter_append, List.map_append]
    exact List.mem_append_left _ (h.placed seq hkept)

theorem collectRow_compaction {find : String → Option ContextEntry} {facts facts' : Facts}
    {row : ContextEntry} (h : collectRow find facts row = .ok facts') :
    facts'.compaction = facts.compaction ∨
      ∃ payload, row.body = .compaction payload ∧ facts'.compaction = some (row, payload) := by
  unfold collectRow at h
  cases hb : row.body with
  | compaction payload =>
      simp only [hb] at h
      cases h
      exact .inr ⟨payload, rfl, rfl⟩
  | contextEdit edit =>
      simp only [hb] at h
      split at h
      · cases h
      · split at h
        · cases h
          exact .inl rfl
        · cases h
  | _ =>
      simp only [hb] at h
      cases h
      exact .inl rfl

/-- The latest compaction is a row of the transcript. -/
theorem collect_compaction {find : String → Option ContextEntry} {rows : List ContextEntry}
    {facts : Facts} (h : collect find rows = .ok facts) {r : ContextEntry} {payload : Compaction}
    (hc : facts.compaction = some (r, payload)) : r ∈ rows ∧ r.body = .compaction payload := by
  induction rows using List.reverseRecOn generalizing facts with
  | nil =>
      obtain rfl := pure_ok h
      cases hc
  | append_singleton rows row ih =>
      rw [collect_concat] at h
      obtain ⟨before, hbefore, h⟩ := bind_ok h
      rcases collectRow_compaction h with hsame | ⟨p, hbody, hnew⟩
      · obtain ⟨hr, hb⟩ := ih hbefore (hsame ▸ hc)
        exact ⟨List.mem_append_left _ hr, hb⟩
      · rw [hnew] at hc
        cases hc
        exact ⟨by simp, hbody⟩

/-- Every new row comes after the first one that the latest checkpoint shows. -/
theorem Parts.firstKept_le (h : Parts rows calls facts units) (hsound : ∀ r ∈ rows, r.Sound)
    (hlt : ∀ r ∈ rows, r.contextSeq < row.contextSeq) : facts.firstKept ≤ row.contextSeq := by
  unfold Facts.firstKept
  cases hc : facts.compaction with
  | none => exact Nat.zero_le _
  | some found =>
      obtain ⟨hr, hbody⟩ := collect_compaction h.facts_ok hc
      have hshape := (hsound _ hr).1
      simp only [ContextEntry.shape, hbody, Bool.and_eq_true, decide_eq_true_eq] at hshape
      exact hshape.2.trans (hlt _ hr).le

/-- A new row is shown last when it leads a unit. -/
theorem selectedRows_concat (hle : facts.firstKept ≤ row.contextSeq) :
    selectedRows facts (rows ++ [row]) =
      selectedRows facts rows ++ [row].filter (·.body.leads) := by
  have hearlier : earlierInputs facts (rows ++ [row]) = earlierInputs facts rows := by
    rw [earlierInputs, List.filter_append]
    simp [earlierInputs, Nat.not_lt.mpr hle]
  rw [selectedRows, selectedRows, keptRows, keptRows, hearlier, List.append_assoc]
  congr 1
  rw [shownRows, List.filter_append]
  congr 1
  simp [List.filter_cons, hle]

end Commit

/-- The unit is an input's. -/
def ContextUnit.isInput (unit : ContextUnit) : Bool := unit.lead.any (·.body.isInput)

/-- The inputs that a view shows. -/
def ContextView.inputs (view : ContextView) : List ContextUnit :=
  view.units.filter ContextUnit.isInput

/-- The unit that an input's row makes. -/
def inputUnit (row : ContextEntry) : Option ContextUnit :=
  match row.body with
  | .input m => some ⟨row.contextSeq, [(some row, .user m)]⟩
  | _ => none

theorem inputUnit_seq {row : ContextEntry} {unit : ContextUnit} (h : inputUnit row = some unit) :
    unit.seq = row.contextSeq := by
  cases hb : row.body with
  | input m =>
      simp only [inputUnit, hb] at h
      cases h
      rfl
  | _ => simp [inputUnit, hb] at h

theorem inputUnit_isSome {row : ContextEntry} (h : row.body.isInput = true) :
    ∃ unit, inputUnit row = some unit := by
  cases hb : row.body with
  | input m => exact ⟨⟨row.contextSeq, [(some row, .user m)]⟩, by simp only [inputUnit, hb]⟩
  | _ => simp [hb, Body.isInput] at h

/-- The inputs of a view are the inputs among its rows. -/
theorem Parts.inputs_eq {rows : List ContextEntry} {calls : Calls} {facts : Facts}
    {units : List ContextUnit} (h : Parts rows calls facts units) :
    (assemble rows facts units).inputs = (selectedRows facts rows).filterMap inputUnit := by
  obtain ⟨hunits, hall⟩ := h.units_eq
  rw [ContextView.inputs, hunits]
  have hleads : ∀ r ∈ selectedRows facts rows, r.body.leads = true := fun r hr =>
    (mem_selectedRows hr).2
  generalize selectedRows facts rows = selected at hall hleads
  induction selected with
  | nil => rfl
  | cons r selected ih =>
      obtain ⟨hr, hall⟩ := List.forall_mem_cons.mp hall
      obtain ⟨hlead, hleads⟩ := List.forall_mem_cons.mp hleads
      have hunit : (unitAt calls facts.edits r).isInput = r.body.isInput := by
        rw [ContextUnit.isInput, (unitOf_lead hr hlead).2]
        rfl
      rw [List.map_cons, List.filter_cons, hunit, ih hall hleads, List.filterMap_cons]
      cases hb : r.body with
      | input m =>
          have hinput : r.body.isInput = true := by rw [hb]; rfl
          obtain ⟨m', hm, hof⟩ := unitOf_input calls facts.edits hinput
          cases hb.symm.trans hm
          rw [unitAt_of_ok hof]
          simp [inputUnit, hb, Body.isInput]
      | _ => simp [inputUnit, hb, Body.isInput]

/-- A validated message joins the view: the checkpoint stays, and the inputs are those
before and the new one. -/
theorem contextView_committed {entries : List ContextEntry} {view view' : ContextView}
    {row candidate : ContextEntry} (hv : contextView entries none = .ok view)
    (hc : contextView (entries ++ [candidate]) none = .ok view')
    (hbody : row.body = candidate.body) (hseq : row.contextSeq = candidate.contextSeq)
    (hm : row.body.hasMessage = true) (hid : row.rowId ∉ entries.map (·.rowId))
    (hlt : ∀ e ∈ entries, e.contextSeq < row.contextSeq) :
    ∃ shown, contextView (entries ++ [row]) none = .ok shown ∧
      shown.compaction = view.compaction ∧
      shown.inputs = view.inputs ++ (inputUnit row).toList := by
  obtain ⟨rows, calls, facts, units, hrows, hparts, rfl⟩ := contextView_iff.mp hv
  obtain ⟨rows', calls', facts', units', hrows', hparts', -⟩ := contextView_iff.mp hc
  obtain ⟨before, hbefore, rfl, hsound⟩ := ordered_concat_inv hrows' (hseq ▸ hlt)
  cases hrows.symm.trans hbefore
  have hmem : ∀ r, r ∈ rows ↔ r ∈ entries := fun r => mem_of_ordered hrows
  have hltRows : ∀ r ∈ rows, r.contextSeq < row.contextSeq := fun r hr => hlt r ((hmem r).mp hr)
  have hidRows : row.rowId ∉ rows.map (·.rowId) := by
    intro hin
    obtain ⟨r, hr, heq⟩ := List.mem_map.mp hin
    exact hid (List.mem_map.mpr ⟨r, (hmem r).mp hr, heq⟩)
  have hsound : row.Sound := by
    refine ⟨?_, hbody ▸ hsound.2⟩
    unfold ContextEntry.shape
    cases hb : row.body with
    | compaction _ | replayRefusal _ _ => simp [hb, Body.hasMessage] at hm
    | _ => rfl
  obtain ⟨result, shown, hshown⟩ := hparts.committed hparts' hbody hseq hm hidRows hltRows
  refine ⟨_, contextView_iff.mpr ⟨_, _, _, _, ordered_concat hrows hsound hlt, hshown, rfl⟩, rfl, ?_⟩
  have hle := hparts.firstKept_le (ordered_iff.mp hrows).2.2 hltRows
  rw [hshown.inputs_eq, hparts.inputs_eq, selectedRows_concat hle, List.filterMap_append]
  congr 1
  cases hb : row.body <;> simp [inputUnit, hb, Body.leads]

end Avibe.Context
