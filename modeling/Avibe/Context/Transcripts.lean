import Avibe.Context.Appends
import Avibe.Lib.Machine

/-!
# Transcripts that stay projectable

A transcript grows by validated messages and by compactions. Every such run keeps
it projectable, and an input stays in the view as long as the compactions of the
run name it among the inputs of the Turn in flight.
-/

namespace Avibe.Context

open Avibe.Agent Checked Machine

/-- A write to the transcript. -/
inductive Act where
  | append (rowId : String) (body : Body)
  | compact (rowId : String) (search : Search) (args : CheckpointArgs) (tokensAfter : Nat)

/-- A compaction keeps the inputs that it names as those of the Turn in flight. -/
def Act.Keeps : Act → Nat → Prop
  | .append _ _, _ => True
  | .compact _ _ args _, seq => seq ∈ args.turnInputs

section Runs

variable (unitTokens : ContextUnit → Nat)
  (renderSummary : CheckpointArgs → ContextView → Nat → Bool → String) (sessionId : String)

/-- The row under the next number. -/
def nextRow (entries : List ContextEntry) (rowId : String) (body : Body) : ContextEntry :=
  ⟨sessionId, nextSeq entries, rowId, body⟩

/-- The transcript after a write that goes through. The store gives a row an id of its own. -/
def step (entries : List ContextEntry) : Act → Option (List ContextEntry)
  | .append rowId body =>
      if body.hasMessage ∧ rowId ∉ entries.map (·.rowId) ∧
          (validateMessageAppend entries sessionId body).isOk then
        some (entries ++ [nextRow sessionId entries rowId body])
      else none
  | .compact rowId search args tokensAfter => do
      let view ← (contextView entries none).toOption
      let cut ← search.cut unitTokens view.units args.turnInputs view.pinned
      let payload ← (compactionPayload renderSummary view cut args).toOption
      if rowId ∈ entries.map (·.rowId) then none
      else some (entries ++ [nextRow sessionId entries rowId
        (.compaction { payload with tokensAfterEstimate := tokensAfter })])

/-- The transcript after a run. -/
abbrev transcriptAfter (entries : List ContextEntry) (run : List Act) : List ContextEntry :=
  after (ofStep (step unitTokens renderSummary sessionId)) entries run

variable {unitTokens renderSummary}

/-- One compaction, from the view to the view. -/
theorem contextView_compact {entries : List ContextEntry} {view : ContextView}
    (hv : contextView entries none = .ok view) (hpos : ∀ e ∈ entries, 0 < e.contextSeq)
    {cut : Nat} {args : CheckpointArgs} {payload : Compaction}
    (hp : compactionPayload renderSummary view cut args = .ok payload) (tokensAfter : Nat)
    {rowId : String} (hid : rowId ∉ entries.map (·.rowId)) :
    ∃ view', contextView (entries ++ [nextRow sessionId entries rowId
        (.compaction { payload with tokensAfterEstimate := tokensAfter })]) none = .ok view' ∧
      view'.units = keptUnits view args.turnInputs cut ++ view.units.drop cut ∧
      view'.messages = (keptUnits view args.turnInputs cut).flatMap ContextUnit.messages ++
        .user payload.message :: (view.units.drop cut).flatMap ContextUnit.messages ∧
      view'.compaction = some (nextRow sessionId entries rowId
        (.compaction { payload with tokensAfterEstimate := tokensAfter }),
          { payload with tokensAfterEstimate := tokensAfter }) ∧
      view'.summarizedTo = summarizedToSeq view cut := by
  have hbody : (nextRow sessionId entries rowId
      (.compaction { payload with tokensAfterEstimate := tokensAfter })).body =
        .compaction { payload with tokensAfterEstimate := tokensAfter } := rfl
  obtain ⟨view', hview, hcompaction, hcheckpoint, hunits, hpinned⟩ :=
    contextView_compacted renderSummary hv hpos hp tokensAfter hbody
      (fun e he => lt_nextSeq he) hid
  obtain ⟨-, -, -, -, -, hto⟩ := compactionPayload_ok renderSummary hp
  refine ⟨view', hview, hunits, ?_, hcompaction, ?_⟩
  · rw [messages_of_pinned hunits hpinned, hcheckpoint]
    simp
  · rw [ContextView.summarizedTo, hcompaction]
    exact hto

/-- What a compaction does not name as the Turn's is the only input it takes out. -/
theorem mem_compacted {view : ContextView} {turnInputs : List Nat} {cut : Nat}
    {unit : ContextUnit} (hmem : unit ∈ view.units) (hinput : unit.isInput = true)
    (hturn : unit.seq ∈ turnInputs) :
    unit ∈ keptUnits view turnInputs cut ++ view.units.drop cut := by
  rw [← List.take_append_drop cut view.units] at hmem
  rcases List.mem_append.mp hmem with hmem | hmem
  · refine List.mem_append_left _ (List.mem_filter.mpr ⟨hmem, ?_⟩)
    simp only [inTurn, Bool.and_eq_true, decide_eq_true_eq]
    exact ⟨hinput, hturn⟩
  · exact List.mem_append_right _ hmem

variable {sessionId}

/-- What one write keeps: the transcript projects, and an input that the write does not
take out is still shown. -/
structure Kept (entries' : List ContextEntry) (view : ContextView) (stays : Nat → Prop) :
    Prop where
  positive : ∀ e ∈ entries', 0 < e.contextSeq
  projects : ∃ view', contextView entries' none = .ok view' ∧
    view.summarizedTo ≤ view'.summarizedTo ∧
    ∀ unit ∈ view.units, unit.isInput = true → stays unit.seq → unit ∈ view'.units

theorem positive_concat {entries : List ContextEntry} (hpos : ∀ e ∈ entries, 0 < e.contextSeq)
    (rowId : String) (body : Body) :
    ∀ e ∈ entries ++ [nextRow sessionId entries rowId body], 0 < e.contextSeq := by
  intro e he
  rcases List.mem_append.mp he with he | he
  · exact hpos e he
  · rw [List.mem_singleton.mp he]
    exact Nat.succ_pos _

theorem step_append {entries entries' : List ContextEntry} {view : ContextView} {rowId : String}
    {body : Body} (hv : contextView entries none = .ok view)
    (h : step unitTokens renderSummary sessionId entries (.append rowId body) = some entries') :
    entries' = entries ++ [nextRow sessionId entries rowId body] ∧
      ∃ view', contextView entries' none = .ok view' ∧ view'.compaction = view.compaction ∧
        view'.inputs = view.inputs ++ (inputUnit (nextRow sessionId entries rowId body)).toList := by
  rw [step] at h
  split at h
  · rename_i hok
    obtain ⟨hm, hid, hvalid⟩ := hok
    cases h
    obtain ⟨u, hvalid⟩ := isOk_ok hvalid
    obtain ⟨candidate, hcandidate, -⟩ := bind_ok hvalid
    have hbody : (nextRow sessionId entries rowId body).body = body := rfl
    exact ⟨rfl, contextView_committed hv hcandidate hbody rfl hm hid fun e he => lt_nextSeq he⟩
  · cases h

theorem step_compact {entries entries' : List ContextEntry} {view : ContextView}
    {rowId : String} {search : Search} {args : CheckpointArgs} {tokensAfter : Nat}
    (hv : contextView entries none = .ok view)
    (h : step unitTokens renderSummary sessionId entries
      (.compact rowId search args tokensAfter) = some entries') :
    ∃ cut payload, search.cut unitTokens view.units args.turnInputs view.pinned = some cut ∧
      compactionPayload renderSummary view cut args = .ok payload ∧
      rowId ∉ entries.map (·.rowId) ∧
      entries' = entries ++ [nextRow sessionId entries rowId
        (.compaction { payload with tokensAfterEstimate := tokensAfter })] := by
  rw [step, hv] at h
  obtain ⟨view', ⟨⟩, h⟩ := Option.bind_eq_some_iff.mp h
  obtain ⟨cut, hcut, h⟩ := Option.bind_eq_some_iff.mp h
  obtain ⟨payload, hpayload, h⟩ := Option.bind_eq_some_iff.mp h
  split at h
  · cases h
  · rename_i hid
    cases h
    exact ⟨cut, payload, hcut, toOption_ok hpayload, hid, rfl⟩

theorem step_kept {entries entries' : List ContextEntry} {view : ContextView} {act : Act}
    (hv : contextView entries none = .ok view) (hpos : ∀ e ∈ entries, 0 < e.contextSeq)
    (h : step unitTokens renderSummary sessionId entries act = some entries') :
    Kept entries' view act.Keeps := by
  cases act with
  | append rowId body =>
      obtain ⟨rfl, view', hview, hcompaction, hinputs⟩ := step_append hv h
      refine ⟨positive_concat hpos rowId body, view', hview, ?_, fun unit hunit hinput _ => ?_⟩
      · rw [ContextView.summarizedTo, ContextView.summarizedTo, hcompaction]
      · have hmem : unit ∈ view'.inputs := by
          rw [hinputs]
          exact List.mem_append_left _ (List.mem_filter.mpr ⟨hunit, hinput⟩)
        exact (List.mem_filter.mp hmem).1
  | compact rowId search args tokensAfter =>
      obtain ⟨cut, payload, -, hp, hid, rfl⟩ := step_compact hv h
      obtain ⟨view', hview, hunits, -, -, hto⟩ :=
        contextView_compact sessionId hv hpos hp tokensAfter hid
      refine ⟨positive_concat hpos rowId _, view', hview, ?_, fun unit hunit hinput hturn => ?_⟩
      · rw [hto]
        exact le_summarizedToSeq view cut
      · rw [hunits]
        exact mem_compacted hunit hinput hturn

/-- What a run keeps. -/
theorem run_kept {entries : List ContextEntry} {view : ContextView}
    (hv : contextView entries none = .ok view) (hpos : ∀ e ∈ entries, 0 < e.contextSeq)
    (run : List Act) :
    Kept (transcriptAfter unitTokens renderSummary sessionId entries run) view
      fun seq => ∀ act ∈ run, act.Keeps seq := by
  induction run generalizing entries view with
  | nil => exact ⟨hpos, view, hv, Nat.le_refl _, fun unit hunit _ _ => hunit⟩
  | cons act run ih =>
      rw [transcriptAfter, after_cons, ofStep]
      cases hs : step unitTokens renderSummary sessionId entries act with
      | none =>
          obtain ⟨hpos', view', hview, hto, hunits⟩ := ih hv hpos
          exact ⟨hpos', view', hview, hto, fun unit hunit hinput hstays =>
            hunits unit hunit hinput fun a ha => hstays a (List.mem_cons_of_mem _ ha)⟩
      | some entries' =>
          obtain ⟨hpos', view', hview, hto, hunits⟩ := step_kept hv hpos hs
          obtain ⟨hpos', view'', hview', hto', hunits'⟩ := ih hview hpos'
          refine ⟨hpos', view'', hview', hto.trans hto', fun unit hunit hinput hstays => ?_⟩
          obtain ⟨hact, hrun⟩ := List.forall_mem_cons.mp hstays
          exact hunits' unit (hunits unit hunit hinput hact) hinput hrun

/-- Compaction preserves what the model still needs. A cut of any search gives a row whose
view is the Turn's inputs before the cut, the summary, and the units from the cut on; and a
transcript stays projectable under any run of validated messages and compactions, with every
input in its view that the compactions name as the Turn's. -/
theorem compactions_project (unitTokens : ContextUnit → Nat)
    (renderSummary : CheckpointArgs → ContextView → Nat → Bool → String) (sessionId : String)
    {entries : List ContextEntry} {view : ContextView}
    (hv : contextView entries none = .ok view) (hpos : ∀ e ∈ entries, 0 < e.contextSeq) :
    (∀ (search : Search) (args : CheckpointArgs) (cut : Nat),
      search.cut unitTokens view.units args.turnInputs view.pinned = some cut →
      ∃ payload, compactionPayload renderSummary view cut args = .ok payload ∧
        ∀ (tokensAfter : Nat) (rowId : String), rowId ∉ entries.map (·.rowId) →
          ∃ view', contextView (entries ++ [nextRow sessionId entries rowId
              (.compaction { payload with tokensAfterEstimate := tokensAfter })]) none =
                .ok view' ∧
            view'.units = keptUnits view args.turnInputs cut ++ view.units.drop cut ∧
            view'.messages = (keptUnits view args.turnInputs cut).flatMap ContextUnit.messages ++
              .user payload.message :: (view.units.drop cut).flatMap ContextUnit.messages ∧
            view.summarizedTo ≤ view'.summarizedTo) ∧
    ∀ before later : List Act, ∃ now next : ContextView,
      contextView (transcriptAfter unitTokens renderSummary sessionId entries before) none =
        .ok now ∧
      contextView (transcriptAfter unitTokens renderSummary sessionId entries
        (before ++ later)) none = .ok next ∧
      now.summarizedTo ≤ next.summarizedTo ∧
      ∀ unit ∈ now.units, unit.isInput = true → (∀ act ∈ later, act.Keeps unit.seq) →
        unit ∈ next.units := by
  constructor
  · intro search args cut hcut
    obtain ⟨hlt, hpin⟩ := Search.cut_bounds hcut
    obtain ⟨payload, hp⟩ := compactionPayload_total renderSummary args hlt hpin
    refine ⟨payload, hp, fun tokensAfter rowId hid => ?_⟩
    obtain ⟨view', hview, hunits, hmessages, -, hto⟩ :=
      contextView_compact sessionId hv hpos hp tokensAfter hid
    exact ⟨view', hview, hunits, hmessages, hto ▸ le_summarizedToSeq view cut⟩
  · intro before later
    obtain ⟨hpos', now, hnow, -, -⟩ := run_kept hv hpos before
    obtain ⟨-, next, hnext, hto, hunits⟩ := run_kept hnow hpos' later
    rw [transcriptAfter, ← after_append] at hnext
    exact ⟨now, next, hnow, hnext, hto, hunits⟩

end Runs

/-! ## One Turn, compacted -/

def sampleInput : UserMessage := ⟨[.text (text "fix the test")]⟩

def sampleCall : ToolCallBlock := ⟨"call-1", "read", "{}", none, none⟩

def sampleReply (content : List AssistantContent) (reason : StopReason) : AssistantMessage :=
  { content := content
    origin := ⟨"p", "a", "m"⟩
    stopReason := reason
    usage := none
    errorMessage := none
    hostedSummary := none
    sourceIdentity := none
    hostedRenderEpoch := none
    hostedRenderRule := none
    hostedRenderOmitted := []
    transcriptRowId := none }

def sampleResult : ToolResultMessage := ⟨"call-1", "read", [.text (text "ok")], false, none⟩

/-- An input, a tool call with its result, and a second response of the same Turn. -/
def sampleRows : List ContextEntry :=
  [⟨"s", 1, "r1", .input sampleInput⟩,
    ⟨"s", 2, "r2", .response (sampleReply [.toolCall sampleCall] .toolUse) none⟩,
    ⟨"s", 3, "r3", .toolResult sampleResult⟩,
    ⟨"s", 4, "r4", .response (sampleReply [.text (text "done")] .stop) none⟩]

def sampleArgs : CheckpointArgs :=
  { mode := .normal
    reason := .threshold
    checkpoint := "read the test"
    state := []
    earlierRecord := none
    tokensBefore := 3
    threshold := 2
    window := 8
    summarizer := none
    usage := none
    checkpointOmitted := false
    turnInputs := [1]
    mind := ""
    mindShown := none
    memo := []
    skills := [] }

/-- The view of the rows above. -/
def sampleView : ContextView :=
  { compaction := none
    checkpoint := none
    units := [
      ⟨1, [(some ⟨"s", 1, "r1", .input sampleInput⟩, .user sampleInput)]⟩,
      ⟨2, [(some ⟨"s", 2, "r2", .response (sampleReply [.toolCall sampleCall] .toolUse) none⟩,
          .assistant (sampleReply [.toolCall sampleCall] .toolUse)),
        (some ⟨"s", 3, "r3", .toolResult sampleResult⟩, .toolResult sampleResult)]⟩,
      ⟨4, [(some ⟨"s", 4, "r4", .response (sampleReply [.text (text "done")] .stop) none⟩,
        .assistant (sampleReply [.text (text "done")] .stop))]⟩]
    cleared := []
    contextSeq := 4
    state := "{}"
    pinned := 0
    opaqueRefused := []
    edited := [] }

theorem compactions_project_sample :
    contextView sampleRows none = .ok sampleView ∧
      halfCut (fun _ => 1) sampleView.units [1] sampleView.pinned = some 2 ∧
      ∃ payload, compactionPayload (fun args _ _ _ => args.checkpoint) sampleView 2 sampleArgs =
        .ok payload := by
  have hcut : halfCut (fun _ => 1) sampleView.units [1] sampleView.pinned = some 2 := by decide
  have hv : contextView sampleRows none = .ok sampleView := rfl
  obtain ⟨payload, hp, -⟩ := (compactions_project (fun _ => 1) (fun args _ _ _ => args.checkpoint)
    "s" hv (by decide)).1 .half sampleArgs 2 hcut
  exact ⟨hv, hcut, payload, hp⟩

/-- The summary is not the first message: the Turn's input stands before it. -/
theorem kept_input_before_summary :
    ∃ payload view', compactionPayload (fun args _ _ _ => args.checkpoint) sampleView 2
        sampleArgs = .ok payload ∧
      contextView sampleRows none = .ok sampleView ∧
      halfCut (fun _ => 1) sampleView.units sampleArgs.turnInputs sampleView.pinned = some 2 ∧
      contextView (sampleRows ++ [nextRow "s" sampleRows "r5" (.compaction payload)]) none =
        .ok view' ∧
      view'.messages ≠ .user payload.message ::
        (keptUnits sampleView sampleArgs.turnInputs 2 ++ sampleView.units.drop 2).flatMap
          ContextUnit.messages :=
  ⟨_, _, rfl, rfl, by decide, rfl, by decide⟩

end Avibe.Context
