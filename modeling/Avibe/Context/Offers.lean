import Avibe.Context.Layout
import Avibe.Context.Memo

/-!
# Every typed message is offered once

A run of messages and checkpoints, with the numbers that the checkpoints' lists
showed as new. The latest compaction row tells which inputs the view still shows:
those after its boundary and those it kept.
-/

namespace Avibe.Context

open Avibe.Agent SortOn Checked Machine

/-- A transcript with the numbers that its checkpoints' lists showed as new. -/
structure Record where
  entries : List ContextEntry
  listed : List Nat

/-- `checked` is what the checkpoint's turn left checked, none when it chose nothing. -/
inductive Write where
  | append (rowId : String) (body : Body)
  | checkpoint (rowId : String) (search : Search) (args : CheckpointArgs)
      (checked : Option (List Nat)) (tokensAfter : Nat)

section Runs

variable (unitTokens : ContextUnit → Nat)
  (renderSummary : CheckpointArgs → ContextView → Nat → Bool → String) (sessionId : String)
  (clip : String → Nat → String) (entryTokens : MemoItem → Nat) (memoBudget : Nat → Nat)
  (typed : String → Option String)

/-- The arguments of a checkpoint with its memo. -/
def withMemo (entries : List ContextEntry) (view : ContextView) (cut : Nat)
    (args : CheckpointArgs) (checked : Option (List Nat)) : CheckpointArgs :=
  let selected := (memoList clip typed entries view args.turnInputs cut).select checked
  { args with memo := fitMemo clip entryTokens selected (memoBudget args.window) }

/-- The view and the cut of a checkpoint. -/
def cutAt (entries : List ContextEntry) (search : Search) (args : CheckpointArgs) :
    Option (ContextView × Nat) := do
  let view ← (contextView entries none).toOption
  let cut ← search.cut unitTokens view.units args.turnInputs view.pinned
  return (view, cut)

def writeStep (record : Record) : Write → Option Record
  | .append rowId body => do
      let entries ← step unitTokens renderSummary sessionId record.entries (.append rowId body)
      return { record with entries := entries }
  | .checkpoint rowId search args checked tokensAfter => do
      let (view, cut) ← cutAt unitTokens record.entries search args
      let entries ← step unitTokens renderSummary sessionId record.entries
        (.compact rowId search
          (withMemo clip entryTokens memoBudget typed record.entries view cut args checked)
          tokensAfter)
      let list := memoList clip typed record.entries view args.turnInputs cut
      return ⟨entries, record.listed ++ list.new.map (·.seq)⟩

/-- No result of a response before the cut came after an input that stays. -/
def Timely (view : ContextView) (cut : Nat) : Prop :=
  ∀ unit ∈ view.units.take cut, ∀ row ∈ unit.rows,
    ∀ input ∈ view.units.drop cut, input.isInput = true → row.contextSeq < input.seq

/-- The checkpoint, if the write is one, is taken at a timely cut. -/
def TimelyWrite (record : Record) : Write → Prop
  | .append _ _ => True
  | .checkpoint _ search args _ _ =>
      ∀ view cut, cutAt unitTokens record.entries search args = some (view, cut) →
        Timely view cut

variable {unitTokens renderSummary sessionId clip entryTokens memoBudget typed}

/-- The numbers of the inputs that a view shows. -/
def ContextView.shownInputs (view : ContextView) : List Nat := view.inputs.map (·.seq)

/-- A typed input of the transcript that the view no longer shows. -/
def Gone (typed : String → Option String) (entries : List ContextEntry) (view : ContextView)
    (seq : Nat) : Prop :=
  ∃ row ∈ entries, row.body.isInput = true ∧ row.contextSeq = seq ∧
    (typed row.rowId).isSome = true ∧ seq ∉ view.shownInputs

/-- What holds of a transcript and its lists. -/
structure Offers (typed : String → Option String) (record : Record) (view : ContextView) :
    Prop where
  projects : contextView record.entries none = .ok view
  positive : ∀ e ∈ record.entries, 0 < e.contextSeq
  memo : ∀ c ∈ view.compaction, c.2.memo.isSome = true
  bound : view.summarizedTo < nextSeq record.entries
  shown : ∀ row ∈ record.entries, row.body.isInput = true →
    (row.contextSeq ∈ view.shownInputs ↔
      view.summarizedTo < row.contextSeq ∨ row.contextSeq ∈ view.released)
  listed : ∀ seq, seq ∈ record.listed ↔ Gone typed record.entries view seq
  nodup : record.listed.Nodup
  carried : ∀ item ∈ carriedItems view, item.seq ∈ record.listed
  carriedIncreasing : Increasing MemoItem.seq (carriedItems view)

theorem Offers.boundary {record : Record} {view : ContextView} (h : Offers typed record view) :
    (memoBounds view).boundary = view.summarizedTo := by
  have hmemo : view.compaction.any (·.2.memo.isNone) = false := by
    cases hc : view.compaction with
    | none => rfl
    | some c =>
        have := h.memo c hc
        cases hm : c.2.memo <;> simp_all
  rw [memoBounds]
  simp [hmemo, ContextView.summarizedTo]

theorem offers_empty : Offers typed ⟨[], []⟩
    { compaction := none, checkpoint := none, units := [], cleared := [], contextSeq := 0,
      state := "{}", pinned := 0, opaqueRefused := [], edited := [] } where
  projects := rfl
  positive := fun _ h => (by cases h)
  memo := fun _ h => (by cases h)
  bound := Nat.one_pos
  shown := fun _ h => (by cases h)
  listed := fun seq => ⟨fun h => (by cases h), fun ⟨_, h, _⟩ => (by cases h)⟩
  nodup := List.nodup_nil
  carried := fun _ h => (by cases h)
  carriedIncreasing := List.Pairwise.nil

/-! ## A message -/

theorem Offers.append {record : Record} {view : ContextView} {rowId : String} {body : Body}
    {record' : Record} (h : Offers typed record view)
    (hs : writeStep unitTokens renderSummary sessionId clip entryTokens memoBudget typed record
      (.append rowId body) = some record') :
    ∃ view', Offers typed record' view' := by
  obtain ⟨entries', hstep, hs⟩ := Option.bind_eq_some_iff.mp hs
  cases hs
  obtain ⟨rfl, view', hview, hcompaction, hinputs⟩ := step_append h.projects hstep
  have hto : view'.summarizedTo = view.summarizedTo := by
    rw [ContextView.summarizedTo, ContextView.summarizedTo, hcompaction]
  have hreleased : view'.released = view.released := by
    rw [ContextView.released, ContextView.released, hcompaction]
  have hcarried : carriedItems view' = carriedItems view := by
    rw [carriedItems, carriedItems, hcompaction]
  have hbound : nextSeq record.entries < nextSeq (record.entries ++
      [nextRow sessionId record.entries rowId body]) := by
    have hmem : nextRow sessionId record.entries rowId body ∈
      record.entries ++ [nextRow sessionId record.entries rowId body] := by simp
    exact lt_nextSeq hmem
  -- the earlier inputs are shown as before, and the new one is shown
  have hold : ∀ row ∈ record.entries,
      (row.contextSeq ∈ view'.shownInputs ↔ row.contextSeq ∈ view.shownInputs) := by
    intro row hrow
    have hlt := lt_nextSeq hrow
    rw [ContextView.shownInputs, hinputs, List.map_append, List.mem_append]
    refine ⟨fun hin => hin.resolve_right fun hin => ?_, .inl⟩
    obtain ⟨unit, hunit, hseq⟩ := List.mem_map.mp hin
    have := inputUnit_seq (Option.mem_toList.mp hunit)
    rw [hseq] at this
    exact absurd this hlt.ne
  have hnew : body.isInput = true → nextSeq record.entries ∈ view'.shownInputs := by
    intro hb
    have hrow : (nextRow sessionId record.entries rowId body).body.isInput = true := hb
    obtain ⟨unit, hunit⟩ := inputUnit_isSome hrow
    rw [ContextView.shownInputs, hinputs, hunit, List.map_append, List.mem_append]
    exact .inr (by simp [inputUnit_seq hunit, nextRow])
  refine ⟨view', hview, positive_concat h.positive rowId body, hcompaction ▸ h.memo,
    hto ▸ h.bound.trans hbound, fun row hrow hinput => ?_, fun seq => ?_, h.nodup,
    hcarried ▸ h.carried, hcarried ▸ h.carriedIncreasing⟩
  · rw [hto, hreleased]
    rcases List.mem_append.mp hrow with hrow | hrow
    · rw [hold row hrow]
      exact h.shown row hrow hinput
    · rw [List.mem_singleton.mp hrow] at hinput ⊢
      exact iff_of_true (hnew hinput) (.inl h.bound)
  · rw [h.listed seq]
    constructor
    · rintro ⟨row, hrow, hinput, rfl, htyped, hgone⟩
      exact ⟨row, List.mem_append_left _ hrow, hinput, rfl, htyped,
        fun hin => hgone ((hold row hrow).mp hin)⟩
    · rintro ⟨row, hrow, hinput, rfl, htyped, hgone⟩
      rcases List.mem_append.mp hrow with hrow | hrow
      · exact ⟨row, hrow, hinput, rfl, htyped, fun hin => hgone ((hold row hrow).mpr hin)⟩
      · rw [List.mem_singleton.mp hrow] at hinput hgone
        exact absurd (hnew hinput) hgone

/-! ## A checkpoint -/

/-- The inputs before a cut. -/
def headInputs (view : ContextView) (cut : Nat) : List Nat :=
  ((view.units.take cut).filter ContextUnit.isInput).map (·.seq)

/-- The inputs from a cut on. -/
def tailInputs (view : ContextView) (cut : Nat) : List Nat :=
  ((view.units.drop cut).filter ContextUnit.isInput).map (·.seq)

theorem mem_shownInputs_cut {view : ContextView} (cut : Nat) {seq : Nat} :
    seq ∈ view.shownInputs ↔ seq ∈ headInputs view cut ∨ seq ∈ tailInputs view cut := by
  rw [← List.mem_append, headInputs, tailInputs, ← List.map_append, ← List.filter_append,
    List.take_append_drop]
  rfl

theorem mem_keptUnits {view : ContextView} {turnInputs : List Nat} {cut seq : Nat} :
    seq ∈ (keptUnits view turnInputs cut).map (·.seq) ↔
      seq ∈ headInputs view cut ∧ seq ∈ turnInputs := by
  simp only [keptUnits, headInputs, List.mem_map, List.mem_filter, inTurn, Bool.and_eq_true,
    decide_eq_true_eq]
  constructor
  · rintro ⟨unit, ⟨hunit, hinput, hturn⟩, rfl⟩
    exact ⟨⟨unit, ⟨hunit, hinput⟩, rfl⟩, hturn⟩
  · rintro ⟨⟨unit, ⟨hunit, hinput⟩, rfl⟩, hturn⟩
    exact ⟨unit, ⟨hunit, hinput, hturn⟩, rfl⟩

section Cut

variable {record : Record} {view : ContextView} {cut : Nat}

theorem Offers.head_le (h : Offers typed record view) {seq : Nat}
    (hseq : seq ∈ headInputs view cut) : seq ≤ summarizedToSeq view cut := by
  obtain ⟨unit, hunit, rfl⟩ := List.mem_map.mp hseq
  exact (contextView_laid h.projects).le_summarizedToSeq (List.mem_filter.mp hunit).1

/-- An input that stays is past what the cut summarizes, and no earlier checkpoint kept it. -/
theorem Offers.tail_lt (h : Offers typed record view) (hpin : view.pinned ≤ cut)
    (ht : Timely view cut) {seq : Nat} (hseq : seq ∈ tailInputs view cut) :
    summarizedToSeq view cut < seq ∧ seq ∉ view.released := by
  have hlaid := contextView_laid h.projects
  have hshown : seq ∈ view.shownInputs := (mem_shownInputs_cut cut).mpr (.inr hseq)
  obtain ⟨unit, hunit, rfl⟩ := List.mem_map.mp hseq
  obtain ⟨hunit, hinput⟩ := List.mem_filter.mp hunit
  have hreleased : unit.seq ∉ view.released := by
    rw [hlaid.released]
    intro hin
    obtain ⟨pinned, hpinned, hseq⟩ := List.mem_map.mp hin
    exact absurd hseq (hlaid.seq_ne (List.take_subset_take_left _ hpin hpinned) hunit).ne
  obtain ⟨row, hrow, hlead, hrowSeq⟩ := hlaid.lead unit (List.mem_of_mem_drop hunit)
  have hrowInput : row.body.isInput = true := by
    rw [ContextUnit.isInput, hlead] at hinput
    exact hinput
  have hlt := ((h.shown row hrow hrowInput).mp (hrowSeq ▸ hshown)).resolve_right
    (hrowSeq ▸ hreleased)
  rw [hrowSeq] at hlt
  exact ⟨summarizedToSeq_lt_iff.mpr ⟨hlt, fun u hu r hr => ht u hu r hr unit hunit hinput⟩,
    hreleased⟩

/-- The new items are the typed inputs that the cut takes out. -/
theorem Offers.new_iff (h : Offers typed record view) (hpin : view.pinned ≤ cut)
    (ht : Timely view cut) (turnInputs : List Nat) {seq : Nat} :
    seq ∈ (newItems clip typed record.entries view turnInputs cut).map (·.seq) ↔
      ∃ row ∈ record.entries, row.body.isInput = true ∧ row.contextSeq = seq ∧
        (typed row.rowId).isSome = true ∧ seq ∈ headInputs view cut ∧ seq ∉ turnInputs := by
  rw [mem_newItems h.positive]
  constructor
  · rintro ⟨row, hoffered, rfl, htyped⟩
    obtain ⟨hrow, hinput, hbounds, hkept, -⟩ := mem_offered.mp hoffered
    rw [h.boundary] at hbounds
    have hshown : row.contextSeq ∈ view.shownInputs :=
      (h.shown row hrow hinput).mpr (hbounds.imp_left And.left)
    rcases (mem_shownInputs_cut cut).mp hshown with hhead | htail
    · exact ⟨row, hrow, hinput, rfl, htyped, hhead, fun hturn =>
        hkept (mem_keptUnits.mpr ⟨hhead, hturn⟩)⟩
    · obtain ⟨hlt, hnot⟩ := h.tail_lt hpin ht htail
      rcases hbounds with ⟨-, hle⟩ | hin
      · exact absurd hlt (Nat.not_lt.mpr hle)
      · exact absurd hin hnot
  · rintro ⟨row, hrow, hinput, rfl, htyped, hhead, hturn⟩
    have hshown : row.contextSeq ∈ view.shownInputs := (mem_shownInputs_cut cut).mpr (.inl hhead)
    refine ⟨row, mem_offered.mpr ⟨hrow, hinput, ?_, ?_, ?_⟩, rfl, htyped⟩
    · rw [h.boundary]
      exact ((h.shown row hrow hinput).mp hshown).imp_left fun hlt => ⟨hlt, h.head_le hhead⟩
    · exact fun hkept => hturn (mem_keptUnits.mp hkept).2
    · intro hknown
      obtain ⟨item, hitem, hseq⟩ := List.mem_map.mp hknown
      obtain ⟨-, -, -, -, -, hgone⟩ := (h.listed _).mp (h.carried item hitem)
      exact hgone (hseq ▸ hshown)

theorem entries_nodup (hv : contextView record.entries none = .ok view) :
    (record.entries.map (·.contextSeq)).Nodup := by
  obtain ⟨rows, -, -, -, hrows, -, -⟩ := contextView_iff.mp hv
  obtain ⟨rfl, hinc, -⟩ := ordered_iff.mp hrows
  exact ((sortOn_perm ContextEntry.contextSeq record.entries).map _).nodup_iff.mp hinc.nodup

theorem newItems_nodup (hv : contextView record.entries none = .ok view)
    (turnInputs : List Nat) (cut : Nat) :
    ((newItems clip typed record.entries view turnInputs cut).map (·.seq)).Nodup := by
  have hoffered : ((offered record.entries view turnInputs cut).map (·.contextSeq)).Sublist
      (record.entries.map (·.contextSeq)) := List.Sublist.map _ List.filter_sublist
  refine (entries_nodup hv).sublist (List.Sublist.trans ?_ hoffered)
  clear hoffered
  unfold newItems
  generalize offered record.entries view turnInputs cut = rows
  induction rows with
  | nil => exact List.Sublist.slnil
  | cons row rows ih =>
      rw [List.filterMap_cons]
      split
      · exact ih.cons _
      · rename_i item hitem
        obtain ⟨text, -, hitem⟩ := Option.bind_eq_some_iff.mp hitem
        rw [List.map_cons, List.map_cons, memoItem_seq hitem]
        exact ih.cons_cons _

/-- Nothing that a list showed before is new again. -/
theorem Offers.new_fresh (h : Offers typed record view) (hpin : view.pinned ≤ cut)
    (ht : Timely view cut) (turnInputs : List Nat) {seq : Nat}
    (hseq : seq ∈ (newItems clip typed record.entries view turnInputs cut).map (·.seq)) :
    seq ∉ record.listed := by
  intro hin
  obtain ⟨-, -, -, -, -, hhead, -⟩ := (h.new_iff hpin ht turnInputs).mp hseq
  obtain ⟨-, -, -, -, -, hgone⟩ := (h.listed seq).mp hin
  exact hgone ((mem_shownInputs_cut cut).mpr (.inl hhead))

/-- No number is on a list twice. -/
theorem Offers.list_increasing (h : Offers typed record view) (hpin : view.pinned ≤ cut)
    (ht : Timely view cut) (turnInputs : List Nat) :
    Increasing MemoItem.seq (memoList clip typed record.entries view turnInputs cut).items := by
  refine sortOn_increasing ?_
  rw [List.map_append, List.nodup_append]
  refine ⟨h.carriedIncreasing.nodup, newItems_nodup h.projects turnInputs cut, ?_⟩
  rintro _ hcarried seq hnew rfl
  obtain ⟨item, hitem, hseq⟩ := List.mem_map.mp hcarried
  exact h.new_fresh hpin ht turnInputs hnew (hseq ▸ h.carried item hitem)

theorem mem_new_seqs {entries : List ContextEntry} {turnInputs : List Nat} {seq : Nat} :
    seq ∈ (memoList clip typed entries view turnInputs cut).new.map (·.seq) ↔
      seq ∈ (newItems clip typed entries view turnInputs cut).map (·.seq) := by
  simp only [List.mem_map, mem_memoList_new]

theorem mem_items_seqs {entries : List ContextEntry} {turnInputs : List Nat} {seq : Nat} :
    seq ∈ (memoList clip typed entries view turnInputs cut).items.map (·.seq) ↔
      seq ∈ (carriedItems view).map (·.seq) ∨
        seq ∈ (newItems clip typed entries view turnInputs cut).map (·.seq) := by
  simp only [memoList, List.mem_map, mem_sortOn, List.mem_append, or_and_right, exists_or]

end Cut

/-- The memo of a checkpoint carries items of its list only. -/
theorem withMemo_seqs (entries : List ContextEntry) (view : ContextView) (cut : Nat)
    (args : CheckpointArgs) (checked : Option (List Nat)) :
    ((withMemo clip entryTokens memoBudget typed entries view cut args checked).memo.map
      (·.seq)).Sublist
        ((memoList clip typed entries view args.turnInputs cut).items.map (·.seq)) :=
  (fitMemo_seqs _ _).trans (List.Sublist.map _ List.filter_sublist)

/-- What a checkpoint write did. -/
theorem writeStep_checkpoint {record record' : Record} {view : ContextView} {rowId : String}
    {search : Search} {args : CheckpointArgs} {checked : Option (List Nat)} {tokensAfter : Nat}
    (hv : contextView record.entries none = .ok view)
    (hpos : ∀ e ∈ record.entries, 0 < e.contextSeq)
    (hs : writeStep unitTokens renderSummary sessionId clip entryTokens memoBudget typed record
      (.checkpoint rowId search args checked tokensAfter) = some record') :
    ∃ cut row view', cutAt unitTokens record.entries search args = some (view, cut) ∧
      view.pinned ≤ cut ∧
      record' = ⟨record.entries ++ [row], record.listed ++
        (memoList clip typed record.entries view args.turnInputs cut).new.map (·.seq)⟩ ∧
      row.body.isInput = false ∧ row.contextSeq = nextSeq record.entries ∧
      contextView record'.entries none = .ok view' ∧
      view'.units = keptUnits view args.turnInputs cut ++ view.units.drop cut ∧
      view'.summarizedTo = summarizedToSeq view cut ∧
      view'.released = (keptUnits view args.turnInputs cut).map (·.seq) ∧
      view'.compaction.all (·.2.memo.isSome) = true ∧
      carriedItems view' = (withMemo clip entryTokens memoBudget typed record.entries view cut args
        checked).memo := by
  obtain ⟨⟨view₀, cut⟩, hcut, hs⟩ := Option.bind_eq_some_iff.mp hs
  obtain ⟨entries', hstep, hs⟩ := Option.bind_eq_some_iff.mp hs
  cases hs
  have hat := hcut
  rw [cutAt, hv] at hcut
  obtain ⟨_, ⟨⟩, hcut⟩ := Option.bind_eq_some_iff.mp hcut
  obtain ⟨c, hsearch, hcut⟩ := Option.bind_eq_some_iff.mp hcut
  cases hcut
  obtain ⟨c, payload, hsearch', hp, hid, rfl⟩ := step_compact hv hstep
  cases hsearch.symm.trans hsearch'
  obtain ⟨view', hview, hunits, -, hcompaction, hto⟩ :=
    contextView_compact sessionId hv hpos hp tokensAfter hid
  obtain ⟨first, -, -, -, hkept, -⟩ := compactionPayload_ok renderSummary hp
  have hmemo := compactionPayload_memo renderSummary hp
  refine ⟨cut, _, view', hat, (Search.cut_bounds hsearch).2, rfl, rfl, rfl, hview, hunits, hto,
    ?_, ?_, ?_⟩
  · rw [ContextView.released, hcompaction]
    exact hkept
  · rw [hcompaction]
    simp [hmemo]
  · rw [carriedItems, hcompaction]
    simp [hmemo]

/-- What the view shows after a checkpoint. -/
theorem mem_shownInputs_compacted {view view' : ContextView} {turnInputs : List Nat}
    {cut seq : Nat} (hunits : view'.units = keptUnits view turnInputs cut ++ view.units.drop cut) :
    seq ∈ view'.shownInputs ↔
      (seq ∈ headInputs view cut ∧ seq ∈ turnInputs) ∨ seq ∈ tailInputs view cut := by
  have hall : (keptUnits view turnInputs cut).filter ContextUnit.isInput =
      keptUnits view turnInputs cut := by
    refine List.filter_eq_self.mpr fun unit hunit => ?_
    have hturn := (List.mem_filter.mp hunit).2
    simp only [inTurn, Bool.and_eq_true] at hturn
    exact hturn.1
  rw [ContextView.shownInputs, ContextView.inputs, hunits, List.filter_append, hall,
    List.map_append, List.mem_append, mem_keptUnits]
  rfl

/-- A row that is no input brings no typed message. -/
theorem gone_concat {entries : List ContextEntry} {view : ContextView} {row : ContextEntry}
    (hbody : row.body.isInput = false) {seq : Nat} :
    Gone typed (entries ++ [row]) view seq ↔ Gone typed entries view seq := by
  constructor
  · rintro ⟨r, hr, hinput, hrest⟩
    rcases List.mem_append.mp hr with hr | hr
    · exact ⟨r, hr, hinput, hrest⟩
    · rw [List.mem_singleton.mp hr, hbody] at hinput
      cases hinput
  · rintro ⟨r, hr, hrest⟩
    exact ⟨r, List.mem_append_left _ hr, hrest⟩

section Compacted

variable {record : Record} {view view' : ContextView} {turnInputs : List Nat} {cut : Nat}

theorem Offers.not_tail (h : Offers typed record view) (hpin : view.pinned ≤ cut)
    (ht : Timely view cut) {seq : Nat} (hhead : seq ∈ headInputs view cut) :
    seq ∉ tailInputs view cut := fun htail =>
  absurd (h.tail_lt hpin ht htail).1 (Nat.not_lt.mpr (h.head_le hhead))

theorem Offers.shown_compacted (h : Offers typed record view) (hpin : view.pinned ≤ cut)
    (ht : Timely view cut)
    (hunits : view'.units = keptUnits view turnInputs cut ++ view.units.drop cut)
    (hto : view'.summarizedTo = summarizedToSeq view cut)
    (hreleased : view'.released = (keptUnits view turnInputs cut).map (·.seq))
    {row : ContextEntry} (hrow : row ∈ record.entries) (hinput : row.body.isInput = true) :
    row.contextSeq ∈ view'.shownInputs ↔
      view'.summarizedTo < row.contextSeq ∨ row.contextSeq ∈ view'.released := by
  rw [mem_shownInputs_compacted hunits, hto, hreleased, mem_keptUnits, or_comm]
  refine or_congr_left ⟨fun htail => (h.tail_lt hpin ht htail).1, fun hgt => ?_⟩
  have hshown : row.contextSeq ∈ view.shownInputs := (h.shown row hrow hinput).mpr
    (.inl ((le_summarizedToSeq view cut).trans_lt hgt))
  refine ((mem_shownInputs_cut cut).mp hshown).resolve_left fun hhead => ?_
  exact absurd hgt (Nat.not_lt.mpr (h.head_le hhead))

theorem Offers.listed_compacted (h : Offers typed record view) (hpin : view.pinned ≤ cut)
    (ht : Timely view cut)
    (hunits : view'.units = keptUnits view turnInputs cut ++ view.units.drop cut) (seq : Nat) :
    seq ∈ record.listed ++
        (memoList clip typed record.entries view turnInputs cut).new.map (·.seq) ↔
      Gone typed record.entries view' seq := by
  rw [List.mem_append, h.listed, mem_new_seqs, h.new_iff hpin ht]
  constructor
  · rintro (⟨row, hrow, hinput, rfl, htyped, hgone⟩ |
      ⟨row, hrow, hinput, rfl, htyped, hhead, hturn⟩)
    · refine ⟨row, hrow, hinput, rfl, htyped, fun hin => hgone ?_⟩
      rw [mem_shownInputs_cut cut]
      exact ((mem_shownInputs_compacted hunits).mp hin).imp_left And.left
    · refine ⟨row, hrow, hinput, rfl, htyped, fun hin => ?_⟩
      rcases (mem_shownInputs_compacted hunits).mp hin with ⟨-, hin⟩ | htail
      · exact hturn hin
      · exact h.not_tail hpin ht hhead htail
  · rintro ⟨row, hrow, hinput, rfl, htyped, hgone⟩
    rw [mem_shownInputs_compacted hunits, not_or, not_and] at hgone
    by_cases hhead : row.contextSeq ∈ headInputs view cut
    · exact .inr ⟨row, hrow, hinput, rfl, htyped, hhead, hgone.1 hhead⟩
    · refine .inl ⟨row, hrow, hinput, rfl, htyped, fun hin => ?_⟩
      exact ((mem_shownInputs_cut cut).mp hin).elim hhead hgone.2

theorem Offers.nodup_compacted (h : Offers typed record view) (hpin : view.pinned ≤ cut)
    (ht : Timely view cut) (turnInputs : List Nat) :
    (record.listed ++
      (memoList clip typed record.entries view turnInputs cut).new.map (·.seq)).Nodup := by
  refine List.nodup_append.mpr ⟨h.nodup, ?_, ?_⟩
  · exact (h.list_increasing hpin ht turnInputs).nodup.sublist
      (List.Sublist.map _ List.filter_sublist)
  · rintro _ hlisted seq hin rfl
    exact h.new_fresh hpin ht turnInputs (mem_new_seqs.mp hin) hlisted

/-- The items of a list were shown as new by it or before. -/
theorem Offers.mem_items (h : Offers typed record view) {seq : Nat}
    (hseq : seq ∈ (memoList clip typed record.entries view turnInputs cut).items.map (·.seq)) :
    seq ∈ record.listed ++
      (memoList clip typed record.entries view turnInputs cut).new.map (·.seq) := by
  rw [List.mem_append, mem_new_seqs]
  refine (mem_items_seqs.mp hseq).imp_left fun hin => ?_
  obtain ⟨item, hitem, rfl⟩ := List.mem_map.mp hin
  exact h.carried item hitem

end Compacted

theorem Offers.checkpoint {record record' : Record} {view : ContextView} {rowId : String}
    {search : Search} {args : CheckpointArgs} {checked : Option (List Nat)} {tokensAfter : Nat}
    (h : Offers typed record view)
    (ht : TimelyWrite unitTokens record (.checkpoint rowId search args checked tokensAfter))
    (hs : writeStep unitTokens renderSummary sessionId clip entryTokens memoBudget typed record
      (.checkpoint rowId search args checked tokensAfter) = some record') :
    ∃ view', Offers typed record' view' := by
  obtain ⟨cut, row, view', hat, hpin, rfl, hbody, hseq, hview, hunits, hto, hreleased, hmemo,
    hcarried⟩ := writeStep_checkpoint h.projects h.positive hs
  have ht : Timely view cut := ht view cut hat
  have hsub : ((carriedItems view').map (·.seq)).Sublist
      ((memoList clip typed record.entries view args.turnInputs cut).items.map (·.seq)) := by
    rw [hcarried]
    exact withMemo_seqs _ _ _ _ _
  refine ⟨view', hview, ?_, ?_, ?_, ?_, ?_, h.nodup_compacted hpin ht args.turnInputs, ?_, ?_⟩
  · intro e he
    rcases List.mem_append.mp he with he | he
    · exact h.positive e he
    · rw [List.mem_singleton.mp he, hseq]
      exact Nat.succ_pos _
  · intro c hc
    rw [Option.mem_def.mp hc] at hmemo
    simpa using hmemo
  · rw [hto]
    have hrow : row ∈ record.entries ++ [row] := by simp
    have hlt := (contextView_laid h.projects).summarizedToSeq_lt h.bound cut
    exact hlt.trans (hseq ▸ lt_nextSeq hrow)
  · intro r hr hinput
    rcases List.mem_append.mp hr with hr | hr
    · exact h.shown_compacted hpin ht hunits hto hreleased hr hinput
    · rw [List.mem_singleton.mp hr, hbody] at hinput
      cases hinput
  · intro seq
    rw [gone_concat hbody]
    exact h.listed_compacted hpin ht hunits seq
  · exact fun item hitem => h.mem_items (hsub.subset (List.mem_map_of_mem hitem))
  · have hinc : Increasing MemoItem.seq
        (memoList clip typed record.entries view args.turnInputs cut).items :=
      h.list_increasing hpin ht args.turnInputs
    exact List.pairwise_map.mp ((List.pairwise_map.mpr hinc).sublist hsub)

/-! ## Runs -/

section Main

variable (unitTokens renderSummary sessionId clip entryTokens memoBudget typed)

/-- The transcript and its lists after a run of writes. -/
abbrev recordAfter (run : List Write) : Record :=
  after (ofStep (writeStep unitTokens renderSummary sessionId clip entryTokens memoBudget typed))
    ⟨[], []⟩ run

/-- Every checkpoint of the run is taken at a timely cut. -/
abbrev TimelyRun (run : List Write) : Prop :=
  Along (ofStep (writeStep unitTokens renderSummary sessionId clip entryTokens memoBudget typed))
    (TimelyWrite unitTokens) ⟨[], []⟩ run

variable {unitTokens renderSummary sessionId clip entryTokens memoBudget typed}

theorem Offers.run {record : Record} {view : ContextView} (h : Offers typed record view)
    {run : List Write}
    (hrun : Along (ofStep (writeStep unitTokens renderSummary sessionId clip entryTokens memoBudget
      typed)) (TimelyWrite unitTokens) record run) :
    ∃ view', Offers typed (after (ofStep (writeStep unitTokens renderSummary sessionId clip
      entryTokens memoBudget typed)) record run) view' := by
  induction run generalizing record view with
  | nil => exact ⟨view, h⟩
  | cons write run ih =>
      obtain ⟨hw, hrun⟩ := hrun
      rw [after_cons]
      unfold ofStep at hrun ⊢
      cases hs : writeStep unitTokens renderSummary sessionId clip entryTokens memoBudget typed
          record write with
      | none =>
          rw [hs] at hrun
          exact ih h hrun
      | some record' =>
          rw [hs] at hrun
          have hnext : ∃ view', Offers typed record' view' := by
            cases write with
            | append rowId body => exact h.append hs
            | checkpoint rowId search args checked tokensAfter => exact h.checkpoint hw hs
          obtain ⟨view', h'⟩ := hnext
          exact ih h' hrun

end Main

/-- No typed message slips past the memo. After every run whose checkpoints are taken at
timely cuts, the numbers that lists showed as new are distinct, and they are those of the
typed inputs that are no longer shown; the list of the next checkpoint shows as new exactly
the typed inputs that its cut takes out, none of them for the second time and none that is
still shown after it, and it holds no number twice. -/
theorem typed_inputs_offered_once (unitTokens : ContextUnit → Nat)
    (renderSummary : CheckpointArgs → ContextView → Nat → Bool → String) (sessionId : String)
    (clip : String → Nat → String) (entryTokens : MemoItem → Nat) (memoBudget : Nat → Nat)
    (typed : String → Option String) {run : List Write}
    (hrun : TimelyRun unitTokens renderSummary sessionId clip entryTokens memoBudget typed run)
    {record : Record} (hrecord : record = recordAfter unitTokens renderSummary sessionId clip
      entryTokens memoBudget typed run) :
    ∃ view, contextView record.entries none = .ok view ∧
      record.listed.Nodup ∧
      (∀ seq, seq ∈ record.listed ↔ Gone typed record.entries view seq) ∧
      ∀ (rowId : String) (search : Search) (args : CheckpointArgs) (checked : Option (List Nat))
        (tokensAfter : Nat) (record' : Record),
        TimelyWrite unitTokens record (.checkpoint rowId search args checked tokensAfter) →
        writeStep unitTokens renderSummary sessionId clip entryTokens memoBudget typed record
          (.checkpoint rowId search args checked tokensAfter) = some record' →
        ∃ cut list view', search.cut unitTokens view.units args.turnInputs view.pinned = some cut ∧
          list = memoList clip typed record.entries view args.turnInputs cut ∧
          record'.listed = record.listed ++ list.new.map (·.seq) ∧
          Increasing MemoItem.seq list.items ∧
          (∀ seq, seq ∈ list.new.map (·.seq) ↔
            ∃ row ∈ record.entries, row.body.isInput = true ∧ row.contextSeq = seq ∧
              (typed row.rowId).isSome = true ∧ seq ∈ headInputs view cut ∧
                seq ∉ args.turnInputs) ∧
          contextView record'.entries none = .ok view' ∧
          ∀ seq ∈ view'.shownInputs, seq ∉ record'.listed := by
  subst hrecord
  obtain ⟨view, h⟩ := offers_empty.run hrun
  refine ⟨view, h.projects, h.nodup, h.listed, ?_⟩
  intro rowId search args checked tokensAfter record' htimely hs
  obtain ⟨cut, row, view', hat, hpin, rfl, hbody, -, hview, hunits, -⟩ :=
    writeStep_checkpoint h.projects h.positive hs
  have ht : Timely view cut := htimely view cut hat
  obtain ⟨_, hok, hcut⟩ := Option.bind_eq_some_iff.mp hat
  obtain ⟨_, hcut, hpair⟩ := Option.bind_eq_some_iff.mp hcut
  cases hpair
  refine ⟨cut, _, view', hcut, rfl, rfl, h.list_increasing hpin ht _, ?_, hview, ?_⟩
  · intro seq
    rw [mem_new_seqs, h.new_iff hpin ht]
  · intro seq hshown hlisted
    obtain ⟨-, -, -, -, -, hgone⟩ := (h.listed_compacted hpin ht hunits seq).mp hlisted
    exact hgone hshown

end Runs

/-! ## A result in time and a late one -/

def sampleCheckpoint : Write :=
  .checkpoint "r9" .half { sampleArgs with turnInputs := [] } none 0

abbrev sampleAfter (run : List Write) : Record :=
  recordAfter (fun _ => 1) (fun args _ _ _ => args.checkpoint) "s" (fun text _ => text)
    (fun _ => 1) (fun _ => 100) (fun _ => some "fix the test") run

/-- A typed message with its answer, then a checkpoint. -/
def promptRun : List Write :=
  [.append "r1" (.input sampleInput),
    .append "r2" (.response (sampleReply [.text (text "done")] .stop) none), sampleCheckpoint]

theorem typed_inputs_offered_once_prompt :
    (sampleAfter promptRun).listed = [1] ∧ (sampleAfter promptRun).listed.Nodup := by
  have hcut : cutAt (fun _ => 1) (sampleAfter (promptRun.take 2)).entries .half
      { sampleArgs with turnInputs := [] } = some
        ({ compaction := none
           checkpoint := none
           units := [⟨1, [(some ⟨"s", 1, "r1", .input sampleInput⟩, .user sampleInput)]⟩,
             ⟨2, [(some ⟨"s", 2, "r2",
                 .response (sampleReply [.text (text "done")] .stop) none⟩,
               .assistant (sampleReply [.text (text "done")] .stop))]⟩]
           cleared := []
           contextSeq := 2
           state := "{}"
           pinned := 0
           opaqueRefused := []
           edited := [] }, 1) := rfl
  have htimely : TimelyWrite (fun _ => 1) (sampleAfter (promptRun.take 2)) sampleCheckpoint := by
    intro view cut hat
    cases hcut.symm.trans hat
    unfold Timely
    decide
  have hrun : TimelyRun (fun _ => 1) (fun args _ _ _ => args.checkpoint) "s" (fun text _ => text)
      (fun _ => 1) (fun _ => 100) (fun _ => some "fix the test") promptRun :=
    ⟨trivial, trivial, htimely, trivial⟩
  obtain ⟨-, -, hnodup, -⟩ := typed_inputs_offered_once _ _ _ _ _ _ _ hrun rfl
  exact ⟨rfl, hnodup⟩

/-- A call, a message typed while it is open, its result after that message, and a
checkpoint between the two. -/
def lateRun : List Write :=
  [.append "r1" (.response (sampleReply [.toolCall sampleCall] .toolUse) none),
    .append "r2" (.input sampleInput), .append "r3" (.toolResult sampleResult), sampleCheckpoint]

/-- The list shows the message as new, and the context shows it still. -/
theorem late_result_offers_shown_input :
    (sampleAfter lateRun).listed = [2] ∧
      ∃ view, contextView (sampleAfter lateRun).entries none = .ok view ∧
        2 ∈ view.shownInputs :=
  ⟨rfl, _, rfl, by decide⟩

end Avibe.Context
