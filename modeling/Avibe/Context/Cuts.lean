import Avibe.Context.Projection

/-!
# Cuts and checkpoints

A cut is the index of the first unit that stays. The three searches differ in
how far they move it; all of them keep it behind the inputs that the latest
checkpoint kept, and none moves out the Turn's inputs alone.
-/

namespace Avibe.Context

open Avibe.Agent Checked

/-- The unit is an input of the Turn in flight. -/
def inTurn (turnInputs : List Nat) (unit : ContextUnit) : Bool :=
  unit.lead.any (·.body.isInput) && unit.seq ∈ turnInputs

/-! ## Cut points -/

section Cuts

variable (unitTokens : ContextUnit → Nat)

/-- How many of the Turn's inputs `units[:cut]` holds, and their tokens. -/
def turn (units : List ContextUnit) (turnInputs : List Nat) (cut : Nat) : Nat × Nat :=
  let kept := (units.take cut).filter (inTurn turnInputs)
  (kept.length, (kept.map unitTokens).sum)

def moves (count cut pinned : Nat) : Bool := pinned ≤ cut && count < cut

/-- The loop of `normal_cut`. -/
def normalLoop (units : List ContextUnit) (keep : Int) (turnInputs : List Nat) (pinned : Nat) :
    Nat → Nat
  | 0 => 0
  | cut + 1 =>
      let tail := ((units.drop cut).map unitTokens).sum
      if pinned < cut + 1 ∧ ((tail + (turn unitTokens units turnInputs cut).2 : Nat) : Int) ≤ keep
      then normalLoop units keep turnInputs pinned cut
      else cut + 1

def normalCut (units : List ContextUnit) (keep : Int) (turnInputs : List Nat) (pinned : Nat) :
    Option Nat :=
  if units = [] then none
  else
    let cut := normalLoop unitTokens units keep turnInputs pinned (units.length - 1)
    if moves (turn unitTokens units turnInputs cut).1 cut pinned then some cut else none

/-- Twice the distance between the tokens before a cut and half of all tokens. -/
def distance (units : List ContextUnit) (cut : Nat) : Nat :=
  let before := 2 * ((units.take cut).map unitTokens).sum
  let total := (units.map unitTokens).sum
  (before - total) + (total - before)

def halfCut (units : List ContextUnit) (turnInputs : List Nat) (pinned : Nat) : Option Nat :=
  (List.range' 1 (units.length - 1)).foldl
    (fun best cut =>
      if moves (turn unitTokens units turnInputs cut).1 cut pinned &&
          best.all (distance unitTokens units cut < distance unitTokens units ·)
      then some cut else best) none

/-- The loop of `rolling_cut`. -/
def rollingLoop (units : List ContextUnit) (fits : Nat → Bool) (turnInputs : List Nat)
    (pinned : Nat) : Nat → Option Nat
  | 0 => none
  | cut + 1 =>
      if moves (turn unitTokens units turnInputs (cut + 1)).1 (cut + 1) pinned && fits (cut + 1)
      then some (cut + 1)
      else rollingLoop units fits turnInputs pinned cut

def rollingCut (units : List ContextUnit) (fits : Nat → Bool) (turnInputs : List Nat)
    (pinned : Nat) : Option Nat :=
  (halfCut unitTokens units turnInputs pinned).bind
    (rollingLoop unitTokens units fits turnInputs pinned)

/-- A search for a cut. -/
inductive Search where
  | normal (keep : Int)
  | half
  | rolling (fits : Nat → Bool)

def Search.cut (units : List ContextUnit) (turnInputs : List Nat) (pinned : Nat) :
    Search → Option Nat
  | .normal keep => normalCut unitTokens units keep turnInputs pinned
  | .half => halfCut unitTokens units turnInputs pinned
  | .rolling fits => rollingCut unitTokens units fits turnInputs pinned

variable {unitTokens}

theorem moves_pinned {count cut pinned : Nat} (h : moves count cut pinned = true) :
    pinned ≤ cut := by
  simp only [moves, Bool.and_eq_true, decide_eq_true_eq] at h
  exact h.1

theorem normalLoop_le (unitTokens : ContextUnit → Nat) (units : List ContextUnit) (keep : Int) (turnInputs : List Nat)
    (pinned cut : Nat) : normalLoop unitTokens units keep turnInputs pinned cut ≤ cut := by
  induction cut with
  | zero => exact Nat.le_refl 0
  | succ cut ih =>
      rw [normalLoop]
      split
      · exact Nat.le_succ_of_le ih
      · exact Nat.le_refl _

theorem normalCut_bounds {units : List ContextUnit} {keep : Int} {turnInputs : List Nat}
    {pinned cut : Nat} (h : normalCut unitTokens units keep turnInputs pinned = some cut) :
    cut < units.length ∧ pinned ≤ cut := by
  unfold normalCut at h
  split at h
  · cases h
  · rename_i hne
    dsimp only at h
    split at h
    · rename_i hm
      cases h
      have hle := normalLoop_le unitTokens units keep turnInputs pinned
        (units.length - 1)
      have hpos : 0 < units.length := List.length_pos_iff.mpr hne
      exact ⟨by omega, moves_pinned hm⟩
    · cases h

theorem halfCut_bounds {units : List ContextUnit} {turnInputs : List Nat} {pinned cut : Nat}
    (h : halfCut unitTokens units turnInputs pinned = some cut) :
    cut < units.length ∧ pinned ≤ cut := by
  -- every candidate of the loop is within the bounds, and `best` is one of them
  have hloop : ∀ (l : List Nat) (best : Option Nat), (∀ c ∈ l, c < units.length) →
      (∀ c ∈ best, c < units.length ∧ pinned ≤ c) →
      ∀ c ∈ l.foldl (fun best cut =>
        if moves (turn unitTokens units turnInputs cut).1 cut pinned &&
            best.all (distance unitTokens units cut < distance unitTokens units ·)
        then some cut else best) best, c < units.length ∧ pinned ≤ c := by
    intro l
    induction l with
    | nil => exact fun _ _ hbest => hbest
    | cons c l ih =>
        intro best hl hbest
        rw [List.foldl_cons]
        refine ih _ (fun c hc => hl c (List.mem_cons_of_mem _ hc)) ?_
        split
        · rename_i hm
          intro c' hc'
          cases hc'
          rw [Bool.and_eq_true] at hm
          exact ⟨hl c List.mem_cons_self, moves_pinned hm.1⟩
        · exact hbest
  refine hloop _ none (fun c hc => ?_) (fun _ hc => (by cases hc)) cut h
  have := List.mem_range'_1.mp hc
  omega

theorem rollingLoop_bounds {units : List ContextUnit} {fits : Nat → Bool}
    {turnInputs : List Nat} {pinned start cut : Nat}
    (h : rollingLoop unitTokens units fits turnInputs pinned start = some cut) :
    cut ≤ start ∧ pinned ≤ cut := by
  induction start with
  | zero => cases h
  | succ start ih =>
      rw [rollingLoop] at h
      split at h
      · rename_i hm
        cases h
        rw [Bool.and_eq_true] at hm
        exact ⟨Nat.le_refl _, moves_pinned hm.1⟩
      · obtain ⟨hle, hp⟩ := ih h
        exact ⟨Nat.le_succ_of_le hle, hp⟩

/-- Every search stops before the last unit ends and behind the kept inputs. -/
theorem Search.cut_bounds {search : Search} {units : List ContextUnit} {turnInputs : List Nat}
    {pinned cut : Nat} (h : search.cut unitTokens units turnInputs pinned = some cut) :
    cut < units.length ∧ pinned ≤ cut := by
  cases search with
  | normal keep => exact normalCut_bounds h
  | half => exact halfCut_bounds h
  | rolling fits =>
      obtain ⟨start, hstart, hloop⟩ := Option.bind_eq_some_iff.mp h
      obtain ⟨hle, hp⟩ := rollingLoop_bounds hloop
      exact ⟨Nat.lt_of_le_of_lt hle (halfCut_bounds hstart).1, hp⟩

end Cuts

/-! ## The checkpoint -/

/-- The texts and figures that the caller of `compaction_payload` supplies. -/
structure CheckpointArgs where
  mode : CompactionMode
  reason : CompactionReason
  checkpoint : String
  state : List String
  earlierRecord : Option String
  tokensBefore : Nat
  threshold : Int
  window : Nat
  summarizer : Option Json
  usage : Option Json
  checkpointOmitted : Bool
  turnInputs : List Nat
  mind : String
  mindShown : Option String
  memo : List MemoItem
  skills : List Json

inductive PayloadError where
  | insidePinned (cut pinned : Nat)
  | noUnit (cut : Nat)
  deriving DecidableEq, Repr

def summarizedToSeq (view : ContextView) (cut : Nat) : Nat :=
  let previous := view.compaction.elim 0 (·.2.summarizedToSeq)
  let seqs := (view.units.take cut).flatMap fun unit =>
    unit.entries.filterMap fun entry => entry.1.map (·.contextSeq)
  seqs.foldl max previous

section Payload

variable (renderSummary : CheckpointArgs → ContextView → Nat → Bool → String)

/-- The compaction row's payload for a cut before `view.units[cut]`. -/
def compactionPayload (view : ContextView) (cut : Nat) (args : CheckpointArgs) :
    Except PayloadError Compaction := do
  require (view.pinned ≤ cut) (.insidePinned cut view.pinned)
  let kept := ((view.units.take cut).filter (inTurn args.turnInputs)).map (·.seq)
  let shownMind := args.mindShown.getD args.mind
  let first ← found view.units[cut]? (.noUnit cut)
  return {
    mode := args.mode
    reason := args.reason
    summary := renderSummary args view cut (kept ≠ [])
    checkpoint := args.checkpoint
    state := args.state
    firstKeptSeq := first.seq
    summarizedToSeq := summarizedToSeq view cut
    previousCompactionId := view.compaction.map (·.1.rowId)
    keptInputs := kept
    mind := args.mind
    mindTruncated := shownMind ≠ args.mind
    memo := some args.memo
    tokensBefore := args.tokensBefore
    tokensAfterEstimate := 0
    threshold := args.threshold
    summarizer := args.summarizer
    usage := args.usage }

end Payload

end Avibe.Context
