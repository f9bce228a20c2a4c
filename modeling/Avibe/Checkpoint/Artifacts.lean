import Avibe.Lib.Recency
import Avibe.Lib.Texts

/-!
# Artifacts

The files a session has read and modified, as each checkpoint stores them: the calls of the units it
summarizes are put ahead of what the checkpoint before it stored, each list is cut to its bound, and a
mark says whether a path was ever pushed out. `storedFiles_spec` says that the lists are those of the
whole history, wherever the checkpoints fall.
-/

namespace Avibe.Checkpoint

open Texts Recency

def artifactsRead : Nat := 5

def artifactsModified : Nat := 10

structure ToolCall where
  name : Text
  /-- The argument `path`, when it is a string. -/
  path : Option Text
deriving DecidableEq

structure ToolResult where
  /-- A row holds the result: it was not made up for an interrupted call. -/
  recorded : Bool
  isError : Bool
deriving DecidableEq

structure TurnUnit where
  /-- The calls of the message that leads the unit, when that is the assistant's. -/
  calls : Option (List ToolCall)
  results : List ToolResult
deriving DecidableEq

structure Artifacts where
  read : List Text
  readOmitted : Bool
  modified : List Text
  modifiedOmitted : Bool
deriving DecidableEq

/-- What a checkpoint without a predecessor starts from. -/
def Artifacts.empty : Artifacts := ⟨[], false, [], false⟩

/-- The touched paths, in touch order, ahead of the earlier ones, and whether any was pushed out. -/
def recent (touched earlier : List Text) (omitted : Bool) (limit : Nat) : List Text × Bool :=
  let paths := unique (touched.reverse ++ earlier)
  (paths.take limit, omitted || decide (limit < paths.length))

/-- The path of a call that succeeded. -/
def pathOf (call : ToolCall) (result : ToolResult) : Option Text :=
  if !result.recorded || result.isError then none else call.path.filter (· ≠ [])

/-- The paths of the successful calls with one of the names, in the order of the calls. -/
def paths (names : List Text) (head : List TurnUnit) : List Text :=
  head.flatMap fun unit =>
    (((unit.calls.getD []).zip unit.results).filter fun pair => pair.1.name ∈ names).filterMap
      fun pair => pathOf pair.1 pair.2

def readPaths : List TurnUnit → List Text := paths [lit "read"]

def modifiedPaths : List TurnUnit → List Text := paths [lit "write", lit "edit"]

/-- The artifacts of a checkpoint over the units of its head. -/
def files (previous : Artifacts) (head : List TurnUnit) : Artifacts :=
  let modified := modifiedPaths head
  let listed := recent modified previous.modified previous.modifiedOmitted artifactsModified
  let unchanged := fun path => path ∉ modified ++ listed.1
  let read := recent ((readPaths head).filter unchanged) (previous.read.filter unchanged)
    previous.readOmitted artifactsRead
  ⟨read.1, read.2, listed.1, listed.2⟩

/-- What the last of a row of checkpoints stores. -/
def storedFiles (heads : List (List TurnUnit)) : Artifacts := heads.foldl files Artifacts.empty

/-! ## Touches -/

/-- A successful call with a path. -/
structure Touch where
  tool : Text
  path : Text
deriving DecidableEq

/-- The touches of the calls of one message, in their order: each call is taken with the result at its
place, and one that has no recorded result, failed or has no path touches nothing. -/
inductive Touches : List ToolCall → List ToolResult → List Touch → Prop where
  | noCall (results : List ToolResult) : Touches [] results []
  | noResult (calls : List ToolCall) : Touches calls [] []
  | touch {call : ToolCall} {result : ToolResult} {path : Text} {calls : List ToolCall}
      {results : List ToolResult} {touches : List Touch} : result.recorded = true →
      result.isError = false → call.path = some path → path ≠ [] → Touches calls results touches →
      Touches (call :: calls) (result :: results) (⟨call.name, path⟩ :: touches)
  | other {call : ToolCall} {result : ToolResult} {calls : List ToolCall} {results : List ToolResult}
      {touches : List Touch} : (result.recorded = false ∨ result.isError = true ∨ call.path = none ∨
        call.path = some []) → Touches calls results touches →
      Touches (call :: calls) (result :: results) touches

/-- The touches of a history, in their order; a unit that no assistant leads has none. -/
inductive History : List TurnUnit → List Touch → Prop where
  | nil : History [] []
  | other {unit : TurnUnit} {units : List TurnUnit} {touches : List Touch} : unit.calls = none →
      History units touches → History (unit :: units) touches
  | calls {unit : TurnUnit} {calls : List ToolCall} {units : List TurnUnit} {now later : List Touch} :
      unit.calls = some calls → Touches calls unit.results now → History units later →
      History (unit :: units) (now ++ later)

/-- The paths that the touches of the tools with these names are on. -/
def pathsBy (names : List Text) (touches : List Touch) : List Text :=
  (touches.filter fun t => t.tool ∈ names).map Touch.path

theorem pathOf_success {call : ToolCall} {result : ToolResult} {path : Text}
    (hrecorded : result.recorded = true) (herror : result.isError = false) (hpath : call.path = some path)
    (hne : path ≠ []) : pathOf call result = some path := by
  simp [pathOf, hrecorded, herror, hpath, hne]

theorem pathOf_other {call : ToolCall} {result : ToolResult} (h : result.recorded = false ∨
    result.isError = true ∨ call.path = none ∨ call.path = some []) : pathOf call result = none := by
  rw [pathOf]
  split
  · rfl
  · rename_i hsuccess
    rcases h with h | h | h | h
    · simp [h] at hsuccess
    · simp [h] at hsuccess
    · rw [h]
      rfl
    · rw [h]
      rfl

theorem Touches.paths_eq {calls : List ToolCall} {results : List ToolResult} {touches : List Touch}
    (h : Touches calls results touches) (names : List Text) :
    ((calls.zip results).filter fun pair => pair.1.name ∈ names).filterMap
      (fun pair => pathOf pair.1 pair.2) = pathsBy names touches := by
  induction h with
  | noCall results => rfl
  | noResult calls =>
      rw [List.zip_nil_right]
      rfl
  | @touch call result path calls results touches hrecorded herror hpath hne h ih =>
      rw [List.zip_cons_cons, pathsBy]
      by_cases hname : call.name ∈ names
      · rw [List.filter_cons_of_pos (by simpa using hname), List.filter_cons_of_pos (by simpa using hname),
          List.filterMap_cons, List.map_cons, ih]
        simp only [pathOf_success hrecorded herror hpath hne]
        rfl
      · rw [List.filter_cons_of_neg (by simpa using hname), List.filter_cons_of_neg (by simpa using hname), ih]
        rfl
  | @other call result calls results touches hother h ih =>
      rw [List.zip_cons_cons]
      by_cases hname : call.name ∈ names
      · rw [List.filter_cons_of_pos (by simpa using hname), List.filterMap_cons, ih]
        simp only [pathOf_other hother]
      · rw [List.filter_cons_of_neg (by simpa using hname), ih]

/-- The paths a checkpoint goes through are those of the touches. -/
theorem History.paths_eq {units : List TurnUnit} {touches : List Touch} (h : History units touches)
    (names : List Text) : paths names units = pathsBy names touches := by
  induction h with
  | nil => rfl
  | other hcalls h ih =>
      rw [paths, List.flatMap_cons, hcalls, ← paths, ih]
      rfl
  | calls hcalls hnow h ih =>
      rw [paths, List.flatMap_cons, hcalls, ← paths, ih, Option.getD_some, hnow.paths_eq, pathsBy, pathsBy,
        pathsBy, List.filter_append, List.map_append]

theorem exists_touches (calls : List ToolCall) (results : List ToolResult) :
    ∃ touches, Touches calls results touches := by
  induction calls generalizing results with
  | nil => exact ⟨[], .noCall results⟩
  | cons call calls ih =>
      cases results with
      | nil => exact ⟨[], .noResult _⟩
      | cons result results =>
          obtain ⟨touches, h⟩ := ih results
          by_cases hother : result.recorded = false ∨ result.isError = true ∨ call.path = none ∨
              call.path = some []
          · exact ⟨touches, .other hother h⟩
          · push Not at hother
            obtain ⟨hrecorded, herror, hpath, hne⟩ := hother
            obtain ⟨path, hsome⟩ := Option.ne_none_iff_exists'.mp hpath
            refine ⟨_, .touch (Bool.eq_true_of_not_eq_false hrecorded) (Bool.eq_false_of_not_eq_true herror)
              hsome (fun hnil => hne ?_) h⟩
            rw [hsome, hnil]

theorem exists_history (units : List TurnUnit) : ∃ touches, History units touches := by
  induction units with
  | nil => exact ⟨[], .nil⟩
  | cons unit units ih =>
      obtain ⟨later, hlater⟩ := ih
      cases hcalls : unit.calls with
      | none => exact ⟨later, .other hcalls hlater⟩
      | some calls =>
          obtain ⟨now, hnow⟩ := exists_touches calls unit.results
          exact ⟨now ++ later, .calls hcalls hnow hlater⟩

/-! ## Whole histories -/

theorem paths_append (names : List Text) (earlier later : List TurnUnit) :
    paths names (earlier ++ later) = paths names earlier ++ paths names later :=
  List.flatMap_append

theorem storedFiles_concat (heads : List (List TurnUnit)) (head : List TurnUnit) :
    storedFiles (heads ++ [head]) = files (storedFiles heads) head := by
  rw [storedFiles, List.foldl_append]
  rfl

/-- What artifacts say about the history they were gathered from. -/
structure Gathered (stored : Artifacts) (history : List TurnUnit) : Prop where
  modified : stored.modified = (latest (modifiedPaths history)).take artifactsModified
  modifiedOmitted : stored.modifiedOmitted = true ↔
    artifactsModified < (latest (modifiedPaths history)).length
  disjoint : ∀ path ∈ stored.read, path ∉ stored.modified
  complete : stored.readOmitted = false → stored.modifiedOmitted = false →
    ∀ path ∈ readPaths history, path ∈ stored.read ∨ path ∈ modifiedPaths history

/-- While nothing was pushed out the modified paths are all listed. -/
theorem Gathered.modified_complete {stored : Artifacts} {history : List TurnUnit}
    (h : Gathered stored history) (hmark : stored.modifiedOmitted = false) :
    stored.modified = latest (modifiedPaths history) := by
  have hfew : ¬ artifactsModified < (latest (modifiedPaths history)).length := fun hmany =>
    absurd (h.modifiedOmitted.mpr hmany) (by simp [hmark])
  rw [h.modified, List.take_of_length_le (not_lt.mp hfew)]

/-- Every path touched now or listed before is listed when nothing was pushed out. -/
theorem mem_recent {touched earlier : List Text} {omitted : Bool} {limit : Nat}
    (hmark : (recent touched earlier omitted limit).2 = false) {path : Text}
    (h : path ∈ touched ∨ path ∈ earlier) : path ∈ (recent touched earlier omitted limit).1 := by
  rw [recent, Bool.or_eq_false_iff, decide_eq_false_iff_not] at hmark
  rw [recent, List.take_of_length_le (not_lt.mp hmark.2), mem_unique, List.mem_append,
    List.mem_reverse]
  exact h

theorem mem_of_mem_recent {touched earlier : List Text} (omitted : Bool) {limit : Nat} {path : Text}
    (h : path ∈ (recent touched earlier omitted limit).1) : path ∈ touched ∨ path ∈ earlier := by
  have hmem := List.mem_of_mem_take h
  rwa [mem_unique, List.mem_append, List.mem_reverse] at hmem

/-- One checkpoint more keeps what the artifacts say. -/
theorem gathered_files {previous : Artifacts} {history : List TurnUnit}
    (h : Gathered previous history) (head : List TurnUnit) :
    Gathered (files previous head) (history ++ head) := by
  have hmodified : (files previous head).modified =
      (latest (modifiedPaths (history ++ head))).take artifactsModified := by
    rw [modifiedPaths, paths_append, ← take_unique_append, ← modifiedPaths, ← h.modified]
    rfl
  have hlisted : ∀ path, path ∈ modifiedPaths head ++ (files previous head).modified →
      path ∈ modifiedPaths (history ++ head) := by
    intro path hpath
    cases List.mem_append.mp hpath with
    | inl hnow =>
        rw [modifiedPaths, paths_append]
        exact List.mem_append_right _ hnow
    | inr hstored =>
        rw [hmodified] at hstored
        exact mem_latest.mp (List.mem_of_mem_take hstored)
  constructor
  · exact hmodified
  · rw [modifiedPaths, paths_append, ← pushed_out_iff, ← modifiedPaths, ← h.modified,
      ← h.modifiedOmitted]
    exact Bool.or_eq_true_iff.trans (or_congr Iff.rfl decide_eq_true_iff)
  · intro path hread hstored
    have hunchanged : path ∉ modifiedPaths head ++ (files previous head).modified := by
      cases mem_of_mem_recent previous.readOmitted hread with
      | inl hnow => exact of_decide_eq_true (List.mem_filter.mp hnow).2
      | inr hbefore => exact of_decide_eq_true (List.mem_filter.mp hbefore).2
    exact hunchanged (List.mem_append_right _ hstored)
  · intro hreadMark hmodifiedMark path hpath
    by_cases hchanged : path ∈ modifiedPaths head ++ (files previous head).modified
    · exact Or.inr (hlisted path hchanged)
    · rw [readPaths, paths_append] at hpath
      have hkept : path ∈ previous.read → path ∈ (files previous head).read := fun hbefore =>
        mem_recent hreadMark (Or.inr (List.mem_filter.mpr ⟨hbefore, decide_eq_true hchanged⟩))
      cases List.mem_append.mp hpath with
      | inl hbefore =>
          have hmarks := (Bool.or_eq_false_iff.mp hreadMark).1
          have hmarks' := (Bool.or_eq_false_iff.mp hmodifiedMark).1
          cases h.complete hmarks hmarks' path hbefore with
          | inl hread => exact Or.inl (hkept hread)
          | inr hmod =>
              apply Or.inr
              rw [modifiedPaths, paths_append]
              exact List.mem_append_left _ hmod
      | inr hnow =>
          exact Or.inl (mem_recent hreadMark
            (Or.inl (List.mem_filter.mpr ⟨hnow, decide_eq_true hchanged⟩)))

/-- What any row of checkpoints stores is gathered from all of their heads. -/
theorem gathered_storedFiles (heads : List (List TurnUnit)) :
    Gathered (storedFiles heads) heads.flatten := by
  induction heads using List.reverseRecOn with
  | nil => exact ⟨rfl, by decide, by simp [storedFiles, Artifacts.empty], by simp [readPaths, paths]⟩
  | append_singleton heads head ih =>
      rw [storedFiles_concat, List.flatten_append, List.flatten_singleton]
      exact gathered_files ih head

/-- **Artifact lists do not depend on where checkpoints fall**: they are those of the touches of the whole
history, and every history has its touches. -/
theorem storedFiles_spec (heads : List (List TurnUnit)) :
    (∃ touches, History heads.flatten touches) ∧
    ∀ touches, History heads.flatten touches →
      let stored := storedFiles heads
      let modified := pathsBy [lit "write", lit "edit"] touches
      let read := pathsBy [lit "read"] touches
      stored.modified = (latest modified).take artifactsModified ∧
      (stored.modifiedOmitted = true ↔ artifactsModified < modified.toFinset.card) ∧
      (∀ path, ¬ (path ∈ stored.read ∧ path ∈ stored.modified)) ∧
      (stored.readOmitted = false → stored.modifiedOmitted = false →
        ∀ path, path ∈ read ∨ path ∈ modified → Xor (path ∈ stored.read) (path ∈ stored.modified)) := by
  refine ⟨exists_history _, fun touches htouches => ?_⟩
  have h := gathered_storedFiles heads
  have hmodified : modifiedPaths heads.flatten = pathsBy [lit "write", lit "edit"] touches :=
    htouches.paths_eq _
  have hread : readPaths heads.flatten = pathsBy [lit "read"] touches := htouches.paths_eq _
  dsimp only
  rw [← hmodified, ← hread]
  constructor
  · exact h.modified
  · rw [← length_latest]
    constructor
    · exact h.modifiedOmitted
    · constructor
      · exact fun path hboth => h.disjoint path hboth.1 hboth.2
      · intro hread hmodified path hpath
        have hall : path ∈ modifiedPaths heads.flatten → path ∈ (storedFiles heads).modified := by
          rw [h.modified_complete hmodified]
          exact mem_latest.mpr
        have hlisted : path ∈ (storedFiles heads).read ∨ path ∈ (storedFiles heads).modified := by
          cases hpath with
          | inl hread' => exact (h.complete hread hmodified path hread').imp_right hall
          | inr hmod => exact Or.inr (hall hmod)
        cases hlisted with
        | inl hin => exact Or.inl ⟨hin, h.disjoint path hin⟩
        | inr hin => exact Or.inr ⟨hin, fun hout => h.disjoint path hout hin⟩

/-! ## One history -/

/-- A message whose calls all succeed. -/
def succeeding (touches : List Touch) : TurnUnit where
  calls := some (touches.map fun t => ⟨t.tool, some t.path⟩)
  results := touches.map fun _ => ⟨true, false⟩

theorem touches_succeeding {touches : List Touch} (h : ∀ t ∈ touches, t.path ≠ []) :
    Touches (touches.map fun t => ⟨t.tool, some t.path⟩) (touches.map fun _ => ⟨true, false⟩) touches := by
  induction touches with
  | nil => exact .noCall _
  | cons t touches ih =>
      rw [List.forall_mem_cons] at h
      exact .touch rfl rfl rfl h.1 (ih h.2)

theorem history_succeeding {now later : List Touch} {units : List TurnUnit} (h : ∀ t ∈ now, t.path ≠ [])
    (hlater : History units later) : History (succeeding now :: units) (now ++ later) :=
  .calls rfl (touches_succeeding h) hlater

/-- Ten files edited one after the other. -/
def sampleEdits : List Touch := (List.range 10).map fun i => ⟨lit "edit", [ofChar 'p', ofChar (Nat.digitChar i)]⟩

/-- A file that was read is written, a failed write touches nothing, eleven more files are edited, and one of
them again. -/
def sampleHeads : List (List TurnUnit) :=
  [[succeeding [⟨lit "read", lit "a"⟩, ⟨lit "read", lit "r"⟩, ⟨lit "write", lit "b"⟩]],
    [succeeding [⟨lit "write", lit "a"⟩],
      ⟨some [⟨lit "write", some (lit "z")⟩, ⟨lit "edit", some (lit "b")⟩], [⟨true, true⟩, ⟨true, false⟩]⟩],
    [⟨none, []⟩, succeeding sampleEdits],
    [succeeding [⟨lit "edit", lit "b"⟩]]]

def sampleTouches : List Touch :=
  [⟨lit "read", lit "a"⟩, ⟨lit "read", lit "r"⟩, ⟨lit "write", lit "b"⟩] ++ ([⟨lit "write", lit "a"⟩] ++
    ([⟨lit "edit", lit "b"⟩] ++ (sampleEdits ++ ([⟨lit "edit", lit "b"⟩] ++ []))))

theorem sampleTouches_history : History sampleHeads.flatten sampleTouches := by
  have hedits : ∀ t ∈ sampleEdits, t.path ≠ [] := by
    intro t ht
    obtain ⟨i, -, rfl⟩ := List.mem_map.mp ht
    exact List.cons_ne_nil _ _
  refine history_succeeding (by decide) (history_succeeding (by decide) (.calls rfl ?_ ?_))
  · exact .other (.inr (.inl rfl)) (.touch rfl rfl rfl (by decide) (.noCall _))
  · exact .other rfl (history_succeeding hedits (history_succeeding (by decide) .nil))

/-- Of the twelve modified files the one touched last comes first and two are pushed out; after the first
two checkpoints nothing was pushed out, and the file that was read first is listed as modified only. -/
theorem storedFiles_spec_sample :
    (storedFiles sampleHeads).modified =
        (latest (pathsBy [lit "write", lit "edit"] sampleTouches)).take artifactsModified ∧
      (storedFiles sampleHeads).modified.head? = some (lit "b") ∧
      (storedFiles sampleHeads).modifiedOmitted = true ∧
      (storedFiles (sampleHeads.take 2)).modified = [lit "b", lit "a"] ∧
      (storedFiles (sampleHeads.take 2)).read = [lit "r"] := by
  obtain ⟨hmodified, homitted, -⟩ := (storedFiles_spec sampleHeads).2 _ sampleTouches_history
  exact ⟨hmodified, by decide +kernel, homitted.mpr (by decide +kernel), by decide +kernel, by decide +kernel⟩

end Avibe.Checkpoint
