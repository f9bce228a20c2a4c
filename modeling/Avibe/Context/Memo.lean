import Avibe.Context.Transcripts

/-!
# The memo of a checkpoint

A checkpoint offers the messages that a person typed and that its cut takes out of
the context. Which ones it offers is read off the latest compaction row: the number
up to which it summarized, the inputs it kept, and the items its memo carries.
-/

namespace Avibe.Context

open Avibe.Agent SortOn Checked

section Fit

variable (clip : String → Nat → String) (entryTokens : MemoItem → Nat)

def textTokens (value : String) : Nat := (value.utf8ByteSize + 3) / 4

def memoLimit : Nat := 300

def shareFloor : Nat := 10

/-- A typed message as an item. Rows are numbered from 1. `clip` is `_within` without
trailing blanks. -/
def memoItem (seq : Nat) (typed : String) : Option MemoItem :=
  if h : 0 < seq then
    if textTokens typed ≤ memoLimit then some ⟨seq, typed, false, h⟩
    else some ⟨seq, clip typed (4 * memoLimit), true, h⟩
  else none

def memoTokens (items : List MemoItem) : Nat := (items.map entryTokens).sum

/-- The items with their texts cut to a share. -/
def cutTo (share : Nat) (items : List MemoItem) : List MemoItem :=
  items.map fun item =>
    if textTokens item.text ≤ share then item
    else { item with text := clip item.text (4 * share), truncated := true }

def longest (items : List MemoItem) : Nat :=
  (items.map fun item => textTokens item.text).foldr max 0

/-- The loop that keeps the newest items that fit in the room. -/
def newestFrom (costs : List Nat) : Int → Nat → Nat
  | room, n + 2 =>
      if (costs.getD (n + 1) 0 : Int) ≤ room then
        newestFrom costs (room - costs.getD (n + 1) 0) (n + 1)
      else n + 2
  | _, n => n

/-- The search for the largest share that fits. -/
def largestShare (fits : Nat → Bool) (low high : Nat) : Nat :=
  if 1 < high - low then
    let middle := (low + high) / 2
    if fits middle then largestShare fits middle high else largestShare fits low middle
  else low
  termination_by high - low
  decreasing_by all_goals omega

def fitMemo (items : List MemoItem) (budget : Nat) : List MemoItem :=
  if memoTokens entryTokens items ≤ budget then items
  else
    let fits (kept : List MemoItem) (share : Nat) : Bool :=
      memoTokens entryTokens (cutTo clip share kept) ≤ budget
    let floor := min shareFloor (longest items)
    if fits items floor then
      cutTo clip (largestShare (fits items) floor (longest items + 1)) items
    else
      let costs := (cutTo clip floor items).map entryTokens
      let newest := newestFrom costs ((budget : Int) - costs.headD 0) items.length
      let kept := items.take 1 ++ items.drop newest
      let floor := if fits kept floor then floor else 0
      cutTo clip (largestShare (fits kept) floor (longest kept + 1)) kept

variable {clip entryTokens}

@[simp] theorem cutTo_seqs (share : Nat) (items : List MemoItem) :
    (cutTo clip share items).map (·.seq) = items.map (·.seq) := by
  rw [cutTo, List.map_map]
  refine List.map_congr_left fun item _ => ?_
  simp only [Function.comp_apply]
  split <;> rfl

theorem newestFrom_pos (costs : List Nat) (room : Int) {n : Nat} (h : 0 < n) :
    0 < newestFrom costs room n := by
  induction n generalizing room with
  | zero => cases h
  | succ n ih =>
      cases n with
      | zero => exact Nat.one_pos
      | succ n =>
          rw [newestFrom]
          split
          · exact ih _ (Nat.succ_pos n)
          · exact Nat.succ_pos _

/-- Fitting a memo only leaves items out or cuts their texts. -/
theorem fitMemo_seqs (items : List MemoItem) (budget : Nat) :
    ((fitMemo clip entryTokens items budget).map (·.seq)).Sublist (items.map (·.seq)) := by
  unfold fitMemo
  split
  · exact List.Sublist.refl _
  · dsimp only
    split
    · rw [cutTo_seqs]
    · rw [cutTo_seqs]
      refine List.Sublist.map _ ?_
      cases items with
      | nil => simp
      | cons item items =>
          generalize (cutTo clip _ (item :: items)).map entryTokens = costs
          have hpos := newestFrom_pos costs ((budget : Int) - costs.headD 0)
            (Nat.succ_pos items.length)
          obtain ⟨n, hn⟩ := Nat.exists_eq_succ_of_ne_zero hpos.ne'
          rw [List.length_cons, hn]
          exact (List.drop_sublist n items).cons_cons item

end Fit

/-! ## The list of candidates -/

/-- `memo.md`: the candidates by number, those carried over checked. -/
structure MemoList where
  items : List MemoItem
  checked : List Nat
  hidden : List Nat

def MemoList.select (list : MemoList) (checked : Option (List Nat)) : List MemoItem :=
  list.items.filter fun item => checked.all (item.seq ∈ ·)

/-- The items that the list shows as new: those not checked yet. -/
def MemoList.new (list : MemoList) : List MemoItem :=
  list.items.filter fun item => item.seq ∉ list.checked

structure MemoBounds where
  boundary : Nat
  released : List Nat
  summarized : Nat

def memoBounds (view : ContextView) : MemoBounds :=
  let summarized := view.compaction.elim 0 (·.2.summarizedToSeq)
  { boundary := if view.compaction.any (·.2.memo.isNone) then 0 else summarized
    released := view.compaction.elim [] (·.2.keptInputs)
    summarized := summarized }

/-- The items that the latest checkpoint carries. -/
def carriedItems (view : ContextView) : List MemoItem :=
  (view.compaction.bind (·.2.memo)).getD []

section List

variable (clip : String → Nat → String) (typed : String → Option String)

/-- The inputs that a checkpoint at the cut offers, of all rows of the transcript. -/
def offered (entries : List ContextEntry) (view : ContextView) (turnInputs : List Nat)
    (cut : Nat) : List ContextEntry :=
  let bounds := memoBounds view
  let through := summarizedToSeq view cut
  let kept := ((view.units.take cut).filter (inTurn turnInputs)).map (·.seq)
  let known := (carriedItems view).map (·.seq)
  entries.filter fun entry =>
    entry.body.isInput &&
      ((bounds.boundary < entry.contextSeq && entry.contextSeq ≤ through) ||
        entry.contextSeq ∈ bounds.released) &&
      entry.contextSeq ∉ kept && entry.contextSeq ∉ known

/-- `typed` is what a person typed for a row, as the host answers. -/
def newItems (entries : List ContextEntry) (view : ContextView) (turnInputs : List Nat)
    (cut : Nat) : List MemoItem :=
  (offered entries view turnInputs cut).filterMap fun entry =>
    (typed entry.rowId).bind (memoItem clip entry.contextSeq)

def memoList (entries : List ContextEntry) (view : ContextView) (turnInputs : List Nat)
    (cut : Nat) : MemoList :=
  let bounds := memoBounds view
  let new := newItems clip typed entries view turnInputs cut
  { items := sortOn MemoItem.seq (carriedItems view ++ new)
    checked := (carriedItems view).map (·.seq)
    hidden := (new.map (·.seq)).filter fun seq =>
      seq ≤ bounds.summarized && seq ∉ bounds.released }

variable {clip typed}

theorem memoItem_seq {seq : Nat} {text : String} {item : MemoItem}
    (h : memoItem clip seq text = some item) : item.seq = seq := by
  unfold memoItem at h
  split at h
  · split at h
    · cases h
      rfl
    · cases h
      rfl
  · cases h

theorem memoItem_isSome (clip : String → Nat → String) {seq : Nat} (h : 0 < seq) (text : String) :
    ∃ item, memoItem clip seq text = some item := by
  unfold memoItem
  rw [dif_pos h]
  split
  · exact ⟨_, rfl⟩
  · exact ⟨_, rfl⟩

theorem mem_offered {entries : List ContextEntry} {view : ContextView} {turnInputs : List Nat}
    {cut : Nat} {entry : ContextEntry} :
    entry ∈ offered entries view turnInputs cut ↔
      entry ∈ entries ∧ entry.body.isInput = true ∧
        (((memoBounds view).boundary < entry.contextSeq ∧
            entry.contextSeq ≤ summarizedToSeq view cut) ∨
          entry.contextSeq ∈ (memoBounds view).released) ∧
        entry.contextSeq ∉ (keptUnits view turnInputs cut).map (·.seq) ∧
        entry.contextSeq ∉ (carriedItems view).map (·.seq) := by
  simp only [offered, keptUnits, List.mem_filter, Bool.and_eq_true, Bool.or_eq_true,
    decide_eq_true_eq, and_assoc]

/-- The new items are the typed ones among the offered inputs. -/
theorem mem_newItems {entries : List ContextEntry} (hpos : ∀ e ∈ entries, 0 < e.contextSeq)
    {view : ContextView} {turnInputs : List Nat} {cut seq : Nat} :
    seq ∈ (newItems clip typed entries view turnInputs cut).map (·.seq) ↔
      ∃ entry ∈ offered entries view turnInputs cut,
        entry.contextSeq = seq ∧ (typed entry.rowId).isSome = true := by
  constructor
  · intro h
    obtain ⟨item, hitem, rfl⟩ := List.mem_map.mp h
    obtain ⟨entry, hentry, hbind⟩ := List.mem_filterMap.mp hitem
    obtain ⟨text, htext, hitem⟩ := Option.bind_eq_some_iff.mp hbind
    exact ⟨entry, hentry, (memoItem_seq hitem).symm, by simp [htext]⟩
  · rintro ⟨entry, hentry, rfl, htyped⟩
    obtain ⟨text, htext⟩ := Option.isSome_iff_exists.mp htyped
    obtain ⟨item, hitem⟩ := memoItem_isSome clip (hpos _ (mem_offered.mp hentry).1) text
    refine List.mem_map.mpr ⟨item, List.mem_filterMap.mpr ⟨entry, hentry, ?_⟩, memoItem_seq hitem⟩
    rw [htext]
    exact hitem

/-- The list shows as new exactly the new items. -/
theorem mem_memoList_new {entries : List ContextEntry} {view : ContextView}
    {turnInputs : List Nat} {cut : Nat} {item : MemoItem} :
    item ∈ (memoList clip typed entries view turnInputs cut).new ↔
      item ∈ newItems clip typed entries view turnInputs cut := by
  simp only [MemoList.new, memoList, List.mem_filter, mem_sortOn, List.mem_append]
  constructor
  · rintro ⟨hcarried | hnew, hnot⟩
    · exact absurd (List.mem_map_of_mem hcarried) (of_decide_eq_true hnot)
    · exact hnew
  · intro hnew
    refine ⟨.inr hnew, ?_⟩
    obtain ⟨entry, hentry, hbind⟩ := List.mem_filterMap.mp hnew
    obtain ⟨text, -, hitem⟩ := Option.bind_eq_some_iff.mp hbind
    rw [memoItem_seq hitem]
    exact decide_eq_true (mem_offered.mp hentry).2.2.2.2

end List

end Avibe.Context
