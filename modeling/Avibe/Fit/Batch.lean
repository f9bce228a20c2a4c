import Avibe.Fit.Tokens
import Avibe.Lib.Bisect
import Mathlib.Order.WithBot
import Mathlib.Order.Lattice.Nat

/-!
# Fitting a batch of tool results

A batch of tool results that does not fit its room is cut to one common cap: the results of at most the
cap stay whole and every other one keeps its head and a note. The cap is found by bisection. The head is
cut in bytes and read back with the bytes that are not UTF-8 dropped, which also drops the lone
surrogates inside the head; `fitBatch_optimal_iff` says when a cut result is a head all the same.
-/

namespace Avibe.Fit

open Texts

/-- A note with the tokens shown and the tokens there are. -/
abbrev Note := Nat → Nat → Text

def toolTruncatedText : Text :=
  lit "[Output truncated to fit the context window; re-run with offset/limit or a narrower command to see more.]"

/-- The note of a batch has no fields. -/
def toolTruncated : Note := fun _ _ => toolTruncatedText

/-- The blocks kept in a room of bytes. -/
def keepBlocks : Nat → List Block → List Block
  | _, [] => []
  | room, .text t :: rest =>
      if 0 < room then
        let data := (encode t).take room
        .text (decode (fun _ => []) data) :: keepBlocks (room - data.length) rest
      else keepBlocks room rest
  | room, .ref _ :: rest => keepBlocks room rest
  | room, .image :: rest =>
      if imageTokens * 4 ≤ room then .image :: keepBlocks (room - imageTokens * 4) rest
      else keepBlocks room rest

/-- A tool result cut to a number of tokens, ending with a note. -/
def fitResult (content : List Block) (limit : Int) (note : Note) (cut : Bool) : List Block :=
  let total := messageTokens content
  if (total : Int) ≤ limit ∧ !cut then content
  else
    let note := note limit.toNat total
    let room := (limit - textTokens note - 1).toNat * 4
    keepBlocks room content ++ [.text note]

/-- The text blocks joined by line feeds. -/
def joined (content : List Block) : Text :=
  [lineFeed].intercalate (content.filterMap fun block =>
    match block with
    | .text t => some t
    | .ref _ => some []
    | .image => none)

def noteTokens : Nat := messageTokens [.text toolTruncatedText]

/-- The tokens of a batch with each result cut to its note. -/
def notesTokens (results : List (List Block)) : Nat :=
  (results.map fun content => min (messageTokens content) noteTokens).sum

def batchTokens (results : List (List Block)) : Nat := (results.map messageTokens).sum

def cappedTokens (results : List (List Block)) (cap : Nat) : Nat :=
  (results.map fun content => min (messageTokens content) cap).sum

def largestSize (results : List (List Block)) : Nat := (results.map messageTokens).foldr max 0

/-- A result cut to a cap, as one text. -/
def cutText (content : List Block) (cap : Nat) : Text :=
  joined (fitResult [.text (joined content)] cap toolTruncated true)

/-- For each result its cut text, or nothing where it stays whole. -/
def fitBatch (results : List (List Block)) (room : Int) : Option (List (Option Text)) :=
  if (batchTokens results : Int) ≤ room then some (results.map fun _ => none)
  else if room < notesTokens results then none
  else
    let cap := Bisect.largest (fun cap => (cappedTokens results cap : Int) ≤ room) noteTokens
      (largestSize results)
    some (results.map fun content =>
      if messageTokens content ≤ cap then none else some (cutText content cap))

/-! ## What a fitted batch is -/

/-- The text is a head of the result's text followed by the note, or the note alone. -/
def IsHead (body text : Text) : Prop :=
  text = toolTruncatedText ∨ ∃ head, head <+: body ∧ text = head ++ lineFeed :: toolTruncatedText

/-- The tokens of a size under a cap, of which `⊤` is none. -/
def level (cap : WithTop Nat) (size : Nat) : Nat := (min (WithTop.some size) cap).untopD 0

/-- The tokens of a result whole or cut. -/
def appliedTokens (content : List Block) (cut : Option Text) : Nat :=
  cut.elim (messageTokens content) textTokens

/-- One cap under which exactly the larger results are cut, to heads within it, and which no larger cap
could replace. -/
def CutTo (results : List (List Block)) (room : Int) (cuts : List (Option Text)) (cap : WithTop Nat) :
    Prop :=
  List.Forall₂ (fun content cut => (cut = none ↔ WithTop.some (messageTokens content) ≤ cap) ∧
      ∀ text ∈ cut, WithTop.some (textTokens text) ≤ cap ∧ IsHead (joined content) text) results cuts ∧
    ∀ cap', cap < cap' → room < ((results.map fun content => level cap' (messageTokens content)).sum : Nat)

/-- A batch is refused when neither it nor its notes fit; else its cuts fit and are water-filling. -/
def FitsOptimally (results : List (List Block)) (room : Int) : Option (List (Option Text)) → Prop
  | none => room < notesTokens results ∧ room < batchTokens results
  | some cuts => ¬ (room < notesTokens results ∧ room < batchTokens results) ∧
      ((List.zipWith appliedTokens results cuts).sum : Nat) ≤ room ∧ ∃ cap, CutTo results room cuts cap

/-- Only lone surrogates follow a lone surrogate. -/
def SurrogatesLast (t : Text) : Prop :=
  ∃ head tail, t = head ++ tail ∧ (∀ c ∈ head, isScalar c = true) ∧ ∀ c ∈ tail, isScalar c = false

/-- The bytes of a result's text that fit in a cap beside the note. -/
def headRoom (cap : Nat) : Nat := (cap - noteTokens - 1) * 4

/-- At the largest cap in the room, the head that a larger result keeps has lone surrogates at its end
only. -/
def SurrogatesLastInHeads (results : List (List Block)) (room : Int) : Prop :=
  ∀ cap, noteTokens ≤ cap → (cappedTokens results cap : Int) ≤ room →
    room < cappedTokens results (cap + 1) → ∀ content ∈ results, cap < messageTokens content →
      SurrogatesLast (within (headRoom cap) (joined content))

/-! ## Cut texts -/

theorem noteTokens_eq : noteTokens = textTokens toolTruncatedText := messageTokens_text _

theorem cutText_eq (content : List Block) (cap : Nat) :
    cutText content cap = if 0 < headRoom cap then
      (within (headRoom cap) (joined content)).filter isScalar ++ lineFeed :: toolTruncatedText
      else toolTruncatedText := by
  have hroom : ((cap : Int) - textTokens (toolTruncated (cap : Int).toNat
      (messageTokens [.text (joined content)])) - 1).toNat * 4 = headRoom cap := by
    rw [toolTruncated, headRoom, noteTokens_eq]
    omega
  rw [cutText, fitResult]
  simp only [Bool.not_true, Bool.false_eq_true, and_false, if_false, hroom, keepBlocks]
  split
  · rw [decode_take_encode]
    simp [joined, toolTruncated]
  · simp [joined, toolTruncated]

theorem textTokens_cutText_le {cap : Nat} (h : noteTokens ≤ cap) (content : List Block) :
    textTokens (cutText content cap) ≤ cap := by
  rw [cutText_eq]
  split
  · rename_i hroom
    have hhead : utf8 ((within (headRoom cap) (joined content)).filter isScalar) ≤ headRoom cap :=
      (utf8_filter_le _ _).trans (utf8_within_le _ _)
    have hlf : utf8 (lineFeed :: toolTruncatedText) = 1 + utf8 toolTruncatedText := rfl
    rw [headRoom, noteTokens_eq, textTokens, tokensOf] at *
    rw [textTokens, tokensOf, utf8_append, hlf]
    omega
  · exact noteTokens_eq ▸ h

/-- A filtered head is a head when nothing that is kept comes after what is dropped. -/
theorem filter_prefix_iff {t : Text} :
    t.filter isScalar <+: t ↔ SurrogatesLast t := by
  constructor
  · rintro ⟨tail, htail⟩
    refine ⟨t.filter isScalar, tail, htail.symm, fun c hc => (List.mem_filter.mp hc).2, fun c hc => ?_⟩
    have hnone : tail.filter isScalar = [] := by
      have hfilter := congrArg (List.filter isScalar) htail
      rw [List.filter_append, List.filter_filter] at hfilter
      simpa using hfilter
    simpa using List.filter_eq_nil_iff.mp hnone c hc
  · rintro ⟨head, tail, rfl, hhead, htail⟩
    rw [List.filter_append, List.filter_eq_self.mpr hhead,
      List.filter_eq_nil_iff.mpr fun c hc => by simp [htail c hc], List.append_nil]
    exact List.prefix_append _ _

theorem isHead_cutText_iff (content : List Block) (cap : Nat) :
    IsHead (joined content) (cutText content cap) ↔
      SurrogatesLast (within (headRoom cap) (joined content)) := by
  rw [cutText_eq]
  split
  · rw [← filter_prefix_iff]
    have hwithin := isPrefix_within (headRoom cap) (joined content)
    constructor
    · intro h
      cases h with
      | inl hnote =>
          have hlength := congrArg List.length hnote
          rw [List.length_append, List.length_cons] at hlength
          omega
      | inr hhead =>
          obtain ⟨head, hprefix, heq⟩ := hhead
          obtain rfl := List.append_cancel_right heq
          exact List.prefix_of_prefix_length_le hprefix hwithin (List.length_filter_le _ _)
    · exact fun h => .inr ⟨_, h.trans hwithin, rfl⟩
  · rename_i hroom
    rw [Nat.eq_zero_of_not_pos hroom, within_zero]
    exact iff_of_true (.inl rfl) ⟨[], [], rfl, by simp, by simp⟩

/-! ## Caps -/

theorem cappedTokens_mono (results : List (List Block)) {cap cap' : Nat} (h : cap ≤ cap') :
    cappedTokens results cap ≤ cappedTokens results cap' :=
  List.sum_le_sum fun _ _ => min_le_min_left _ h

theorem messageTokens_le_largestSize {results : List (List Block)} {content : List Block}
    (h : content ∈ results) : messageTokens content ≤ largestSize results := by
  induction results with
  | nil => cases h
  | cons other results ih =>
      rw [largestSize, List.map_cons, List.foldr_cons]
      cases List.mem_cons.mp h with
      | inl hsame => exact hsame ▸ le_max_left _ _
      | inr hlater => exact (ih hlater).trans (le_max_right _ _)

theorem cappedTokens_largestSize (results : List (List Block)) :
    cappedTokens results (largestSize results) = batchTokens results := by
  rw [cappedTokens, batchTokens]
  congr 1
  exact List.map_congr_left fun content h => min_eq_left (messageTokens_le_largestSize h)

/-- A batch past its room whose notes fit is cut to the largest cap in the room. -/
theorem fitBatch_cut {results : List (List Block)} {room : Int} (hbatch : room < batchTokens results)
    (hnotes : (notesTokens results : Int) ≤ room) :
    ∃ cap, noteTokens ≤ cap ∧ (cappedTokens results cap : Int) ≤ room ∧
      room < cappedTokens results (cap + 1) ∧
      fitBatch results room = some (results.map fun content =>
        if messageTokens content ≤ cap then none else some (cutText content cap)) := by
  have hlow : decide ((cappedTokens results noteTokens : Int) ≤ room) = true := decide_eq_true hnotes
  have hhigh : decide ((cappedTokens results (largestSize results) : Int) ≤ room) = false :=
    decide_eq_false (cappedTokens_largestSize results ▸ not_le.mpr hbatch)
  have hlt : noteTokens < largestSize results := by
    by_contra hge
    have := cappedTokens_mono results (not_lt.mp hge)
    rw [cappedTokens_largestSize] at this
    have hsame : notesTokens results = cappedTokens results noteTokens := rfl
    omega
  obtain ⟨hge, -, hfits, hnext⟩ := @Bisect.largest_spec
    (fun cap => decide ((cappedTokens results cap : Int) ≤ room)) _ _ hlow hhigh hlt
  refine ⟨_, hge, of_decide_eq_true hfits, not_le.mp (of_decide_eq_false hnext), ?_⟩
  rw [fitBatch, if_neg (not_le.mpr hbatch), if_neg (not_lt.mpr hnotes)]

/-- The cap of a room is unique. -/
theorem cap_unique {results : List (List Block)} {room : Int} {cap cap' : Nat}
    (h : (cappedTokens results cap : Int) ≤ room) (hnext : room < cappedTokens results (cap + 1))
    (h' : (cappedTokens results cap' : Int) ≤ room) (hnext' : room < cappedTokens results (cap' + 1)) :
    cap = cap' := by
  by_contra hne
  cases lt_or_gt_of_ne hne with
  | inl hlt =>
      have := cappedTokens_mono results (Nat.lt_iff_add_one_le.mp hlt)
      omega
  | inr hgt =>
      have := cappedTokens_mono results (Nat.lt_iff_add_one_le.mp hgt)
      omega

theorem level_coe (cap size : Nat) : level (WithTop.some cap) size = min size cap := by
  rw [level, ← WithTop.coe_min]
  rfl

theorem level_top (size : Nat) : level ⊤ size = size := by
  rw [level, min_eq_left le_top]
  rfl

/-- A larger cap does not fit the room when the next one does not. -/
theorem room_lt_level {results : List (List Block)} {room : Int} {cap : Nat}
    (hbatch : room < batchTokens results) (hnext : room < cappedTokens results (cap + 1))
    {cap' : WithTop Nat} (h : WithTop.some cap < cap') :
    room < ((results.map fun content => level cap' (messageTokens content)).sum : Nat) := by
  induction cap' using WithTop.recTopCoe with
  | top =>
      simp only [level_top]
      exact hbatch
  | coe cap' =>
      have := cappedTokens_mono results (Nat.lt_iff_add_one_le.mp (WithTop.coe_lt_coe.mp h))
      simp only [level_coe]
      exact hnext.trans_le (Int.ofNat_le.mpr this)

/-! ## Fitted batches -/

theorem fitBatch_whole {results : List (List Block)} {room : Int}
    (h : (batchTokens results : Int) ≤ room) :
    FitsOptimally results room (fitBatch results room) := by
  rw [fitBatch, if_pos h]
  refine ⟨fun hboth => absurd h (not_le.mpr hboth.2), ?_, ⊤, ?_, fun cap' hcap => absurd hcap not_top_lt⟩
  · have happlied : ∀ l : List (List Block),
        (List.zipWith appliedTokens l (l.map fun _ => none)) = l.map messageTokens := by
      intro l
      rw [List.zipWith_map_right, List.zipWith_self]
      rfl
    rw [happlied]
    exact h
  · rw [List.forall₂_map_right_iff, List.forall₂_same]
    exact fun content _ => ⟨iff_of_true rfl le_top, fun text htext => by cases htext⟩

theorem appliedTokens_le {content : List Block} {cap : Nat} (h : noteTokens ≤ cap) :
    appliedTokens content (if messageTokens content ≤ cap then none else some (cutText content cap)) ≤
      min (messageTokens content) cap := by
  split
  · rename_i hwhole
    exact le_min (le_refl _) hwhole
  · rename_i hcut
    exact le_min ((textTokens_cutText_le h content).trans (le_of_lt (not_le.mp hcut)))
      (textTokens_cutText_le h content)

/-- A cut batch is water-filling when each cut text is a head. -/
theorem cut_optimal_iff {results : List (List Block)} {room : Int} {cap : Nat}
    (hbatch : room < batchTokens results) (hnotes : (notesTokens results : Int) ≤ room)
    (hfloor : noteTokens ≤ cap) (hfits : (cappedTokens results cap : Int) ≤ room)
    (hnext : room < cappedTokens results (cap + 1)) :
    FitsOptimally results room (some (results.map fun content =>
        if messageTokens content ≤ cap then none else some (cutText content cap))) ↔
      ∀ content ∈ results, cap < messageTokens content → IsHead (joined content) (cutText content cap) := by
  constructor
  · rintro ⟨-, -, cap', hcuts, -⟩ content hcontent hlarge
    rw [List.forall₂_map_right_iff, List.forall₂_same] at hcuts
    have hcut := (hcuts content hcontent).2 (cutText content cap)
    rw [if_neg (not_le.mpr hlarge)] at hcut
    exact (hcut rfl).2
  · intro hheads
    refine ⟨fun hboth => absurd hnotes (not_le.mpr hboth.1), ?_, WithTop.some cap, ?_, fun cap' h =>
      room_lt_level hbatch hnext h⟩
    · have hle : ∀ l : List (List Block), (List.zipWith appliedTokens l (l.map fun content =>
          if messageTokens content ≤ cap then none else some (cutText content cap))).sum ≤
          cappedTokens l cap := by
        intro l
        rw [List.zipWith_map_right, List.zipWith_self]
        exact List.sum_le_sum fun content _ => appliedTokens_le hfloor
      exact (Int.ofNat_le.mpr (hle results)).trans hfits
    · rw [List.forall₂_map_right_iff, List.forall₂_same]
      intro content hcontent
      by_cases hsmall : messageTokens content ≤ cap
      · rw [if_pos hsmall]
        exact ⟨iff_of_true rfl (WithTop.coe_le_coe.mpr hsmall), fun text htext => by cases htext⟩
      · rw [if_neg hsmall]
        refine ⟨iff_of_false (fun h => by cases h) fun h => hsmall (WithTop.coe_le_coe.mp h), ?_⟩
        intro text htext
        obtain rfl : cutText content cap = text := Option.some.inj htext
        exact ⟨WithTop.coe_le_coe.mpr (textTokens_cutText_le hfloor content),
          hheads content hcontent (not_le.mp hsmall)⟩

/-- **A fitted batch is water-filling exactly when the heads it keeps have their lone surrogates last**. -/
theorem fitBatch_optimal_iff (results : List (List Block)) (room : Int) :
    FitsOptimally results room (fitBatch results room) ↔ SurrogatesLastInHeads results room := by
  by_cases hbatch : (batchTokens results : Int) ≤ room
  · apply iff_of_true (fitBatch_whole hbatch)
    intro cap _ _ hnext
    have hle : cappedTokens results (cap + 1) ≤ batchTokens results :=
      List.sum_le_sum fun _ _ => min_le_left _ _
    omega
  · by_cases hnotes : room < notesTokens results
    · have hnone : fitBatch results room = none := by rw [fitBatch, if_neg hbatch, if_pos hnotes]
      rw [hnone]
      apply iff_of_true ⟨hnotes, not_le.mp hbatch⟩
      intro cap hfloor hfits
      have hle : notesTokens results ≤ cappedTokens results cap := cappedTokens_mono results hfloor
      omega
    · obtain ⟨cap, hfloor, hfits, hnext, heq⟩ := fitBatch_cut (not_le.mp hbatch) (not_lt.mp hnotes)
      rw [heq, cut_optimal_iff (not_le.mp hbatch) (not_lt.mp hnotes) hfloor hfits hnext]
      constructor
      · intro hheads cap' _ hfits' hnext' content hcontent hlarge
        obtain rfl := cap_unique hfits hnext hfits' hnext'
        exact (isHead_cutText_iff content cap).mp (hheads content hcontent hlarge)
      · exact fun hlast content hcontent hlarge =>
          (isHead_cutText_iff content cap).mpr (hlast cap hfloor hfits hnext content hcontent hlarge)

/-- A result that starts with a lone surrogate. -/
def surrogateFirst : List Block := [.text (0xd800 :: List.replicate 120 (ofChar 'b'))]

theorem surrogate_head_not_optimal :
    ¬ FitsOptimally [surrogateFirst] 29 (fitBatch [surrogateFirst] 29) := by
  have hbatch : (29 : Int) < batchTokens [surrogateFirst] := by decide +kernel
  have hnotes : (notesTokens [surrogateFirst] : Int) ≤ 29 := by decide +kernel
  obtain ⟨cap, hfloor, hfits, hnext, heq⟩ := fitBatch_cut hbatch hnotes
  have hcap : cap = 29 := cap_unique hfits hnext (by decide +kernel) (by decide +kernel)
  rw [heq, cut_optimal_iff hbatch hnotes hfloor hfits hnext, hcap]
  intro hheads
  have hhead := hheads surrogateFirst List.mem_cons_self (by decide +kernel)
  rw [isHead_cutText_iff, ← filter_prefix_iff, ← List.isPrefixOf_iff_prefix] at hhead
  exact absurd hhead (by decide +kernel)

end Avibe.Fit
