import Avibe.Checkpoint.MemoFile
import Avibe.Fit.Tokens
import Avibe.Lib.Bisect
import Mathlib.Data.Nat.Find

/-!
# Fitting a memo

A memo past its budget has its longest messages cut to one common share, or, when not even a least
share of each would fit, keeps the first message and the newest that fit at that share. The share is
found by bisection, but a cut message also carries a note that says so, so a larger share may cost less
than a smaller one, and the bisection can end below the largest share that fits.
-/

namespace Avibe.Checkpoint

open Texts Avibe.Fit

def memoShareFloor : Nat := 10

/-- The line that says that a message was cut. -/
def memoCut (seq : Nat) : Text :=
  lit "[cut short; the whole message is #" ++ lit (toString seq) ++ lit " in the earlier record]"

/-- The lines of one message as the checkpoint shows it. -/
def memoEntry (item : MemoItem) : List Text :=
  (lit "- (#" ++ lit (toString item.seq) ++ lit ") " ++ (Texts.lines item.text).headD []) ::
    (Texts.lines item.text).tail.map (lit "  " ++ ·) ++
    if item.truncated then [lit "  " ++ memoCut item.seq] else []

def memoEntryTokens (item : MemoItem) : Nat :=
  textTokens ([lineFeed].intercalate (memoEntry item) ++ [lineFeed])

def memoTokens (items : List MemoItem) : Nat := (items.map memoEntryTokens).sum

/-- An item cut to a share. -/
def cutItem (share : Nat) (item : MemoItem) : MemoItem :=
  if textTokens item.text ≤ share then item
  else ⟨item.seq, rstrip (within (4 * share) item.text), true⟩

def cutTo (share : Nat) (items : List MemoItem) : List MemoItem := items.map (cutItem share)

def longest (items : List MemoItem) : Nat :=
  (items.map fun item => textTokens item.text).foldr max 0

/-- How many of some costs, the newest first, fit in a room. -/
def newestCount : Int → List Nat → Nat
  | _, [] => 0
  | room, cost :: older => if (cost : Int) ≤ room then newestCount (room - cost) older + 1 else 0

def fitsBudget (items : List MemoItem) (budget : Int) (share : Nat) : Bool :=
  (memoTokens (cutTo share items) : Int) ≤ budget

def shareFloor (items : List MemoItem) : Nat := min memoShareFloor (longest items)

/-- The first item and the newest others that fit with it at a share. -/
def firstAndNewest (first : MemoItem) (others : List MemoItem) (budget : Int) (share : Nat) :
    List MemoItem :=
  let costs := (others.map fun item => memoEntryTokens (cutItem share item)).reverse
  let count := newestCount (budget - memoEntryTokens (cutItem share first)) costs
  first :: others.drop (others.length - count)

/-- The items cut to the largest share the search finds. -/
def cutToLargest (items : List MemoItem) (budget : Int) (low : Nat) : List MemoItem :=
  cutTo (Bisect.largest (fitsBudget items budget) low (longest items + 1)) items

/-- The items within a budget; there is at least one. -/
def fitMemo (items : List MemoItem) (budget : Int) : List MemoItem :=
  if (memoTokens items : Int) ≤ budget then items
  else
    match items with
    | [] => []
    | first :: others =>
        let floor := shareFloor items
        if fitsBudget items budget floor then cutToLargest items budget floor
        else
          let kept := firstAndNewest first others budget floor
          cutToLargest kept budget (if fitsBudget kept budget floor then floor else 0)

/-! ## Cutting to a share -/

/-- The item is an item of the list, whole or cut to a head. -/
structure CutOf (item cut : MemoItem) : Prop where
  seq : cut.seq = item.seq
  text : cut.text <+: item.text
  truncated : cut.truncated = true ↔ item.truncated = true ∨ cut.text ≠ item.text

theorem textTokens_within_le (share : Nat) (t : Text) : textTokens (within (4 * share) t) ≤ share := by
  have := utf8_within_le (4 * share) t
  rw [textTokens, tokensOf]
  omega

/-- A text of more tokens than its share loses some of itself. -/
theorem cut_ne {share : Nat} {t : Text} (h : share < textTokens t) : rstrip (within (4 * share) t) ≠ t := by
  intro heq
  have hprefix : rstrip (within (4 * share) t) <+: within (4 * share) t := List.rdropWhile_prefix _ _
  rw [heq] at hprefix
  have hwhole : within (4 * share) t = t := (isPrefix_within _ _).eq_of_length_le hprefix.length_le
  have := textTokens_within_le share t
  rw [hwhole] at this
  omega

theorem cutOf_cutItem (share : Nat) (item : MemoItem) : CutOf item (cutItem share item) := by
  rw [cutItem]
  split
  · exact ⟨rfl, List.prefix_refl _, by simp⟩
  · rename_i hlong
    exact ⟨rfl, (List.rdropWhile_prefix _ _).trans (isPrefix_within _ _),
      iff_of_true rfl (.inr (cut_ne (not_le.mp hlong)))⟩

theorem textTokens_le_longest {items : List MemoItem} {item : MemoItem} (h : item ∈ items) :
    textTokens item.text ≤ longest items := by
  induction items with
  | nil => cases h
  | cons other items ih =>
      rw [longest, List.map_cons, List.foldr_cons]
      cases List.mem_cons.mp h with
      | inl hsame => exact hsame ▸ le_max_left _ _
      | inr hlater => exact (ih hlater).trans (le_max_right _ _)

/-- From the longest message on, a share cuts nothing. -/
theorem cutTo_of_longest_le {share : Nat} {items : List MemoItem} (h : longest items ≤ share) :
    cutTo share items = items := by
  rw [cutTo]
  conv_rhs => rw [← List.map_id items]
  apply List.map_congr_left
  intro item hitem
  rw [cutItem, if_pos ((textTokens_le_longest hitem).trans h), id]

/-- Between two shares that cut an item alike, every share does. -/
theorem cutItem_between {a b c : Nat} (hab : a ≤ b) (hbc : b ≤ c) {item : MemoItem}
    (h : cutItem a item = cutItem c item) : cutItem b item = cutItem a item := by
  by_cases hshort : textTokens item.text ≤ a
  · rw [cutItem, if_pos (hshort.trans hab), cutItem, if_pos hshort]
  · by_cases hlong : textTokens item.text ≤ c
    · rw [cutItem, if_neg hshort, cutItem, if_pos hlong] at h
      exact absurd (congrArg MemoItem.text h) (cut_ne (not_le.mp hshort))
    · have hmiddle : ¬ textTokens item.text ≤ b := fun hle => hlong (hle.trans hbc)
      rw [cutItem, if_neg hshort, cutItem, if_neg hlong] at h
      have htexts : rstrip (within (4 * a) item.text) = rstrip (within (4 * c) item.text) :=
        congrArg MemoItem.text h
      have hlow : rstrip (within (4 * a) item.text) <+: rstrip (within (4 * b) item.text) :=
        rstrip_prefix (within_mono (Nat.mul_le_mul_left 4 hab) _)
      have hhigh : rstrip (within (4 * b) item.text) <+: rstrip (within (4 * c) item.text) :=
        rstrip_prefix (within_mono (Nat.mul_le_mul_left 4 hbc) _)
      have hsame := hlow.eq_of_length_le (htexts ▸ hhigh.length_le)
      rw [cutItem, if_neg hmiddle, cutItem, if_neg hshort, ← hsame]

theorem cutTo_between {a b c : Nat} (hab : a ≤ b) (hbc : b ≤ c) {items : List MemoItem}
    (h : cutTo a items = cutTo c items) : cutTo b items = cutTo a items :=
  List.map_congr_left fun _ hitem => cutItem_between hab hbc (List.map_inj_left.mp h _ hitem)

theorem fitsBudget_congr {items : List MemoItem} {budget : Int} {a b : Nat}
    (h : cutTo a items = cutTo b items) : fitsBudget items budget a = fitsBudget items budget b := by
  rw [fitsBudget, fitsBudget, h]

theorem fitsBudget_longest {items : List MemoItem} {budget : Int} (hbig : budget < memoTokens items)
    {share : Nat} (h : longest items ≤ share) : fitsBudget items budget share = false := by
  rw [fitsBudget, cutTo_of_longest_le h]
  exact decide_eq_false (not_le.mpr hbig)

/-! ## The largest share -/

/-- The items are whole or cut to a share no larger one of which fits. -/
def LargestShare (items : List MemoItem) (budget : Int) (result : List MemoItem) : Prop :=
  result = items ∨ ∃ share, result = cutTo share items ∧
    ∀ share', share < share' → fitsBudget items budget share' = false

/-- Of the shares that halving tries on the way to the largest one that fits, those up to it fit. -/
def HalvingFrom (items : List MemoItem) (budget : Int) (start : Nat) : Prop :=
  ∀ target, start ≤ target → fitsBudget items budget target = true →
    (∀ share, target < share → fitsBudget items budget share = false) →
    ∀ share ∈ Bisect.probes target start (longest items + 1), share ≤ target →
      fitsBudget items budget share = true

/-- A share that fits is below the longest message when the items do not fit whole. -/
theorem le_longest {items : List MemoItem} {budget : Int} (hbig : budget < memoTokens items) {share : Nat}
    (h : fitsBudget items budget share = true) : share ≤ longest items := by
  by_contra hgt
  rw [fitsBudget_longest hbig (Nat.le_of_lt (not_le.mp hgt))] at h
  cases h

theorem exists_largest {items : List MemoItem} {budget : Int} (hbig : budget < memoTokens items)
    {share : Nat} (h : fitsBudget items budget share = true) :
    ∃ target, share ≤ target ∧ fitsBudget items budget target = true ∧
      ∀ larger, target < larger → fitsBudget items budget larger = false := by
  have hbound := le_longest hbig h
  refine ⟨Nat.findGreatest (fun n => fitsBudget items budget n = true) (longest items),
    Nat.le_findGreatest hbound h,
    Nat.findGreatest_spec (P := fun n => fitsBudget items budget n = true) hbound h, ?_⟩
  intro larger hlarger
  cases hfits : fitsBudget items budget larger with
  | true => exact absurd (Nat.le_findGreatest (le_longest hbig hfits) hfits) (not_le.mpr hlarger)
  | false => rfl

theorem largestShare_iff {items : List MemoItem} {budget : Int} {start : Nat}
    (hbig : budget < memoTokens items) (hstart : start ≤ longest items) :
    LargestShare items budget (cutToLargest items budget start) ↔ HalvingFrom items budget start := by
  have hhigh : fitsBudget items budget (longest items + 1) = false :=
    fitsBudget_longest hbig (Nat.le_succ _)
  obtain ⟨hge, hlt, hnext, hfits⟩ := Bisect.largest_cases hhigh (Nat.lt_succ_of_le hstart)
  rw [cutToLargest]
  generalize hlow : Bisect.largest (fitsBudget items budget) start (longest items + 1) = low at *
  constructor
  · intro hshare target htarget hfit hmax
    have hbelow : target < longest items + 1 := Nat.lt_succ_of_le (le_longest hbig hfit)
    -- a share between two that cut alike cuts alike
    have hbetween : ∀ {c}, cutTo low items = cutTo c items → low ≤ target → target ≤ c →
        fitsBudget items budget low = true := fun heq h₁ h₂ =>
      (fitsBudget_congr (cutTo_between h₁ h₂ heq)).symm.trans hfit
    rw [← Bisect.largest_eq_iff htarget hbelow hmax, hlow]
    cases hshare with
    | inl hwhole =>
        have hwhole : cutTo low items = cutTo (longest items + 1) items :=
          hwhole.trans (cutTo_of_longest_le (Nat.le_succ _)).symm
        have hnot : fitsBudget items budget low = false := (fitsBudget_congr hwhole).trans hhigh
        have hsame : low = start := hfits.resolve_left (by rw [hnot]; exact Bool.false_ne_true)
        exact absurd (hbetween hwhole (hsame ▸ htarget) (Nat.le_of_lt hbelow))
          (by rw [hnot]; exact Bool.false_ne_true)
    | inr hcut =>
        obtain ⟨share, heq, hlargest⟩ := hcut
        have hle : target ≤ share := by
          by_contra hgt
          rw [hlargest target (not_le.mp hgt)] at hfit
          cases hfit
        cases hlowFits : fitsBudget items budget low with
        | true =>
            have hshareFits : fitsBudget items budget share = true := (fitsBudget_congr heq).symm.trans hlowFits
            have hsame : share = target := by
              by_contra hne
              rw [hmax share (by omega)] at hshareFits
              cases hshareFits
            subst hsame
            have hlowLe : low ≤ share := by
              by_contra hgt
              rw [hmax low (not_le.mp hgt)] at hlowFits
              cases hlowFits
            by_contra hne
            have hstep : cutTo (low + 1) items = cutTo low items :=
              cutTo_between (Nat.le_succ low) (by omega) heq
            rw [fitsBudget_congr hstep, hlowFits] at hnext
            cases hnext
        | false =>
            have hsame : low = start := hfits.resolve_left (by rw [hlowFits]; exact Bool.false_ne_true)
            have := hbetween heq (hsame ▸ htarget) hle
            rw [hlowFits] at this
            cases this
  · intro hhalving
    by_cases hnone : ∀ share, low < share → fitsBudget items budget share = false
    · exact .inr ⟨low, rfl, hnone⟩
    · obtain ⟨share, hshare, hfit⟩ : ∃ share, low < share ∧ fitsBudget items budget share = true := by
        simpa using hnone
      obtain ⟨target, hle, hfitTarget, hmax⟩ := exists_largest hbig hfit
      have hfound : low = target := hlow.symm.trans
        ((Bisect.largest_eq_iff (by omega) (Nat.lt_succ_of_le (le_longest hbig hfitTarget)) hmax).mpr
          (hhalving target (by omega) hfitTarget hmax))
      omega

/-! ## The newest items -/

theorem newestCount_spec (room : Int) (costs : List Nat) :
    newestCount room costs ≤ costs.length ∧
      (0 < newestCount room costs → ((costs.take (newestCount room costs)).sum : Int) ≤ room) := by
  induction costs generalizing room with
  | nil => exact ⟨Nat.le_refl _, fun h => absurd h (Nat.lt_irrefl _)⟩
  | cons cost older ih =>
      obtain ⟨hle, hsum⟩ := ih (room - cost)
      rw [newestCount]
      split
      · rename_i hfits
        refine ⟨Nat.succ_le_succ hle, fun _ => ?_⟩
        rw [List.take_succ_cons, List.sum_cons]
        cases Nat.eq_zero_or_pos (newestCount (room - cost) older) with
        | inl hzero =>
            rw [hzero, List.take_zero, List.sum_nil]
            omega
        | inr hpos =>
            have := hsum hpos
            omega
      · exact ⟨Nat.zero_le _, fun h => absurd h (Nat.lt_irrefl _)⟩

/-- The first item and the newest others keep their order, and fit when there are others. -/
theorem firstAndNewest_spec (first : MemoItem) (others : List MemoItem) (budget : Int) (share : Nat) :
    ∃ n, firstAndNewest first others budget share = first :: others.drop n ∧ n ≤ others.length ∧
      (n < others.length → fitsBudget (first :: others.drop n) budget share = true) := by
  rw [firstAndNewest]
  generalize hcosts : others.map (fun item => memoEntryTokens (cutItem share item)) = costs
  have hlength : costs.length = others.length := by rw [← hcosts, List.length_map]
  obtain ⟨hle, hsum⟩ := newestCount_spec (budget - memoEntryTokens (cutItem share first)) costs.reverse
  generalize newestCount (budget - memoEntryTokens (cutItem share first)) costs.reverse = count at *
  rw [List.length_reverse, hlength] at hle
  refine ⟨_, rfl, Nat.sub_le _ _, fun hsome => ?_⟩
  have hroom := hsum (by omega)
  rw [List.take_reverse, List.sum_reverse, hlength, ← hcosts, ← List.map_drop] at hroom
  have htotal : memoTokens (cutTo share (first :: others.drop (others.length - count))) =
      memoEntryTokens (cutItem share first) +
        ((others.drop (others.length - count)).map fun item => memoEntryTokens (cutItem share item)).sum := by
    rw [memoTokens, cutTo, List.map_map]
    rfl
  rw [fitsBudget, htotal]
  apply decide_eq_true
  omega

/-! ## Fitted memos -/

theorem forall₂_cutTo (share : Nat) (items : List MemoItem) : List.Forall₂ CutOf items (cutTo share items) := by
  rw [cutTo, List.forall₂_map_right_iff, List.forall₂_same]
  exact fun item _ => cutOf_cutItem share item

theorem cutItem_zero_text (item : MemoItem) : (cutItem 0 item).text = [] := by
  rw [cutItem]
  split
  · rename_i hempty
    cases htext : item.text with
    | nil => rfl
    | cons c t =>
        have := utf8Size_pos c
        rw [htext, textTokens, tokensOf, utf8, encode, List.flatMap_cons, List.length_append,
          length_encodePoint] at hempty
        omega
  · rw [Nat.mul_zero, within_zero]
    rfl

/-- What a memo fitted to a budget is. -/
structure FitsMemo (items : List MemoItem) (budget : Int) (result : List MemoItem) : Prop where
  fits : (memoTokens result : Int) ≤ budget ∨ ∃ cut, result = [cut] ∧ cut.text = []
  kept : ∃ first others n, items = first :: others ∧
    List.Forall₂ CutOf (first :: others.drop n) result
  share : result.length = items.length → LargestShare items budget result
  again : (memoTokens result : Int) ≤ budget → fitMemo result budget = result

/-- When the items do not fit whole and all are kept, halving finds the largest share that fits. -/
def HalvingFinds (items : List MemoItem) (budget : Int) : Prop :=
  budget < memoTokens items →
    fitsBudget items budget (shareFloor items) = true ∨ items.length = 1 →
    HalvingFrom items budget (if fitsBudget items budget (shareFloor items) then shareFloor items else 0)

theorem fitMemo_again {items : List MemoItem} {budget : Int} (h : (memoTokens items : Int) ≤ budget) :
    fitMemo items budget = items := by
  rw [fitMemo.eq_def, if_pos h]

theorem cutToLargest_fits {items : List MemoItem} {budget : Int} {low : Nat}
    (h : fitsBudget items budget low = true) : (memoTokens (cutToLargest items budget low) : Int) ≤ budget := by
  have hfits : fitsBudget items budget (Bisect.largest (fitsBudget items budget) low (longest items + 1)) = true := by
    cases Bisect.largest_fits (fitsBudget items budget) low (longest items + 1) with
    | inl hfits => exact hfits
    | inr hsame => rw [hsame, h]
  exact of_decide_eq_true hfits

theorem length_cutToLargest (items : List MemoItem) (budget : Int) (low : Nat) :
    (cutToLargest items budget low).length = items.length := by
  rw [cutToLargest, cutTo, List.length_map]

/-- The first item alone fits, or is cut to nothing. -/
theorem cutToLargest_single (first : MemoItem) (budget : Int) (floor : Nat) :
    (memoTokens (cutToLargest [first] budget (if fitsBudget [first] budget floor then floor else 0)) : Int) ≤
        budget ∨
      ∃ cut, cutToLargest [first] budget (if fitsBudget [first] budget floor then floor else 0) = [cut] ∧
        cut.text = [] := by
  cases hfits : fitsBudget [first] budget floor with
  | true =>
      rw [if_pos rfl]
      exact .inl (cutToLargest_fits hfits)
  | false =>
      rw [if_neg Bool.false_ne_true, cutToLargest]
      cases Bisect.largest_fits (fitsBudget [first] budget) 0 (longest [first] + 1) with
      | inl hfound => exact .inl (of_decide_eq_true hfound)
      | inr hzero =>
          rw [hzero]
          exact .inr ⟨cutItem 0 first, rfl, cutItem_zero_text first⟩

/-- The first item and the newest others fit, or the first item alone is cut to nothing. -/
theorem firstAndNewest_fits {first : MemoItem} {others : List MemoItem} {budget : Int} {floor n : Nat}
    (hle : n ≤ others.length)
    (hfits : n < others.length → fitsBudget (first :: others.drop n) budget floor = true) :
    let kept := first :: others.drop n
    let result := cutToLargest kept budget (if fitsBudget kept budget floor then floor else 0)
    (memoTokens result : Int) ≤ budget ∨ ∃ cut, result = [cut] ∧ cut.text = [] := by
  cases Nat.lt_or_eq_of_le hle with
  | inl hsome =>
      dsimp only
      rw [hfits hsome, if_pos rfl]
      exact .inl (cutToLargest_fits (hfits hsome))
  | inr hnone =>
      dsimp only
      rw [hnone, List.drop_length]
      exact cutToLargest_single first budget floor

/-- **A memo fits its budget and keeps the most it can exactly when halving finds the largest share**. -/
theorem fitMemo_iff (first : MemoItem) (others : List MemoItem) (budget : Int) :
    FitsMemo (first :: others) budget (fitMemo (first :: others) budget) ↔
      HalvingFinds (first :: others) budget := by
  by_cases hwhole : (memoTokens (first :: others) : Int) ≤ budget
  · apply iff_of_true
    · rw [fitMemo_again hwhole]
      refine ⟨.inl hwhole, ⟨first, others, 0, rfl, ?_⟩, fun _ => .inl rfl, fun _ => fitMemo_again hwhole⟩
      rw [List.drop_zero, List.forall₂_same]
      exact fun item _ => ⟨rfl, List.prefix_refl _, by simp⟩
    · exact fun hbig => absurd hwhole (not_le.mpr hbig)
  · have hbig : budget < memoTokens (first :: others) := not_le.mp hwhole
    have hfloor : shareFloor (first :: others) ≤ longest (first :: others) := min_le_right _ _
    rw [fitMemo, if_neg hwhole]
    dsimp only
    cases hfits : fitsBudget (first :: others) budget (shareFloor (first :: others)) with
    | true =>
        rw [if_pos rfl]
        have hresult := cutToLargest_fits hfits
        have hshare := largestShare_iff hbig hfloor
        constructor
        · intro h _ _
          rw [hfits, if_pos rfl]
          exact hshare.mp (h.share (length_cutToLargest _ _ _))
        · intro h
          have hhalving := h hbig (.inl hfits)
          rw [hfits, if_pos rfl] at hhalving
          exact ⟨.inl hresult, ⟨first, others, 0, rfl, by rw [List.drop_zero]; exact forall₂_cutTo _ _⟩,
            fun _ => hshare.mpr hhalving, fitMemo_again⟩
    | false =>
        rw [if_neg Bool.false_ne_true]
        obtain ⟨n, heq, hle, hkeptFits⟩ :=
          firstAndNewest_spec first others budget (shareFloor (first :: others))
        rw [heq]
        have hresult := firstAndNewest_fits hle hkeptFits
        cases others with
        | nil =>
            obtain rfl : n = 0 := Nat.le_zero.mp hle
            have hzero : (if fitsBudget [first] budget (shareFloor [first]) then shareFloor [first] else 0) = 0 := by
              rw [hfits, if_neg Bool.false_ne_true]
            have hsingle := cutToLargest_single first budget (shareFloor [first])
            have hshare := largestShare_iff hbig (Nat.zero_le _)
            rw [hzero] at hsingle
            rw [List.drop_zero, hzero]
            constructor
            · intro h _ _
              rw [hzero]
              exact hshare.mp (h.share (length_cutToLargest _ _ _))
            · intro h
              have hhalving := h hbig (.inr rfl)
              rw [hzero] at hhalving
              exact ⟨hsingle, ⟨first, [], 0, rfl, forall₂_cutTo _ _⟩, fun _ => hshare.mpr hhalving, fitMemo_again⟩
        | cons second others =>
            have hfewer : (cutToLargest (first :: (second :: others).drop n) budget
                (if fitsBudget (first :: (second :: others).drop n) budget
                  (shareFloor (first :: second :: others)) then shareFloor (first :: second :: others)
                  else 0)).length ≠ (first :: second :: others).length := by
              rw [length_cutToLargest, List.length_cons, List.length_drop]
              intro hsame
              have hzero : n = 0 := by
                simp only [List.length_cons] at hsame hle
                omega
              subst hzero
              have := hkeptFits (Nat.zero_lt_succ _)
              rw [List.drop_zero, hfits] at this
              cases this
            apply iff_of_true
            · exact ⟨hresult, ⟨first, second :: others, n, rfl, forall₂_cutTo _ _⟩,
                fun hsame => absurd hsame hfewer, fitMemo_again⟩
            · intro _ hall
              cases hall with
              | inl hfloorFits =>
                  rw [hfits] at hfloorFits
                  cases hfloorFits
              | inr hone => simp at hone

/-- Two messages of 40 characters that take four bytes each. -/
def equalMessages : List MemoItem :=
  [⟨1, List.replicate 40 0x1d11e, false⟩, ⟨2, List.replicate 40 0x1d122, false⟩]

/-- No share above 22 fits, and halving tries 17, 21 and 22 of those below, which do. -/
theorem fitMemo_iff_equal :
    HalvingFinds equalMessages 80 ∧ FitsMemo equalMessages 80 (fitMemo equalMessages 80) ∧
      memoTokens equalMessages = 84 := by
  have hlongest : longest equalMessages = 40 := by decide +kernel
  have htokens : memoTokens equalMessages = 84 := by decide +kernel
  have hbig : (80 : Int) < memoTokens equalMessages := by
    rw [htokens]
    decide
  have hfloor : fitsBudget equalMessages 80 (shareFloor equalMessages) = true := by decide +kernel
  have hstart : shareFloor equalMessages = 10 := by
    rw [shareFloor, hlongest]
    rfl
  have hfits : ∀ share ∈ [17, 21, 22], fitsBudget equalMessages 80 share = true := by decide +kernel
  have hsmall : ∀ share ≤ 40, 22 < share → fitsBudget equalMessages 80 share = false := by decide +kernel
  have hlarge : ∀ share, 22 < share → fitsBudget equalMessages 80 share = false := by
    intro share hshare
    by_cases hle : share ≤ 40
    · exact hsmall share hle hshare
    · exact fitsBudget_longest hbig (hlongest ▸ Nat.le_of_lt (not_le.mp hle))
  have hhalving : HalvingFinds equalMessages 80 := by
    intro _ _ target _ hfit hmax share hprobe hle
    obtain rfl : target = 22 := by
      by_contra hne
      rcases Nat.lt_or_gt_of_ne hne with hlt | hgt
      · exact absurd ((hmax 22 hlt).symm.trans (hfits 22 (by decide))) Bool.false_ne_true
      · rw [hlarge target hgt] at hfit
        cases hfit
    have hprobes : Bisect.probes 22 10 41 = [25, 17, 21, 23, 22] := by simp [Bisect.probes]
    rw [hfloor, if_pos rfl, hstart, hlongest, hprobes] at hprobe
    apply hfits
    simp only [List.mem_cons, List.not_mem_nil, or_false] at hprobe ⊢
    omega
  exact ⟨hhalving, (fitMemo_iff _ _ 80).mpr hhalving, htokens⟩

/-- A message that is whole at a share of 20 tokens and a longer one that is not. -/
def twoMessages : List MemoItem :=
  [⟨1, List.replicate 80 (ofChar 'a'), false⟩, ⟨2, List.replicate 160 (ofChar 'b'), false⟩]

/-- Halving tries 25 and 17 tokens, which do not fit, and passes by 22, which does. -/
theorem larger_share_missed : ¬ FitsMemo twoMessages 62 (fitMemo twoMessages 62) := by
  have hbig : ¬ (memoTokens twoMessages : Int) ≤ 62 := by decide +kernel
  have hfloor : shareFloor twoMessages = 10 := by decide +kernel
  have hlongest : longest twoMessages = 40 := by decide +kernel
  have hfits : fitsBudget twoMessages 62 10 = true := by decide +kernel
  have h25 : fitsBudget twoMessages 62 25 = false := by decide +kernel
  have h17 : fitsBudget twoMessages 62 17 = false := by decide +kernel
  have h22 : fitsBudget twoMessages 62 22 = true := by decide +kernel
  have hresult : fitMemo twoMessages 62 = cutToLargest twoMessages 62 10 := by
    rw [twoMessages] at *
    rw [fitMemo, if_neg hbig]
    dsimp only
    rw [hfloor, hfits, if_pos rfl]
  obtain ⟨low, hlow, hcuts⟩ : ∃ low, low < 17 ∧ cutToLargest twoMessages 62 10 = cutTo low twoMessages := by
    obtain ⟨-, hlow, -⟩ := Bisect.largest_cases h17 (by decide : 10 < 17)
    refine ⟨_, hlow, ?_⟩
    rw [cutToLargest, hlongest, Bisect.largest_step (by decide), h25, if_neg Bool.false_ne_true,
      Bisect.largest_step (by decide), h17, if_neg Bool.false_ne_true]
  -- the first message, of 20 tokens, is cut at the share found and whole at 22
  have hwhole : ∀ share, cutTo low twoMessages = cutTo share twoMessages → share < 20 := by
    intro share hsame
    by_contra hlarge
    have hfirst := (List.cons.inj hsame).1
    have htokens : textTokens (List.replicate 80 (ofChar 'a')) = 20 := by decide +kernel
    rw [cutItem, cutItem, htokens, if_neg (by omega), if_pos (not_lt.mp hlarge)] at hfirst
    exact absurd (congrArg MemoItem.truncated hfirst) Bool.false_ne_true.symm
  rw [hresult, hcuts]
  intro h
  cases h.share (by rw [cutTo, List.length_map]) with
  | inl hsame =>
      have hall : cutTo 40 twoMessages = twoMessages := cutTo_of_longest_le hlongest.le
      exact absurd (hwhole 40 (hsame.trans hall.symm)) (by decide)
  | inr hshare =>
      obtain ⟨share, heq, hmax⟩ := hshare
      rw [hmax 22 ((hwhole share heq).trans (by decide))] at h22
      cases h22

end Avibe.Checkpoint
