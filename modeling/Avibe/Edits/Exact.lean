import Avibe.Edits.Apply
import Avibe.Lib.Codec

/-!
# Exact edits

What an accepted list of edits comes to when each is found exactly: disjoint spans of the file, each with
the old text of its edit for its view, and the file with these spans replaced.
-/

namespace Avibe.Edits

open Texts Splice SortOn

def spanOf (r : Replacement) : Span := ⟨r.index, r.index + r.length⟩

/-! ## Finding -/

theorem mem_findFrom {needle content : Text} {skip pos at' : Nat}
    (h : at' ∈ findFrom needle skip pos content) :
    pos ≤ at' ∧ needle <+: content.drop (at' - pos) := by
  induction content generalizing skip pos with
  | nil => cases skip <;> cases h
  | cons c rest ih =>
      have hstep : ∀ {skip'}, at' ∈ findFrom needle skip' (pos + 1) rest →
          pos ≤ at' ∧ needle <+: (c :: rest).drop (at' - pos) := by
        intro skip' hin
        obtain ⟨hle, hprefix⟩ := ih hin
        have hnext : at' - pos = at' - (pos + 1) + 1 := by omega
        rw [hnext, List.drop_succ_cons]
        exact ⟨Nat.le_of_succ_le hle, hprefix⟩
      cases skip with
      | succ skip => exact hstep h
      | zero =>
          rw [findFrom] at h
          split at h
          · rename_i hhere
            cases List.mem_cons.mp h with
            | inl heq =>
                rw [heq, Nat.sub_self]
                exact ⟨Nat.le_refl _, List.isPrefixOf_iff_prefix.mp hhere⟩
            | inr hlater => exact hstep hlater
          · exact hstep h

/-- The occurrences of a text are where it stands. -/
theorem slice_findAll {content needle : Text} {pos : Nat} (h : pos ∈ findAll content needle) :
    slice content pos (pos + needle.length) = needle := by
  obtain ⟨-, rest, hrest⟩ := mem_findFrom h
  rw [Nat.sub_zero] at hrest
  rw [slice, List.drop_take, Nat.add_sub_cancel_left, ← hrest, List.take_left]

theorem findAll_le {content needle : Text} (hne : needle ≠ []) {pos : Nat} (h : pos ∈ findAll content needle) :
    pos + needle.length ≤ content.length := by
  have hlength := congrArg List.length (slice_findAll h)
  have hpos := List.length_pos_iff.mpr hne
  rw [slice, List.length_drop, List.length_take] at hlength
  omega

/-! ## Collecting -/

section Collect

variable {nfkc : Text → Text} {text : Text} {maxResultChars : Option Nat}

/-- The matches of the edits in one of the tiers. -/
def placed (nfkc : Text → Text) (text : Text) (normalized : Bool) (edits : List (Edit × Nat)) :
    List Replacement :=
  edits.flatMap fun e =>
    let t := tier nfkc text e.1.oldText
    if t.normalized = normalized then matchesOf e.2 e.1 t else []

theorem collectEdit_ok {index : Nat} {edit : Edit} {found found' : Found}
    (h : collectEdit nfkc text maxResultChars index edit found = .ok found') :
    found'.exact = found.exact ++ placed nfkc text false [(edit, index)] ∧
      found'.fuzzy = found.fuzzy ++ placed nfkc text true [(edit, index)] ∧
      found'.counts = found.counts ++ [(tier nfkc text edit.oldText).count] ∧
      (tier nfkc text edit.oldText).count ≠ 0 := by
  rw [collectEdit] at h
  dsimp only at h
  split at h
  · cases h
  · rename_i hcount
    split at h
    · cases h
    · split at h
      · cases h
      · split at h
        · cases h
        · cases h
          refine ⟨?_, ?_, rfl, hcount⟩
          all_goals
            simp only [placed, List.flatMap_cons, List.flatMap_nil, List.append_nil]
            cases (tier nfkc text edit.oldText).normalized <;> simp

theorem collect_ok {index : Nat} {edits : List Edit} {found found' : Found}
    (h : collect nfkc text maxResultChars index edits found = .ok found') :
    found'.exact = found.exact ++ placed nfkc text false (edits.zipIdx index) ∧
      found'.fuzzy = found.fuzzy ++ placed nfkc text true (edits.zipIdx index) ∧
      found'.counts = found.counts ++ edits.map fun edit => (tier nfkc text edit.oldText).count := by
  induction edits generalizing index found with
  | nil =>
      cases h
      simp [placed]
  | cons edit edits ih =>
      rw [collect] at h
      split at h
      · cases h
      · rename_i next hnext
        obtain ⟨hexact, hfuzzy, hcounts, -⟩ := collectEdit_ok hnext
        obtain ⟨hexact', hfuzzy', hcounts'⟩ := ih h
        refine ⟨?_, ?_, ?_⟩
        · rw [hexact', hexact, List.append_assoc]
          simp [placed]
        · rw [hfuzzy', hfuzzy, List.append_assoc]
          simp [placed]
        · rw [hcounts', hcounts, List.append_assoc]
          rfl

/-- What accepted edits were collected to. -/
theorem replacementsOf_ok {edits : List Edit} {replacements : List Replacement} {counts : List Nat}
    (h : replacementsOf nfkc text edits maxResultChars = .ok (replacements, counts)) :
    (∀ edit ∈ edits, normalizeToLf edit.oldText ≠ []) ∧ ∃ found : Found,
      found.exact = placed nfkc text false (edits.map normalizeEdit).zipIdx ∧
      found.fuzzy = placed nfkc text true (edits.map normalizeEdit).zipIdx ∧
      counts = edits.map (fun edit => (tier nfkc text (normalizeToLf edit.oldText)).count) ∧
      checkDisjoint found.fuzzy = none ∧ ∃ groups,
        replacements = found.exact.map (exactReplacement text) ++ groups ∧
        (found.fuzzy = [] → groups = []) ∧
        (found.fuzzy ≠ [] → lineGroups text ((boundedFuzzyView nfkc (view text)).getD []) found.fuzzy =
          .ok groups) := by
  rw [replacementsOf] at h
  split at h
  · cases h
  · rename_i hnone
    have hne : ∀ edit ∈ edits, normalizeToLf edit.oldText ≠ [] := by
      intro edit hedit hempty
      have hnot := List.findIdx?_eq_none_iff.mp hnone (normalizeEdit edit) (List.mem_map_of_mem hedit)
      rw [decide_eq_false_iff_not] at hnot
      exact hnot hempty
    refine ⟨hne, ?_⟩
    split at h
    · cases h
    · split at h
      · cases h
      · rename_i found hfound
        obtain ⟨hexact, hfuzzy, hcounts⟩ := collect_ok hfound
        split at h
        · cases h
        · rename_i hdisjoint
          split at h
          · cases h
          · rename_i groups hgroups
            cases h
            refine ⟨found, hexact, hfuzzy, ?_, hdisjoint, groups, rfl, ?_, ?_⟩
            · rw [hcounts, List.map_map]
              rfl
            · intro hempty
              rw [if_pos hempty] at hgroups
              cases hgroups
              rfl
            · intro hsome
              rw [if_neg hsome] at hgroups
              exact hgroups

theorem applyEdits_ok {edits : List Edit} {r : Edited}
    (h : applyEdits nfkc text edits maxResultChars = .ok r) :
    ∃ replacements counts, replacementsOf nfkc text edits maxResultChars = .ok (replacements, counts) ∧
      checkDisjoint replacements = none ∧ r.newText = applyReplacements text replacements 0 ∧
      r.newView = lfView r.newText ∧ r.counts = counts := by
  rw [applyEdits] at h
  split at h
  · cases h
  · rename_i replacements counts hreplacements
    split at h
    · cases h
    · rename_i hdisjoint
      dsimp only at h
      split at h
      · cases h
      · cases h
        exact ⟨replacements, counts, hreplacements, hdisjoint, rfl, rfl, rfl⟩

end Collect

/-! ## Disjoint replacements -/

theorem ordered_of_firstOverlap {n : Nat} {replacements : List Replacement}
    (h : firstOverlap replacements = none) (hle : ∀ r ∈ replacements, r.index + r.length ≤ n) {pos : Nat}
    (hpos : ∀ r ∈ replacements.head?, pos ≤ r.index) (hn : pos ≤ n) :
    Ordered n pos (replacements.map spanOf) := by
  induction replacements generalizing pos with
  | nil => exact hn
  | cons r replacements ih =>
      have hr := hle r List.mem_cons_self
      refine ⟨hpos r rfl, Nat.le_add_right _ _, ?_⟩
      cases replacements with
      | nil => exact hr
      | cons next replacements =>
          rw [firstOverlap] at h
          split at h
          · cases h
          · rename_i hnext
            apply ih h (fun x hx => hle x (List.mem_cons_of_mem _ hx)) _ hr
            intro x hx
            obtain rfl : next = x := Option.some.inj hx
            exact not_lt.mp hnext

/-- Applying replacements keeps what lies between their spans. -/
theorem applyFrom_eq_weave (content : Text) (pos : Nat) (replacements : List Replacement) :
    applyFrom content 0 pos replacements =
      weave (gaps content pos (replacements.map spanOf)) (replacements.map Replacement.newText) := by
  induction replacements generalizing pos with
  | nil => rfl
  | cons r replacements ih =>
      rw [applyFrom, Nat.sub_zero, ih, List.map_cons, List.map_cons, gaps, weave]
      rfl

/-! ## Exact matches -/

/-- The edits are all found exactly. -/
def AllExact (text : Text) (edits : List Edit) : Prop :=
  ∀ edit ∈ edits, findAll (view text) (normalizeToLf edit.oldText) ≠ []

/-- The exact matches of the edits in the view. -/
def exactMatches (text : Text) (edits : List Edit) : List Replacement :=
  (edits.map normalizeEdit).zipIdx.flatMap fun e =>
    (findAll (view text) e.1.oldText).map fun pos => ⟨e.2, pos, e.1.oldText.length, e.1.newText⟩

theorem tier_exact {nfkc : Text → Text} {text oldText : Text} (h : findAll (view text) oldText ≠ []) :
    tier nfkc text oldText = ⟨false, view text, oldText, (findAll (view text) oldText).length⟩ := by
  rw [tier]
  exact if_pos fun hzero => h (List.length_eq_zero_iff.mp hzero)

theorem placed_exact {nfkc : Text → Text} {text : Text} {edits : List Edit} (h : AllExact text edits) :
    placed nfkc text false (edits.map normalizeEdit).zipIdx = exactMatches text edits ∧
      placed nfkc text true (edits.map normalizeEdit).zipIdx = [] := by
  have htier : ∀ e ∈ (edits.map normalizeEdit).zipIdx, tier nfkc text e.1.oldText =
      ⟨false, view text, e.1.oldText, (findAll (view text) e.1.oldText).length⟩ := by
    intro e he
    obtain ⟨edit, hedit, heq⟩ := List.mem_map.mp (List.fst_mem_of_mem_zipIdx he)
    rw [← heq]
    exact tier_exact (h edit hedit)
  constructor
  · apply List.flatMap_congr
    intro e he
    rw [htier e he]
    simp [matchesOf]
  · apply List.flatMap_eq_nil_iff.mpr
    intro e he
    rw [htier e he]
    rfl

/-- The spans of the file that exact edits replace. -/
def exactReplacements (text : Text) (edits : List Edit) : List Replacement :=
  sortOn Replacement.index ((exactMatches text edits).map (exactReplacement text))

theorem applyEdits_exact {nfkc : Text → Text} {text : Text} {edits : List Edit} {maxResultChars : Option Nat}
    {r : Edited} (h : applyEdits nfkc text edits maxResultChars = .ok r) (hexact : AllExact text edits) :
    (∀ edit ∈ edits, normalizeToLf edit.oldText ≠ []) ∧
      firstOverlap (exactReplacements text edits) = none ∧
      r.newText = applyFrom text 0 0 (exactReplacements text edits) ∧ r.newView = lfView r.newText ∧
      r.counts = edits.map fun edit => (findAll (view text) (normalizeToLf edit.oldText)).length := by
  obtain ⟨replacements, counts, hreplacements, hdisjoint, hnew, hview, hcounts⟩ := applyEdits_ok h
  obtain ⟨hne, found, hfoundExact, hfuzzy, hfoundCounts, -, groups, heq, hnil, -⟩ :=
    replacementsOf_ok hreplacements
  obtain ⟨hmatches, hnone⟩ := placed_exact hexact
  rw [hnil (hfuzzy.trans hnone), List.append_nil, hfoundExact, hmatches] at heq
  rw [heq] at hdisjoint hnew
  refine ⟨hne, hdisjoint, hnew, hview, ?_⟩
  rw [hcounts, hfoundCounts]
  apply List.map_congr_left
  intro edit hedit
  rw [tier_exact (hexact edit hedit)]

end Avibe.Edits
