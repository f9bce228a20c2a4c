import Avibe.Edits.Spans

/-!
# The view of the edited file

The view of a spliced file is the spliced view, except that a carriage return and a line feed that come
together where pieces of the new file meet are one line break, and that a mark that comes to the front is
taken for the byte order mark of the file (`newView_iff`).
-/

namespace Avibe.Edits

open Texts Splice SortOn

/-! ## The pieces of the new file -/

/-- The kept parts of the file and the new texts between them, without the byte order mark. -/
def newPieces (text : Text) (edits : List Edit) : List Text :=
  interleave (gaps text (bomLength text) ((exactReplacements text edits).map spanOf))
    ((exactReplacements text edits).map Replacement.newText)

/-- The view with every match replaced by what the model sees of the new text. -/
def expectedView (text : Text) (edits : List Edit) : Text :=
  applyFrom (view text) 0 0
    ((sortOn Replacement.index (exactMatches text edits)).map fun m => { m with newText := shown m.newText })

section Pieces

variable {text : Text} {edits : List Edit}

/-- The replacements of the file are those of the view, in the same order. -/
theorem exactReplacements_eq (hne : ∀ edit ∈ edits, normalizeToLf edit.oldText ≠ []) :
    exactReplacements text edits =
      (sortOn Replacement.index (exactMatches text edits)).map (exactReplacement text) := by
  symm
  apply List.map_insertionSort
  intro a ha b hb
  obtain ⟨-, -, -, hle, -⟩ := exactMatch_spec hne ha
  obtain ⟨-, -, -, hle', -⟩ := exactMatch_spec hne hb
  exact (toOriginal_le_iff (Nat.le_of_add_right_le hle) (Nat.le_of_add_right_le hle')).symm

theorem seen_drop {v : Nat} (h : v ≤ (view text).length) :
    seen (text.drop (toOriginal text v)) = (view text).drop v := by
  have hbase := bomLength_le_toOriginal text v
  have hdrop : text.drop (toOriginal text v) =
      (text.drop (bomLength text)).drop (toOriginal text v - bomLength text) := by
    rw [List.drop_drop, Nat.add_sub_cancel' hbase]
  rw [seen, hdrop, (cut_toOriginal h).drop, view_eq_lfView, lfView, shown, shown, List.map_drop]

/-- The kept parts of the file are seen as the kept parts of the view. -/
theorem seen_gaps {matches' : List Replacement} (hle : ∀ m ∈ matches', m.index + m.length ≤ (view text).length)
    {v : Nat} (hv : v ≤ (view text).length)
    (h : Ordered text.length (toOriginal text v) ((matches'.map (exactReplacement text)).map spanOf)) :
    (gaps text (toOriginal text v) ((matches'.map (exactReplacement text)).map spanOf)).map seen =
      gaps (view text) v (matches'.map spanOf) := by
  induction matches' generalizing v with
  | nil =>
      rw [List.map_nil, List.map_nil, gaps, List.map_singleton, seen_drop hv]
      rfl
  | cons m ms ih =>
      have hm := hle m List.mem_cons_self
      rw [List.map_cons, List.map_cons, spanOf_exactReplacement hm] at h ⊢
      have hstart := (toOriginal_le_iff hv (Nat.le_of_add_right_le hm)).mp h.1
      rw [List.map_cons, gaps, gaps, List.map_cons, seen_slice hstart (Nat.le_of_add_right_le hm),
        ih (fun m' hm' => hle m' (List.mem_cons_of_mem _ hm')) hm h.2.2]
      rfl

theorem toOriginal_zero (text : Text) : toOriginal text 0 = bomLength text := by
  rw [toOriginal_eq, rows, posIn_zero (splitRows_ne_nil _), Nat.add_zero]

/-- The pieces of the new file make it up, after the byte order mark. -/
theorem applyFrom_exactReplacements
    (h : Ordered text.length 0 ((exactReplacements text edits).map spanOf))
    (hle : ∀ x ∈ exactReplacements text edits, bomLength text ≤ x.index) :
    applyFrom text 0 0 (exactReplacements text edits) =
      text.take (bomLength text) ++ (newPieces text edits).flatten := by
  have hlater : Ordered text.length (bomLength text) ((exactReplacements text edits).map spanOf) := by
    apply h.later (bomLength_le text)
    intro s hs
    obtain ⟨x, hx, rfl⟩ := List.mem_map.mp hs
    exact hle x hx
  rw [applyFrom_eq_weave, gaps_prepend (Nat.zero_le _) hlater, newPieces, flatten_interleave]
  rfl

/-- What the model sees of the pieces is the view with the matches replaced. -/
theorem seen_newPieces (hne : ∀ edit ∈ edits, normalizeToLf edit.oldText ≠ [])
    (h : Ordered text.length (bomLength text) ((exactReplacements text edits).map spanOf)) :
    ((newPieces text edits).map seen).flatten = expectedView text edits := by
  have hle : ∀ m ∈ sortOn Replacement.index (exactMatches text edits),
      m.index + m.length ≤ (view text).length := by
    intro m hm
    obtain ⟨-, -, -, hm, -⟩ := exactMatch_spec hne (mem_sortOn.mp hm)
    exact hm
  have hnew : ((exactReplacements text edits).map Replacement.newText).map seen =
      ((sortOn Replacement.index (exactMatches text edits)).map fun m =>
        { m with newText := shown m.newText }).map Replacement.newText := by
    rw [exactReplacements_eq hne, List.map_map, List.map_map, List.map_map]
    apply List.map_congr_left
    intro m hm
    obtain ⟨edit, -, -, -, -, hnew⟩ := exactMatch_spec hne (mem_sortOn.mp hm)
    simp only [Function.comp_apply, exactReplacement, seen, hnew, normalizeToLf_withBreaks]
  have hgaps : (gaps text (bomLength text) ((exactReplacements text edits).map spanOf)).map seen =
      gaps (view text) 0 (((sortOn Replacement.index (exactMatches text edits)).map fun m =>
        { m with newText := shown m.newText }).map spanOf) := by
    rw [exactReplacements_eq hne, ← toOriginal_zero] at h ⊢
    rw [seen_gaps hle (Nat.zero_le _) h, List.map_map]
    rfl
  rw [newPieces, map_interleave, hnew, hgaps, flatten_interleave, expectedView, applyFrom_eq_weave]

end Pieces

theorem seen_map_flatten (ts : List Text) :
    (ts.map seen).flatten = shown ((ts.map normalizeToLf).flatten) := by
  rw [shown, List.map_flatten, List.map_map]
  rfl

theorem normalizeToLf_bom (t : Text) : normalizeToLf (bom :: t) = bom :: normalizeToLf t := by
  rw [normalizeToLf, if_neg (by decide)]

/-- The view of a file that starts with no mark of its own, in the pieces it is made of. -/
theorem lfView_flatten_iff {ts : List Text} :
    lfView ts.flatten = (ts.map seen).flatten ↔ SeamFree ts ∧ ts.flatten.head? ≠ some bom := by
  rw [seen_map_flatten]
  constructor
  · intro h
    have hlength := congrArg List.length h
    rw [lfView, shown, shown, List.length_map, List.length_map] at hlength
    have hle := length_normalizeToLf_flatten_le ts
    by_cases hbom : ts.flatten.head? = some bom
    · obtain ⟨rest, hrest⟩ : ∃ rest, ts.flatten = bom :: rest := by
        cases hflat : ts.flatten with
        | nil =>
            rw [hflat] at hbom
            cases hbom
        | cons c rest =>
            rw [hflat] at hbom
            exact ⟨rest, congrArg (· :: rest) (Option.some.inj hbom)⟩
      rw [bomLength, if_pos hbom] at hlength
      rw [hrest, List.drop_succ_cons, List.drop_zero] at hlength
      rw [hrest, normalizeToLf_bom, List.length_cons] at hle
      omega
    · rw [bomLength, if_neg hbom, List.drop_zero] at hlength
      exact ⟨length_normalizeToLf_flatten_iff.mp hlength, hbom⟩
  · rintro ⟨hfree, hbom⟩
    rw [lfView, bomLength, if_neg hbom, List.drop_zero, hfree.normalizeToLf_flatten]

/-- The view of the edited file is the view with every match replaced if and only if no carriage return and
line feed come together where pieces of the new file meet, and no mark comes to the front of a file without
a byte order mark. -/
theorem newView_iff {nfkc : Text → Text} {text : Text} {edits : List Edit} {maxResultChars : Option Nat}
    {r : Edited} (h : applyEdits nfkc text edits maxResultChars = .ok r) (hexact : AllExact text edits) :
    r.newView = expectedView text edits ↔ SeamFree (newPieces text edits) ∧
      (text.head? = some bom ∨ (newPieces text edits).flatten.head? ≠ some bom) := by
  obtain ⟨hne, hdisjoint, hnew, hview, -⟩ := applyEdits_exact h hexact
  have hordered : Ordered text.length 0 ((exactReplacements text edits).map spanOf) :=
    ordered_of_firstOverlap hdisjoint (fun x hx => (exactReplacement_spec hne hx).1)
      (fun _ _ => Nat.zero_le _) (Nat.zero_le _)
  have hstart : ∀ x ∈ exactReplacements text edits, bomLength text ≤ x.index := by
    intro x hx
    obtain ⟨m, -, rfl⟩ := List.mem_map.mp (mem_sortOn.mp hx)
    exact bomLength_le_toOriginal text m.index
  have hlater : Ordered text.length (bomLength text) ((exactReplacements text edits).map spanOf) := by
    apply hordered.later (bomLength_le text)
    intro s hs
    obtain ⟨x, hx, rfl⟩ := List.mem_map.mp hs
    exact hstart x hx
  rw [hview, hnew, applyFrom_exactReplacements hordered hstart, ← seen_newPieces hne hlater]
  by_cases hbom : text.head? = some bom
  · have htake : text.take (bomLength text) = [bom] := by
      cases text with
      | nil => cases hbom
      | cons c text =>
          rw [bomLength, if_pos hbom]
          exact congrArg (fun c => [c]) (Option.some.inj hbom)
    rw [htake, lfView, bomLength, List.singleton_append, List.head?_cons, if_pos rfl,
      List.drop_succ_cons, List.drop_zero, seen_map_flatten]
    constructor
    · intro heq
      have hlength := congrArg List.length heq
      rw [shown, shown, List.length_map, List.length_map] at hlength
      exact ⟨length_normalizeToLf_flatten_iff.mp hlength, .inl hbom⟩
    · rintro ⟨hfree, -⟩
      rw [hfree.normalizeToLf_flatten]
  · rw [bomLength, if_neg hbom, List.take_zero, List.nil_append, lfView_flatten_iff]
    simp only [hbom, false_or]

/-- An edit after a line break of two characters. -/
theorem newView_iff_crlf :
    let text : Text := [0x61, 0x0d, 0x0a, 0x58, 0x62]
    let edits : List Edit := [⟨lit "X", lit "Y\n", false⟩]
    ∃ r, applyEdits id text edits none = .ok r ∧ r.newView = expectedView text edits := by
  intro text edits
  have haccepted : applyEdits id text edits none = .ok ⟨[0x61, 0x0d, 0x0a, 0x59, 0x0d, 0x0a, 0x62],
      lit "a\nXb", lit "a\nY\nb", [1], [(2, 2)]⟩ := by decide +kernel
  have hexact : AllExact text edits := by
    rw [AllExact]
    decide +kernel
  have hfree : SeamFree (newPieces text edits) ∧
      (text.head? = some bom ∨ (newPieces text edits).flatten.head? ≠ some bom) := by decide +kernel
  exact ⟨_, haccepted, (newView_iff haccepted hexact).mpr hfree⟩

/-- Without the text between them a carriage return and a line feed are one line break: a line is lost. -/
theorem newView_loses_line :
    ¬ ∀ (nfkc : Text → Text) (text : Text) (edits : List Edit) (maxResultChars : Option Nat) (r : Edited),
      applyEdits nfkc text edits maxResultChars = .ok r → AllExact text edits →
        r.newView = expectedView text edits := by
  intro h
  have haccepted : applyEdits id [0x61, 0x0d, 0x58, 0x0a, 0x62] [⟨lit "X", [], false⟩] none =
      .ok ⟨[0x61, 0x0d, 0x0a, 0x62], lit "a\nX\nb", lit "a\nb", [1], [(1, 1)]⟩ := by decide +kernel
  have hexact : AllExact [0x61, 0x0d, 0x58, 0x0a, 0x62] [⟨lit "X", [], false⟩] := by
    rw [AllExact]
    decide +kernel
  have hview := h _ _ _ _ _ haccepted hexact
  revert hview
  decide +kernel

end Avibe.Edits
