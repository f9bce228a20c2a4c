import Avibe.Edits.LineEdits

/-!
# What edits leave

Accepted edits replace the spans of exact matches and the lines that normalized matches touch, and nothing
else: every other line is in the new file with its own break. A group of lines is rewritten from the
normalized view, with the breaks of its lines (`applyEdits_frame`).
-/

namespace Avibe.Edits

open Texts Splice SortOn

/-! ## What is replaced -/

section Replaced

variable (nfkc : Text → Text) (text : Text) (edits : List Edit)

def normalizedView : Text := (boundedFuzzyView nfkc (view text)).getD []

def exactFound : List Replacement := placed nfkc text false (edits.map normalizeEdit).zipIdx

def fuzzyFound : List Replacement := placed nfkc text true (edits.map normalizeEdit).zipIdx

/-- The groups of lines that normalized matches touch. -/
def touchedGroups : List Group := groupsOf (normalizedView nfkc text) (fuzzyFound nfkc text edits)

/-- All replacements of the file, in order. -/
def allReplacements : List Replacement :=
  sortOn Replacement.index ((exactFound nfkc text edits).map (exactReplacement text) ++
    (touchedGroups nfkc text edits).map (groupReplacement text (normalizedView nfkc text)))

/-- Where the lines of a group start and end in the normalized view. -/
def groupStart (normalized : Text) (g : Group) : Nat := (lineStarts normalized).getD g.first 0

def groupEnd (normalized : Text) (g : Group) : Nat :=
  (lineStarts normalized).getD (g.last + 1) normalized.length

/-- No match has a place on the line. -/
def Untouched (line : Nat) : Prop :=
  (∀ m ∈ exactFound nfkc text edits, ¬ Touches (starts text) (spanOf (exactReplacement text m)) line) ∧
    ∀ m ∈ fuzzyFound nfkc text edits, ¬ Touches (lineStarts (normalizedView nfkc text)) (spanOf m) line

end Replaced

section Accepted

variable {nfkc : Text → Text} {text : Text} {edits : List Edit}

theorem tier_spec {oldText : Text} (hne : oldText ≠ []) {pos : Nat}
    (h : pos ∈ findAll (tier nfkc text oldText).haystack (tier nfkc text oldText).needle) :
    (tier nfkc text oldText).needle ≠ [] ∧ (tier nfkc text oldText).haystack =
      if (tier nfkc text oldText).normalized then normalizedView nfkc text else view text := by
  have hnone : pos ∉ findAll [] [] := List.not_mem_nil
  revert h
  rw [tier]
  dsimp only
  split
  · exact fun _ => ⟨hne, rfl⟩
  · split
    · exact fun h => absurd h hnone
    · split
      · exact fun h => absurd h hnone
      · rename_i haystack hview
        split
        · exact fun h => absurd h hnone
        · rename_i hneedle
          intro _
          refine ⟨hneedle, ?_⟩
          rw [normalizedView, hview]
          rfl

/-- A match of an edit in one of the tiers. -/
theorem placed_spec (hne : ∀ edit ∈ edits, normalizeToLf edit.oldText ≠ []) {normalized : Bool}
    {m : Replacement} (h : m ∈ placed nfkc text normalized (edits.map normalizeEdit).zipIdx) :
    0 < m.length ∧
      m.index + m.length ≤ (if normalized then normalizedView nfkc text else view text).length := by
  obtain ⟨⟨normal, index⟩, he, hm⟩ := List.mem_flatMap.mp h
  obtain ⟨edit, hedit, rfl⟩ := List.mem_map.mp (List.fst_mem_of_mem_zipIdx he)
  dsimp only at hm
  split at hm
  · rename_i htier
    have hnormalized : (tier nfkc text (normalizeToLf edit.oldText)).normalized = normalized := htier
    obtain ⟨pos, hpos, rfl⟩ := List.mem_map.mp hm
    have hpos := List.mem_of_mem_take hpos
    obtain ⟨hneedle, hhaystack⟩ := tier_spec (hne edit hedit) hpos
    rw [hnormalized] at hhaystack
    rw [← hhaystack]
    exact ⟨List.length_pos_iff.mpr hneedle, findAll_le hneedle hpos⟩
  · cases hm

/-- What accepted edits come to. -/
theorem applyEdits_all {maxResultChars : Option Nat} {r : Edited}
    (h : applyEdits nfkc text edits maxResultChars = .ok r) :
    (∀ edit ∈ edits, normalizeToLf edit.oldText ≠ []) ∧
      firstOverlap (allReplacements nfkc text edits) = none ∧
      firstOverlap (sortOn Replacement.index (fuzzyFound nfkc text edits)) = none ∧
      r.newText = applyFrom text 0 0 (allReplacements nfkc text edits) ∧
      (fuzzyFound nfkc text edits ≠ [] →
        (lineStarts (normalizedView nfkc text)).length = (rows text).length) := by
  obtain ⟨replacements, counts, hreplacements, hdisjoint, hnew, -, -⟩ := applyEdits_ok h
  obtain ⟨hne, found, hexact, hfuzzy, -, hoverlap, groups, heq, hnil, hsome⟩ :=
    replacementsOf_ok hreplacements
  have hgroups : groups = (touchedGroups nfkc text edits).map
      (groupReplacement text (normalizedView nfkc text)) ∧ (fuzzyFound nfkc text edits ≠ [] →
        (lineStarts (normalizedView nfkc text)).length = (rows text).length) := by
    by_cases hempty : found.fuzzy = []
    · rw [touchedGroups, fuzzyFound, ← hfuzzy, hempty]
      exact ⟨hnil hempty, fun hne => absurd rfl hne⟩
    · have hlines := hsome hempty
      rw [lineGroups] at hlines
      split at hlines
      · cases hlines
      · rename_i hcount
        rw [← length_starts]
        refine ⟨?_, fun _ => not_not.mp hcount⟩
        rw [touchedGroups, fuzzyFound, ← hfuzzy]
        exact (Except.ok.inj hlines).symm
  rw [heq, hexact, hgroups.1] at hdisjoint hnew
  rw [hfuzzy] at hoverlap
  exact ⟨hne, hdisjoint, hoverlap, hnew, hgroups.2⟩

variable (hne : ∀ edit ∈ edits, normalizeToLf edit.oldText ≠ [])
  (hlines : fuzzyFound nfkc text edits ≠ [] →
    (lineStarts (normalizedView nfkc text)).length = (rows text).length)
include hne

theorem exactFound_spec {m : Replacement} (h : m ∈ exactFound nfkc text edits) :
    0 < m.length ∧ m.index + m.length ≤ (view text).length := placed_spec hne h

theorem fuzzyFound_spec {m : Replacement} (h : m ∈ fuzzyFound nfkc text edits) :
    0 < m.length ∧ m.index + m.length ≤ (normalizedView nfkc text).length := placed_spec hne h

include hlines

theorem touchedGroups_lines {g : Group} (h : g ∈ touchedGroups nfkc text edits) :
    g.first ≤ g.last ∧ g.last < (rows text).length := by
  have hgrouped := grouped_groupsOf (normalizedView nfkc text) (fuzzyFound nfkc text edits)
  have hg : g ∈ (groupsOf (normalizedView nfkc text) (fuzzyFound nfkc text edits)).reverse :=
    List.mem_reverse.mpr h
  obtain ⟨m, hm, hfirst⟩ := hgrouped.first g hg
  obtain ⟨l, hl, hlast⟩ := hgrouped.last g hg
  have hfound := mem_sortOn.mp (hgrouped.mem hg hm)
  have hpos := (fuzzyFound_spec hne hfound).1
  constructor
  · rw [hfirst]
    refine Nat.le_trans (lineAt_mono ?_) (hgrouped.within g hg m hm).2
    exact Nat.le_sub_one_of_lt (Nat.lt_add_of_pos_right hpos)
  · rw [hlast, ← hlines (List.ne_nil_of_mem hfound)]
    exact lineAt_lt (List.cons_ne_nil _ _) _

/-- A group replaces its lines. -/
theorem spanOf_groupReplacement {g : Group} (h : g ∈ touchedGroups nfkc text edits) :
    spanOf (groupReplacement text (normalizedView nfkc text) g) =
      ⟨fileAt text g.first, fileAt text (g.last + 1)⟩ := by
  obtain ⟨hle, hlast⟩ := touchedGroups_lines hne hlines h
  have hmono := fileAt_mono text (Nat.le_succ_of_le hle)
  rw [spanOf, groupReplacement]
  dsimp only
  rw [starts_getD (Nat.lt_of_le_of_lt hle hlast), lineEnd_eq hlast, Nat.add_sub_cancel' hmono]

theorem allReplacements_le {x : Replacement} (h : x ∈ allReplacements nfkc text edits) :
    x.index + x.length ≤ text.length := by
  cases List.mem_append.mp (mem_sortOn.mp h) with
  | inl hexact =>
      obtain ⟨m, hm, rfl⟩ := List.mem_map.mp hexact
      obtain ⟨-, hle⟩ := exactFound_spec hne hm
      exact Nat.le_trans (Nat.le_of_eq (congrArg Span.hi (spanOf_exactReplacement hle))) (toOriginal_le hle)
  | inr hgroup =>
      obtain ⟨g, hg, rfl⟩ := List.mem_map.mp hgroup
      exact Nat.le_trans (Nat.le_of_eq (congrArg Span.hi (spanOf_groupReplacement hne hlines hg)))
        (fileAt_le text _)

/-- A line that no match touches lies outside every span that is replaced. -/
theorem Untouched.disjoint {line : Nat} (h : Untouched nfkc text edits line) (hline : line < (rows text).length)
    {x : Replacement} (hx : x ∈ allReplacements nfkc text edits) :
    fileAt text (line + 1) ≤ (spanOf x).lo ∨ (spanOf x).hi ≤ fileAt text line := by
  cases List.mem_append.mp (mem_sortOn.mp hx) with
  | inl hexact =>
      obtain ⟨m, hm, rfl⟩ := List.mem_map.mp hexact
      obtain ⟨hpos, hle⟩ := exactFound_spec hne hm
      have hbom := bomLength_le_toOriginal text m.index
      have hlt := toOriginal_lt hle (Nat.lt_add_of_pos_right hpos)
      have hstart : ∀ a ∈ (starts text).head?, a ≤ toOriginal text m.index := by
        intro a ha
        rw [List.head?_eq_getElem?] at ha
        obtain ⟨hzero, rfl⟩ := List.getElem?_eq_some_iff.mp ha
        rw [starts_getElem]
        exact hbom
      have hend : ∀ a ∈ (starts text).head?, a ≤ toOriginal text (m.index + m.length) - 1 :=
        fun a ha => Nat.le_trans (hstart a ha) (Nat.le_sub_one_of_lt hlt)
      have hsome : starts text ≠ [] := by
        rw [← List.length_pos_iff, length_starts]
        exact Nat.lt_of_le_of_lt (Nat.zero_le _) hline
      have htouch := h.1 m hm
      rw [spanOf_exactReplacement hle] at htouch ⊢
      rw [touches_iff (starts_pairwise text) hstart hsome hlt, not_and_or, not_le, not_le] at htouch
      cases htouch with
      | inl hbefore =>
          have hnext : line + 1 < (starts text).length := Nat.lt_of_le_of_lt hbefore (lineAt_lt hsome _)
          have hle' := (le_lineAt_iff (starts_pairwise text) hnext hstart).mp hbefore
          rw [starts_getElem] at hle'
          exact .inl hle'
      | inr hafter =>
          have hhere : line < (starts text).length := length_starts text ▸ hline
          have hgt := mt (le_lineAt_iff (starts_pairwise text) hhere hend).mpr (not_le.mpr hafter)
          rw [starts_getElem, not_le] at hgt
          exact .inr (Nat.le_of_pred_lt hgt)
  | inr hgroup =>
      obtain ⟨g, hg, rfl⟩ := List.mem_map.mp hgroup
      rw [spanOf_groupReplacement hne hlines hg]
      have hcovers : (∃ g ∈ touchedGroups nfkc text edits, g.first ≤ line ∧ line ≤ g.last) ↔
          ∃ m ∈ fuzzyFound nfkc text edits, Touches (lineStarts (normalizedView nfkc text)) (spanOf m) line :=
        groupsOf_covers (fun m hm => (fuzzyFound_spec hne hm).1) line
      have hout : ¬ (g.first ≤ line ∧ line ≤ g.last) := by
        intro hin
        obtain ⟨m, hm, htouch⟩ := hcovers.mp ⟨g, hg, hin⟩
        exact h.2 m hm htouch
      cases Nat.lt_or_ge line g.first with
      | inl hbefore => exact .inl (fileAt_mono text hbefore)
      | inr hfirst =>
          right
          apply fileAt_mono
          exact Nat.succ_le_of_lt (not_le.mp fun hlast => hout ⟨hfirst, hlast⟩)

omit hlines in
/-- The matches of a group lie one after the other in its lines of the normalized view. -/
theorem ordered_members (hoverlap : firstOverlap (sortOn Replacement.index (fuzzyFound nfkc text edits)) = none)
    {g : Group} (h : g ∈ touchedGroups nfkc text edits) :
    Ordered (groupEnd (normalizedView nfkc text) g) (groupStart (normalizedView nfkc text) g)
        (g.members.map spanOf) ∧
      groupEnd (normalizedView nfkc text) g ≤ (normalizedView nfkc text).length ∧
      sortOn Replacement.index g.members = g.members := by
  have hgrouped := grouped_groupsOf (normalizedView nfkc text) (fuzzyFound nfkc text edits)
  have hg : g ∈ (groupsOf (normalizedView nfkc text) (fuzzyFound nfkc text edits)).reverse :=
    List.mem_reverse.mpr h
  have hfound : ∀ m ∈ g.members, m ∈ fuzzyFound nfkc text edits :=
    fun m hm => mem_sortOn.mp (hgrouped.mem hg hm)
  have hsorted : Ordered (normalizedView nfkc text).length 0
      ((sortOn Replacement.index (fuzzyFound nfkc text edits)).map spanOf) :=
    ordered_of_firstOverlap hoverlap (fun m hm => (fuzzyFound_spec hne (mem_sortOn.mp hm)).2)
      (fun _ _ => Nat.zero_le _) (Nat.zero_le _)
  have hsublist : g.members.Sublist (sortOn Replacement.index (fuzzyFound nfkc text edits)) := by
    rw [← groupsOf_members (normalizedView nfkc text)]
    exact List.sublist_flatten_of_mem (List.mem_map_of_mem h)
  have hpairwise : (g.members.map spanOf).Pairwise fun a b => a.hi ≤ b.lo :=
    hsorted.pairwise.sublist (hsublist.map spanOf)
  have hbounds : ∀ m ∈ g.members, groupStart (normalizedView nfkc text) g ≤ m.index ∧
      m.index + m.length ≤ groupEnd (normalizedView nfkc text) g := by
    intro m hm
    obtain ⟨hpos, hle⟩ := fuzzyFound_spec hne (hfound m hm)
    obtain ⟨hfirst, hlast⟩ := hgrouped.within g hg m hm
    constructor
    · have hline : g.first < (lineStarts (normalizedView nfkc text)).length :=
        Nat.lt_of_le_of_lt hfirst (lineAt_lt (List.cons_ne_nil _ _) _)
      rw [groupStart, List.getD_eq_getElem?_getD, List.getElem?_eq_getElem hline]
      exact (le_lineAt_iff (lineStarts_pairwise _) hline (lineStarts_head _ _)).mp hfirst
    · rw [groupEnd, List.getD_eq_getElem?_getD]
      by_cases hline : g.last + 1 < (lineStarts (normalizedView nfkc text)).length
      · have hbefore := mt (le_lineAt_iff (lineStarts_pairwise _) hline (lineStarts_head _ _)).mpr
          (not_le.mpr (Nat.lt_succ_of_le hlast))
        rw [List.getElem?_eq_getElem hline]
        exact Nat.le_of_pred_lt (not_le.mp hbefore)
      · rw [List.getElem?_eq_none (not_lt.mp hline)]
        exact hle
  have hend : groupEnd (normalizedView nfkc text) g ≤ (normalizedView nfkc text).length := by
    rw [groupEnd, List.getD_eq_getElem?_getD]
    by_cases hline : g.last + 1 < (lineStarts (normalizedView nfkc text)).length
    · rw [List.getElem?_eq_getElem hline]
      exact lineStarts_le _ (List.getElem_mem hline)
    · rw [List.getElem?_eq_none (not_lt.mp hline)]
      exact Nat.le_refl _
  refine ⟨ordered_of_pairwise ?_ ?_ hpairwise, hend, ?_⟩
  · obtain ⟨m, hm, -⟩ := hgrouped.first g hg
    obtain ⟨hlo, hhi⟩ := hbounds m hm
    exact Nat.le_trans hlo (Nat.le_trans (Nat.le_add_right _ _) hhi)
  · intro s hs
    obtain ⟨m, hm, rfl⟩ := List.mem_map.mp hs
    exact ⟨(hbounds m hm).1, Nat.le_add_right _ _, (hbounds m hm).2⟩
  · apply Increasing.sortOn_eq _ (List.Perm.refl _)
    have hindex := List.pairwise_map.mp hpairwise
    apply hindex.imp_of_mem
    intro a b ha _ hab
    exact Nat.lt_of_lt_of_le (Nat.lt_add_of_pos_right (fuzzyFound_spec hne (hfound a ha)).1) hab

end Accepted

/-! ## Rewritten lines -/

/-- Replacements applied to a part of a text. -/
theorem applyFrom_slice {content : Text} {lo hi pos : Nat} {replacements : List Replacement} (hlo : lo ≤ pos)
    (h : Ordered hi pos (replacements.map spanOf)) :
    applyFrom (slice content lo hi) lo (pos - lo) replacements =
      weave (gaps (content.take hi) pos (replacements.map spanOf)) (replacements.map Replacement.newText) := by
  induction replacements generalizing pos with
  | nil =>
      rw [applyFrom, slice, List.drop_drop, Nat.add_sub_cancel' hlo]
      rfl
  | cons r replacements ih =>
      have hstart : lo ≤ r.index := Nat.le_trans hlo h.1
      have hend : r.index - lo + r.length = r.index + r.length - lo := (Nat.sub_add_comm hstart).symm
      have hnext : lo ≤ (spanOf r).hi := Nat.le_trans hstart h.2.1
      have hgap : slice (slice content lo hi) (pos - lo) (r.index - lo) = slice (content.take hi) pos r.index :=
        slice_drop hlo hstart
      have hrest := ih hnext h.2.2
      rw [spanOf] at hrest
      rw [applyFrom, hend, hgap, hrest, List.map_cons, List.map_cons, gaps, weave]
      rfl

/-- The lines of a group in the file. -/
def groupRows (text : Text) (g : Group) : List Row := slice (rows text) g.first (g.last + 1)

/-- The text of a group in the normalized view with its matches replaced. -/
def rewrittenLines (normalized : Text) (g : Group) : Text :=
  weave (gaps (normalized.take (groupEnd normalized g)) (groupStart normalized g) (g.members.map spanOf))
    (g.members.map Replacement.newText)

section Rewritten

variable {nfkc : Text → Text} {text : Text} {edits : List Edit}

theorem groupReplacement_newText (hne : ∀ edit ∈ edits, normalizeToLf edit.oldText ≠ [])
    (hlines : fuzzyFound nfkc text edits ≠ [] →
      (lineStarts (normalizedView nfkc text)).length = (rows text).length)
    (hoverlap : firstOverlap (sortOn Replacement.index (fuzzyFound nfkc text edits)) = none) {g : Group}
    (h : g ∈ touchedGroups nfkc text edits) :
    (groupReplacement text (normalizedView nfkc text) g).newText =
      withBreaks text (rewrittenLines (normalizedView nfkc text) g) (fileAt text g.first)
        ((groupRows text g).map Row.brk) := by
  obtain ⟨hle, hlast⟩ := touchedGroups_lines hne hlines h
  obtain ⟨hordered, hend, hsorted⟩ := ordered_members hne hoverlap h
  have hrewritten : rewritten (normalizedView nfkc text) g = rewrittenLines (normalizedView nfkc text) g := by
    have happly : applyFrom (slice (normalizedView nfkc text) (groupStart (normalizedView nfkc text) g)
        (groupEnd (normalizedView nfkc text) g)) (groupStart (normalizedView nfkc text) g)
        (groupStart (normalizedView nfkc text) g - groupStart (normalizedView nfkc text) g) g.members =
        rewrittenLines (normalizedView nfkc text) g := applyFrom_slice (Nat.le_refl _) hordered
    rw [Nat.sub_self] at happly
    rw [rewritten, applyReplacements, hsorted]
    exact happly
  have hown : slice ((rows text).map Row.brk) g.first (g.last + 1) = (groupRows text g).map Row.brk := by
    rw [slice, groupRows, slice, ← List.map_take, ← List.map_drop]
  rw [groupReplacement]
  dsimp only
  rw [starts_getD (Nat.lt_of_le_of_lt hle hlast), hrewritten, hown]

theorem substBreaks_groupRows (text fallback : Text) (g : Group) :
    substBreaks fallback ((groupRows text g).map Row.brk) ((groupRows text g).flatMap Row.lf) =
      (groupRows text g).flatMap Row.text := by
  obtain ⟨hcontent, hbreaks⟩ := splitRows_spec (text.drop (bomLength text))
  apply substBreaks_rows
  · intro row hrow
    exact hcontent row (List.mem_of_mem_take (List.mem_of_mem_drop hrow))
  · intro row hrow
    apply hbreaks row
    exact mem_dropLast_of_slice hrow

/-- What the lines of the file and the rewritten ones have in common at their start is kept. -/
theorem keeps_start {text fallback : Text} {g : Group} {lines shared : Text}
    (hfile : shared <+: (groupRows text g).flatMap Row.lf) (hlines : shared <+: lines) :
    substBreaks fallback ((groupRows text g).map Row.brk) shared <+: (groupRows text g).flatMap Row.text ∧
      substBreaks fallback ((groupRows text g).map Row.brk) shared <+:
        substBreaks fallback ((groupRows text g).map Row.brk) lines := by
  obtain ⟨later, hlater⟩ := hfile
  obtain ⟨rest, hrest⟩ := hlines
  constructor
  · rw [← substBreaks_groupRows text fallback g, ← hlater, substBreaks_append]
    exact List.prefix_append _ _
  · rw [← hrest, substBreaks_append]
    exact List.prefix_append _ _

/-- So is what they have in common at their end, where as many lines come before it. -/
theorem keeps_end {text fallback : Text} {g : Group} {before before' shared : Text}
    (hfile : (groupRows text g).flatMap Row.lf = before ++ shared)
    (hcount : before'.count lineFeed = before.count lineFeed) :
    substBreaks fallback (((groupRows text g).map Row.brk).drop (before.count lineFeed)) shared <:+
        (groupRows text g).flatMap Row.text ∧
      substBreaks fallback (((groupRows text g).map Row.brk).drop (before.count lineFeed)) shared <:+
        substBreaks fallback ((groupRows text g).map Row.brk) (before' ++ shared) := by
  constructor
  · rw [← substBreaks_groupRows text fallback g, hfile, substBreaks_append]
    exact List.suffix_append _ _
  · rw [substBreaks_append, hcount]
    exact List.suffix_append _ _

end Rewritten

/-! ## Accepted edits -/

/-- A line of the file with its break. -/
def lineText (text : Text) (line : Nat) : Text := ((rows text)[line]?.map Row.text).getD []

theorem slice_line {text : Text} {line : Nat} (h : line < (rows text).length) :
    slice text (fileAt text line) (fileAt text (line + 1)) = lineText text line := by
  have hrow : slice (rows text) line (line + 1) = [(rows text)[line]] := by
    rw [slice, List.take_succ_eq_append_getElem h]
    apply List.drop_left'
    rw [List.length_take, Nat.min_eq_left (Nat.le_of_lt h)]
  rw [slice_fileAt text (Nat.le_succ line), hrow, lineText, List.getElem?_eq_getElem h, List.flatMap_singleton]
  rfl

/-- Accepted edits replace the spans of their exact matches and the lines that their normalized matches
touch. The other lines are in the new file, in order and with their breaks. The lines of a group come from
the normalized view with the matches replaced and with the breaks of the group; what they have in common
with the lines of the file at either end is the file's own. -/
theorem applyEdits_frame {nfkc : Text → Text} {text : Text} {edits : List Edit} {maxResultChars : Option Nat}
    {r : Edited} (h : applyEdits nfkc text edits maxResultChars = .ok r) :
    (Ordered text.length 0 ((allReplacements nfkc text edits).map spanOf) ∧
      r.newText = weave (gaps text 0 ((allReplacements nfkc text edits).map spanOf))
        ((allReplacements nfkc text edits).map Replacement.newText)) ∧
    (∀ line, (∃ g ∈ touchedGroups nfkc text edits, g.first ≤ line ∧ line ≤ g.last) ↔
      ∃ m ∈ fuzzyFound nfkc text edits, Touches (lineStarts (normalizedView nfkc text)) (spanOf m) line) ∧
    (∀ kept : List Nat, kept.Pairwise (· < ·) →
      (∀ line ∈ kept, line < (rows text).length ∧ Untouched nfkc text edits line) →
      ∃ others, others.length = kept.length + 1 ∧ r.newText = weave others (kept.map (lineText text))) ∧
    ∀ g ∈ touchedGroups nfkc text edits,
      let own := (groupRows text g).map Row.brk
      let brk := breakFor text (fileAt text g.first)
      let x := groupReplacement text (normalizedView nfkc text) g
      spanOf x = ⟨fileAt text g.first, fileAt text (g.last + 1)⟩ ∧
      x.newText = substBreaks brk own (rewrittenLines (normalizedView nfkc text) g) ∧
      (∀ shared, shared <+: (groupRows text g).flatMap Row.lf →
        shared <+: rewrittenLines (normalizedView nfkc text) g →
        substBreaks brk own shared <+: (groupRows text g).flatMap Row.text ∧
          substBreaks brk own shared <+: x.newText) ∧
      ∀ before before' shared, (groupRows text g).flatMap Row.lf = before ++ shared →
        rewrittenLines (normalizedView nfkc text) g = before' ++ shared →
        before'.count lineFeed = before.count lineFeed →
        substBreaks brk (own.drop (before.count lineFeed)) shared <:+ (groupRows text g).flatMap Row.text ∧
          substBreaks brk (own.drop (before.count lineFeed)) shared <:+ x.newText := by
  obtain ⟨hne, hdisjoint, hoverlap, hnew, hlines⟩ := applyEdits_all h
  have hordered : Ordered text.length 0 ((allReplacements nfkc text edits).map spanOf) :=
    ordered_of_firstOverlap hdisjoint (fun x hx => allReplacements_le hne hlines hx)
      (fun _ _ => Nat.zero_le _) (Nat.zero_le _)
  rw [applyFrom_eq_weave] at hnew
  refine ⟨⟨hordered, hnew⟩, groupsOf_covers fun m hm => (fuzzyFound_spec hne hm).1, ?_, ?_⟩
  · intro kept hkept huntouched
    have hspans : Ordered text.length 0
        (kept.map fun line => (⟨fileAt text line, fileAt text (line + 1)⟩ : Span)) := by
      apply ordered_of_pairwise (Nat.zero_le _)
      · intro s hs
        obtain ⟨line, -, rfl⟩ := List.mem_map.mp hs
        exact ⟨Nat.zero_le _, fileAt_mono text (Nat.le_succ line), fileAt_le text _⟩
      · apply List.pairwise_map.mpr
        exact hkept.imp fun hlt => fileAt_mono text hlt
    have hdisjoint : ∀ k ∈ kept.map fun line => (⟨fileAt text line, fileAt text (line + 1)⟩ : Span),
        ∀ s ∈ (allReplacements nfkc text edits).map spanOf, k.hi ≤ s.lo ∨ s.hi ≤ k.lo := by
      intro k hk s hs
      obtain ⟨line, hline, rfl⟩ := List.mem_map.mp hk
      obtain ⟨x, hx, rfl⟩ := List.mem_map.mp hs
      obtain ⟨hlt, huntouched⟩ := huntouched line hline
      exact huntouched.disjoint hne hlines hlt hx
    have hlength : ((allReplacements nfkc text edits).map Replacement.newText).length =
        ((allReplacements nfkc text edits).map spanOf).length := by
      rw [List.length_map, List.length_map]
    obtain ⟨others, hothers, heq⟩ := exists_weave hordered hspans hlength hdisjoint
    rw [List.length_map] at hothers
    refine ⟨others, hothers, ?_⟩
    rw [hnew, heq, List.map_map]
    congr 1
    apply List.map_congr_left
    intro line hline
    exact slice_line (huntouched line hline).1
  · intro g hg
    have htext := groupReplacement_newText hne hlines hoverlap hg
    refine ⟨spanOf_groupReplacement hne hlines hg, htext, ?_, ?_⟩
    · intro shared hfile hshared
      rw [htext]
      exact keeps_start hfile hshared
    · intro before before' shared hfile hshared hcount
      rw [htext, hshared]
      exact keeps_end hfile hcount

/-- A file of two lines, one of which is rewritten. -/
theorem applyEdits_frame_quotes :
    let text : Text := [0x201c, 0x61, 0x201d, 0x0d, 0x0a, 0x6b, 0x0a]
    let edits : List Edit := [⟨lit "\"a\"", lit "b", false⟩]
    ∃ r, applyEdits id text edits none = .ok r ∧ r.newText = [0x62, 0x0d, 0x0a, 0x6b, 0x0a] ∧
      (∃ others, others.length = 2 ∧ r.newText = weave others [lit "k\n"]) ∧
      ∃ g ∈ touchedGroups id text edits, g.first = 0 ∧ g.last = 0 ∧
        spanOf (groupReplacement text (normalizedView id text) g) = ⟨0, 5⟩ ∧
        (groupReplacement text (normalizedView id text) g).newText = [0x62, 0x0d, 0x0a] ∧
        [0x0d, 0x0a] <:+ (groupRows text g).flatMap Row.text := by
  intro text edits
  have haccepted : applyEdits id text edits none = .ok ⟨[0x62, 0x0d, 0x0a, 0x6b, 0x0a],
      [0x201c, 0x61, 0x201d, 0x0a, 0x6b, 0x0a], lit "b\nk\n", [1], [(1, 1)]⟩ := by decide +kernel
  have hgroups : touchedGroups id text edits = [⟨0, 0, [⟨0, 0, 3, lit "b"⟩]⟩] := by decide +kernel
  have hmatches : fuzzyFound id text edits = [⟨0, 0, 3, lit "b"⟩] := by decide +kernel
  have hexact : exactFound id text edits = [] := by decide +kernel
  have hline : Untouched id text edits 1 := by
    rw [Untouched, hmatches, hexact]
    refine ⟨fun m hm => absurd hm List.not_mem_nil, ?_⟩
    intro m hm
    obtain rfl := List.mem_singleton.mp hm
    rw [touches_iff (lineStarts_pairwise _) (lineStarts_head _ _) (List.cons_ne_nil _ _) (by decide)]
    decide +kernel
  obtain ⟨-, -, hkept, hrewritten⟩ := applyEdits_frame haccepted
  obtain ⟨others, hothers, hnew⟩ := hkept [1] (List.pairwise_singleton _ _) (by
    intro line hmem
    obtain rfl := List.mem_singleton.mp hmem
    exact ⟨by decide +kernel, hline⟩)
  have hmem : (⟨0, 0, [⟨0, 0, 3, lit "b"⟩]⟩ : Group) ∈ touchedGroups id text edits :=
    hgroups ▸ List.mem_singleton_self _
  obtain ⟨hspan, hrewrite, -, htail⟩ := hrewritten _ hmem
  -- the line break after the rewritten text is the one of the file
  obtain ⟨hkeeps, -⟩ := htail [0x201c, 0x61, 0x201d] (lit "b") (lit "\n") (by decide +kernel)
    (by decide +kernel) (by decide +kernel)
  exact ⟨_, haccepted, rfl, ⟨others, hothers, hnew⟩, _, hmem, rfl, rfl,
    hspan.trans (by decide +kernel), hrewrite.trans (by decide +kernel), hkeeps⟩

/-- An undecodable byte before a match, which the normalization leaves, is not kept: the lines of a match
come from the view, which shows a replacement character for it. -/
theorem undecodable_not_kept :
    ¬ ∀ (nfkc : Text → Text) (text : Text) (edits : List Edit) (maxResultChars : Option Nat) (r : Edited),
      applyEdits nfkc text edits maxResultChars = .ok r → ∀ g ∈ touchedGroups nfkc text edits, ∀ shared,
        shared <+: (groupRows text g).flatMap Row.lf → normalizeForFuzzyMatch nfkc shared = shared →
        (∀ m ∈ g.members, groupStart (normalizedView nfkc text) g + shared.length ≤ m.index) →
        substBreaks (breakFor text (fileAt text g.first)) ((groupRows text g).map Row.brk) shared <+:
          (groupReplacement text (normalizedView nfkc text) g).newText := by
  intro h
  have haccepted : applyEdits id [0xdcff, 0x201c, 0x61, 0x201d] [⟨lit "\"a\"", lit "b", false⟩] none =
      .ok ⟨[0xfffd, 0x62], [0xfffd, 0x201c, 0x61, 0x201d], [0xfffd, 0x62], [1], [(1, 1)]⟩ := by decide +kernel
  have hgroups : touchedGroups id [0xdcff, 0x201c, 0x61, 0x201d] [⟨lit "\"a\"", lit "b", false⟩] =
      [⟨0, 0, [⟨0, 1, 3, lit "b"⟩]⟩] := rfl
  have hkept := h _ _ _ _ _ haccepted ⟨0, 0, [⟨0, 1, 3, lit "b"⟩]⟩ (hgroups ▸ List.mem_singleton_self _)
    [0xdcff] (by decide +kernel) (by decide +kernel) (by
      intro m hm
      obtain rfl := List.mem_singleton.mp hm
      decide +kernel)
  revert hkept
  decide +kernel

end Avibe.Edits
