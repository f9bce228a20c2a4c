import Avibe.Edits.Lines
import Avibe.Lib.SortOn

/-!
# Applying edits

Every edit is matched on its own in the view of the file, exactly or, when it is not found, in the
normalized view; matches become replacements of spans of the file, which must be disjoint. An exact match
replaces what it matched; the lines that normalized matches touch are rewritten from the normalized view.
The compatibility normalization of Unicode is a parameter.
-/

namespace Avibe.Edits

open Texts Splice SortOn

structure Edit where
  oldText : Text
  newText : Text
  replaceAll : Bool
deriving DecidableEq

structure Replacement where
  editIndex : Nat
  index : Nat
  length : Nat
  newText : Text
deriving DecidableEq

inductive EditError
  | empty (index : Nat)
  | tooMuchWork
  | notFound (index : Nat) (looseUnavailable : Bool)
  | duplicate (index occurrences : Nat)
  | tooMany (replacements : Nat)
  | resultTooLarge
  | overlap (first second : Nat)
  | lineCount
  | noChange
deriving DecidableEq

def maxReplacements : Nat := 10000

def maxFuzzyGrowthChars : Nat := 1024 * 1024

def nfkcChunkChars : Nat := 64 * 1024

def maxEditScanChars : Nat := 256 * 1024 * 1024

/-! ## Finding -/

/-- The occurrences of a text from a position on, after some characters that are passed over. -/
def findFrom (needle : Text) : Nat → Nat → Text → List Nat
  | _, _, [] => []
  | skip + 1, pos, _ :: rest => findFrom needle skip (pos + 1) rest
  | 0, pos, c :: rest =>
      if needle.isPrefixOf (c :: rest) then pos :: findFrom needle (needle.length - 1) (pos + 1) rest
      else findFrom needle 0 (pos + 1) rest

/-- The occurrences of a text that is not empty, none of which overlaps the one before. -/
def findAll (content needle : Text) : List Nat := findFrom needle 0 0 content

/-! ## The normalized view -/

def isTrailingSpace (c : CodePoint) : Bool :=
  c ∈ ([0x20, 0x09, 0x0b, 0x0c, 0x0d, 0xa0, 0x1680, 0x2028, 0x2029, 0x202f, 0x205f, 0x3000, 0xfeff] :
    List CodePoint) || 0x2000 ≤ c.val && c.val ≤ 0x200a

/-- An ASCII quote, dash or space for a typographic one. -/
def plain (c : CodePoint) : CodePoint :=
  if 0x2018 ≤ c.val ∧ c.val ≤ 0x201b then ofChar '\''
  else if 0x201c ≤ c.val ∧ c.val ≤ 0x201f then ofChar '"'
  else if 0x2010 ≤ c.val ∧ c.val ≤ 0x2015 ∨ c.val = 0x2212 then ofChar '-'
  else if c.val = 0xa0 ∨ 0x2002 ≤ c.val ∧ c.val ≤ 0x200a ∨ c.val = 0x202f ∨ c.val = 0x205f ∨
      c.val = 0x3000 then space
  else c

def afterNfkc (text : Text) : Text :=
  ([lineFeed].intercalate ((text.splitOn lineFeed).map fun line => line.rdropWhile isTrailingSpace)).map
    plain

section Normalized

variable (nfkc : Text → Text)

def normalizeForFuzzyMatch (text : Text) : Text := afterNfkc (nfkc text)

/-- The next piece to normalize, which ends before an ASCII character. -/
def nextChunk (rest : Text) : Text :=
  rest.take nfkcChunkChars ++ (rest.drop nfkcChunkChars).takeWhile fun c => 0x80 ≤ c.val

theorem nextChunk_pos {rest : Text} (h : rest ≠ []) : 0 < (nextChunk rest).length := by
  obtain ⟨c, rest, rfl⟩ := List.exists_cons_of_ne_nil h
  rw [nextChunk, List.length_append, List.length_take, List.length_cons, nfkcChunkChars]
  omega

/-- The pieces normalized one by one, while they stay within a budget. -/
def nfkcPieces (budget total : Nat) (rest : Text) : Option Text :=
  if h : rest = [] then some []
  else
    let chunk := nextChunk rest
    if 2 * nfkcChunkChars < chunk.length ∧ nfkc chunk ≠ chunk then none
    else
      let piece := nfkc chunk
      if budget < total + piece.length then none
      else (nfkcPieces budget (total + piece.length) (rest.drop chunk.length)).map (piece ++ ·)
  termination_by rest.length
  decreasing_by
    have := nextChunk_pos h
    have := List.length_pos_iff.mpr h
    rw [List.length_drop]
    omega

def boundedFuzzyView (content : Text) : Option Text :=
  if nfkc content = content then some (afterNfkc content)
  else (nfkcPieces nfkc (content.length + maxFuzzyGrowthChars) 0 content).map afterNfkc

structure Tier where
  normalized : Bool
  haystack : Text
  needle : Text
  count : Nat

/-- The first tier in which an edit occurs. -/
def tier (text oldText : Text) : Tier :=
  let content := view text
  let count := (findAll content oldText).length
  if count ≠ 0 then ⟨false, content, oldText, count⟩
  else if content.count lineFeed < oldText.count lineFeed then ⟨true, [], [], 0⟩
  else
    match boundedFuzzyView nfkc content with
    | none => ⟨true, [], [], 0⟩
    | some haystack =>
        let needle := normalizeForFuzzyMatch nfkc oldText
        if needle = [] then ⟨true, [], [], 0⟩
        else ⟨true, haystack, needle, (findAll haystack needle).length⟩

/-- The edit was not found and the normalized view could not be made. -/
def looseUnavailable (text oldText : Text) : Bool :=
  oldText.count lineFeed ≤ (view text).count lineFeed && (boundedFuzzyView nfkc (view text)).isNone

/-! ## Collecting the matches -/

structure Found where
  exact : List Replacement
  fuzzy : List Replacement
  inserted : Nat
  made : Nat
  counts : List Nat

def Found.none : Found := ⟨[], [], 0, 0, []⟩

/-- The matches of one edit. -/
def matchesOf (index : Nat) (edit : Edit) (t : Tier) : List Replacement :=
  ((findAll t.haystack t.needle).take t.count).map fun pos =>
    ⟨index, pos, t.needle.length, edit.newText⟩

def collectEdit (text : Text) (maxResultChars : Option Nat) (index : Nat) (edit : Edit) (found : Found) :
    Except EditError Found :=
  let t := tier nfkc text edit.oldText
  let made := found.made + t.count
  let inserted := found.inserted + t.count * edit.newText.length
  if t.count = 0 then .error (.notFound index (looseUnavailable nfkc text edit.oldText))
  else if !edit.replaceAll ∧ 1 < t.count then .error (.duplicate index t.count)
  else if maxReplacements < made then .error (.tooMany made)
  else if maxResultChars.any (· < inserted) then .error .resultTooLarge
  else
    let placed := matchesOf index edit t
    .ok ⟨if t.normalized then found.exact else found.exact ++ placed,
      if t.normalized then found.fuzzy ++ placed else found.fuzzy, inserted, made, found.counts ++ [t.count]⟩

def collect (text : Text) (maxResultChars : Option Nat) : Nat → List Edit → Found → Except EditError Found
  | _, [], found => .ok found
  | index, edit :: edits, found =>
      match collectEdit nfkc text maxResultChars index edit found with
      | .error e => .error e
      | .ok found => collect text maxResultChars (index + 1) edits found

end Normalized

/-! ## Replacements of the file -/

/-- Two neighbours of which the first reaches into the second. -/
def firstOverlap : List Replacement → Option EditError
  | previous :: current :: rest =>
      if current.index < previous.index + previous.length then
        some (.overlap previous.editIndex current.editIndex)
      else firstOverlap (current :: rest)
  | _ => none

def checkDisjoint (replacements : List Replacement) : Option EditError :=
  firstOverlap (sortOn Replacement.index replacements)

/-- The content from a position on with the replacements, in order, applied. -/
def applyFrom (content : Text) (offset : Nat) : Nat → List Replacement → Text
  | pos, [] => content.drop pos
  | pos, r :: replacements =>
      slice content pos (r.index - offset) ++
        (r.newText ++ applyFrom content offset (r.index - offset + r.length) replacements)

def applyReplacements (content : Text) (replacements : List Replacement) (offset : Nat) : Text :=
  applyFrom content offset 0 (sortOn Replacement.index replacements)

def exactReplacement (text : Text) (found : Replacement) : Replacement :=
  let lo := toOriginal text found.index
  let hi := toOriginal text (found.index + found.length)
  ⟨found.editIndex, lo, hi - lo, withBreaks text found.newText lo []⟩

/-- Where the lines of a text start, from a position on. -/
def startsFrom : Nat → Text → List Nat
  | _, [] => []
  | pos, c :: rest =>
      if c = lineFeed then (pos + 1) :: startsFrom (pos + 1) rest else startsFrom (pos + 1) rest

def lineStarts (text : Text) : List Nat := 0 :: startsFrom 0 text

structure Group where
  first : Nat
  last : Nat
  members : List Replacement
deriving DecidableEq

/-- A match added to the groups before it, the last of which comes first. -/
def addMatch (starts : List Nat) (groups : List Group) (found : Replacement) : List Group :=
  let first := lineAt starts found.index
  let last := lineAt starts (found.index + found.length - 1)
  match groups with
  | [] => [⟨first, last, [found]⟩]
  | g :: groups =>
      if first ≤ g.last then ⟨g.first, max g.last last, g.members ++ [found]⟩ :: groups
      else ⟨first, last, [found]⟩ :: g :: groups

/-- The matches in groups that share lines. -/
def groupsOf (normalized : Text) (found : List Replacement) : List Group :=
  ((sortOn Replacement.index found).foldl (addMatch (lineStarts normalized)) []).reverse

/-- The normalized lines of a group with its matches applied. -/
def rewritten (normalized : Text) (g : Group) : Text :=
  let lo := (lineStarts normalized).getD g.first 0
  let hi := (lineStarts normalized).getD (g.last + 1) normalized.length
  applyReplacements (slice normalized lo hi) g.members lo

/-- The lines of a group replaced in the file, each new line with its own break. -/
def groupReplacement (text normalized : Text) (g : Group) : Replacement :=
  let lo := (starts text).getD g.first 0
  let own := slice ((rows text).map Row.brk) g.first (g.last + 1)
  ⟨(g.members.headD ⟨0, 0, 0, []⟩).editIndex, lo, lineEnd text g.last - lo,
    withBreaks text (rewritten normalized g) lo own⟩

def lineGroups (text normalized : Text) (found : List Replacement) : Except EditError (List Replacement) :=
  if (lineStarts normalized).length ≠ (starts text).length then .error .lineCount
  else .ok ((groupsOf normalized found).map (groupReplacement text normalized))

/-! ## Changed lines -/

/-- How many leading elements two texts share. -/
def commonPrefix : Text → Text → Nat
  | c :: t, d :: u => if c = d then commonPrefix t u + 1 else 0
  | _, _ => 0

/-- The rewritten line ranges of the new text, the last of which comes first. -/
def changedFrom (text : Text) : Nat → Nat → List (Nat × Nat) → List Replacement → List (Nat × Nat)
  | _, _, ranges, [] => ranges
  | line, pos, ranges, r :: replacements =>
      let line := line + (slice text pos r.index).count lineFeed
      let old := slice text r.index (r.index + r.length)
      let head := commonPrefix old r.newText
      let limit := min old.length r.newText.length - head
      let tail := min limit (commonPrefix old.reverse r.newText.reverse)
      let first := line + (r.newText.take head).count lineFeed
      let last := if head < r.newText.length - tail then
        line + (r.newText.take (r.newText.length - tail - 1)).count lineFeed else first
      let ranges' := if old = r.newText then ranges
        else match ranges with
          | (lo, hi) :: before =>
              if first ≤ hi + 1 then (lo, max hi last) :: before else (first, last) :: ranges
          | [] => [(first, last)]
      changedFrom text (line + r.newText.count lineFeed) (r.index + r.length) ranges' replacements

def changedLines (text : Text) (replacements : List Replacement) : List (Nat × Nat) :=
  (changedFrom text 1 0 [] (sortOn Replacement.index replacements)).reverse

/-! ## Applying -/

structure Edited where
  newText : Text
  oldView : Text
  newView : Text
  counts : List Nat
  changed : List (Nat × Nat)
deriving DecidableEq

def normalizeEdit (edit : Edit) : Edit :=
  { edit with oldText := normalizeToLf edit.oldText, newText := normalizeToLf edit.newText }

/-- The replacements of the file that the edits come to, and how many each makes. -/
def replacementsOf (nfkc : Text → Text) (text : Text) (edits : List Edit) (maxResultChars : Option Nat) :
    Except EditError (List Replacement × List Nat) :=
  match (edits.map normalizeEdit).findIdx? fun edit => edit.oldText = [] with
  | some index => .error (.empty index)
  | none =>
      if maxEditScanChars < edits.length * text.length then .error .tooMuchWork
      else
        match collect nfkc text maxResultChars 0 (edits.map normalizeEdit) .none with
        | .error e => .error e
        | .ok found =>
            match checkDisjoint found.fuzzy with
            | some e => .error e
            | none =>
                match (if found.fuzzy = [] then .ok []
                  else lineGroups text ((boundedFuzzyView nfkc (view text)).getD []) found.fuzzy) with
                | .error e => .error e
                | .ok groups => .ok (found.exact.map (exactReplacement text) ++ groups, found.counts)

def applyEdits (nfkc : Text → Text) (text : Text) (edits : List Edit) (maxResultChars : Option Nat) :
    Except EditError Edited :=
  match replacementsOf nfkc text edits maxResultChars with
  | .error e => .error e
  | .ok (replacements, counts) =>
      match checkDisjoint replacements with
      | some e => .error e
      | none =>
          let newText := applyReplacements text replacements 0
          if newText = text then .error .noChange
          else .ok ⟨newText, view text, lfView newText, counts, changedLines text replacements⟩

end Avibe.Edits
