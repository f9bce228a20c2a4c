import Avibe.Lib.Finditer
import Avibe.Lib.Lines
import Avibe.Lib.SortOn
import Avibe.Transcript.Store
import Mathlib.Data.List.Dedup
import Mathlib.Data.Prod.Lex

/-!
# Silent blocks of a reply

The model of the silent controls of `reply_enhancer.py`: the openers and closing tags a reply has,
the ranges they make, the reparses that decide which openers stand outside Markdown code, and the
removal of the ranges from the reply together with its Markdown mask. The CommonMark parser is a
parameter, as are the word characters of a regular expression.
-/

namespace Avibe.Replies

open Ranges Lines Avibe.Transcript

/-- What the readers of a reply take from outside: the word characters, and the code ranges and the
blocking ranges that `_markdown_code_ranges` reports for a source. -/
structure Markdown where
  isWord : Char → Bool
  codeRanges : List Char → List Span × List Span

/-! ## Tags -/

/-- A letter of a pattern under `re.IGNORECASE`; two letters have more than two cases. -/
def sameLetter (p c : Char) : Bool :=
  c == p || c == p.toUpper || p == 'i' && (c == 'İ' || c == 'ı') || p == 's' && c == 'ſ'

/-- The text begins with the pattern in any case. -/
def startsWith : List Char → List Char → Bool
  | [], _ => true
  | _ :: _, [] => false
  | p :: pattern, c :: text => sameLetter p c && startsWith pattern text

/-- The length of `<silent\b` at the head of the text. -/
def silentOpenPrefix (isWord : Char → Bool) (text : List Char) : Option Nat :=
  if startsWith "<silent".toList text && !(text.drop 7).head?.any isWord then some 7 else none

/-- The length of `</silent\s*>` at the head of the text. -/
def silentClose (text : List Char) : Option Nat :=
  if startsWith "</silent".toList text then
    let spaces := ((text.drop 8).takeWhile isSpace).length
    if (text.drop (8 + spaces)).head? = some '>' then some (9 + spaces) else none
  else none

/-- `str.find` from a position on. -/
def find (c : Char) (text : List Char) (start : Nat) : Option Nat :=
  ((text.drop start).idxOf? c).map (start + ·)

/-- Each prefix runs to the next closing angle; a prefix inside the one before it is passed over. -/
def openersOf (text : List Char) : List Span → Nat → List Span
  | [], _ => []
  | p :: prefixes, cursor =>
      if p.1 < cursor then openersOf text prefixes cursor
      else
        match find '>' text p.2 with
        | none => []
        | some angle => (p.1, angle + 1) :: openersOf text prefixes (angle + 1)

/-- Every lexical opener. -/
def silentControlCandidates (isWord : Char → Bool) (text : List Char) : List Span :=
  openersOf text (finditer (silentOpenPrefix isWord) text) 0

/-- Every lexical closing tag. -/
def silentClosingCandidates (text : List Char) : List Span := finditer silentClose text

/-! ## Ranges -/

/-- Each opener that is not in the range before it takes the next closing tag, or the rest of the
text. -/
def pairOpeners (stop : Nat) : List Span → List Span → Nat → List Span
  | [], _, _ => []
  | o :: openers, closers, coveredUntil =>
      if o.1 < coveredUntil then pairOpeners stop openers closers coveredUntil
      else
        match closers.dropWhile fun c => c.1 < o.2 with
        | [] => [(o.1, stop)]
        | c :: closers => (o.1, c.2) :: pairOpeners stop openers closers c.2

def silentRangesForOpeners (text : List Char) (openers : List Span) : List Span :=
  pairOpeners text.length openers (silentClosingCandidates text) 0

/-- The starts of the containers that hold the start of a range; the containers are walked once. -/
def containerStarts : List Span → List Span → List Nat
  | _, [] => []
  | containers, r :: spans =>
      let containers := containers.dropWhile fun c => c.2 ≤ r.1
      let rest := containerStarts containers spans
      match containers with
      | [] => rest
      | c :: _ => if c.1 ≤ r.1 ∧ r.1 < c.2 then c.1 :: rest else rest

/-- `sorted` on pairs of numbers. -/
def sortSpans (spans : List Span) : List Span := SortOn.sortOn (fun r : Span => toLex r) spans

/-- `sorted` on a set. -/
def sortSet (spans : List Span) : List Span := sortSpans spans.dedup

/-- The blank that stands for a character of a masked range. -/
def blank (c : Char) : Char := if c = '\r' ∨ c = '\n' then c else ' '

/-- The letter that stands for a character of a neutralized range. -/
def neutral (c : Char) : Char := if c = '\r' ∨ c = '\n' then c else 'x'

def maskRanges (text : List Char) (spans : List Span) : List Char := overwrite blank text spans

def neutralizeRanges (text : List Char) (spans : List Span) : List Char :=
  overwrite neutral text spans

/-! ## Which openers are controls -/

/-- What the reparses have found: the last parse, the openers taken for controls, and the openers
that the last parse had hidden. -/
structure Reading where
  codeRanges : List Span
  blockRanges : List Span
  controls : List Span
  parsedControls : List Span

section Reading

variable (M : Markdown) (text : List Char) (candidates : List Span)

def firstReading : Reading :=
  let parsed := M.codeRanges text
  ⟨parsed.1, parsed.2, (partitionByStart candidates parsed.1).1, []⟩

/-- The blocks that begin inside a control. -/
def invalidBlocks (s : Reading) : List Span :=
  (partitionByStart s.blockRanges (silentRangesForOpeners text s.controls)).2

/-- A parse of the text with the confirmed controls hidden and the uncertain tags neutralized. -/
def refine (s : Reading) : Reading :=
  let invalid := invalidBlocks text s
  let (stable, uncertain) := partitionByStart s.controls invalid
  let triggers := containerStarts (silentRangesForOpeners text s.controls) invalid
  let confirmed := sortSpans (stable ++ uncertain.filter fun o => o.1 ∈ triggers)
  let provisionalOpeners := (partitionByStart candidates invalid).2
  let provisionalClosers := (partitionByStart (silentClosingCandidates text) invalid).2
  let confirmedRanges := silentRangesForOpeners text confirmed
  let provisionalTags :=
    (partitionByStart (sortSet (provisionalOpeners ++ provisionalClosers)) confirmedRanges).1
  let parsed := M.codeRanges (neutralizeRanges (maskRanges text confirmedRanges) provisionalTags)
  let discovered := (partitionByStart candidates parsed.1).1
  ⟨parsed.1, parsed.2, sortSet (confirmed ++ discovered), confirmed⟩

/-- At most so many parses, as long as a block begins inside a control. -/
def refineRounds : Nat → Reading → Reading
  | 0, s => s
  | rounds + 1, s =>
      if invalidBlocks text s = [] then s else refineRounds rounds (refine M text candidates s)

/-- The last parse hides every opener that may be a control. -/
def refineAll (s : Reading) : Reading :=
  let invalid := invalidBlocks text s
  if invalid = [] then s
  else
    let provisional := sortSet (s.controls ++ (partitionByStart candidates invalid).2)
    let parsed :=
      M.codeRanges (maskRanges text (silentRangesForOpeners text provisional))
    let discovered := (partitionByStart candidates parsed.1).1
    { s with
      codeRanges := parsed.1
      controls := sortSet (s.controls ++ discovered)
      parsedControls := provisional }

/-- The reading that decides the controls. -/
def lastReading : Reading :=
  refineAll M text candidates (refineRounds M text candidates 2 (firstReading M text candidates))

/-- The code ranges of the mask: where the controls are not the ones that the last parse had hidden,
a parse with them hidden. -/
def maskCodeRanges (s : Reading) : List Span :=
  if s.parsedControls ≠ [] ∧ s.parsedControls ≠ s.controls then
    (M.codeRanges (maskRanges text (silentRangesForOpeners text s.controls))).1
  else s.codeRanges

def silentControlRangesAndMask : List Span × List Char :=
  let s := lastReading M text candidates
  (silentRangesForOpeners text s.controls, maskRanges text (maskCodeRanges M text s))

end Reading

/-! ## The visible text -/

def stripNewlines (text : List Char) : List Char :=
  (text.reverse.dropWhile fun c => c == '\r' || c == '\n').reverse

/-- The number of the first blank lines. -/
def blankLines (lines : List (List Char)) : Nat := (lines.takeWhile isBlank).length

/-- Blank lines at both ends of the text go, and the line end at its end; the same of the mask. -/
def trimBlankBoundaryLinesWithMask (text mask : List Char) : List Char × List Char :=
  let lines := splitlines text
  let maskLines := splitlines mask
  let start := blankLines lines
  let stop := lines.length - blankLines (lines.drop start).reverse
  let cleaned := stripNewlines (slice start stop lines).flatten
  (cleaned, (slice start stop maskLines).flatten.take cleaned.length)

/-- The text holds this somewhere. -/
def mentions (pattern text : List Char) : Bool := text.tails.any pattern.isPrefixOf

/-- `"<silent" in text.lower()`. Only capitals have a lower case made of these letters in a row. -/
def mentionsSilent (text : List Char) : Bool :=
  mentions "<silent".toList (text.map Char.toLower)

def maskMarkdownCode (M : Markdown) (text : List Char) : List Char :=
  if ["`", "~~~", "    ", "\t"].any fun marker => mentions marker.toList text then
    maskRanges text (M.codeRanges text).1
  else text

/-- Removes the controls, and the same of the Markdown mask. -/
def stripSilentBlocksWithMask (M : Markdown) (text : List Char) : List Char × List Char :=
  if text = [] then (text, text)
  else if mentionsSilent text = false then (text, maskMarkdownCode M text)
  else
    let candidates := silentControlCandidates M.isWord text
    let (ranges, markdownMask) := silentControlRangesAndMask M text candidates
    if ranges = [] then (text, markdownMask)
    else
      trimBlankBoundaryLinesWithMask (remove text ranges) (remove markdownMask ranges)

/-- The ranges of a reply that are not delivered. -/
def hiddenBlockRanges (M : Markdown) (text : List Char) : List Span :=
  if text = [] ∨ mentionsSilent text = false then []
  else (silentControlRangesAndMask M text (silentControlCandidates M.isWord text)).1

end Avibe.Replies
