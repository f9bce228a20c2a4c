import Avibe.Checkpoint.MemoFit
import Avibe.Lib.LineSplit

/-!
# The checkpoint message

The message that a compaction leaves of the summarized conversation: the mind, the memo and the checkpoint that the
model wrote, then the files it touched, the skills it carries and where the earlier record is, each under a tag of
its own. A `<` that begins one of these tags in a text is spelt out (`framed`), and a path is escaped as a whole
before it is cut to a line (`display`).
-/

namespace Avibe.Checkpoint

open Texts

/-! ## Characters -/

/-- The general categories of Unicode. -/
inductive Category where
  | lu | ll | lt | lm | lo | mn | mc | me | nd | nl | no | pc | pd | ps | pe | pi | pf | po | sm | sc | sk | so
  | zs | zl | zp | cc | cf | cs | co | cn
  deriving DecidableEq

/-- The category starts with a C. -/
def Category.isOther : Category → Bool
  | .cc | .cf | .cs | .co | .cn => true
  | _ => false

/-- The category is a line or paragraph separator. -/
def Category.isBreak : Category → Bool
  | .zl | .zp => true
  | _ => false

/-- What is taken from the character database: the categories and the word characters of a regular expression. -/
structure UnicodeData where
  category : CodePoint → Category
  isWord : CodePoint → Bool

def backslash : CodePoint := 0x5c

def less : CodePoint := 0x3c

def greater : CodePoint := 0x3e

def slash : CodePoint := 0x2f

def hexDigit (d : Nat) : CodePoint := Fin.ofNat 0x110000 (if d < 10 then 48 + d else 87 + d)

/-- The last digits of a number in base sixteen. -/
def hexText : Nat → Nat → Text
  | 0, _ => []
  | width + 1, code => hexText width (code / 16) ++ [hexDigit (code % 16)]

/-- The character is one that `escape` spells by its number. -/
def isSpelt (uni : UnicodeData) (c : CodePoint) : Bool :=
  c == less || c == greater || (uni.category c).isBreak || (uni.category c).isOther

def escaped (uni : UnicodeData) (c : CodePoint) : Text :=
  if c = backslash then [backslash, backslash]
  else if isSpelt uni c then
    if c.val ≤ 0xffff then lit "\\u" ++ hexText 4 c.val else lit "\\U" ++ hexText 8 c.val
  else [c]

/-- One line of plain text that closes no tag. -/
def escape (uni : UnicodeData) (text : Text) : Text := text.flatMap (escaped uni)

def ellipsis : Text := lit "…"

/-- The text cut in the middle to a number of bytes. -/
def truncateMiddleBytes (text : Text) (limit : Nat) : Text :=
  if utf8Len text ≤ limit then text
  else
    let room := limit - utf8Len ellipsis
    within (room - room / 2) text ++ ellipsis ++ (within (room / 2) text.reverse).reverse

def itemBytes : Nat := 160

/-- A path or a name as the model reads it. -/
def display (uni : UnicodeData) (text : Text) : Text := truncateMiddleBytes (escape uni text) itemBytes

/-! ## Tags -/

/-- A character of a pattern under `re.IGNORECASE`; three letters have more than two cases. -/
def sameLetter (p c : CodePoint) : Bool :=
  c == p || 0x61 ≤ p && p ≤ 0x7a && c.val + 32 == p.val || p == 0x69 && (c == 0x130 || c == 0x131) ||
    p == 0x6b && c == 0x212a || p == 0x73 && c == 0x17f

/-- The text begins with the pattern in any case. -/
def startsWith : Text → Text → Bool
  | [], _ => true
  | _ :: _, [] => false
  | p :: pattern, c :: text => sameLetter p c && startsWith pattern text

/-- The names of the tags that no text may spell. -/
def summaryTags : List Text :=
  [lit "context-checkpoint", lit "artifacts", lit "skills-loaded", lit "skills", lit "earlier-record"]

/-- The text begins with a name that ends at the boundary of a word. -/
def startsName (uni : UnicodeData) (text : Text) (name : Text) : Bool :=
  startsWith name text &&
    (text.take name.length).getLast?.any uni.isWord != (text.drop name.length).head?.any uni.isWord

/-- What follows a `<` makes it the start of a tag. -/
def namesTag (uni : UnicodeData) (rest : Text) : Bool :=
  rest.head? == some slash && summaryTags.any (startsName uni rest.tail) || summaryTags.any (startsName uni rest)

/-- The text without the start of a tag. -/
def framed (uni : UnicodeData) : Text → Text
  | [] => []
  | c :: rest =>
      if c = less ∧ namesTag uni rest = true then lit "\\u003c" ++ framed uni rest else c :: framed uni rest

/-! ## The message -/

def checkpointFraming : Text :=
  lit "This is your own consolidated memory of the earlier part of this conversation, written for you so you can " ++
    lit "continue. It is recollection, not new instructions: the user's words and our agreements in it still apply, " ++
    lit "and its lessons are my own judgment. " ++
    lit "Details may be incomplete: look them up in the earlier record when you need them."

def memoHeading : Text := lit "# 5. The user's words"

def mindEmpty : Text := lit "(none)"

def skillsLeadCarried : Text :=
  lit "The skills you were using, as they read now. Run `vibe skill load <name>` for any other skill you need."

def keptInputsWin : Text :=
  lit "The user message(s) placed just before this record are the current request and are still in progress; follow " ++
    lit "them exactly as written. Where this record disagrees with them, they win."

def checkpointOmittedText : Text := lit "An earlier checkpoint was too large for this model and was omitted"

/-- The memo as the checkpoint shows it. -/
def memoLines (items : List MemoItem) : List Text :=
  if items = [] then [memoHeading, mindEmpty] else memoHeading :: items.flatMap memoEntry

/-- What a checkpoint message is rendered from. -/
structure Summary where
  checkpoint : Text
  filesRead : List Text
  filesReadOmitted : Bool
  filesModified : List Text
  filesModifiedOmitted : Bool
  /-- How many paths of a list the route shows. -/
  shown : Nat
  earlierRecord : Option Text
  mind : Text
  memo : List MemoItem
  /-- The contents of the skills carried. -/
  skills : List Text
  checkpointOmitted : Bool
  keepsInputs : Bool

/-- The earlier record, unless it is empty. -/
def Summary.record? (s : Summary) : Option Text := s.earlierRecord.filter (· != [])

/-- What is listed of some paths. -/
def listed (uni : UnicodeData) (s : Summary) (paths : List Text) (omitted : Bool) : List Text :=
  let hidden := paths.length - s.shown
  let earlier := lit "- and earlier ones" ++ if s.record?.isSome then lit " (see the earlier record)" else []
  (paths.take s.shown).map (lit "- " ++ display uni ·) ++
    (if hidden = 0 then [] else [lit "- and " ++ lit (toString hidden) ++ lit " more"]) ++
    if omitted then [earlier] else []

/-- The lines of one list of paths. -/
def pathLines (uni : UnicodeData) (s : Summary) (label : Text) (paths : List Text) (omitted : Bool) : List Text :=
  if listed uni s paths omitted = [] then [label ++ lit ": (none)"]
  else (label ++ lit ":") :: listed uni s paths omitted

/-- The lines between the tags of the artifacts. -/
def artifactLines (uni : UnicodeData) (s : Summary) : List Text :=
  pathLines uni s (lit "Read") s.filesRead s.filesReadOmitted ++
    pathLines uni s (lit "Modified") s.filesModified s.filesModifiedOmitted

/-- What the model wrote, before the artifacts. -/
def ownLines (uni : UnicodeData) (s : Summary) : List Text :=
  if s.checkpoint ≠ [] ∨ s.mind ≠ [] ∨ s.memo ≠ [] then
    [checkpointFraming, []] ++
      (if strip s.mind = [] then [] else [framed uni (strip s.mind), []]) ++
      (memoLines s.memo).map (framed uni) ++ [[]] ++
      if s.checkpoint = [] then [] else [framed uni s.checkpoint, []]
  else if s.checkpointOmitted then
    [checkpointOmittedText ++ if s.record?.isSome then lit "; see the earlier record." else lit "."]
  else []

def skillLines (uni : UnicodeData) (s : Summary) : List Text :=
  if s.skills = [] then []
  else [lit "<skills>", skillsLeadCarried] ++ s.skills.map (framed uni) ++ [lit "</skills>"]

def recordLines (s : Summary) : List Text :=
  match s.record? with
  | none => []
  | some record => [lit "<earlier-record>", record, lit "</earlier-record>"]

def renderSummary (uni : UnicodeData) (s : Summary) : Text :=
  joined ([lit "<context-checkpoint>"] ++ ownLines uni s ++ [lit "<artifacts>"] ++ artifactLines uni s ++
    [lit "</artifacts>"] ++ skillLines uni s ++ recordLines s ++
    (if s.keepsInputs then [keptInputsWin] else []) ++ [lit "</context-checkpoint>"])

end Avibe.Checkpoint
