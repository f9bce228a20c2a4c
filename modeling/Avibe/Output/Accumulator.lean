import Avibe.Output.Truncate

/-!
# The output accumulator

Every line and byte of the output is counted, and a tail of it is kept: when the tail grows past four times
the byte limit it is cut to twice the limit. `Sound` says what the accumulator knows of all the output it
was given; it holds after every sequence of chunks (`run_sound`).
-/

namespace Avibe.Output

open Texts

structure Accumulator where
  maxLines : Nat
  maxBytes : Nat
  tail : Text
  tailBytes : Nat
  tailStartsAtLineBoundary : Bool
  totalBytes : Nat
  completedLines : Nat
  hasOpenLine : Bool

namespace Accumulator

def new (maxLines maxBytes : Nat) : Accumulator := ⟨maxLines, maxBytes, [], 0, true, 0, 0, false⟩

def maxRolling (a : Accumulator) : Nat := max (a.maxBytes * 2) 1

def trim (a : Accumulator) : Accumulator :=
  let data := encode a.tail
  if data.length ≤ a.maxRolling then { a with tailBytes := data.length }
  else
    let rest := skipTails (data.drop (data.length - a.maxRolling))
    let start := data.length - rest.length
    let tail := decode (fun _ => [0xfffd]) rest
    { a with
      tailStartsAtLineBoundary :=
        if start = 0 then a.tailStartsAtLineBoundary else data.getD (start - 1) 0 = 0x0a
      tail := tail
      tailBytes := utf8Len tail }

/-- The text with its bytes at the end of the tail. -/
def extend (a : Accumulator) (text : Text) : Accumulator :=
  { a with
    totalBytes := a.totalBytes + utf8Len text
    tail := a.tail ++ text
    tailBytes := a.tailBytes + utf8Len text }

/-- The lines that the text ends. -/
def countLines (a : Accumulator) (text : Text) : Accumulator :=
  if text.count lineFeed = 0 then { a with hasOpenLine := true }
  else
    { a with
      completedLines := a.completedLines + text.count lineFeed
      hasOpenLine := ¬ EndsLine text }

def append (a : Accumulator) (text : Text) : Accumulator :=
  if text = [] then a
  else
    let b := a.extend text
    (if b.maxRolling * 2 < b.tailBytes then b.trim else b).countLines text

/-- The tail from its first whole line on. -/
def snapshotText (a : Accumulator) : Text :=
  if a.tailStartsAtLineBoundary then a.tail
  else if lineFeed ∈ a.tail then (a.tail.dropWhile (· ≠ lineFeed)).drop 1
  else a.tail

/-- The tail as the model would see it, with a line that is not yet final. -/
def snapshot (a : Accumulator) (openLine : Text) : TruncationResult :=
  let totalBytes := a.totalBytes + utf8Len openLine
  let totalLines := a.completedLines + if a.hasOpenLine ∨ openLine ≠ [] then 1 else 0
  let tail := truncateTail (a.snapshotText ++ openLine) a.maxLines a.maxBytes
  let truncated : Bool := a.maxLines < totalLines ∨ a.maxBytes < totalBytes
  { tail with
    truncated := truncated
    truncatedBy :=
      if truncated then some (tail.truncatedBy.getD (if a.maxBytes < totalBytes then .bytes else .lines))
      else none
    totalLines := totalLines
    totalBytes := totalBytes }

def run (a : Accumulator) (chunks : List Text) : Accumulator := chunks.foldl append a

end Accumulator

/-! ## What is kept -/

/-- The tail is what the output ends with. It is cut at a line or inside one, and with the character before
it is more than twice the byte limit. -/
structure TailOf (output : Text) (a : Accumulator) (before : Text) : Prop where
  output_eq : output = before ++ a.tail
  bytes : a.tailBytes = utf8Len a.tail
  boundary : a.tailStartsAtLineBoundary = true ↔ before = [] ∨ EndsLine before
  size : ∀ c ∈ before.getLast?, a.maxBytes * 2 < utf8Size c + utf8Len a.tail

structure Sound (output : Text) (a : Accumulator) : Prop where
  totalBytes : a.totalBytes = utf8Len output
  completedLines : a.completedLines = output.count lineFeed
  hasOpenLine : a.hasOpenLine = true ↔ output ≠ [] ∧ ¬ EndsLine output
  tail : ∃ before, TailOf output a before

theorem sound_new (maxLines maxBytes : Nat) : Sound [] (.new maxLines maxBytes) where
  totalBytes := rfl
  completedLines := rfl
  hasOpenLine := by simp [Accumulator.new]
  tail := ⟨[], rfl, rfl, by simp [Accumulator.new], fun c hc => by cases hc⟩

theorem TailOf.extend {output before : Text} {a : Accumulator} (h : TailOf output a before) (text : Text) :
    TailOf (output ++ text) (a.extend text) before where
  output_eq := by rw [h.output_eq, List.append_assoc]; rfl
  bytes := by rw [Accumulator.extend, h.bytes, utf8Len_append]
  boundary := h.boundary
  size := by
    intro c hc
    have hsize := h.size c hc
    rw [Accumulator.extend, utf8Len_append]
    exact Nat.lt_of_lt_of_le hsize (Nat.add_le_add_left (Nat.le_add_right _ _) _)

/-- The last byte of a character is a line feed for a line feed only. -/
theorem getLast?_encodePoint (c : CodePoint) :
    ∃ b, (encodePoint c).getLast? = some b ∧ (b = 0x0a ↔ c = lineFeed) := by
  have hc := c.isLt
  rcases encodePoint_cases c with ⟨hlt, heq, -⟩ | ⟨_, _, -, heq⟩ | ⟨_, _, -, heq⟩ | ⟨_, -, heq⟩
  all_goals
    refine ⟨_, by rw [heq]; rfl, ?_⟩
    rw [← UInt8.toNat_inj, Fin.ext_iff]
    simp [lineFeed]
    omega

/-- The tail cut to its end that fits, where the character before tells if a line starts there. -/
theorem trim_eq {a : Accumulator} {front : Text} {c : CodePoint} (hlong : a.maxRolling < utf8Len a.tail)
    (htail : a.tail = front ++ c :: endWithin a.maxRolling a.tail)
    (hkept : ∀ d ∈ endWithin a.maxRolling a.tail, isScalar d = true) :
    a.trim = { a with
      tailStartsAtLineBoundary := c = lineFeed
      tail := endWithin a.maxRolling a.tail
      tailBytes := utf8Len (endWithin a.maxRolling a.tail) } := by
  have hrest := skipTails_drop a.maxRolling a.tail
  have hdecode : decode (fun _ => [0xfffd]) (encode (endWithin a.maxRolling a.tail)) =
      endWithin a.maxRolling a.tail := by
    rw [decode_encode_onError, List.flatMap_congr fun d hd => if_pos (hkept d hd)]
    exact List.flatMap_singleton' _
  obtain ⟨b, hlast, hfeed⟩ := getLast?_encodePoint c
  obtain ⟨bytes, hbytes⟩ := List.getLast?_eq_some_iff.mp hlast
  have hover : ¬ (encode a.tail).length ≤ a.maxRolling := not_le.mpr hlong
  rw [Accumulator.trim, if_neg hover, hrest]
  dsimp only
  rw [hdecode]
  generalize endWithin a.maxRolling a.tail = kept at htail ⊢
  have hdata : encode a.tail = encode front ++ bytes ++ b :: encode kept := by
    rw [htail, encode_append]
    simp [encode, hbytes]
  have hstart : (encode a.tail).length - (encode kept).length = (encode front ++ bytes).length + 1 := by
    rw [hdata, List.length_append, List.length_cons]
    omega
  have hbyte : (encode a.tail).getD (encode front ++ bytes).length 0 = b := by
    rw [hdata, List.getD_eq_getElem?_getD, List.getElem?_append_right (Nat.le_refl _), Nat.sub_self]
    rfl
  rw [hstart, if_neg (Nat.succ_ne_zero _), Nat.add_sub_cancel, hbyte]
  simp only [hfeed]

theorem TailOf.trim {output before : Text} {a : Accumulator} (h : TailOf output a before)
    (hscalar : ∀ c ∈ output, isScalar c = true) (hlong : a.maxRolling < a.tailBytes) :
    ∃ before', TailOf output a.trim before' := by
  have hlong : a.maxRolling < utf8Len a.tail := h.bytes ▸ hlong
  have hcut : endWithin a.maxRolling a.tail ≠ a.tail := by
    intro heq
    have hle := utf8Len_endWithin_le a.maxRolling a.tail
    rw [heq] at hle
    exact absurd hlong (not_lt.mpr hle)
  obtain ⟨front, c, htail, hsize⟩ := endWithin_stop hcut
  have hkept : ∀ d ∈ endWithin a.maxRolling a.tail, isScalar d = true := by
    intro d hd
    apply hscalar
    rw [h.output_eq]
    exact List.mem_append_right _ ((endWithin_suffix _ _).subset hd)
  have htrim := trim_eq hlong htail hkept
  refine ⟨before ++ front ++ [c], ?_⟩
  rw [htrim]
  generalize endWithin a.maxRolling a.tail = kept at htail hsize
  refine ⟨?_, rfl, ?_, ?_⟩
  · rw [h.output_eq, htail]
    simp
  · rw [EndsLine, List.getLast?_concat]
    simp
  · intro d hd
    rw [List.getLast?_concat] at hd
    obtain rfl : c = d := Option.some.inj hd
    exact Nat.lt_of_le_of_lt (Nat.le_max_left _ _) hsize

theorem TailOf.countLines {output before text : Text} {a : Accumulator} (h : TailOf output a before) :
    TailOf output (a.countLines text) before := by
  rw [Accumulator.countLines]
  split
  · exact ⟨h.output_eq, h.bytes, h.boundary, h.size⟩
  · exact ⟨h.output_eq, h.bytes, h.boundary, h.size⟩

theorem endsLine_append {output text : Text} (hne : text ≠ []) : EndsLine (output ++ text) ↔ EndsLine text := by
  rw [EndsLine, EndsLine, List.getLast?_append_of_ne_nil _ hne]

theorem Sound.append {output text : Text} {a : Accumulator} (h : Sound output a)
    (hscalar : ∀ c ∈ output ++ text, isScalar c = true) : Sound (output ++ text) (a.append text) := by
  rw [Accumulator.append]
  by_cases hnil : text = []
  · rw [if_pos hnil, hnil, List.append_nil]
    exact h
  · rw [if_neg hnil]
    obtain ⟨before, htail⟩ := h.tail
    have hextend := htail.extend text
    have hcut : ∃ before', TailOf (output ++ text)
        (if (a.extend text).maxRolling * 2 < (a.extend text).tailBytes then (a.extend text).trim
          else a.extend text) before' := by
      split
      · rename_i hlong
        exact hextend.trim hscalar (Nat.lt_of_le_of_lt (Nat.le_mul_of_pos_right _ Nat.two_pos) hlong)
      · exact ⟨before, hextend⟩
    have hcounts : ∀ b : Accumulator, b = (if (a.extend text).maxRolling * 2 < (a.extend text).tailBytes then
          (a.extend text).trim else a.extend text) →
        b.totalBytes = a.totalBytes + utf8Len text ∧ b.completedLines = a.completedLines ∧
          b.hasOpenLine = a.hasOpenLine := by
      rintro b rfl
      split
      · rw [Accumulator.trim]
        split <;> exact ⟨rfl, rfl, rfl⟩
      · exact ⟨rfl, rfl, rfl⟩
    obtain ⟨hbytes, hlines, hopen⟩ := hcounts _ rfl
    obtain ⟨before', hcut⟩ := hcut
    dsimp only
    generalize (if (a.extend text).maxRolling * 2 < (a.extend text).tailBytes then (a.extend text).trim
      else a.extend text) = b at hcut hbytes hlines hopen ⊢
    refine ⟨?_, ?_, ?_, before', hcut.countLines⟩
    · have hcount : (b.countLines text).totalBytes = b.totalBytes := by
        rw [Accumulator.countLines]
        split <;> rfl
      rw [hcount, hbytes, h.totalBytes, utf8Len_append]
    · rw [Accumulator.countLines, List.count_append, ← h.completedLines]
      split
      · rename_i hzero
        rw [hzero]
        exact hlines
      · exact congrArg (· + text.count lineFeed) hlines
    · rw [endsLine_append hnil, Accumulator.countLines]
      have hne : output ++ text ≠ [] := List.append_ne_nil_of_right_ne_nil _ hnil
      split
      · rename_i hzero
        have hends : ¬ EndsLine text := by
          intro hends
          exact List.count_eq_zero.mp hzero (List.mem_of_getLast? hends)
        simp [hne, hends]
      · simp [hne]

/-- After every sequence of chunks the accumulator is sound for what they make together. -/
theorem run_sound {output : Text} {a : Accumulator} (h : Sound output a) (chunks : List Text)
    (hscalar : ∀ c ∈ output ++ chunks.flatten, isScalar c = true) :
    Sound (output ++ chunks.flatten) (a.run chunks) := by
  induction chunks generalizing output a with
  | nil =>
      rw [List.flatten_nil, List.append_nil]
      exact h
  | cons text chunks ih =>
      rw [List.flatten_cons, ← List.append_assoc] at hscalar ⊢
      exact ih (h.append fun c hc => hscalar c (List.mem_append_left _ hc)) hscalar

theorem run_limits (a : Accumulator) (chunks : List Text) :
    (a.run chunks).maxLines = a.maxLines ∧ (a.run chunks).maxBytes = a.maxBytes := by
  induction chunks generalizing a with
  | nil => exact ⟨rfl, rfl⟩
  | cons text chunks ih =>
      have happend : (a.append text).maxLines = a.maxLines ∧ (a.append text).maxBytes = a.maxBytes := by
        rw [Accumulator.append]
        split
        · exact ⟨rfl, rfl⟩
        · rw [Accumulator.countLines]
          split
          all_goals
            dsimp only
            split
            · rw [Accumulator.trim]
              split <;> exact ⟨rfl, rfl⟩
            · exact ⟨rfl, rfl⟩
      obtain ⟨hlines, hbytes⟩ := ih (a.append text)
      exact ⟨hlines.trans happend.1, hbytes.trans happend.2⟩

end Avibe.Output
