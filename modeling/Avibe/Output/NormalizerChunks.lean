import Avibe.Output.NormalizerSpec
import Mathlib.Data.List.Forall2

/-!
# Chunks of command output

What is kept of an open line depends on where the chunks end in one respect: a segment longer than the bound is asked
whether it shows something by what an earlier chunk left of it. `Fallback` says which closed segments may be kept so,
and every way of cutting the output shows it as they allow (`normalizeChunks_rendered`). Where the segment that
decides shows the same after every cut (`Settled`), there is one way to show a line, and cutting the output changes
nothing.
-/

namespace Avibe.Normalizer

open Texts

/-! ## What a cut leaves of a segment -/

theorem bounded_eq (segment : Kept) :
    bounded segment =
      ⟨segment.text.drop (segment.text.length - maxOpenChars),
        segment.dropped + utf8Len (segment.text.take (segment.text.length - maxOpenChars))⟩ := by
  rw [bounded]
  split
  · rename_i h
    rw [Nat.sub_eq_zero_of_le h]
    rfl
  · rfl

/-- Keeping the end of a segment and then of more of it keeps the end of all of it. -/
theorem bounded_append (segment text : Text) :
    bounded ⟨(bounded ⟨segment, 0⟩).text ++ text, (bounded ⟨segment, 0⟩).dropped⟩ = bounded ⟨segment ++ text, 0⟩ := by
  rw [bounded_eq ⟨segment, 0⟩, bounded_eq, bounded_eq ⟨segment ++ text, 0⟩]
  dsimp only
  generalize hk : segment.length - maxOpenChars = k
  have hkle : k ≤ segment.length := hk ▸ Nat.sub_le _ _
  have hdrop : segment.drop k ++ text = (segment ++ text).drop k := (List.drop_append_of_le_length hkle).symm
  have htake : segment.take k = (segment ++ text).take k := (List.take_append_of_le_length hkle).symm
  have hcut : (segment ++ text).length - maxOpenChars = k + (((segment ++ text).drop k).length - maxOpenChars) := by
    rw [List.length_drop, List.length_append]
    omega
  rw [hdrop, htake, hcut, List.drop_drop, List.take_add, utf8Len_append, Nat.zero_add, Nat.zero_add]

/-- A cut of the segment shows something. -/
def MayShow (segment : Text) : Prop := ∃ k ≤ segment.length - maxOpenChars, shows (segment.drop k) = true

/-- A cut of the segment shows nothing. -/
def MayHide (segment : Text) : Prop := ∃ k ≤ segment.length - maxOpenChars, shows (segment.drop k) = false

/-- What may be kept to fall back to, of closed segments with the latest first. -/
def Fallback : List Text → Kept → Prop
  | [], prev => prev = Kept.empty
  | segment :: earlier, prev =>
      MayShow segment ∧ prev = bounded ⟨segment, 0⟩ ∨ MayHide segment ∧ Fallback earlier prev

/-- The line is one that may be kept of the text of an open line. -/
def Keeps (text : Text) (line : OpenLine) : Prop :=
  ∃ front last, text.splitOn carriageReturn = front ++ [last] ∧ line.cur = bounded ⟨last, 0⟩ ∧
    Fallback front.reverse line.prev

theorem keeps_nil : Keeps [] OpenLine.empty := ⟨[], [], rfl, rfl, rfl⟩

/-- The latest segment that shows something, of some closed ones and of one that an earlier chunk may have cut. -/
theorem Fallback.find {segment : Text} {earlier : List Text} {prev cut : Kept} {k : Nat}
    (hk : k ≤ segment.length - maxOpenChars) (hcut : cut.text = segment.drop k)
    (hbounded : bounded cut = bounded ⟨segment, 0⟩) (h : Fallback earlier prev) (later : List Text) :
    Fallback (later ++ segment :: earlier)
      ((((later.map fun closed => (⟨closed, 0⟩ : Kept)) ++ [cut]).find? fun piece => shows piece.text).map bounded |>.getD
        prev) := by
  induction later with
  | nil =>
      rw [List.map_nil, List.nil_append, List.nil_append]
      cases hshows : shows cut.text with
      | true =>
          simp only [List.find?_cons, hshows, Option.map_some, Option.getD_some]
          exact .inl ⟨⟨k, hk, hcut ▸ hshows⟩, hbounded⟩
      | false =>
          simp only [List.find?_cons, hshows, List.find?_nil]
          exact .inr ⟨⟨k, hk, hcut ▸ hshows⟩, h⟩
  | cons closed later ih =>
      rw [List.map_cons, List.cons_append, List.cons_append]
      cases hshows : shows closed with
      | true =>
          simp only [List.find?_cons, hshows, Option.map_some, Option.getD_some]
          exact .inl ⟨⟨0, Nat.zero_le _, hshows⟩, rfl⟩
      | false =>
          simp only [List.find?_cons, hshows]
          exact .inr ⟨⟨0, Nat.zero_le _, hshows⟩, ih⟩

theorem carriageReturn_notMem_bounded {segment : Text} (h : carriageReturn ∉ segment) :
    carriageReturn ∉ (bounded ⟨segment, 0⟩).text := by
  rw [bounded_eq]
  dsimp only
  exact fun hin => h (List.mem_of_mem_drop hin)

/-- What is kept of an open line goes on with more text. -/
theorem Keeps.openSegments {text more : Text} {line : OpenLine} (h : Keeps text line) :
    Keeps (text ++ more) (openSegments line more) := by
  obtain ⟨front, last, hsplit, hcur, hprev⟩ := h
  obtain ⟨first, rest, hmore⟩ := List.exists_cons_of_ne_nil (List.splitOn_ne_nil carriageReturn more)
  have hlast : carriageReturn ∉ last := notMem_of_mem_splitOn (hsplit ▸ List.mem_append_right _ List.mem_cons_self)
  have hall : (text ++ more).splitOn carriageReturn = front ++ (last ++ first) :: rest := splitOn_append hsplit hmore
  have hcut : (line.cur.text ++ more).splitOn carriageReturn = (line.cur.text ++ first) :: rest := by
    have hone : line.cur.text.splitOn carriageReturn = [] ++ [line.cur.text] := by
      rw [hcur, List.splitOn_eq_singleton (carriageReturn_notMem_bounded hlast)]
      rfl
    exact splitOn_append hone hmore
  have hbounded : bounded ⟨line.cur.text ++ first, line.cur.dropped⟩ = bounded ⟨last ++ first, 0⟩ := by
    rw [hcur]
    exact bounded_append last first
  have hsegments : segments line.cur more =
      ⟨line.cur.text ++ first, line.cur.dropped⟩ :: rest.map fun segment => ⟨segment, 0⟩ := by
    rw [segments, hcut]
  rw [Normalizer.openSegments, hsegments]
  rcases List.eq_nil_or_concat' rest with rfl | ⟨middle, tail, rfl⟩
  · exact ⟨front, last ++ first, hall, hbounded, hprev⟩
  · refine ⟨front ++ (last ++ first) :: middle, tail, ?_, ?_, ?_⟩
    · rw [hall, List.append_assoc, List.cons_append]
    · dsimp only
      rw [List.map_append, List.map_singleton, ← List.cons_append, List.getLast?_concat, Option.getD_some]
    · have hreverse : (front ++ (last ++ first) :: middle).reverse =
          middle.reverse ++ (last ++ first) :: front.reverse := by
        simp
      have hk : last.length - maxOpenChars ≤ (last ++ first).length - maxOpenChars := by
        rw [List.length_append]
        omega
      have htext : line.cur.text ++ first = (last ++ first).drop (last.length - maxOpenChars) := by
        rw [hcur, bounded_eq, List.drop_append_of_le_length (Nat.sub_le _ _)]
      dsimp only
      rw [hreverse, List.map_append, List.map_singleton, ← List.cons_append, List.dropLast_concat, List.reverse_cons,
        ← List.map_reverse]
      exact Fallback.find hk htext hbounded hprev middle.reverse

theorem read_isSome {segment : Kept} : segment.read.isSome = shows segment.text := by
  rw [Kept.read, shows]
  dsimp only
  split
  · rename_i h
    rw [h]
    rfl
  · rename_i h
    exact (bne_iff_ne.mpr h).symm

/-- A carriage return at the end of a line changes nothing in how it may read. -/
theorem Keeps.concat_return {text : Text} {line : OpenLine} (h : Keeps text line) :
    ∃ line', Keeps (text ++ [carriageReturn]) line' ∧ lineAndSize line' = lineAndSize line := by
  obtain ⟨front, last, hsplit, hcur, hprev⟩ := h
  have hsplit' : (text ++ [carriageReturn]).splitOn carriageReturn = (front ++ [last]) ++ [[]] := by
    rw [splitOn_concat_self, hsplit]
  have hreverse : (front ++ [last]).reverse = last :: front.reverse := by
    rw [List.reverse_append]
    rfl
  have hcut : (bounded ⟨last, 0⟩).text = last.drop (last.length - maxOpenChars) := by
    rw [bounded_eq]
  cases hread : line.cur.read with
  | some r =>
      have hshows : shows line.cur.text = true := by rw [← read_isSome, hread]; rfl
      refine ⟨⟨line.cur, Kept.empty⟩, ⟨front ++ [last], [], hsplit', rfl, ?_⟩, ?_⟩
      · rw [hreverse]
        exact .inl ⟨⟨_, Nat.le_refl _, hcut ▸ hcur ▸ hshows⟩, hcur⟩
      · rw [lineAndSize, lineAndSize, hread]
        rfl
  | none =>
      have hshows : shows line.cur.text = false := by rw [← read_isSome, hread]; rfl
      refine ⟨⟨line.prev, Kept.empty⟩, ⟨front ++ [last], [], hsplit', rfl, ?_⟩, ?_⟩
      · rw [hreverse]
        exact .inr ⟨⟨_, Nat.le_refl _, hcut ▸ hcur ▸ hshows⟩, hprev⟩
      · rw [lineAndSize, lineAndSize, hread]
        rfl

/-! ## Whole lines -/

/-- Lines, and the text that they may be shown as. -/
inductive Shown : List Text → Text → Prop
  | nil : Shown [] []
  | cons {text : Text} {line : OpenLine} {texts : List Text} {out : Text} (hline : Keeps (dropReturn text) line)
      (hrest : Shown texts out) : Shown (text :: texts) ((lineAndSize line).1 ++ [lineFeed] ++ out)

theorem Shown.append {a b : List Text} {out out' : Text} (h : Shown a out) (h' : Shown b out') :
    Shown (a ++ b) (out ++ out') := by
  induction h with
  | nil => exact h'
  | cons hline _ ih =>
      rw [List.cons_append, List.append_assoc]
      exact .cons hline ih

theorem dropReturn_cases (text : Text) :
    dropReturn text = text ∧ text.getLast? ≠ some carriageReturn ∨
      ∃ front, text = front ++ [carriageReturn] ∧ dropReturn text = front := by
  rw [dropReturn]
  split
  · rename_i hlast
    obtain ⟨front, rfl⟩ := List.getLast?_eq_some_iff.mp hlast
    exact .inr ⟨front, rfl, List.dropLast_concat⟩
  · rename_i hlast
    exact .inl ⟨rfl, hlast⟩

/-- A line whose carriage return is dropped a second time may be shown as it is when it is dropped once. -/
theorem keeps_dropReturn {text : Text} {line : OpenLine} (h : Keeps (dropReturn text) line) :
    ∃ line', Keeps text line' ∧ lineAndSize line' = lineAndSize line := by
  rcases dropReturn_cases text with ⟨hsame, -⟩ | ⟨front, rfl, hdrop⟩
  · exact ⟨line, hsame ▸ h, rfl⟩
  · rw [hdrop] at h
    exact h.concat_return

theorem keeps_openSegments (text : Text) : Keeps text (openSegments OpenLine.empty text) :=
  keeps_nil.openSegments

/-- Whole lines are finished one by one, those that the replacement took a carriage return from included. -/
theorem finishLines_shown {s : OutputNormalizer} (hs : s.line = OpenLine.empty) {texts finished : List Text}
    (h : List.Forall₂ (fun text line => line = text ∨ line = dropReturn text) texts finished) :
    Shown texts (finishLines s finished).2 ∧
      (finishLines s finished).1 = { s with finishedLineBytes := (finishLines s finished).1.finishedLineBytes } := by
  induction h generalizing s with
  | nil => exact ⟨.nil, rfl⟩
  | @cons text line texts finished hline hrest ih =>
      obtain ⟨hshown, hstate⟩ := ih (s := (finishLine s line).1) rfl
      have hkeeps : ∃ kept, Keeps (dropReturn text) kept ∧
          lineAndSize kept = lineAndSize (openSegments s.line (dropReturn line)) := by
        rw [hs]
        rcases hline with rfl | rfl
        · exact ⟨_, keeps_openSegments _, rfl⟩
        · exact keeps_dropReturn (keeps_openSegments _)
      obtain ⟨kept, hkept, hread⟩ := hkeeps
      rw [finishLines]
      refine ⟨?_, ?_⟩
      · have hout : (finishLine s line).2 = (lineAndSize kept).1 ++ [lineFeed] := by rw [finishLine, hread]
        rw [hout]
        exact .cons hkept hshown
      · rw [hstate]
        dsimp only [finishLine]
        rw [hs]

theorem replaceCrLf_line {line : Text} (h : lineFeed ∉ line) (text : Text) :
    replaceCrLf (line ++ lineFeed :: text) = dropReturn line ++ lineFeed :: replaceCrLf text := by
  induction line with
  | nil =>
      have hreturn : lineFeed ≠ carriageReturn := by decide
      rw [List.nil_append, replaceCrLf, if_neg fun hc => hreturn hc.1]
      rfl
  | cons c line ih =>
      have hrest := ih fun hin => h (List.mem_cons_of_mem _ hin)
      rw [List.cons_append, replaceCrLf, hrest]
      cases line with
      | nil =>
          by_cases hc : c = carriageReturn
          · rw [if_pos ⟨hc, rfl⟩, hc]
            rfl
          · have hlast : [c].getLast? ≠ some carriageReturn := fun heq => hc (Option.some.inj heq)
            have hdrop : dropReturn [c] = [c] := if_neg hlast
            rw [if_neg fun hand => hc hand.1, hdrop]
            rfl
      | cons d line =>
          have hd : d ≠ lineFeed := fun heq => h (by rw [heq]; simp)
          have hhead : ¬ (c = carriageReturn ∧ ((d :: line) ++ lineFeed :: text).head? = some lineFeed) :=
            fun hand => hd (Option.some.inj hand.2)
          rw [if_neg hhead, dropReturn, dropReturn, List.getLast?_cons_cons]
          split <;> rfl

theorem replaceCrLf_open {line : Text} (h : lineFeed ∉ line) : replaceCrLf line = line := by
  induction line with
  | nil => rfl
  | cons c line ih =>
      have hrest : lineFeed ∉ line := fun hin => h (List.mem_cons_of_mem _ hin)
      have hhead : ¬ (c = carriageReturn ∧ line.head? = some lineFeed) := fun hand => hrest (List.mem_of_head? hand.2)
      rw [replaceCrLf, if_neg hhead, ih hrest]

theorem lineFeed_notMem_dropReturn {line : Text} (h : lineFeed ∉ line) : lineFeed ∉ dropReturn line := by
  rcases dropReturn_cases line with ⟨hsame, -⟩ | ⟨front, rfl, hdrop⟩
  · rwa [hsame]
  · rw [hdrop]
    exact fun hin => h (List.mem_append_left _ hin)

/-- The lines of a text whose CRLF are replaced. -/
theorem splitOn_replaceCrLf {front : List Text} {last : Text} (h : ∀ line ∈ front ++ [last], lineFeed ∉ line) :
    (replaceCrLf (joined (front ++ [last]))).splitOn lineFeed = front.map dropReturn ++ [last] := by
  induction front with
  | nil =>
      rw [List.nil_append, joined_singleton, replaceCrLf_open (h last List.mem_cons_self)]
      exact List.splitOn_eq_singleton (h last List.mem_cons_self)
  | cons line front ih =>
      have hne : front ++ [last] ≠ [] := List.append_ne_nil_of_right_ne_nil _ (List.cons_ne_nil _ _)
      have hline := h line List.mem_cons_self
      rw [List.cons_append, joined_cons hne, replaceCrLf_line hline,
        List.splitOn_append_cons_self_of_not_mem (lineFeed_notMem_dropReturn hline),
        ih fun other hmem => h other (List.mem_cons_of_mem _ hmem)]
      rfl

/-- Whole lines after the first, shown one by one. -/
theorem finishEach_shown {s : OutputNormalizer} (hs : s.line = OpenLine.empty) {middle : List Text}
    (hne : middle ≠ []) (h : ∀ line ∈ middle, lineFeed ∉ line) :
    Shown middle (finishEach s (replaceCrLf (joined middle))).2 ∧
      (finishEach s (replaceCrLf (joined middle))).1 =
        { s with finishedLineBytes := (finishEach s (replaceCrLf (joined middle))).1.finishedLineBytes } := by
  obtain ⟨front, last, rfl⟩ : ∃ front last, middle = front ++ [last] :=
    ⟨_, _, (List.dropLast_concat_getLast hne).symm⟩
  rw [finishEach, splitOn_replaceCrLf h]
  have hfront : List.Forall₂ (fun text line => line = text ∨ line = dropReturn text) front (front.map dropReturn) :=
    List.forall₂_map_right_iff.mpr (List.forall₂_same.mpr fun text _ => .inr rfl)
  exact finishLines_shown hs (List.rel_append hfront (.cons (.inl rfl) .nil))

/-! ## Chunks of text -/

theorem dropReturn_append {last first : Text} (h : first = [] → last.getLast? ≠ some carriageReturn) :
    dropReturn (last ++ first) = last ++ dropReturn first := by
  by_cases hnil : first = []
  · rw [hnil, List.append_nil, dropReturn, if_neg (h hnil)]
    exact (List.append_nil last).symm
  · rw [dropReturn, dropReturn, List.getLast?_append_of_ne_nil _ hnil]
    split
    · exact List.dropLast_append_of_ne_nil hnil
    · rfl

theorem head?_of_splitOn {text : Text} {rest : List Text} (h : text.splitOn lineFeed = [] :: rest) (hne : rest ≠ []) :
    text.head? = some lineFeed := by
  cases text with
  | nil => exact absurd (List.cons.inj h).2.symm hne
  | cons c text =>
      rw [List.splitOn_cons_eq_if_modifyHead] at h
      split at h
      · rename_i hc
        exact congrArg some (beq_iff_eq.mp hc)
      · obtain ⟨first, more, hsplit⟩ := List.exists_cons_of_ne_nil (List.splitOn_ne_nil lineFeed text)
        rw [hsplit] at h
        exact absurd (List.cons.inj h).1 (List.cons_ne_nil _ _)

/-- More text completes lines and goes on in an open line. -/
theorem consumeLines_shown {s : OutputNormalizer} {last text first : Text} {rest : List Text}
    (hkeeps : Keeps last s.line) (htext : text.splitOn lineFeed = first :: rest)
    (hseam : text.head? = some lineFeed → last.getLast? ≠ some carriageReturn) :
    ∃ done last', (last ++ first) :: rest = done ++ [last'] ∧ Shown done (consumeLines finishEach s text).2 ∧
      Keeps last' (consumeLines finishEach s text).1.line ∧
      (consumeLines finishEach s text).1.carryCr = s.carryCr ∧
      (consumeLines finishEach s text).1.held = s.held := by
  rcases List.eq_nil_or_concat' rest with rfl | ⟨middle, tail, rfl⟩
  · rw [consumeLines, htext]
    exact ⟨[], last ++ first, rfl, .nil, hkeeps.openSegments, rfl, rfl⟩
  · have hfirst : Keeps (dropReturn (last ++ first)) (openSegments s.line (dropReturn first)) := by
      rw [dropReturn_append fun hnil => hseam (head?_of_splitOn (hnil ▸ htext) (by simp))]
      exact hkeeps.openSegments
    have hlines : ∀ line ∈ middle, lineFeed ∉ line := fun line hmem =>
      notMem_of_mem_splitOn (htext ▸ List.mem_cons_of_mem _ (List.mem_append_left _ hmem))
    obtain ⟨next, more, hrest⟩ := List.exists_cons_of_ne_nil
      (List.append_ne_nil_of_right_ne_nil middle (List.cons_ne_nil tail []))
    have hconsume : consumeLines finishEach s text =
        let r := finishLine s first
        let r' := if middle = [] then (r.1, []) else finishEach r.1 (replaceCrLf (joined middle))
        ({ r'.1 with line := openSegments r'.1.line tail }, r.2 ++ r'.2) := by
      rw [consumeLines, htext, hrest]
      dsimp only
      rw [← hrest, List.dropLast_concat, List.getLast?_concat, Option.getD_some]
    refine ⟨(last ++ first) :: middle, tail, rfl, ?_⟩
    rw [hconsume]
    dsimp only
    split
    · rename_i hnil
      rw [hnil]
      exact ⟨.cons hfirst .nil, keeps_openSegments tail, rfl, rfl⟩
    · rename_i hne
      obtain ⟨hshown, hstate⟩ := finishEach_shown (s := (finishLine s first).1) rfl hne hlines
      refine ⟨.cons hfirst hshown, ?_, ?_, ?_⟩
      · rw [hstate]
        exact keeps_openSegments tail
      · rw [hstate]
        rfl
      · rw [hstate]
        rfl

/-- The normalizer has consumed the text and shown what it returned. -/
def Follows (text : Text) (s : OutputNormalizer) (out : Text) : Prop :=
  ∃ body lines last, text = (if s.carryCr then body ++ [carriageReturn] else body) ∧
    (s.carryCr = false → body.getLast? ≠ some carriageReturn) ∧ body.splitOn lineFeed = lines ++ [last] ∧
    Shown lines out ∧ Keeps last s.line

theorem follows_init : Follows [] OutputNormalizer.init [] :=
  ⟨[], [], [], rfl, fun _ h => (by cases h), rfl, .nil, keeps_nil⟩

theorem getLast?_of_splitOn {body last : Text} {lines : List Text} (h : body.splitOn lineFeed = lines ++ [last])
    {c : CodePoint} (hlast : last.getLast? = some c) : body.getLast? = some c := by
  have hne : last ≠ [] := fun hnil => by rw [hnil] at hlast; cases hlast
  have hbody : body = joined (lines ++ [last]) := by rw [← h, joined, List.intercalate_splitOn]
  rw [hbody]
  by_cases hlines : lines = []
  · rw [hlines, List.nil_append, joined_singleton, hlast]
  · rw [joined_append hlines (List.cons_ne_nil _ _), joined_singleton, List.getLast?_append_of_ne_nil _ (by simp)]
    obtain ⟨front, rfl⟩ := List.getLast?_eq_some_iff.mp hlast
    rw [← List.cons_append, List.getLast?_concat]

theorem Follows.consume {text : Text} {s : OutputNormalizer} {out : Text} (h : Follows text s out) (more : Text) :
    Follows (text ++ more) (consume s more).1 (out ++ (consume s more).2) ∧ (consume s more).1.held = s.held := by
  obtain ⟨body, lines, last, htext, hbody, hsplit, hshown, hkeeps⟩ := h
  rw [consume_eq_each, consumeWith]
  have hall : text ++ more = body ++ (if s.carryCr then carriageReturn :: more else more) := by
    rw [htext]
    split <;> simp
  have hhead : s.carryCr = false ∨ (if s.carryCr then carriageReturn :: more else more).head? ≠ some lineFeed := by
    cases hcarry : s.carryCr with
    | false => exact .inl rfl
    | true => exact .inr (by simp [lineFeed, carriageReturn])
  generalize htaken : (if s.carryCr then carriageReturn :: more else more) = taken at hall hhead
  split
  · rename_i hnil
    have hcarry : s.carryCr = false := by
      by_contra hne
      rw [if_pos (by simpa using hne), hnil] at htaken
      cases htaken
    rw [hcarry] at htext
    rw [hall, hnil, List.append_nil, List.append_nil]
    exact ⟨⟨body, lines, last, rfl, fun _ => hbody hcarry, hsplit, hshown, hkeeps⟩, rfl⟩
  · rename_i hne
    obtain ⟨first, rest, hdropped⟩ := List.exists_cons_of_ne_nil (List.splitOn_ne_nil lineFeed (dropReturn taken))
    have hseam : (dropReturn taken).head? = some lineFeed → last.getLast? ≠ some carriageReturn := by
      intro hfeed hlast
      rcases hhead with hcarry | hhead
      · exact hbody hcarry (getLast?_of_splitOn hsplit hlast)
      · rcases dropReturn_cases taken with ⟨hsame, -⟩ | ⟨front, rfl, hdrop⟩
        · exact hhead (hsame ▸ hfeed)
        · rw [hdrop] at hfeed
          exact hhead (by rw [List.head?_append, hfeed]; rfl)
    obtain ⟨done, last', hlast', hdone, hkeeps', hcarry', hheld'⟩ :=
      consumeLines_shown (s := { s with carryCr := taken.getLast? == some carriageReturn }) hkeeps hdropped hseam
    refine ⟨⟨body ++ dropReturn taken, lines ++ done, last', ?_, ?_, ?_, hshown.append hdone, hkeeps'⟩, hheld'⟩
    · rw [hcarry', hall]
      rcases dropReturn_cases taken with ⟨hsame, hopen⟩ | ⟨front, rfl, hdrop⟩
      · rw [hsame, if_neg (by simpa using hopen)]
      · rw [hdrop, List.getLast?_concat, if_pos (by simp), List.append_assoc]
    · intro hcarry
      rw [hcarry'] at hcarry
      have hopen : taken.getLast? ≠ some carriageReturn := by simpa using hcarry
      have hsame : dropReturn taken = taken := if_neg hopen
      rw [hsame, List.getLast?_append_of_ne_nil _ hne]
      exact hopen
    · rw [splitOn_append hsplit hdropped, hlast', List.append_assoc]

/-! ## Chunks of bytes -/

/-- The text of all the output. -/
def decoded (data : List UInt8) : Text := (Utf8.decode true data).1.map ofChar

/-- The normalizer has been fed the bytes and shown what it returned. -/
def Fed (data : List UInt8) (s : OutputNormalizer) (out : Text) : Prop :=
  s.held = (Utf8.decode false data).2 ∧ Follows ((Utf8.decode false data).1.map ofChar) s out

theorem Fed.feed {data : List UInt8} {s : OutputNormalizer} {out : Text} (h : Fed data s out) (chunk : List UInt8) :
    Fed (data ++ chunk) (feed s chunk).1 (out ++ (feed s chunk).2) := by
  obtain ⟨hheld, hfollows⟩ := h
  rw [Fed, Utf8.decode_append, ← hheld, List.map_append]
  exact (hfollows.consume (s := { s with held := (Utf8.decode false (s.held ++ chunk)).2 }) _).symm

theorem Fed.feedAll {data : List UInt8} {s : OutputNormalizer} {out : Text} (h : Fed data s out)
    (chunks : List (List UInt8)) :
    Fed (data ++ chunks.flatten) (feedAll s chunks).1 (out ++ (feedAll s chunks).2) := by
  induction chunks generalizing data s out with
  | nil =>
      rw [List.flatten_nil, List.append_nil, Normalizer.feedAll, List.append_nil]
      exact h
  | cons chunk chunks ih =>
      have hrest := ih (h.feed chunk)
      rw [List.append_assoc, List.append_assoc] at hrest
      exact hrest

/-- A way to show a whole text. -/
def Rendered (text out : Text) : Prop :=
  ∃ lines last shown line, text.splitOn lineFeed = lines ++ [last] ∧ Shown lines shown ∧ Keeps last line ∧
    out = shown ++ (lineAndSize line).1

theorem Fed.flush {data : List UInt8} {s : OutputNormalizer} {out : Text} (h : Fed data s out) :
    Rendered (decoded data) (out ++ (flush s).2) := by
  obtain ⟨hheld, hfollows⟩ := h
  have hall : decoded data = (Utf8.decode false data).1.map ofChar ++ (Utf8.decode true s.held).1.map ofChar := by
    have happend := Utf8.decode_append true data []
    rw [List.append_nil, List.append_nil, ← hheld] at happend
    rw [decoded, happend, List.map_append]
  obtain ⟨⟨body, lines, last, htext, -, hsplit, hshown, hkeeps⟩, -⟩ :=
    hfollows.consume (s := { s with held := (Utf8.decode true s.held).2 }) ((Utf8.decode true s.held).1.map ofChar)
  rw [← hall] at htext
  rw [Normalizer.flush]
  generalize consume { s with held := (Utf8.decode true s.held).2 } ((Utf8.decode true s.held).1.map ofChar) = r
    at htext hshown hkeeps
  cases hcarry : r.1.carryCr with
  | false =>
      rw [hcarry] at htext
      refine ⟨lines, last, out ++ r.2, r.1.line, htext ▸ hsplit, hshown, hkeeps, ?_⟩
      simp
  | true =>
      rw [hcarry, if_pos rfl] at htext
      have hone : [carriageReturn].splitOn lineFeed = [carriageReturn] :: [] := List.splitOn_eq_singleton (by decide)
      refine ⟨lines, last ++ [carriageReturn], out ++ r.2, openSegments r.1.line [carriageReturn], ?_, hshown,
        hkeeps.openSegments, ?_⟩
      · rw [htext]
        exact splitOn_append hsplit hone
      · simp

/-- Every way of cutting the output shows a line as one of its fallbacks allows. -/
theorem normalizeChunks_rendered (chunks : List (List UInt8)) :
    Rendered (decoded chunks.flatten) (normalizeChunks chunks) := by
  have hinit : Fed [] OutputNormalizer.init [] := ⟨rfl, follows_init⟩
  exact (hinit.feedAll chunks).flush

theorem normalizeOutput_eq (data : List UInt8) : normalizeOutput data = normalizeChunks [data] := by
  rw [normalizeOutput, normalizeChunks, feedAll, feedAll, List.append_nil]

/-! ## One way to show a line -/

def AlwaysShows (segment : Text) : Prop := ∀ k ≤ segment.length - maxOpenChars, shows (segment.drop k) = true

def NeverShows (segment : Text) : Prop := ∀ k ≤ segment.length - maxOpenChars, shows (segment.drop k) = false

/-- Of closed segments with the latest first, the one that decides does so whatever is cut off it. -/
def Decided : List Text → Prop
  | [] => True
  | segment :: earlier => AlwaysShows segment ∨ NeverShows segment ∧ Decided earlier

/-- What is kept of the last segment shows something, or the closed ones decide. -/
def Settled (text : Text) : Prop :=
  ∃ front last, text.splitOn carriageReturn = front ++ [last] ∧
    (shows (bounded ⟨last, 0⟩).text = true ∨ Decided front.reverse)

/-- Every line of the text, the one that is not over too, has one way to be shown. -/
def SettledText (text : Text) : Prop :=
  ∃ lines last, text.splitOn lineFeed = lines ++ [last] ∧ (∀ line ∈ lines, Settled (dropReturn line)) ∧ Settled last

theorem Decided.unique {closed : List Text} {p q : Kept} (h : Decided closed) (hp : Fallback closed p)
    (hq : Fallback closed q) : p = q := by
  induction closed with
  | nil => exact hp.trans hq.symm
  | cons segment earlier ih =>
      rcases h with halways | ⟨hnever, hdecided⟩
      · have hkept : ∀ r, Fallback (segment :: earlier) r → r = bounded ⟨segment, 0⟩ := by
          rintro r (⟨-, hr⟩ | ⟨⟨k, hk, hhide⟩, -⟩)
          · exact hr
          · exact absurd (halways k hk) (by rw [hhide]; exact Bool.false_ne_true)
        rw [hkept p hp, hkept q hq]
      · have hskipped : ∀ r, Fallback (segment :: earlier) r → Fallback earlier r := by
          rintro r (⟨⟨k, hk, hshow⟩, -⟩ | ⟨-, hr⟩)
          · exact absurd hshow (by rw [hnever k hk]; exact Bool.false_ne_true)
          · exact hr
        exact ih hdecided (hskipped p hp) (hskipped q hq)

theorem Settled.unique {text : Text} {a b : OpenLine} (h : Settled text) (ha : Keeps text a) (hb : Keeps text b) :
    lineAndSize a = lineAndSize b := by
  obtain ⟨front, last, hsplit, hsettled⟩ := h
  have hparts : ∀ line, Keeps text line → line.cur = bounded ⟨last, 0⟩ ∧ Fallback front.reverse line.prev := by
    rintro line ⟨front', last', hsplit', hcur, hprev⟩
    obtain ⟨rfl, hlast⟩ := List.append_inj' (hsplit.symm.trans hsplit') rfl
    obtain rfl := (List.cons.inj hlast).1
    exact ⟨hcur, hprev⟩
  obtain ⟨hcura, hpreva⟩ := hparts a ha
  obtain ⟨hcurb, hprevb⟩ := hparts b hb
  rw [lineAndSize, lineAndSize, hcura, hcurb]
  rcases hsettled with hshows | hdecided
  · rw [← read_isSome] at hshows
    obtain ⟨r, hr⟩ := Option.isSome_iff_exists.mp hshows
    rw [hr]
    rfl
  · rw [hdecided.unique hpreva hprevb]

theorem Shown.unique {lines : List Text} {a b : Text} (h : ∀ line ∈ lines, Settled (dropReturn line))
    (ha : Shown lines a) (hb : Shown lines b) : a = b := by
  induction ha generalizing b with
  | nil =>
      cases hb
      rfl
  | @cons text line texts out hline hrest ih =>
      cases hb with
      | @cons _ line' _ out' hline' hrest' =>
          rw [(h text List.mem_cons_self).unique hline hline',
            ih (fun other hmem => h other (List.mem_cons_of_mem _ hmem)) hrest']

theorem SettledText.unique {text a b : Text} (h : SettledText text) (ha : Rendered text a) (hb : Rendered text b) :
    a = b := by
  obtain ⟨lines, last, hsplit, hlines, hlast⟩ := h
  have hparts : ∀ out, Rendered text out → ∃ shown line, Shown lines shown ∧ Keeps last line ∧
      out = shown ++ (lineAndSize line).1 := by
    rintro out ⟨lines', last', shown, line, hsplit', hshown, hkeeps, hout⟩
    obtain ⟨rfl, heq⟩ := List.append_inj' (hsplit.symm.trans hsplit') rfl
    obtain rfl := (List.cons.inj heq).1
    exact ⟨shown, line, hshown, hkeeps, hout⟩
  obtain ⟨shown, line, hshown, hkeeps, rfl⟩ := hparts a ha
  obtain ⟨shown', line', hshown', hkeeps', rfl⟩ := hparts b hb
  rw [Shown.unique hlines hshown hshown', hlast.unique hkeeps hkeeps']

/-- Output whose lines are settled reads the same however it is cut, and whole lines read the same in a few passes as
one by one. -/
theorem normalizeChunks_eq (chunks : List (List UInt8)) (h : SettledText (decoded chunks.flatten)) :
    normalizeChunks chunks = normalizeOutput chunks.flatten ∧
      ∀ (s : OutputNormalizer) (text : Text), consume s text = consumeWith finishEach s text := by
  refine ⟨?_, consume_eq_each⟩
  have hwhole := normalizeChunks_rendered [chunks.flatten]
  rw [List.flatten_singleton, ← normalizeOutput_eq] at hwhole
  exact h.unique (normalizeChunks_rendered chunks) hwhole

/-! ## A bar that is redrawn -/

theorem decode_ascii (final : Bool) {data : List UInt8} (h : ∀ b ∈ data, b < 0x80) :
    Utf8.decode final data = (data.map fun b => Char.ofNat b.toNat, []) := by
  induction data with
  | nil => rfl
  | cons b data ih =>
      have hhead : Utf8.head b data = some (Char.ofNat b.toNat, data) := by
        have hlead : Utf8.lead b = .ascii := if_pos (h b List.mem_cons_self)
        simp only [Utf8.head, hlead]
      rw [Utf8.decode_cons_some final hhead, ih fun c hc => h c (List.mem_cons_of_mem _ hc)]
      rfl

theorem ansi_none {t : Text} (h : ∀ c ∈ t, c ≠ esc ∧ c ≠ 0x9b) : ansi t = none := by
  cases t with
  | nil => rfl
  | cons c t =>
      obtain ⟨hesc, hcsi⟩ := h c List.mem_cons_self
      simp [ansi, Matchers.orElse, systemCommand, deviceString, controlSequence, otherEscape, controlSequence8,
        Matchers.one, hesc, hcsi]

theorem stripAnsi_eq_self {t : Text} (h : ∀ c ∈ t, c ≠ esc ∧ c ≠ 0x9b) : stripAnsi t = t := by
  rw [stripAnsi, Matchers.dropMatches_eq_self fun u hu => ansi_none fun c hc => h c (hu.subset hc)]
  exact List.filter_eq_self.mpr fun c hc => bne_iff_ne.mpr (h c hc).1

/-- A bar of any length, and a redraw by nothing. -/
def bar (n : Nat) : List UInt8 := List.replicate n 0x78 ++ [0x0d, 0x1b, 0x5b, 0x4b, 0x0a]

theorem decoded_bar (n : Nat) :
    decoded (bar n) = (List.replicate n 0x78 ++ [carriageReturn] ++ [esc, 0x5b, 0x4b]) ++ [lineFeed] := by
  have hlow : ∀ b ∈ bar n, b < 0x80 := by
    intro b hb
    rcases List.mem_append.mp hb with hb | hb
    · rw [List.eq_of_mem_replicate hb]
      decide
    · simp only [List.mem_cons, List.not_mem_nil, or_false] at hb
      rcases hb with rfl | rfl | rfl | rfl | rfl <;> decide
  rw [decoded, decode_ascii true hlow, List.map_map, bar, List.map_append, List.map_replicate]
  simp only [List.append_assoc]
  rfl

theorem settledText_bar {n : Nat} (hn : 0 < n) : SettledText (decoded (bar n)) := by
  have hsame : ∀ c ∈ List.replicate n (0x78 : CodePoint), c = 0x78 := fun _ hc => List.eq_of_mem_replicate hc
  have hreturn : carriageReturn ∉ List.replicate n (0x78 : CodePoint) := fun h =>
    absurd (hsame _ h) (by decide)
  have hfeed : lineFeed ∉ List.replicate n (0x78 : CodePoint) ++ [carriageReturn] ++ [esc, 0x5b, 0x4b] := by
    intro h
    rw [List.append_assoc] at h
    rcases List.mem_append.mp h with h | h
    · exact absurd (hsame _ h) (by decide)
    · exact absurd h (by decide)
  have hlast : Settled [] := ⟨[], [], rfl, .inr trivial⟩
  refine ⟨_, [], by rw [decoded_bar, splitOn_concat_self, List.splitOn_eq_singleton hfeed], fun line hline => ?_,
    hlast⟩
  rw [List.mem_singleton.mp hline, dropReturn, List.getLast?_append, if_neg (by simp [carriageReturn])]
  have hsplit : (List.replicate n (0x78 : CodePoint) ++ [carriageReturn] ++ [esc, 0x5b, 0x4b]).splitOn
      carriageReturn = [List.replicate n 0x78] ++ [[esc, 0x5b, 0x4b]] := by
    have hcut : (List.replicate n (0x78 : CodePoint) ++ [carriageReturn]).splitOn carriageReturn =
        [List.replicate n 0x78] ++ [[]] := by
      rw [splitOn_concat_self, List.splitOn_eq_singleton hreturn]
    exact splitOn_append hcut (List.splitOn_eq_singleton (by decide))
  refine ⟨_, _, hsplit, .inr (.inl fun k hk => ?_)⟩
  rw [List.length_replicate] at hk
  have hplain : stripAnsi ((List.replicate n (0x78 : CodePoint)).drop k) = (List.replicate n 0x78).drop k := by
    refine stripAnsi_eq_self fun c hc => ?_
    rw [hsame c (List.mem_of_mem_drop hc)]
    decide
  rw [shows, hplain, bne_iff_ne, ne_eq, List.drop_eq_nil_iff, List.length_replicate, maxOpenChars] at *
  omega

/-- A bar one character longer than what is kept, cut inside and in the escape sequence after it. -/
theorem normalizeChunks_eq_bar :
    normalizeChunks [List.replicate 40000 0x78, List.replicate 25537 0x78 ++ [0x0d, 0x1b], [0x5b, 0x4b, 0x0a]] =
        normalizeOutput (bar (maxOpenChars + 1)) ∧
      ∀ (s : OutputNormalizer) (text : Text), consume s text = consumeWith finishEach s text := by
  have hflatten : [List.replicate 40000 0x78, List.replicate 25537 0x78 ++ [0x0d, 0x1b],
      [0x5b, 0x4b, 0x0a]].flatten = bar (maxOpenChars + 1) := by
    have hbar : List.replicate (maxOpenChars + 1) (0x78 : UInt8) =
        List.replicate 40000 0x78 ++ List.replicate 25537 0x78 := by
      rw [List.replicate_append_replicate]
      exact congrArg (List.replicate · 0x78) (by decide)
    rw [bar, hbar, List.flatten_cons, List.flatten_cons, List.flatten_singleton]
    simp only [List.append_assoc, List.cons_append, List.nil_append]
  have hsettled := settledText_bar (Nat.succ_pos maxOpenChars)
  rw [← hflatten] at hsettled
  rw [← hflatten]
  exact normalizeChunks_eq _ hsettled

/-! ## A cut that shows -/

/-- A window title as long as what is kept of an open line. -/
def titled : List UInt8 := 0x1b :: 0x5d :: List.replicate maxOpenChars 0x78

/-- The end of the title, and a redraw by nothing. -/
def redrawn : List UInt8 := [0x07, 0x0d, 0x0d, 0x0a]

theorem feed_ascii {s : OutputNormalizer} (hs : s.held = []) {data : List UInt8} (h : ∀ b ∈ data, b < 0x80) :
    feed s data = consume s (data.map fun b => ofChar (Char.ofNat b.toNat)) := by
  rw [feed, hs, List.nil_append, decode_ascii false h]
  dsimp only
  rw [List.map_map, ← hs]
  rfl

theorem dropFrom_length {α : Type} (m : Matchers.Matcher α) (t : List α) : Matchers.dropFrom m t.length t = [] := by
  induction t with
  | nil => rfl
  | cons c t ih => exact ih

/-- The bytes are a title as long as what is kept, and `title` is their text. -/
structure Title (bytes : List UInt8) (title : Text) : Prop where
  low : ∀ b ∈ bytes, b < 0x80
  text : bytes.map (fun b => ofChar (Char.ofNat b.toNat)) = title
  same : ∀ c ∈ title, c = 0x78
  length : title.length = maxOpenChars

section Title

variable {bytes : List UInt8} {title : Text}

theorem Title.hidden (ht : Title bytes title) : stripAnsi (esc :: 0x5d :: (title ++ [bell])) = [] := by
  have hclass : ∀ c ∈ title, (c != bell && isStringChar c) = true := by
    intro c hc
    rw [ht.same c hc]
    decide
  have hmatch : ansi (esc :: 0x5d :: (title ++ [bell])) = some (title.length + 3) := by
    have hsystem : systemCommand (esc :: 0x5d :: (title ++ [bell])) = some (title.length + 3) := by
      have hdrop : (title ++ [bell]).dropWhile (fun c => c != bell && isStringChar c) = [bell] := by
        rw [List.dropWhile_append_of_pos hclass]
        decide
      have htake : (title ++ [bell]).takeWhile (fun c => c != bell && isStringChar c) = title := by
        rw [List.takeWhile_append_of_pos hclass]
        simp
      rw [systemCommand, Matchers.one, if_pos (beq_self_eq_true esc), Matchers.one, if_pos (beq_self_eq_true _),
        Matchers.many, hdrop, htake]
      simp [Matchers.orElse, Matchers.one, Matchers.done]
      omega
    rw [ansi, Matchers.orElse, hsystem]
    rfl
  have hlength : (0x5d :: (title ++ [bell])).length = title.length + 3 - 1 := by simp
  rw [stripAnsi, Matchers.dropMatches, Matchers.dropFrom, hmatch]
  dsimp only
  rw [← hlength, dropFrom_length]
  rfl

theorem Title.textOf (ht : Title bytes title) :
    (0x1b :: 0x5d :: bytes).map (fun b => ofChar (Char.ofNat b.toNat)) = esc :: 0x5d :: title := by
  rw [List.map_cons, List.map_cons, ht.text]
  rfl

theorem consume_line {s : OutputNormalizer} (hs : s.carryCr = false) {line : Text} (h : lineFeed ∉ line) :
    consume s (line ++ [lineFeed]) =
      let r := lineAndSize (openSegments s.line (dropReturn line))
      ({ s with line := OpenLine.empty, finishedLineBytes := r.2 }, r.1 ++ [lineFeed]) := by
  have hlast : (line ++ [lineFeed]).getLast? = some lineFeed := List.getLast?_concat
  have hsame : dropReturn (line ++ [lineFeed]) = line ++ [lineFeed] := by
    rw [dropReturn, hlast]
    rfl
  have hsplit : (line ++ [lineFeed]).splitOn lineFeed = [line, []] := by
    rw [splitOn_concat_self, List.splitOn_eq_singleton h]
    rfl
  have hopen : openSegments OpenLine.empty [] = OpenLine.empty := by decide
  have hcarry : (some lineFeed == some carriageReturn) = false := by decide
  rw [consume, consumeWith, hs, if_neg Bool.false_ne_true, if_neg (by simp), consumeLines, hlast, hsame, hsplit,
    hcarry, ← hs]
  simp [finishLine, hopen]

theorem consume_open {s : OutputNormalizer} (hs : s.carryCr = false) {text : Text} (hne : text ≠ [])
    (hfeed : lineFeed ∉ text) (hreturn : carriageReturn ∉ text) :
    consume s text = ({ s with line := openSegments s.line text }, []) := by
  have hlast : text.getLast? ≠ some carriageReturn := fun h => hreturn (List.mem_of_getLast? h)
  have hcarry : (text.getLast? == some carriageReturn) = false := beq_eq_false_iff_ne.mpr hlast
  have hsame : dropReturn text = text := if_neg hlast
  rw [consume, consumeWith, hs, if_neg Bool.false_ne_true, if_neg hne, consumeLines, hsame, hcarry,
    List.splitOn_eq_singleton hfeed, ← hs]

theorem flush_closed {s : OutputNormalizer} (hheld : s.held = []) (hcarry : s.carryCr = false)
    (hline : s.line = OpenLine.empty) : (flush s).2 = [] := by
  obtain ⟨held, carryCr, line, finishedLineBytes⟩ := s
  obtain rfl := hheld
  obtain rfl := hcarry
  obtain rfl := hline
  rfl

theorem Title.notMem (ht : Title bytes title) {c : CodePoint} (hc : c ≠ 0x78) : c ∉ title := fun h => hc (ht.same c h)

theorem Title.lt (ht : Title bytes title) : ∀ b ∈ 0x1b :: 0x5d :: bytes, b < 0x80 := by
  intro b hb
  rcases List.mem_cons.mp hb with rfl | hb
  · decide
  rcases List.mem_cons.mp hb with rfl | hb
  · decide
  exact ht.low b hb

theorem redrawn_lt : ∀ b ∈ redrawn, b < 0x80 := by simp [redrawn]

theorem redrawn_text :
    redrawn.map (fun b => ofChar (Char.ofNat b.toNat)) = [bell, carriageReturn, carriageReturn] ++ [lineFeed] := by
  decide

theorem dropReturn_concat (text : Text) : dropReturn (text ++ [carriageReturn]) = text := by
  rw [dropReturn, List.getLast?_concat, if_pos rfl, List.dropLast_concat]

/-- The title is over before it can be shown. -/
theorem Title.whole (ht : Title bytes title) :
    normalizeOutput ((0x1b :: 0x5d :: bytes) ++ redrawn) = [lineFeed] := by
  have htext : ((0x1b :: 0x5d :: bytes) ++ redrawn).map (fun b => ofChar (Char.ofNat b.toNat)) =
      (((esc :: 0x5d :: (title ++ [bell])) ++ [carriageReturn]) ++ [carriageReturn]) ++ [lineFeed] := by
    rw [List.map_append, ht.textOf, redrawn_text]
    simp
  have hreturn : carriageReturn ∉ esc :: 0x5d :: (title ++ [bell]) := by
    have htitle : (13 : CodePoint) ∉ title := ht.notMem (by decide)
    simp [htitle, carriageReturn, esc, bell]
  have hfeed : lineFeed ∉ ((esc :: 0x5d :: (title ++ [bell])) ++ [carriageReturn]) ++ [carriageReturn] := by
    have htitle : (10 : CodePoint) ∉ title := ht.notMem (by decide)
    simp [htitle, lineFeed, carriageReturn, esc, bell]
  have hhidden : shows (esc :: 0x5d :: (title ++ [bell])) = false := by
    rw [shows, ht.hidden]
    rfl
  have hopen : openSegments OpenLine.empty ((esc :: 0x5d :: (title ++ [bell])) ++ [carriageReturn]) =
      OpenLine.empty := by
    have hsegments : segments OpenLine.empty.cur ((esc :: 0x5d :: (title ++ [bell])) ++ [carriageReturn]) =
        [⟨esc :: 0x5d :: (title ++ [bell]), 0⟩, Kept.empty] := by
      rw [OpenLine.empty]
      dsimp only
      rw [segments_empty, splitOn_concat_self, List.splitOn_eq_singleton hreturn]
      rfl
    rw [openSegments, hsegments]
    simp only [List.dropLast, List.reverse_singleton, List.find?_cons, hhidden, List.find?_nil, Option.map_none]
    rfl
  have hbytes : ∀ b ∈ (0x1b :: 0x5d :: bytes) ++ redrawn, b < 0x80 := fun b hb =>
    (List.mem_append.mp hb).elim (ht.lt b) (redrawn_lt b)
  rw [normalizeOutput, feed_ascii rfl hbytes, htext, consume_line rfl hfeed, dropReturn_concat]
  dsimp only
  rw [flush_closed rfl rfl rfl, OutputNormalizer.init]
  dsimp only
  rw [hopen]
  rfl

theorem read_ne_nil {segment : Kept} {r : Text × Nat} (h : segment.read = some r) : r.1 ≠ [] := by
  rw [Kept.read] at h
  dsimp only at h
  split at h
  · cases h
  · rename_i hne
    obtain rfl := Option.some.inj h
    dsimp only
    split
    · exact hne
    · exact List.append_ne_nil_of_right_ne_nil _ hne

/-- What an earlier chunk left of the title is shown. -/
theorem Title.chunked (ht : Title bytes title) :
    ∃ text, text ≠ [] ∧ normalizeChunks [0x1b :: 0x5d :: bytes, redrawn] = text ++ [lineFeed] := by
  have hreturn : (13 : CodePoint) ∉ title := ht.notMem (by decide)
  have hfeed : (10 : CodePoint) ∉ title := ht.notMem (by decide)
  have hcut : openSegments OpenLine.empty (esc :: 0x5d :: title) = ⟨Kept.empty, ⟨title, 2⟩⟩ := by
    have hsegments : segments OpenLine.empty.cur (esc :: 0x5d :: title) = [⟨esc :: 0x5d :: title, 0⟩] := by
      rw [OpenLine.empty]
      dsimp only
      rw [segments_empty, List.splitOn_eq_singleton (by simp [hreturn, carriageReturn, esc])]
      rfl
    have hlength : (esc :: 0x5d :: title).length - maxOpenChars = 2 := by
      rw [List.length_cons, List.length_cons, ht.length]
      omega
    rw [openSegments, hsegments]
    dsimp only [List.getLast?_singleton, Option.getD_some, List.dropLast]
    rw [bounded_eq]
    dsimp only
    rw [hlength]
    rfl
  have hfirst : feed OutputNormalizer.init (0x1b :: 0x5d :: bytes) =
      (⟨[], false, ⟨Kept.empty, ⟨title, 2⟩⟩, 0⟩, []) := by
    rw [feed_ascii rfl ht.lt, ht.textOf, consume_open rfl (List.cons_ne_nil _ _)
      (by simp [hfeed, lineFeed, esc]) (by simp [hreturn, carriageReturn, esc])]
    rw [OutputNormalizer.init]
    dsimp only
    rw [hcut]
  have hplain : ∀ k, stripAnsi ((title ++ [bell]).drop k) = (title ++ [bell]).drop k := by
    intro k
    refine stripAnsi_eq_self fun c hc => ?_
    rcases List.mem_append.mp (List.mem_of_mem_drop hc) with hc | hc
    · rw [ht.same c hc]
      decide
    · rw [List.mem_singleton.mp hc]
      decide
  have hshows : shows (title ++ [bell]) = true := by
    have hself := hplain 0
    rw [List.drop_zero] at hself
    rw [shows, hself]
    simp
  obtain ⟨dropped, hkept⟩ : ∃ dropped, bounded ⟨title ++ [bell], 2⟩ = ⟨(title ++ [bell]).drop 1, dropped⟩ := by
    have hlength : (title ++ [bell]).length - maxOpenChars = 1 := by
      rw [List.length_append, ht.length, List.length_singleton]
      omega
    rw [bounded_eq]
    dsimp only
    rw [hlength]
    exact ⟨_, rfl⟩
  have hopen : openSegments ⟨Kept.empty, ⟨title, 2⟩⟩ ([bell] ++ [carriageReturn]) =
      ⟨⟨(title ++ [bell]).drop 1, dropped⟩, Kept.empty⟩ := by
    have hsegments : segments ⟨title, 2⟩ ([bell] ++ [carriageReturn]) = [⟨title ++ [bell], 2⟩, Kept.empty] := by
      have hmem : carriageReturn ∉ title ++ [bell] := by simp [hreturn, carriageReturn, bell]
      rw [segments, ← List.append_assoc, splitOn_concat_self, List.splitOn_eq_singleton hmem]
      rfl
    rw [openSegments, hsegments]
    simp only [List.dropLast, List.reverse_singleton, List.find?_cons, hshows, Option.map_some, Option.getD_some, hkept]
    rfl
  have hread : ∃ r, (⟨(title ++ [bell]).drop 1, dropped⟩ : Kept).read = some r := by
    rw [← Option.isSome_iff_exists, read_isSome, shows, hplain, bne_iff_ne, ne_eq, List.drop_eq_nil_iff,
      List.length_append, ht.length]
    decide
  obtain ⟨r, hr⟩ := hread
  have hline : lineAndSize ⟨⟨(title ++ [bell]).drop 1, dropped⟩, Kept.empty⟩ = r := by
    rw [lineAndSize, hr]
    rfl
  refine ⟨r.1, read_ne_nil hr, ?_⟩
  have hsecond : feed ⟨[], false, ⟨Kept.empty, ⟨title, 2⟩⟩, 0⟩ redrawn =
      (⟨[], false, OpenLine.empty, r.2⟩, r.1 ++ [lineFeed]) := by
    have hdrop : dropReturn [bell, carriageReturn, carriageReturn] = [bell] ++ [carriageReturn] := by decide
    rw [feed_ascii rfl redrawn_lt, redrawn_text, consume_line rfl (by decide), hdrop]
    dsimp only
    rw [hopen, hline]
  rw [normalizeChunks, feedAll, hfirst, feedAll]
  dsimp only
  rw [hsecond, feedAll]
  dsimp only
  rw [flush_closed rfl rfl rfl]
  simp

end Title

theorem title_replicate : Title (List.replicate maxOpenChars 0x78) (List.replicate maxOpenChars 0x78) where
  low b hb := by
    rw [List.eq_of_mem_replicate hb]
    decide
  text := List.map_replicate
  same _ hc := List.eq_of_mem_replicate hc
  length := List.length_replicate

/-- Where a chunk ends decides whether a window title is taken for output. -/
theorem title_cut : normalizeChunks [titled, redrawn] ≠ normalizeOutput [titled, redrawn].flatten := by
  obtain ⟨text, hne, hchunks⟩ := title_replicate.chunked
  have hflatten : [titled, redrawn].flatten = titled ++ redrawn := by simp
  rw [hflatten, titled, hchunks, title_replicate.whole]
  intro heq
  exact hne (List.append_cancel_right (heq.trans (List.nil_append _).symm))

end Avibe.Normalizer
