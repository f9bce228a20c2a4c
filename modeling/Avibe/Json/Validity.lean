import Avibe.Json.Chunks

/-!
# The answer of the parser

The parser answers that a text is valid exactly for the texts of the grammar, behind an
optional byte order mark, whatever the paths are and however the bytes are cut.
-/

namespace Avibe.Json

/-! ## An invalid text stays invalid -/

namespace Visits

theorem completeValue_invalid {v : Visits} (h : v.invalid = true) :
    v.completeValue.invalid = true := by
  cases hs : v.stack with
  | nil => simpa [completeValue, hs] using h
  | cons parent below =>
      obtain ⟨-, -, -, -, -, hinvalid⟩ := completeValue_cons hs
      exact hinvalid.trans h

theorem endContainer_invalid {v : Visits} (h : v.invalid = true) (expected : Kind) :
    (v.endContainer expected).invalid = true := by
  unfold endContainer
  split
  · rfl
  · split
    · rfl
    · rename_i below _ _
      exact completeValue_invalid (v := { v with stack := below }) h

theorem markNonempty_invalid {v : Visits} (h : v.invalid = true) (frame : Container) :
    (v.markNonempty frame).invalid = true := by
  unfold markNonempty
  split
  · exact h
  · dsimp only
    split <;> exact h

theorem startValue_invalid {v : Visits} (h : v.invalid = true) (path : Path) (node : PathNode)
    (token : Lexed) (value : PyValue) (scope : Scope) (replace : Bool) :
    (v.startValue path node token value scope replace).invalid = true := by
  have hreplace := same_visit_if v ((replace && node.isVisited) = true) path .replace .none scope
  unfold startValue
  generalize (if replace && node.isVisited then v.visit path .replace .none scope else v) = w
    at hreplace
  have hw : w.invalid = true := hreplace.invalid.trans h
  dsimp only
  split
  · exact (same_visit_if w (node.selected = true) path .startMap .none scope).invalid.trans hw
  · exact (same_visit_if w (node.selected = true) path .startArray .none scope).invalid.trans hw
  all_goals first
    | rfl
    | apply completeValue_invalid
      repeat' split
      all_goals exact hw

theorem skipValue_invalid {v : Visits} (h : v.invalid = true) (token : Lexed) :
    (v.skipValue token).invalid = true := by
  cases token <;> first | exact h | exact completeValue_invalid h | rfl

theorem popSkipState_invalid {v : Visits} (h : v.invalid = true) :
    v.popSkipState.invalid = true := by
  unfold popSkipState
  dsimp only
  split
  · exact completeValue_invalid (v := { v with skip := v.skip.pop }) h
  · exact h

theorem startSkippedValue_invalid {v : Visits} (h : v.invalid = true) (token : Lexed)
    (completed : SkipState) : (v.startSkippedValue token completed).invalid = true := by
  cases token <;> first | exact h | rfl

theorem acceptSkipped_invalid {v : Visits} (h : v.invalid = true) (token : Lexed) :
    (v.acceptSkipped token).invalid = true := by
  unfold acceptSkipped
  repeat' split
  all_goals first
    | exact h
    | exact popSkipState_invalid h
    | exact startSkippedValue_invalid h token _
    | rfl

theorem acceptMap_invalid {v : Visits} (h : v.invalid = true) (frame : Container) (token : Lexed)
    (value : PyValue) : (v.acceptMap frame token value).invalid = true := by
  have hmark := markNonempty_invalid h frame
  unfold acceptMap
  repeat' split
  all_goals first
    | exact h
    | exact endContainer_invalid h .map
    | exact skipValue_invalid hmark token
    | exact startValue_invalid (v := (v.markNonempty frame).setTop _) hmark _ _ token value _ _
    | rfl

theorem acceptArray_invalid {v : Visits} (h : v.invalid = true) (frame : Container) (token : Lexed)
    (value : PyValue) : (v.acceptArray frame token value).invalid = true := by
  have hmark := markNonempty_invalid h frame
  unfold acceptArray
  dsimp only
  repeat' split
  all_goals first
    | exact h
    | exact endContainer_invalid h .array
    | exact skipValue_invalid hmark token
    | exact startValue_invalid hmark _ _ token value _ _
    | rfl

theorem accept_invalid {v : Visits} (h : v.invalid = true) (token : Lexed) (value : PyValue) :
    (v.accept token value).invalid = true := by
  unfold accept
  repeat' split
  · exact acceptSkipped_invalid h token
  · rfl
  · exact startValue_invalid h _ _ token value _ _
  · exact acceptMap_invalid h _ token value
  · exact acceptArray_invalid h _ token value

end Visits

namespace Parser

theorem valid_of_invalid {p : Parser} (h : p.invalid = true) : p.valid = false := by
  simp [valid, h]

theorem finish_invalid {p : Parser} (h : p.invalid = true) : p.finish.1 = false := by
  apply valid_of_invalid
  split
  · unfold finishNumber
    dsimp only
    repeat' split
    all_goals first | rfl | exact Visits.accept_invalid h _ _
  · unfold finishLiteral
    dsimp only
    repeat' split
    all_goals first | rfl | exact Visits.accept_invalid h _ _
  · rfl
  · exact h

/-! ## The end of the text -/

/-- Between two lexemes the text is valid when its value is complete. -/
theorem Reads.valid_iff {p : Parser} {c : Config} (h : p.Reads ⟨.normal, c⟩) :
    Parser.valid p = true ↔ c = .done := by
  have hv := h.valid
  have hm : p.mode = .normal := h.mode
  cases h.visits with
  | root hs hr hk => simp [Parser.valid, hr]
  | done hs hr hk => simp [Parser.valid, hv, hm, hr, hs, hk.depth_eq_zero]
  | frame hs hp hk => simp [Parser.valid, hs]
  | skipped hs hk => simp [Parser.valid, hs]

theorem after_valid_iff {p : Parser} {o : Option Config}
    (h : p.After (o.map fun c => ⟨.normal, c⟩)) : p.valid = true ↔ o = some .done := by
  cases o with
  | none =>
      rw [valid_of_invalid h]
      simp
  | some c =>
      have hreads : p.Reads ⟨.normal, c⟩ := h
      rw [hreads.valid_iff, Option.some_inj]

theorem Reads.finish_iff {p : Parser} {s : Scan} (h : p.Reads s) :
    p.finish.1 = true ↔ s.finish = true := by
  obtain ⟨mode, c⟩ := s
  cases mode with
  | normal =>
      have hm : p.mode = .normal := h.mode
      simp only [Parser.finish, hm, Scan.finish, decide_eq_true_eq]
      exact h.valid_iff
  | string st =>
      have hm : p.mode = .string := h.mode.1
      simp only [Parser.finish, hm, Scan.finish]
      exact iff_of_false (by simp [valid_of_invalid (p := p.failed) rfl]) (by decide)
  | number st =>
      have hm : p.mode = .number := h.mode.1
      have hafter := after_finishNumber h
      simp only [Parser.finish, hm, Scan.finish, Bool.and_eq_true, decide_eq_true_eq]
      cases hf : st.final with
      | false =>
          rw [hf] at hafter
          have := after_valid_iff (o := none) hafter
          simpa using this
      | true =>
          rw [hf] at hafter
          simpa using after_valid_iff hafter
  | literal bytes =>
      have hm : p.mode = .literal := h.mode.1
      have hafter := after_finishLiteral h
      simp only [Parser.finish, hm, Scan.finish, Bool.and_eq_true, decide_eq_true_eq]
      by_cases hw : bytes ∈ words
      · rw [if_pos hw] at hafter
        simpa [hw] using after_valid_iff hafter
      · rw [if_neg hw] at hafter
        have := after_valid_iff (o := none) hafter
        simpa [hw] using this

/-- From any state the parser answers as the scanner does. -/
theorem Reads.foldl_iff {p : Parser} {s : Scan} (h : p.Reads s) (bytes : List UInt8) :
    (bytes.foldl feedStartedByte p).finish.1 = true ↔ s.Accepts bytes := by
  induction bytes generalizing p s with
  | nil => exact h.finish_iff
  | cons b bytes ih =>
      have hafter := after_feedStartedByte h b
      rw [List.foldl_cons]
      cases hs : s.step b with
      | none =>
          rw [hs] at hafter
          have hstarted := (feedStartedByte_rootStarted p b).trans h.started
          rw [← foldl_feedByte_started hstarted, foldl_feedByte_invalid hafter]
          refine iff_of_false (by simp [finish_invalid hafter]) ?_
          rintro ⟨s', hs', -⟩
          cases hs.symm.trans hs'
      | some s' =>
          rw [hs] at hafter
          exact (ih hafter).trans (scan_cons hs).symm

/-- The packed stack is a stack of states as long as the text is not invalid. -/
theorem Reads.packs {p : Parser} {s : Scan} (h : p.Reads s) : ∃ states, p.skip.Packs states := by
  have hvisits := h.visits
  generalize s.config = c at hvisits
  cases hvisits with
  | root _ _ hk => exact ⟨_, hk⟩
  | done _ _ hk => exact ⟨_, hk⟩
  | frame _ _ hk => exact ⟨_, hk⟩
  | skipped _ hk => exact ⟨_, hk⟩

theorem Reads.foldl_packs {p : Parser} {s : Scan} (h : p.Reads s) (bytes : List UInt8)
    (hv : (bytes.foldl feedStartedByte p).invalid = false) :
    ∃ states, (bytes.foldl feedStartedByte p).skip.Packs states := by
  induction bytes generalizing p s with
  | nil => exact h.packs
  | cons b bytes ih =>
      have hafter := after_feedStartedByte h b
      rw [List.foldl_cons] at hv ⊢
      cases hs : s.step b with
      | none =>
          rw [hs] at hafter
          have hstarted := (feedStartedByte_rootStarted p b).trans h.started
          rw [← foldl_feedByte_started hstarted, foldl_feedByte_invalid hafter] at hv
          have hinvalid : (p.feedStartedByte b).invalid = true := hafter
          rw [hinvalid] at hv
          cases hv
      | some s' =>
          rw [hs] at hafter
          exact ih hafter hv

/-! ## The byte order mark -/

/-- The bytes less one byte order mark at their front. -/
def withoutBom (bytes : List UInt8) : List UInt8 :=
  if utf8Bom <+: bytes then bytes.drop utf8Bom.length else bytes

/-- The parser behind the front of the text. -/
def start (p : Parser) : Parser := { p with rootStarted := true, rootPrefix := [] }

/-- Once the front is no start of the mark, it is settled whether the mark is there. -/
theorem withoutBom_append {front : List UInt8} (h : ¬ (front.length < 3 ∧ front <+: utf8Bom))
    (rest : List UInt8) :
    withoutBom (front ++ rest) = withoutBom front ++ rest := by
  have hiff : utf8Bom <+: front ++ rest ↔ utf8Bom <+: front := by
    refine ⟨fun hb => ?_, fun hb => hb.trans (List.prefix_append front rest)⟩
    by_cases hshort : front.length < 3
    · have hfront : front <+: utf8Bom :=
        List.prefix_of_prefix_length_le (List.prefix_append front rest) hb (Nat.le_of_lt hshort)
      exact absurd ⟨hshort, hfront⟩ h
    · have hbom : utf8Bom.length ≤ front.length := Nat.not_lt.mp hshort
      exact List.prefix_of_prefix_length_le hb (List.prefix_append front rest) hbom
  unfold withoutBom
  by_cases hb : utf8Bom <+: front
  · rw [if_pos hb, if_pos (hiff.mpr hb), List.drop_append_of_le_length hb.length_le]
  · rw [if_neg hb, if_neg (fun h => hb (hiff.mp h))]

theorem feedByte_front {p : Parser} (hv : p.invalid = false) (hs : p.rootStarted = false)
    (b : UInt8) :
    p.feedByte b =
      if (p.rootPrefix ++ [b]).length < 3 ∧ p.rootPrefix ++ [b] <+: utf8Bom then
        { p with rootPrefix := p.rootPrefix ++ [b] }
      else (withoutBom (p.rootPrefix ++ [b])).foldl feedStartedByte p.start := by
  unfold feedByte
  rw [if_neg (by simp [hv]), if_pos (by simp [hs])]
  rfl

theorem foldl_started {p : Parser} (hs : p.rootStarted = true) (bytes : List UInt8) :
    (bytes.foldl feedStartedByte p).rootStarted = true := by
  induction bytes generalizing p with
  | nil => exact hs
  | cons b bytes ih => exact ih ((feedStartedByte_rootStarted p b).trans hs)

/-- The front of the text is kept until it is no start of the mark. -/
theorem foldl_feedByte_front {p : Parser} (hv : p.invalid = false) (hs : p.rootStarted = false)
    (hp : p.rootPrefix.length < 3 ∧ p.rootPrefix <+: utf8Bom) (bytes : List UInt8) :
    (((p.rootPrefix ++ bytes).length < 3 ∧ p.rootPrefix ++ bytes <+: utf8Bom) ∧
        bytes.foldl feedByte p = { p with rootPrefix := p.rootPrefix ++ bytes }) ∨
      bytes.foldl feedByte p =
        (withoutBom (p.rootPrefix ++ bytes)).foldl feedStartedByte p.start := by
  induction bytes generalizing p with
  | nil =>
      rw [List.append_nil]
      exact .inl ⟨hp, rfl⟩
  | cons b bytes ih =>
      rw [List.foldl_cons, feedByte_front hv hs, List.append_cons]
      split
      · rename_i hkeep
        exact ih (p := { p with rootPrefix := p.rootPrefix ++ [b] }) hv hs hkeep
      · rename_i hkeep
        refine .inr ?_
        rw [withoutBom_append hkeep, List.foldl_append]
        exact foldl_feedByte_started (foldl_started rfl _) bytes

/-! ## Texts -/

theorem start_reads (paths lossless : List Path) :
    (new paths lossless).start.Reads ⟨.normal, .at .root []⟩ :=
  ⟨rfl, rfl, .root rfl rfl SkipStack.packs_empty, rfl⟩

/-- A text that ends within the byte order mark is no text of the grammar. -/
theorem not_text_of_front {bytes : List UInt8} (h : bytes.length < 3 ∧ bytes <+: utf8Bom) :
    ¬ Text (withoutBom bytes) := by
  have hbytes : bytes = [] ∨ bytes = [0xEF] ∨ bytes = [0xEF, 0xBB] := by
    match bytes, h with
    | [], _ => exact .inl rfl
    | [a], ⟨_, h⟩ =>
        simp only [utf8Bom, List.cons_prefix_cons, List.nil_prefix, and_true] at h
        exact .inr (.inl (by rw [h]))
    | [a, b], ⟨_, h⟩ =>
        simp only [utf8Bom, List.cons_prefix_cons, List.nil_prefix, and_true] at h
        exact .inr (.inr (by rw [h.1, h.2]))
  rw [← scan_iff_text]
  rcases hbytes with rfl | rfl | rfl
  · intro h
    cases h
  · rintro ⟨s, hs, -⟩
    cases hs
  · rintro ⟨s, hs, -⟩
    cases hs

theorem foldl_feedByte_text (paths lossless : List Path) (bytes : List UInt8) :
    (bytes.foldl feedByte (new paths lossless)).finish.1 = true ↔ Text (withoutBom bytes) := by
  rcases foldl_feedByte_front (p := new paths lossless) rfl rfl ⟨Nat.zero_lt_succ 2, List.nil_prefix⟩ bytes
    with ⟨hfront, hfold⟩ | hfold
  · rw [hfold]
    refine iff_of_false ?_ (not_text_of_front hfront)
    exact Bool.false_ne_true
  · rw [hfold, ← scan_iff_text]
    exact (start_reads paths lossless).foldl_iff _

theorem foldl_feedByte_packs (paths lossless : List Path) (bytes : List UInt8)
    (hv : (bytes.foldl feedByte (new paths lossless)).invalid = false) :
    ∃ states, (bytes.foldl feedByte (new paths lossless)).skip.Packs states := by
  rcases foldl_feedByte_front (p := new paths lossless) rfl rfl ⟨Nat.zero_lt_succ 2, List.nil_prefix⟩ bytes
    with ⟨-, hfold⟩ | hfold
  · rw [hfold]
    exact ⟨[], SkipStack.packs_empty⟩
  · rw [hfold] at hv ⊢
    exact (start_reads paths lossless).foldl_packs _ hv

end Parser

/-- The operations on the packed integers are those of a stack with this top. -/
structure SkipStack.IsStack (s : SkipStack) (states : List SkipState) : Prop where
  push : ∀ state, (s.push state).Packs (state :: states)
  depth : s.depth = states.length
  state : ∀ top below, states = top :: below → s.state = top
  set : ∀ top below next, states = top :: below → (s.set next).Packs (next :: below)
  pop : ∀ top below, states = top :: below → s.pop.Packs below

theorem SkipStack.Packs.isStack {s : SkipStack} {states : List SkipState} (h : s.Packs states) :
    s.IsStack states where
  push := h.push
  depth := h.1
  state := by
    rintro top below rfl
    exact h.state
  set := by
    rintro top below next rfl
    exact h.set next
  pop := by
    rintro top below rfl
    exact h.pop

/-- `finish` answers that the text is valid exactly for the texts of the grammar behind an optional
byte order mark; every cut of the bytes leaves the same parser, events included, as `feed_byte` on
each of them; and the packed skip stack is a stack of grammar states at every depth. -/
theorem Parser.accepts_exactly_json (paths lossless : List Path) (chunks : List (List UInt8)) :
    (((new paths lossless).feedAll chunks).finish.1 = true ↔ Text (withoutBom chunks.flatten)) ∧
      (new paths lossless).feedAll chunks = chunks.flatten.foldl feedByte (new paths lossless) ∧
      (∀ paths' lossless' : List Path,
        ((new paths' lossless').feedAll chunks).finish.1 =
          ((new paths lossless).feedAll chunks).finish.1) ∧
      (((new paths lossless).feedAll chunks).invalid = false →
        ∃ states, ((new paths lossless).feedAll chunks).skip.Packs states) ∧
      ∀ (s : SkipStack) (states : List SkipState), s.Packs states → s.IsStack states := by
  have htext : ∀ paths lossless : List Path,
      ((new paths lossless).feedAll chunks).finish.1 = true ↔ Text (withoutBom chunks.flatten) := by
    intro paths lossless
    rw [feedAll_eq_foldl]
    exact foldl_feedByte_text paths lossless chunks.flatten
  refine ⟨htext paths lossless, feedAll_eq_foldl _ chunks, fun paths' lossless' => ?_, fun hv => ?_,
    fun s states h => h.isStack⟩
  · exact Bool.eq_iff_iff.mpr ((htext paths' lossless').trans (htext paths lossless).symm)
  · rw [feedAll_eq_foldl] at hv ⊢
    exact foldl_feedByte_packs paths lossless chunks.flatten hv

end Avibe.Json
