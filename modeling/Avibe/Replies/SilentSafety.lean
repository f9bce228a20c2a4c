import Avibe.Replies.Silent
import Mathlib.Data.List.TakeWhile

/-!
# Silent blocks leave with their mask

The ranges that a reply loses are in order, each begins at an opener and ends at the first closing
tag after it or with the text, and they hold every opener that the last reading found outside code.
What is left of the text and of its mask agree position by position, also after both are cut by
lines: masking may join lines of the mask, but not before the first line with something in it.
-/

namespace Avibe.Replies

open Ranges Lines Avibe.Transcript

/-! ## Tags -/

theorem startsWith_getElem {pattern text : List Char} (h : startsWith pattern text = true) {k : Nat}
    {p : Char} (hk : pattern[k]? = some p) : ∃ c, text[k]? = some c ∧ sameLetter p c = true := by
  induction pattern generalizing text k with
  | nil => cases hk
  | cons q pattern ih =>
      cases text with
      | nil => cases h
      | cons c text =>
          obtain ⟨hc, hrest⟩ := Bool.and_eq_true_iff.mp h
          cases k with
          | zero =>
              cases hk
              exact ⟨c, rfl, hc⟩
          | succ k => exact ih hrest hk

/-- Nothing but an angle begins a tag. -/
theorem head?_of_startsWith {pattern text : List Char} (h : startsWith ('<' :: pattern) text = true) :
    text.head? = some '<' := by
  cases text with
  | nil => cases h
  | cons c text =>
      have hc := (Bool.and_eq_true_iff.mp h).1
      simpa [sameLetter] using hc

theorem holds_of_lt_takeWhile {p : Char → Bool} {text : List Char} {k : Nat}
    (h : k < (text.takeWhile p).length) {c : Char} (hc : text[k]? = some c) : p c = true := by
  induction text generalizing k with
  | nil => cases hc
  | cons d text ih =>
      cases hd : p d with
      | false =>
          rw [List.takeWhile_cons_of_neg (by simp [hd])] at h
          cases h
      | true =>
          rw [List.takeWhile_cons_of_pos hd] at h
          cases k with
          | zero =>
              cases hc
              exact hd
          | succ k => exact ih (Nat.lt_of_succ_lt_succ h) hc

theorem head?_of_silentClose {text : List Char} {n : Nat} (h : silentClose text = some n) :
    text.head? = some '<' := by
  rw [silentClose] at h
  split at h
  · rename_i hstarts
    exact head?_of_startsWith hstarts
  · cases h

theorem silentClose_eq_some {text : List Char} {n : Nat} (h : silentClose text = some n) :
    startsWith "</silent".toList text = true ∧ ∃ spaces,
      ((text.drop 8).takeWhile isSpace).length = spaces ∧ text[8 + spaces]? = some '>' ∧
        n = 9 + spaces := by
  rw [silentClose] at h
  split at h
  · rename_i hstarts
    dsimp only at h
    split at h
    · rename_i hangle
      rw [List.head?_drop] at hangle
      exact ⟨hstarts, _, rfl, hangle, (Option.some.inj h).symm⟩
    · cases h
  · cases h

/-- Inside a closing tag there is no other angle that opens. -/
theorem silentClose_separate : Separate silentClose where
  pos := by
    intro text n h
    obtain ⟨-, spaces, -, -, rfl⟩ := silentClose_eq_some h
    omega
  le := by
    intro text n h
    obtain ⟨-, spaces, -, hangle, rfl⟩ := silentClose_eq_some h
    have := (List.getElem?_eq_some_iff.mp hangle).1
    omega
  apart := by
    intro text n h k hpos hk
    obtain ⟨hstarts, spaces, hspaces, hangle, rfl⟩ := silentClose_eq_some h
    cases hclose : silentClose (text.drop k) with
    | none => rfl
    | some n' =>
        exfalso
        have hhead := head?_of_silentClose hclose
        rw [List.head?_drop] at hhead
        rcases Nat.lt_or_ge k 8 with hlt | hge
        · have hletters : ∀ p ∈ "/silent".toList, sameLetter p '<' = false := fun p hp =>
            Bool.eq_false_iff.mpr fun h => absurd
              (List.all_eq_true.mp (by decide : ("/silent".toList.all fun p => !sameLetter p '<'))
                p hp) (by simp [h])
          obtain ⟨k, rfl⟩ := Nat.exists_eq_succ_of_ne_zero hpos.ne'
          have hpattern : "</silent".toList[k + 1]? = "/silent".toList[k]? := rfl
          obtain ⟨p, hp⟩ : ∃ p, "/silent".toList[k]? = some p :=
            ⟨_, List.getElem?_eq_getElem (show k < "/silent".toList.length from
              Nat.lt_of_succ_lt_succ hlt)⟩
          obtain ⟨c, hc, hsame⟩ := startsWith_getElem hstarts (hpattern.trans hp)
          rw [hhead] at hc
          cases hc
          rw [hletters p (List.mem_of_getElem? hp)] at hsame
          cases hsame
        · rcases Nat.lt_or_ge k (8 + spaces) with hlt | hge'
          · have hspace : (text.drop 8)[k - 8]? = some '<' := by
              rw [List.getElem?_drop, Nat.add_sub_cancel' hge, hhead]
            have hlt' : k - 8 < ((text.drop 8).takeWhile isSpace).length := by omega
            exact absurd (holds_of_lt_takeWhile hlt' hspace) (by decide)
          · have heq : k = 8 + spaces := by omega
            rw [← heq, hhead] at hangle
            cases hangle

/-! ## Openers -/

theorem find_ge {c : Char} {text : List Char} {start n : Nat} (h : find c text start = some n) :
    start ≤ n ∧ n < text.length := by
  obtain ⟨i, hi, rfl⟩ := Option.map_eq_some_iff.mp h
  have hlt := (List.idxOf?_eq_some_iff.mp hi).1
  rw [List.length_drop] at hlt
  omega

/-- Openers are in order, and each has its name and its angle. -/
theorem openersOf_ordered (text : List Char) {prefixes : List Span} (h : ∀ p ∈ prefixes, p.1 ≤ p.2)
    (cursor : Nat) :
    (∀ o ∈ openersOf text prefixes cursor, cursor ≤ o.1 ∧ o.1 < o.2 ∧ o.2 ≤ text.length) ∧
      (openersOf text prefixes cursor).Pairwise fun o o' => o.1 < o'.1 := by
  induction prefixes generalizing cursor with
  | nil => exact ⟨fun o ho => (by cases ho), List.Pairwise.nil⟩
  | cons p prefixes ih =>
      have ih := ih fun q hq => h q (List.mem_cons_of_mem _ hq)
      rw [openersOf]
      split
      · exact ih cursor
      · rename_i hcursor
        split
        · exact ⟨fun o ho => (by cases ho), List.Pairwise.nil⟩
        · rename_i angle hangle
          have hle := h p List.mem_cons_self
          obtain ⟨hge, hlt⟩ := find_ge hangle
          obtain ⟨hbounds, horder⟩ := ih (angle + 1)
          refine ⟨fun o ho => ?_, List.pairwise_cons.mpr ⟨fun o ho => ?_, horder⟩⟩
          · rcases List.mem_cons.mp ho with rfl | ho
            · exact ⟨Nat.not_lt.mp hcursor, by simp only; omega, hlt⟩
            · obtain ⟨hstart, hopener⟩ := hbounds o ho
              exact ⟨by omega, hopener⟩
          · have := (hbounds o ho).1
            simp only
            omega

section Candidates

variable {isWord : Char → Bool} {text : List Char}

theorem candidates_bounds {o : Span} (ho : o ∈ silentControlCandidates isWord text) :
    o.1 < o.2 ∧ o.2 ≤ text.length :=
  ((openersOf_ordered text (fun _ => finditerFrom_le) 0).1 o ho).2

theorem candidates_pairwise :
    (silentControlCandidates isWord text).Pairwise fun o o' => o.1 < o'.1 :=
  (openersOf_ordered text (fun _ => finditerFrom_le) 0).2

end Candidates

/-! ## Pairing -/

/-- The range that starts behind an opener ends with the first closing tag from there on, or with the
text. -/
def EndsAtFirst (closers : List Span) (stop start e : Nat) : Prop :=
  (∃ c ∈ closers, start ≤ c.1 ∧ c.2 = e ∧ ∀ d ∈ closers, start ≤ d.1 → c.1 ≤ d.1) ∨
    e = stop ∧ ∀ d ∈ closers, d.1 < start

section Pairing

variable {stop : Nat} {closers : List Span}

/-- The first of the closers that are left, where the ones before them start too early. -/
theorem dropWhile_cases (hpair : closers.Pairwise fun c d => c.1 ≤ d.1) (n : Nat) :
    (closers.dropWhile (fun c => c.1 < n) = [] ∧ ∀ c ∈ closers, c.1 < n) ∨
      ∃ c rest, closers.dropWhile (fun c => c.1 < n) = c :: rest ∧ c ∈ closers ∧ n ≤ c.1 ∧
        (∀ d ∈ closers, d ∈ c :: rest ∨ d.1 < n) ∧ (∀ d ∈ rest, c.1 ≤ d.1) := by
  induction closers with
  | nil => exact .inl ⟨rfl, fun c hc => (by cases hc)⟩
  | cons c closers ih =>
      obtain ⟨hfirst, hrest⟩ := List.pairwise_cons.mp hpair
      rcases Nat.lt_or_ge c.1 n with hlt | hge
      · rw [List.dropWhile_cons_of_pos (by simpa using hlt)]
        rcases ih hrest with ⟨hnil, hall⟩ | ⟨d, rest, heq, hd, hn, hsplit, hle⟩
        · refine .inl ⟨hnil, fun d hd => ?_⟩
          rcases List.mem_cons.mp hd with rfl | hd
          · exact hlt
          · exact hall d hd
        · refine .inr ⟨d, rest, heq, List.mem_cons_of_mem _ hd, hn, fun e he => ?_, hle⟩
          rcases List.mem_cons.mp he with rfl | he
          · exact .inr hlt
          · exact hsplit e he
      · rw [List.dropWhile_cons_of_neg (by simpa using hge)]
        exact .inr ⟨c, closers, rfl, List.mem_cons_self, hge, fun d hd => .inl hd, hfirst⟩

/-- What the pairing of the openers that are left makes, when the closers that are gone start before
the end of what is covered. -/
theorem pairOpeners_spec (hclosers : ∀ c ∈ closers, c.1 ≤ c.2 ∧ c.2 ≤ stop) {openers : List Span}
    (hopeners : ∀ o ∈ openers, o.1 < o.2 ∧ o.2 ≤ stop)
    (horder : openers.Pairwise fun o o' => o.1 ≤ o'.1) {left : List Span} {covered : Nat}
    (hleft : left.Pairwise fun c d => c.1 ≤ d.1) (hsub : ∀ c ∈ left, c ∈ closers)
    (hgone : ∀ c ∈ closers, c ∈ left ∨ c.1 ≤ covered) :
    (∀ r ∈ pairOpeners stop openers left covered, covered ≤ r.1 ∧ r.2 ≤ stop ∧
        ∃ o ∈ openers, o.1 = r.1 ∧ EndsAtFirst closers stop o.2 r.2) ∧
      Ordered (pairOpeners stop openers left covered) ∧
      ∀ o ∈ openers, o.1 < covered ∨ Inside (pairOpeners stop openers left covered) o.1 := by
  induction openers generalizing left covered with
  | nil => exact ⟨fun r hr => (by cases hr), ordered_nil, fun o ho => (by cases ho)⟩
  | cons o openers ih =>
      have ih := ih fun o' ho' => hopeners o' (List.mem_cons_of_mem _ ho')
      obtain ⟨hfirst, horder⟩ := List.pairwise_cons.mp horder
      obtain ⟨ho, hstop⟩ := hopeners o List.mem_cons_self
      rw [pairOpeners]
      split
      · rename_i hcovered
        obtain ⟨hranges, hordered, hinside⟩ := ih horder hleft hsub hgone
        refine ⟨fun r hr => ?_, hordered, fun o' ho' => ?_⟩
        · obtain ⟨hge, hle, o', ho', hends⟩ := hranges r hr
          exact ⟨hge, hle, o', List.mem_cons_of_mem _ ho', hends⟩
        · rcases List.mem_cons.mp ho' with rfl | ho'
          · exact .inl hcovered
          · exact hinside o' ho'
      · rename_i hcovered
        have hcovered := Nat.not_lt.mp hcovered
        rcases dropWhile_cases hleft o.2 with ⟨hnil, hall⟩ | ⟨c, rest, heq, hc, hge, hsplit, hle⟩
        · -- No closing tag is left, so the range takes the rest of the text.
          rw [hnil]
          refine ⟨fun r hr => ?_, ⟨fun r hr => ?_, List.pairwise_singleton _ _⟩, fun o' ho' => ?_⟩
          · rw [List.mem_singleton.mp hr]
            refine ⟨hcovered, Nat.le_refl _, o, List.mem_cons_self, rfl, .inr ⟨rfl, fun d hd => ?_⟩⟩
            rcases hgone d hd with hmem | hlt
            · exact hall d hmem
            · omega
          · rw [List.mem_singleton.mp hr]
            exact ho.le.trans hstop
          · refine .inr ⟨(o.1, stop), List.mem_singleton_self _, ?_⟩
            rcases List.mem_cons.mp ho' with rfl | ho''
            · exact ⟨Nat.le_refl _, ho.trans_le hstop⟩
            · obtain ⟨hlt, hend⟩ := hopeners o' ho'
              exact ⟨hfirst o' ho'', hlt.trans_le hend⟩
        · rw [heq]
          obtain ⟨hcle, hcstop⟩ := hclosers c (hsub c hc)
          have hrestsub : ∀ d ∈ rest, d ∈ left := fun d hd =>
            (List.dropWhile_sublist _).subset (by rw [heq]; exact List.mem_cons_of_mem _ hd)
          have hrestpair : rest.Pairwise fun c d => c.1 ≤ d.1 :=
            hleft.sublist (((List.sublist_cons_self c rest).trans (by rw [← heq])).trans
              (List.dropWhile_sublist _))
          have hgone' : ∀ d ∈ closers, d ∈ rest ∨ d.1 ≤ c.2 := by
            intro d hd
            rcases hgone d hd with hmem | hlt
            · rcases hsplit d hmem with hmem' | hlt
              · rcases List.mem_cons.mp hmem' with rfl | hmem'
                · exact .inr hcle
                · exact .inl hmem'
              · exact .inr (by omega)
            · exact .inr (by omega)
          obtain ⟨hranges, hordered, hinside⟩ :=
            ih horder hrestpair (fun d hd => hsub d (hrestsub d hd)) hgone'
          refine ⟨fun r hr => ?_, ⟨fun r hr => ?_, ?_⟩, fun o' ho' => ?_⟩
          · rcases List.mem_cons.mp hr with rfl | hr
            · refine ⟨hcovered, hcstop, o, List.mem_cons_self, rfl,
                .inl ⟨c, hsub c hc, hge, rfl, fun d hd hstart => ?_⟩⟩
              rcases hgone d hd with hmem | hlt
              · rcases hsplit d hmem with hmem' | hlt
                · rcases List.mem_cons.mp hmem' with rfl | hmem'
                  · exact Nat.le_refl _
                  · exact hle d hmem'
                · omega
              · omega
            · obtain ⟨hge', hle', o', ho', hends⟩ := hranges r hr
              exact ⟨by omega, hle', o', List.mem_cons_of_mem _ ho', hends⟩
          · rcases List.mem_cons.mp hr with rfl | hr
            · simp only
              omega
            · exact hordered.le r hr
          · exact List.pairwise_cons.mpr ⟨fun r hr => (hranges r hr).1, hordered.apart⟩
          · rcases List.mem_cons.mp ho' with rfl | ho''
            · exact .inr ⟨(o'.1, c.2), List.mem_cons_self, Nat.le_refl _, by simp only; omega⟩
            · rcases hinside o' ho'' with hlt | ⟨r, hr, hin⟩
              · exact .inr ⟨(o.1, c.2), List.mem_cons_self, hfirst o' ho'', hlt⟩
              · exact .inr ⟨r, List.mem_cons_of_mem _ hr, hin⟩

end Pairing

/-- The end of a range: the first closing tag at or after the end of its opener, or the end of the
text. -/
def EndsAtFirstTag (text : List Char) (start e : Nat) : Prop :=
  (∃ c n, start ≤ c ∧ silentClose (text.drop c) = some n ∧ e = c + n ∧
      ∀ d, start ≤ d → d < c → silentClose (text.drop d) = none) ∨
    e = text.length ∧ ∀ d, start ≤ d → silentClose (text.drop d) = none

theorem mem_closing {text : List Char} {r : Span} :
    r ∈ silentClosingCandidates text ↔
      ∃ n, silentClose (text.drop r.1) = some n ∧ r.2 = r.1 + n := by
  refine (mem_finditer silentClose_separate).trans ⟨fun h => h.2, fun ⟨n, hn, hr⟩ => ⟨?_, n, hn, hr⟩⟩
  have hle := silentClose_separate.le _ _ hn
  have hpos := silentClose_separate.pos _ _ hn
  rw [List.length_drop] at hle
  omega

theorem endsAtFirstTag_of {text : List Char} {start e : Nat}
    (h : EndsAtFirst (silentClosingCandidates text) text.length start e) :
    EndsAtFirstTag text start e := by
  have hnone : ∀ d, (∀ n, (d, d + n) ∉ silentClosingCandidates text) →
      silentClose (text.drop d) = none := by
    intro d hd
    cases hclose : silentClose (text.drop d) with
    | none => rfl
    | some n => exact absurd (mem_closing.mpr ⟨n, hclose, rfl⟩) (hd n)
  rcases h with ⟨c, hc, hstart, rfl, hfirst⟩ | ⟨rfl, hall⟩
  · obtain ⟨n, hn, hend⟩ := mem_closing.mp hc
    refine .inl ⟨c.1, n, hstart, hn, hend, fun d hd hlt => hnone d fun n' hmem => ?_⟩
    exact absurd (hfirst _ hmem hd) (Nat.not_le.mpr hlt)
  · refine .inr ⟨rfl, fun d hd => hnone d fun n' hmem => ?_⟩
    exact absurd (hall _ hmem) (Nat.not_lt.mpr hd)

/-- The ranges of openers in order. -/
theorem silentRanges_spec {text : List Char} {openers : List Span}
    (hopeners : ∀ o ∈ openers, o.1 < o.2 ∧ o.2 ≤ text.length)
    (horder : openers.Pairwise fun o o' => o.1 ≤ o'.1) :
    Ordered (silentRangesForOpeners text openers) ∧
      (∀ r ∈ silentRangesForOpeners text openers,
        r.2 ≤ text.length ∧ ∃ o ∈ openers, o.1 = r.1 ∧ EndsAtFirstTag text o.2 r.2) ∧
      ∀ o ∈ openers, Inside (silentRangesForOpeners text openers) o.1 := by
  have hclosers : ∀ c ∈ silentClosingCandidates text, c.1 ≤ c.2 ∧ c.2 ≤ text.length := by
    intro c hc
    obtain ⟨n, hn, hend⟩ := mem_closing.mp hc
    have hle := silentClose_separate.le _ _ hn
    have hpos := silentClose_separate.pos _ _ hn
    rw [List.length_drop] at hle
    omega
  have hpair : (silentClosingCandidates text).Pairwise fun c d => c.1 ≤ d.1 :=
    ((finditer_pairwise silentClose_separate text).imp_of_mem fun hc _ h =>
      (hclosers _ hc).1.trans h)
  have hgone : ∀ c ∈ silentClosingCandidates text, c ∈ silentClosingCandidates text ∨ c.1 ≤ 0 :=
    fun c hc => .inl hc
  obtain ⟨hranges, hordered, hinside⟩ :=
    pairOpeners_spec hclosers hopeners horder hpair (fun c hc => hc) hgone
  refine ⟨hordered, fun r hr => ?_, fun o ho => (hinside o ho).resolve_left (Nat.not_lt_zero _)⟩
  obtain ⟨-, hle, o, ho, hstart, hends⟩ := hranges r hr
  exact ⟨hle, o, ho, hstart, endsAtFirstTag_of hends⟩

/-! ## Which openers are controls -/

theorem sortSpans_pairwise (spans : List Span) :
    (sortSpans spans).Pairwise fun r s => r.1 ≤ s.1 :=
  (SortOn.sortOn_pairwise _ spans).imp fun h => (Prod.Lex.toLex_le_toLex.mp h).elim
    (fun hlt => hlt.le) fun heq => heq.1.le

theorem mem_sortSpans {spans : List Span} {r : Span} : r ∈ sortSpans spans ↔ r ∈ spans :=
  SortOn.mem_sortOn

theorem mem_sortSet {spans : List Span} {r : Span} : r ∈ sortSet spans ↔ r ∈ spans :=
  mem_sortSpans.trans List.mem_dedup

/-- The controls are openers in order, among them every opener that the last parse puts outside
code. -/
structure Decided (candidates : List Span) (s : Reading) : Prop where
  codeRanges_le : ∀ r ∈ s.codeRanges, r.1 ≤ r.2
  subset : ∀ o ∈ s.controls, o ∈ candidates
  pairwise : s.controls.Pairwise fun o o' => o.1 ≤ o'.1
  complete : ∀ o ∈ candidates, ¬ Inside s.codeRanges o.1 → o ∈ s.controls

section Controls

variable {M : Markdown} (hM : ∀ source, ∀ r ∈ (M.codeRanges source).1, r.1 ≤ r.2)
  {text : List Char} {candidates : List Span}

include hM

theorem decided_firstReading (h : candidates.Pairwise fun o o' => o.1 < o'.1) :
    Decided candidates (firstReading M text candidates) where
  codeRanges_le := hM text
  subset _ ho := (partitionByStart_fst_sublist _ _).subset ho
  pairwise := (h.imp fun h => h.le).sublist (partitionByStart_fst_sublist _ _)
  complete _ ho hout := mem_partitionByStart_fst ho hout

/-- A parse that keeps some of the controls and adds what it puts outside code. -/
theorem Decided.reparse {s s' : Reading} (h : Decided candidates s) {kept : List Span}
    {source : List Char} (hkept : ∀ o ∈ kept, o ∈ s.controls)
    (hcode : s'.codeRanges = (M.codeRanges source).1)
    (hcontrols : s'.controls =
      sortSet (kept ++ (partitionByStart candidates (M.codeRanges source).1).1)) :
    Decided candidates s' where
  codeRanges_le := by
    rw [hcode]
    exact hM source
  subset o ho := by
    rw [hcontrols, mem_sortSet] at ho
    rcases List.mem_append.mp ho with ho | ho
    · exact h.subset o (hkept o ho)
    · exact (partitionByStart_fst_sublist _ _).subset ho
  pairwise := by
    rw [hcontrols]
    exact sortSpans_pairwise _
  complete o ho hout := by
    rw [hcontrols, mem_sortSet]
    rw [hcode] at hout
    exact List.mem_append_right _ (mem_partitionByStart_fst ho hout)

theorem Decided.refine {s : Reading} (h : Decided candidates s) :
    Decided candidates (refine M text candidates s) := by
  refine h.reparse hM (fun o ho => ?_) rfl rfl
  rcases List.mem_append.mp (mem_sortSpans.mp ho) with ho | ho
  · exact (partitionByStart_fst_sublist _ _).subset ho
  · exact (partitionByStart_snd_sublist _ _).subset (List.mem_filter.mp ho).1

theorem Decided.refineRounds {s : Reading} (h : Decided candidates s) (rounds : Nat) :
    Decided candidates (refineRounds M text candidates rounds s) := by
  induction rounds generalizing s with
  | zero => exact h
  | succ rounds ih =>
      rw [Replies.refineRounds]
      split
      · exact h
      · exact ih (h.refine hM)

theorem Decided.refineAll {s : Reading} (h : Decided candidates s) :
    Decided candidates (refineAll M text candidates s) := by
  rw [Replies.refineAll]
  dsimp only
  split
  · exact h
  · exact h.reparse hM (fun o ho => ho) rfl rfl

theorem decided_lastReading (h : candidates.Pairwise fun o o' => o.1 < o'.1) :
    Decided candidates (lastReading M text candidates) :=
  ((decided_firstReading hM h).refineRounds hM 2).refineAll hM

end Controls

/-! ## The visible text -/

theorem blanked_refl (c : Char) : Blanked c c := .inl rfl

theorem blanked_blank (c : Char) : Blanked c (blank c) := by
  unfold blank
  split
  · exact .inl rfl
  · rename_i h
    rw [not_or] at h
    exact .inr ⟨rfl, h.2, h.1⟩

theorem eq_or_blank_of_blanked {c m : Char} (h : Blanked c m) : m = c ∨ m = ' ' :=
  h.imp_right And.left

theorem blanked_maskRanges (text : List Char) {spans : List Span} (h : ∀ r ∈ spans, r.1 ≤ r.2) :
    List.Forall₂ Blanked text (maskRanges text spans) :=
  forall₂_overwrite blanked_refl blanked_blank text h

/-- The text is this one without blank lines at its ends and without the line end at its end. -/
def Trimmed (text trimmed : List Char) : Prop :=
  ∃ before kept after, splitlines text = before ++ kept ++ after ∧
    (∀ line ∈ before, isBlank line = true) ∧ (∀ line ∈ after, isBlank line = true) ∧
    (∀ line ∈ kept.head?, isBlank line = false) ∧
    (∀ line ∈ kept.getLast?, isBlank line = false) ∧
    trimmed = stripNewlines kept.flatten

theorem stripNewlines_prefix (text : List Char) : stripNewlines text <+: text := by
  rw [stripNewlines, ← List.reverse_suffix, List.reverse_reverse]
  exact List.dropWhile_suffix _

theorem drop_length_takeWhile {α : Type} (p : α → Bool) (l : List α) :
    l.drop (l.takeWhile p).length = l.dropWhile p := by
  conv_lhs => rw [← List.takeWhile_append_dropWhile (p := p) (l := l)]
  exact List.drop_left' (by rw [List.takeWhile_append_dropWhile])

/-- The lines between the blank ones at both ends. -/
def keptLines (lines : List (List Char)) : List (List Char) :=
  ((lines.dropWhile isBlank).reverse.dropWhile isBlank).reverse

theorem slice_blankLines (lines : List (List Char)) :
    slice (blankLines lines)
        (lines.length - blankLines (lines.drop (blankLines lines)).reverse) lines =
      keptLines lines := by
  have hdrop : lines.drop (blankLines lines) = lines.dropWhile isBlank :=
    drop_length_takeWhile isBlank lines
  rw [slice, List.drop_take, hdrop, keptLines, blankLines, blankLines]
  generalize hrest : lines.dropWhile isBlank = rest
  have hlength : rest.length = lines.length - (lines.takeWhile isBlank).length := by
    rw [← hrest, ← drop_length_takeWhile, List.length_drop]
  rw [← drop_length_takeWhile isBlank rest.reverse, List.drop_reverse, List.reverse_reverse, hlength]
  congr 1
  omega

theorem not_isBlank_head?_dropWhile {lines : List (List Char)} :
    ∀ line ∈ (lines.dropWhile isBlank).head?, isBlank line = false := by
  intro line hline
  have h := List.head?_dropWhile_not isBlank lines
  rw [Option.mem_def.mp hline] at h
  simpa using h

theorem trimmed_trimBlankBoundaryLines (text mask : List Char) :
    Trimmed text (trimBlankBoundaryLinesWithMask text mask).1 := by
  refine ⟨(splitlines text).takeWhile isBlank, keptLines (splitlines text),
    (((splitlines text).dropWhile isBlank).reverse.takeWhile isBlank).reverse, ?_, ?_, ?_, ?_, ?_,
    ?_⟩
  · rw [keptLines, List.append_assoc, ← List.reverse_append, List.takeWhile_append_dropWhile,
      List.reverse_reverse, List.takeWhile_append_dropWhile]
  · exact fun line hline => List.mem_takeWhile_imp hline
  · exact fun line hline => List.mem_takeWhile_imp (List.mem_reverse.mp hline)
  · intro line hline
    have hprefix : keptLines (splitlines text) <+: (splitlines text).dropWhile isBlank := by
      rw [keptLines, ← List.reverse_suffix, List.reverse_reverse]
      exact List.dropWhile_suffix _
    apply not_isBlank_head?_dropWhile
    obtain ⟨rest, hrest⟩ := hprefix
    rw [← hrest, List.head?_append, Option.mem_def.mp hline]
    rfl
  · intro line hline
    rw [keptLines, List.getLast?_reverse] at hline
    exact not_isBlank_head?_dropWhile line hline
  · rw [trimBlankBoundaryLinesWithMask]
    dsimp only
    rw [slice_blankLines]

theorem flatten_slice {start stop : Nat} (h : start ≤ stop) (lines : List (List Char)) :
    (slice start stop lines).flatten =
      slice (offset lines start) (offset lines stop) lines.flatten := by
  have htake : ∀ j, lines.flatten.take (offset lines j) = (lines.take j).flatten := by
    intro j
    conv_lhs => rw [← List.take_append_drop j lines, List.flatten_append]
    rw [offset, List.take_append_drop, List.take_left]
  have hsplit : (lines.take start).flatten ++ (slice start stop lines).flatten =
      (lines.take stop).flatten := by
    rw [← List.flatten_append, slice]
    congr 1
    conv_rhs => rw [← List.take_append_drop start (lines.take stop)]
    rw [List.take_take, Nat.min_eq_left h]
  conv_rhs => rw [slice, htake, ← hsplit, offset, List.drop_left]

/-- The kept lines of the mask begin where those of the text do and reach at least as far. -/
theorem blanked_trimBlankBoundaryLines {text mask : List Char}
    (h : List.Forall₂ Blanked text mask) :
    List.Forall₂ Blanked (trimBlankBoundaryLinesWithMask text mask).1
      (trimBlankBoundaryLinesWithMask text mask).2 := by
  rw [trimBlankBoundaryLinesWithMask]
  dsimp only
  generalize hstart : blankLines (splitlines text) = start
  generalize hstop : (splitlines text).length -
    blankLines ((splitlines text).drop start).reverse = stop
  have hle : start ≤ stop := by
    have hlines : start ≤ (splitlines text).length := by
      rw [← hstart]
      exact (List.takeWhile_prefix isBlank).length_le
    have hblank : blankLines ((splitlines text).drop start).reverse ≤
        ((splitlines text).drop start).reverse.length := (List.takeWhile_prefix isBlank).length_le
    rw [List.length_reverse, List.length_drop] at hblank
    omega
  have hblank : ((splitlines text).take start).all isBlank = true := by
    have htake : (splitlines text).take start = (splitlines text).takeWhile isBlank := by
      rw [← hstart, blankLines]
      exact ((List.prefix_iff_eq_take).mp (List.takeWhile_prefix isBlank)).symm
    rw [htake]
    exact List.all_takeWhile
  rw [flatten_slice hle, flatten_slice hle, flatten_splitlines, flatten_splitlines,
    offset_eq_of_blank h hblank]
  have hreach := offset_le_of_blanked h stop
  generalize offset (splitlines text) start = a
  generalize offset (splitlines text) stop = b at hreach
  generalize offset (splitlines mask) stop = b' at hreach
  have hprefix := stripNewlines_prefix (slice a b text)
  have hlength := hprefix.length_le
  rw [length_slice] at hlength
  conv => arg 2; rw [List.prefix_iff_eq_take.mp hprefix]
  generalize (stripNewlines (slice a b text)).length = n at hlength ⊢
  have hcut : ∀ (l : List Char) (c : Nat), n ≤ c - a → (slice a c l).take n = (l.drop a).take n := by
    intro l c hc
    rw [slice, List.drop_take, List.take_take, Nat.min_eq_left hc]
  rw [hcut text b (by omega), hcut mask b' (by omega)]
  exact List.forall₂_take n (List.forall₂_drop a h)

/-! ## The reply -/

theorem blanked_maskMarkdownCode {M : Markdown}
    (hM : ∀ source, ∀ r ∈ (M.codeRanges source).1, r.1 ≤ r.2) (text : List Char) :
    List.Forall₂ Blanked text (maskMarkdownCode M text) := by
  rw [maskMarkdownCode]
  split
  · exact blanked_maskRanges text (hM text)
  · exact List.forall₂_same.mpr fun c _ => blanked_refl c

/-- A reply is delivered without its silent ranges, and its mask keeps to it. -/
theorem silent_ranges_leave_with_mask (M : Markdown)
    (hM : ∀ source, ∀ r ∈ (M.codeRanges source).1, r.1 ≤ r.2) (text : List Char) :
    let ranges := hiddenBlockRanges M text
    let visible := (stripSilentBlocksWithMask M text).1
    let mask := (stripSilentBlocksWithMask M text).2
    let openers := silentControlCandidates M.isWord text
    (Ordered ranges ∧ ∀ r ∈ ranges, r.2 ≤ text.length) ∧
    (ranges = [] → visible = text) ∧
    (ranges ≠ [] → Trimmed (keepFrom 0 (fun i => !decide (Inside ranges i)) text) visible) ∧
    List.Forall₂ (fun c m => m = c ∨ m = ' ') visible mask ∧
    (∀ r ∈ ranges, ∃ o ∈ openers, o.1 = r.1 ∧ EndsAtFirstTag text o.2 r.2) ∧
    (mentionsSilent text = true → ∀ o ∈ openers,
      ¬ Inside (lastReading M text openers).codeRanges o.1 → Inside ranges o.1) := by
  dsimp only
  cases hmentions : mentionsSilent text with
  | false =>
      have hranges : hiddenBlockRanges M text = [] := if_pos (.inr hmentions)
      have hstrip : ∃ mask, stripSilentBlocksWithMask M text = (text, mask) ∧
          List.Forall₂ Blanked text mask := by
        rw [stripSilentBlocksWithMask, if_pos hmentions]
        split
        · exact ⟨text, rfl, List.forall₂_same.mpr fun c _ => blanked_refl c⟩
        · exact ⟨_, rfl, blanked_maskMarkdownCode hM text⟩
      obtain ⟨mask, hstrip, hmask⟩ := hstrip
      rw [hranges, hstrip]
      refine ⟨⟨ordered_nil, fun r hr => (by cases hr)⟩, fun _ => rfl, fun h => absurd rfl h,
        hmask.imp fun _ _ => eq_or_blank_of_blanked, fun r hr => (by cases hr), fun h => (by cases h)⟩
  | true =>
      have hne : text ≠ [] := fun h => by
        rw [h] at hmentions
        cases hmentions
      generalize hopeners : silentControlCandidates M.isWord text = openers
      have hpair : openers.Pairwise fun o o' => o.1 < o'.1 := hopeners ▸ candidates_pairwise
      have hdecided : Decided openers (lastReading M text openers) := decided_lastReading hM hpair
      have hbounds : ∀ o ∈ (lastReading M text openers).controls, o.1 < o.2 ∧ o.2 ≤ text.length :=
        fun o ho => candidates_bounds (hopeners ▸ hdecided.subset o ho)
      obtain ⟨hordered, hends, hinside⟩ := silentRanges_spec hbounds hdecided.pairwise
      have hmask : List.Forall₂ Blanked text
          (maskRanges text (maskCodeRanges M text (lastReading M text openers))) := by
        apply blanked_maskRanges
        rw [maskCodeRanges]
        split
        · exact hM _
        · exact hdecided.codeRanges_le
      have hranges : hiddenBlockRanges M text =
          silentRangesForOpeners text (lastReading M text openers).controls := by
        rw [hiddenBlockRanges, if_neg (by simp [hne, hmentions]), hopeners]
        rfl
      rw [hranges, stripSilentBlocksWithMask, if_neg hne, if_neg (by simp [hmentions]), hopeners]
      have hread : silentControlRangesAndMask M text openers =
          (silentRangesForOpeners text (lastReading M text openers).controls,
            maskRanges text (maskCodeRanges M text (lastReading M text openers))) := rfl
      dsimp only
      rw [hread]
      generalize silentRangesForOpeners text (lastReading M text openers).controls = ranges at *
      generalize maskRanges text (maskCodeRanges M text (lastReading M text openers)) = mask at *
      refine ⟨⟨hordered, fun r hr => (hends r hr).1⟩, ?_, ?_, ?_, ?_, ?_⟩
      · intro h
        rw [if_pos h]
      · intro h
        rw [if_neg h, ← remove_eq hordered]
        exact trimmed_trimBlankBoundaryLines _ _
      · refine List.Forall₂.imp (fun _ _ => eq_or_blank_of_blanked) ?_
        split
        · exact hmask
        · exact blanked_trimBlankBoundaryLines (forall₂_remove hmask ranges)
      · intro r hr
        obtain ⟨-, o, ho, hstart, hend⟩ := hends r hr
        exact ⟨o, hdecided.subset o ho, hstart, hend⟩
      · exact fun _ o ho hout => hinside o (hdecided.complete o ho hout)

/-- Code between backticks, as inline code of one line is. -/
def codeSpans (i : Nat) (start? : Option Nat) : List Char → List Span
  | [] => []
  | c :: rest =>
      if c ≠ Char.ofNat 0x60 then codeSpans (i + 1) start? rest
      else
        match start? with
        | none => codeSpans (i + 1) (some i) rest
        | some start => (start, i + 1) :: codeSpans (i + 1) none rest

theorem codeSpans_le {i : Nat} {start? : Option Nat} {source : List Char} (h : ∀ s ∈ start?, s ≤ i) :
    ∀ r ∈ codeSpans i start? source, r.1 ≤ r.2 := by
  induction source generalizing i start? with
  | nil => exact fun r hr => (by cases hr)
  | cons c rest ih =>
      have hnext : ∀ s ∈ start?, s ≤ i + 1 := fun s hs => (h s hs).trans (Nat.le_succ i)
      unfold codeSpans
      split
      · exact ih hnext
      · cases start? with
        | none => exact ih (by simp)
        | some start =>
            intro r hr
            rcases List.mem_cons.mp hr with rfl | hr
            · exact hnext start rfl
            · exact ih (by simp) r hr

/-- Markdown without blocks. -/
def inlineMarkdown : Markdown := ⟨Char.isAlphanum, fun source => (codeSpans 0 none source, [])⟩

/-- A reply with an opener in code and one silent block: the code is shown, and blank in the mask. -/
theorem silent_ranges_leave_with_mask_inline :
    (inlineMarkdown.codeRanges "`<silent>` a<silent>b</silent> c".toList).1 = [(0, 10)] ∧
      hiddenBlockRanges inlineMarkdown "`<silent>` a<silent>b</silent> c".toList = [(12, 30)] ∧
      stripSilentBlocksWithMask inlineMarkdown "`<silent>` a<silent>b</silent> c".toList =
        ("`<silent>` a c".toList, "           a c".toList) ∧
      List.Forall₂ (fun c m => m = c ∨ m = ' ')
        (stripSilentBlocksWithMask inlineMarkdown "`<silent>` a<silent>b</silent> c".toList).1
        (stripSilentBlocksWithMask inlineMarkdown "`<silent>` a<silent>b</silent> c".toList).2 := by
  refine ⟨by decide +kernel, by decide +kernel, by decide +kernel, ?_⟩
  exact (silent_ranges_leave_with_mask inlineMarkdown (fun source => codeSpans_le (by simp))
    "`<silent>` a<silent>b</silent> c".toList).2.2.2.1

/-- A reply that loses no range keeps the blank lines at its ends. -/
theorem reply_without_controls_is_not_trimmed :
    let M : Markdown := ⟨Char.isAlphanum, fun _ => ([], [])⟩
    (stripSilentBlocksWithMask M "\na".toList).1 = "\na".toList ∧
      hiddenBlockRanges M "\na".toList = [] ∧ ¬ Trimmed "\na".toList "\na".toList := by
  refine ⟨by decide +kernel, by decide +kernel, ?_⟩
  rintro ⟨before, kept, after, hlines, -, -, hhead, -, heq⟩
  have hsplit : splitlines "\na".toList = [['\n'], ['a']] := by decide
  rw [hsplit, List.append_assoc] at hlines
  rcases before with _ | ⟨line, before⟩
  · rcases kept with _ | ⟨line, kept⟩
    · exact absurd heq (by decide)
    · rw [List.nil_append, List.cons_append, List.cons.injEq] at hlines
      exact absurd (hhead line rfl) (by rw [← hlines.1]; decide)
  · -- The line feed would have to be in the line after it.
    have hmem : '\n' ∈ kept.flatten := by
      have hprefix := stripNewlines_prefix kept.flatten
      rw [← heq] at hprefix
      exact hprefix.subset List.mem_cons_self
    obtain ⟨kline, hkline, hmem⟩ := List.mem_flatten.mp hmem
    rw [List.cons_append, List.cons.injEq] at hlines
    have hin : kline ∈ [['a']] := by
      rw [hlines.2]
      exact List.mem_append_right _ (List.mem_append_left _ hkline)
    rw [List.mem_singleton.mp hin] at hmem
    exact absurd hmem (by decide)

end Avibe.Replies
