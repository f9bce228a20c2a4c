import Avibe.Pricing.Costs

/-!
# Merging the usage reports of one turn

`ProtocolUsageReport.merge` takes the larger of each count and clamps the parts again. The
input, the cached input and the output of a fold are the largest of its reports, whatever the
order, the grouping and the repetitions. The cache writes are so too as long as the parts of
different reports fit together; where they do not, a merge drops writes that a later report
would have left room for.
-/

namespace Avibe.Pricing

namespace Report

/-- `ProtocolUsageReport.merge` -/
def merge (a b : Report) : Report :=
  Report.of (max a.inputTokens b.inputTokens : Nat) (max a.cachedInputTokens b.cachedInputTokens : Nat)
    (max a.outputTokens b.outputTokens : Nat)
    (max a.cacheWriteInputTokens b.cacheWriteInputTokens : Nat)
    (max a.cacheWrite1hInputTokens b.cacheWrite1hInputTokens : Nat)
    (max a.cacheWrite30mInputTokens b.cacheWrite30mInputTokens : Nat)
    (max a.cacheWrite12hInputTokens b.cacheWrite12hInputTokens : Nat)
    (max a.cacheWriteTtlUncapturedReports b.cacheWriteTtlUncapturedReports : Nat)

section Merge

variable (a b : Report)

@[simp] theorem merge_inputTokens :
    (merge a b).inputTokens = max a.inputTokens b.inputTokens := Int.toNat_natCast _

@[simp] theorem merge_outputTokens :
    (merge a b).outputTokens = max a.outputTokens b.outputTokens := Int.toNat_natCast _

@[simp] theorem merge_cachedInputTokens :
    (merge a b).cachedInputTokens = max a.cachedInputTokens b.cachedInputTokens := by
  have ha := a.cache_le
  have hb := b.cache_le
  unfold merge Report.of
  dsimp only
  rw [Int.toNat_natCast, Int.toNat_natCast]
  omega

theorem merge_comm : merge a b = merge b a := by
  unfold merge
  rw [Nat.max_comm a.inputTokens, Nat.max_comm a.cachedInputTokens, Nat.max_comm a.outputTokens,
    Nat.max_comm a.cacheWriteInputTokens, Nat.max_comm a.cacheWrite1hInputTokens,
    Nat.max_comm a.cacheWrite30mInputTokens, Nat.max_comm a.cacheWrite12hInputTokens,
    Nat.max_comm a.cacheWriteTtlUncapturedReports]

/-- Counts whose parts fit are kept as they are. -/
theorem of_fitting {input cached output write write1h write30m write12h ttl : Nat}
    (hcache : cached + write ≤ input) (hlifetimes : write1h + write30m + write12h ≤ write) :
    Report.of input cached output write write1h write30m write12h ttl =
      ⟨input, cached, output, write, write1h, write30m, write12h, ttl, hcache, hlifetimes⟩ := by
  have hvalid : ([(write : Int), write1h, write30m, write12h].any (· < 0) ||
      decide (max 0 ((input : Int) - max 0 (cached : Int)) < write) ||
      decide ((write : Int) < write1h + write30m + write12h)) = false := by
    have hcache' : ¬ max 0 ((input : Int) - max 0 (cached : Int)) < write := by omega
    have hlifetimes' : ¬ (write : Int) < write1h + write30m + write12h := by omega
    rw [decide_eq_false hcache', decide_eq_false hlifetimes']
    simp
  unfold Report.of
  dsimp only
  rw [hvalid]
  simp only [Int.toNat_natCast, Bool.toNat_false, Report.mk.injEq]
  refine ⟨trivial, ?_, trivial, ?_, ?_, ?_, ?_, ?_⟩ <;> omega

theorem merge_self : merge a a = a := by
  unfold merge
  simp only [Nat.max_self]
  exact of_fitting a.cache_le a.lifetimes_le

end Merge

/-! ## Folds -/

/-- A report that merges make of these reports, in their order and in some grouping. -/
inductive Folds : List Report → Report → Prop where
  | one (r : Report) : Folds [r] r
  | merge {l l' : List Report} {a b : Report} :
      Folds l a → Folds l' b → Folds (l ++ l') (merge a b)

/-- The largest count of the reports. -/
def top (f : Report → Nat) (l : List Report) : Nat := l.foldr (fun r m => max (f r) m) 0

section Top

variable {f : Report → Nat} {l l' : List Report}

@[simp] theorem top_cons (r : Report) : top f (r :: l) = max (f r) (top f l) := rfl

@[simp] theorem top_singleton (r : Report) : top f [r] = f r := Nat.max_zero _

@[simp] theorem top_append : top f (l ++ l') = max (top f l) (top f l') := by
  induction l with
  | nil => exact (Nat.zero_max _).symm
  | cons r l ih => rw [List.cons_append, top_cons, top_cons, ih, Nat.max_assoc]

theorem le_top {r : Report} (h : r ∈ l) : f r ≤ top f l := by
  induction l with
  | nil => cases h
  | cons s l ih =>
      rw [top_cons]
      rcases List.mem_cons.mp h with rfl | h
      · exact Nat.le_max_left _ _
      · exact (ih h).trans (Nat.le_max_right _ _)

theorem exists_top (h : l ≠ []) : ∃ r ∈ l, f r = top f l := by
  induction l with
  | nil => exact absurd rfl h
  | cons s l ih =>
      rw [top_cons]
      rcases Nat.le_total (f s) (top f l) with hle | hle
      · by_cases hnil : l = []
        · subst hnil
          exact ⟨s, List.mem_cons_self, (Nat.max_eq_left (Nat.zero_le _)).symm⟩
        · obtain ⟨r, hr, heq⟩ := ih hnil
          exact ⟨r, List.mem_cons_of_mem s hr, by rw [heq, Nat.max_eq_right hle]⟩
      · exact ⟨s, List.mem_cons_self, (Nat.max_eq_left hle).symm⟩

theorem top_le_of_subset (h : ∀ r ∈ l, r ∈ l') : top f l ≤ top f l' := by
  by_cases hnil : l = []
  · rw [hnil]
    exact Nat.zero_le _
  · obtain ⟨r, hr, heq⟩ := exists_top (f := f) hnil
    rw [← heq]
    exact le_top (h r hr)

theorem top_congr (h : ∀ r, r ∈ l ↔ r ∈ l') : top f l = top f l' :=
  Nat.le_antisymm (top_le_of_subset fun r hr => (h r).mp hr)
    (top_le_of_subset fun r hr => (h r).mpr hr)

end Top

section Folds

variable {l l' : List Report} {a b : Report}

theorem Folds.ne_nil (h : Folds l a) : l ≠ [] := by
  induction h with
  | one r => simp
  | merge h h' ih ih' => simp [ih]

/-- The input, the cached input and the output are the largest ones. -/
theorem Folds.tokens (h : Folds l a) : a.inputTokens = top inputTokens l ∧
    a.cachedInputTokens = top cachedInputTokens l ∧ a.outputTokens = top outputTokens l := by
  induction h with
  | one r => exact ⟨(top_singleton r).symm, (top_singleton r).symm, (top_singleton r).symm⟩
  | merge h h' ih ih' =>
      obtain ⟨hi, hc, ho⟩ := ih
      obtain ⟨hi', hc', ho'⟩ := ih'
      simp [hi, hc, ho, hi', hc', ho']

/-- The parts of different reports fit together. -/
structure Fits (l : List Report) : Prop where
  cache : ∀ r ∈ l, ∀ s ∈ l,
    r.cacheWriteInputTokens + s.cachedInputTokens ≤ max r.inputTokens s.inputTokens
  lifetimes : ∀ r ∈ l, ∀ s ∈ l, ∀ u ∈ l,
    r.cacheWrite1hInputTokens + s.cacheWrite30mInputTokens + u.cacheWrite12hInputTokens ≤
      max r.cacheWriteInputTokens (max s.cacheWriteInputTokens u.cacheWriteInputTokens)

theorem Fits.subset (h : Fits l) (hsub : ∀ r ∈ l', r ∈ l) : Fits l' :=
  ⟨fun r hr s hs => h.cache r (hsub r hr) s (hsub s hs),
    fun r hr s hs u hu => h.lifetimes r (hsub r hr) s (hsub s hs) u (hsub u hu)⟩

/-- The largest counts fit together too. -/
theorem Fits.top (h : Fits l) (hne : l ≠ []) :
    top cachedInputTokens l + top cacheWriteInputTokens l ≤ top inputTokens l ∧
      top cacheWrite1hInputTokens l + top cacheWrite30mInputTokens l + top cacheWrite12hInputTokens l ≤
        top cacheWriteInputTokens l := by
  obtain ⟨w, hw, hwrite⟩ := exists_top (f := cacheWriteInputTokens) hne
  obtain ⟨c, hc, hcached⟩ := exists_top (f := cachedInputTokens) hne
  obtain ⟨x, hx, hone⟩ := exists_top (f := cacheWrite1hInputTokens) hne
  obtain ⟨y, hy, hhalf⟩ := exists_top (f := cacheWrite30mInputTokens) hne
  obtain ⟨z, hz, htwelve⟩ := exists_top (f := cacheWrite12hInputTokens) hne
  constructor
  · have hsum := h.cache w hw c hc
    have hwi := le_top (f := inputTokens) hw
    have hci := le_top (f := inputTokens) hc
    omega
  · have hsum := h.lifetimes x hx y hy z hz
    have hxw := le_top (f := cacheWriteInputTokens) hx
    have hyw := le_top (f := cacheWriteInputTokens) hy
    have hzw := le_top (f := cacheWriteInputTokens) hz
    omega

/-- The report of the largest counts. -/
def ofTop (l : List Report) : Report :=
  Report.of (top inputTokens l) (top cachedInputTokens l) (top outputTokens l)
    (top cacheWriteInputTokens l) (top cacheWrite1hInputTokens l) (top cacheWrite30mInputTokens l)
    (top cacheWrite12hInputTokens l) (top cacheWriteTtlUncapturedReports l)

/-- Reports that fit together fold to their largest counts. -/
theorem Folds.eq_ofTop (h : Folds l a) (hfits : Fits l) : a = ofTop l := by
  induction h with
  | one r =>
      unfold ofTop
      simp only [top_singleton]
      exact (of_fitting r.cache_le r.lifetimes_le).symm
  | merge h h' ih ih' =>
      rename_i l l' a b
      have hl := hfits.subset fun r hr => List.mem_append_left l' hr
      have hl' := hfits.subset fun r hr => List.mem_append_right l hr
      have hle := hl.top h.ne_nil
      have hle' := hl'.top h'.ne_nil
      rw [ih hl, ih' hl']
      unfold ofTop Report.merge
      rw [of_fitting hle.1 hle.2, of_fitting hle'.1 hle'.2]
      simp only [top_append]

/-- The parts of a report are within the whole. -/
def Within (r : Report) : Prop :=
  r.cachedInputTokens ≤ r.inputTokens ∧
    r.cacheWriteInputTokens ≤ r.inputTokens - r.cachedInputTokens ∧
    r.cacheWrite1hInputTokens + r.cacheWrite30mInputTokens + r.cacheWrite12hInputTokens ≤
      r.cacheWriteInputTokens

theorem within (r : Report) : Within r := by
  have hcache := r.cache_le
  have hlifetimes := r.lifetimes_le
  unfold Within
  omega

/-- Reports keep their parts within the whole; merging is commutative and idempotent, lowers no
count of input, cached input and output, and a fold depends only on which reports there are: in these
counts always, and in all where the reports fit together. -/
theorem merge_laws :
    (∀ input cached output write write1h write30m write12h ttl : Int,
      Within (Report.of input cached output write write1h write30m write12h ttl)) ∧
    (∀ a b, Within (Report.merge a b)) ∧
    (∀ a b, Report.merge a b = Report.merge b a) ∧ (∀ a, Report.merge a a = a) ∧
    (∀ a b, a.inputTokens ≤ (Report.merge a b).inputTokens ∧
      a.cachedInputTokens ≤ (Report.merge a b).cachedInputTokens ∧
      a.outputTokens ≤ (Report.merge a b).outputTokens) ∧
    ∀ l l' a b, Folds l a → Folds l' b → (∀ r, r ∈ l ↔ r ∈ l') →
      (a.inputTokens = b.inputTokens ∧ a.cachedInputTokens = b.cachedInputTokens ∧
        a.outputTokens = b.outputTokens) ∧ (Fits l → a = b) := by
  refine ⟨fun _ _ _ _ _ _ _ _ => within _, fun a b => within _, merge_comm, merge_self, fun a b => ?_,
    fun l l' a b ha hb hsame => ⟨?_, fun hfits => ?_⟩⟩
  · simp
  · obtain ⟨hi, hc, ho⟩ := ha.tokens
    obtain ⟨hi', hc', ho'⟩ := hb.tokens
    rw [hi, hc, ho, hi', hc', ho']
    exact ⟨top_congr hsame, top_congr hsame, top_congr hsame⟩
  · have hfits' := hfits.subset fun r hr => (hsame r).mpr hr
    rw [ha.eq_ofTop hfits, hb.eq_ofTop hfits']
    unfold ofTop
    simp only [top_congr hsame]

/-- Growing reports of one turn, in two orders and groupings, the last one twice. -/
theorem merge_laws_fits :
    let a := Report.of 10 2 1 4 1 2 0 0
    let b := Report.of 20 5 3 9 3 2 4 1
    let c := Report.of 24 6 5 12 4 3 5 0
    Fits [a, b, c] ∧
      Report.merge (Report.merge a b) c = Report.merge c (Report.merge (Report.merge b c) a) ∧
      Report.merge (Report.merge a b) c = ⟨24, 6, 5, 12, 4, 3, 5, 1, by decide, by decide⟩ := by
  have hfits : Fits [Report.of 10 2 1 4 1 2 0 0, Report.of 20 5 3 9 3 2 4 1,
      Report.of 24 6 5 12 4 3 5 0] := by
    constructor <;> decide
  refine ⟨hfits, ?_, by decide⟩
  refine (merge_laws.2.2.2.2.2 _ _ _ _ (.merge (.merge (.one _) (.one _)) (.one _))
    (.merge (.one _) (.merge (.merge (.one _) (.one _)) (.one _))) fun r => ?_).2 hfits
  simp only [List.cons_append, List.nil_append, List.mem_cons, List.not_mem_nil]
  tauto

/-- Three reports whose writes survive or not with the grouping. -/
theorem merge_grouping_matters :
    let a := Report.of 10 0 0 10 0 0 0 0
    let b := Report.of 10 10 0 0 0 0 0 0
    let c := Report.of 20 0 0 0 0 0 0 0
    Folds [a, b, c] (Report.merge (Report.merge a b) c) ∧
      Folds [a, b, c] (Report.merge a (Report.merge b c)) ∧
      (Report.merge (Report.merge a b) c).cacheWriteInputTokens = 0 ∧
      (Report.merge a (Report.merge b c)).cacheWriteInputTokens = 10 := by
  refine ⟨?_, ?_, by decide, by decide⟩
  · exact .merge (.merge (.one _) (.one _)) (.one _)
  · exact .merge (.one _) (.merge (.one _) (.one _))

end Folds

end Report

end Avibe.Pricing
