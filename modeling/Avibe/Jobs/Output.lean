import Avibe.Jobs.BoundedLog
import Mathlib.Data.List.Infix

/-!
# Reading a bounded log

`Kept` relates the two files and the writer's memory to the stream. A read of
`output.log` or of a `tail.log` is then a slice of the stream. The gap a read
reports is right unless `output.log` was extended between the size check and
the opening of `tail.log`; the read then jumps over bytes that are on disk.
-/

namespace Avibe.Jobs

open Machine

section Caps

variable (C : Caps)

/-- The writer's memory and the files hold parts of the stream. -/
structure Kept (s : LogState) : Prop where
  total : s.log.total = s.written.length
  fresh : s.files.output = none → s.written = []
  output : ∀ out, s.files.output = some out → out = s.written.take C.headCap
  tail_le : s.log.tail.length ≤ s.written.length - C.headCap
  tail : s.log.tail <:+ s.written
  past : s.log.dirty = true → C.headCap ≤ s.written.length
  file : ∀ tailStart bytes, s.files.tail = some (tailStart, bytes) →
    C.headCap ≤ tailStart ∧ tailStart + bytes.length ≤ s.written.length ∧
      bytes <+: s.written.drop tailStart
  clean : s.log.dirty = false → C.headCap < s.written.length →
    ∃ tailStart bytes, s.files.tail = some (tailStart, bytes) ∧
      tailStart + bytes.length = s.written.length
  finished : s.finished = true → s.log.dirty = false

theorem kept_init : Kept C LogState.init := by
  constructor <;> simp [LogState.init]

/-! ## The writer -/

theorem lastBytes_suffix (n : Nat) (l : Bytes) : lastBytes n l <:+ l := by
  unfold lastBytes
  split
  · exact List.suffix_rfl
  · exact List.drop_suffix _ _

theorem trimTail_suffix (l : Bytes) : trimTail C l <:+ l := by
  unfold trimTail
  split
  · exact List.drop_suffix _ _
  · exact List.suffix_rfl

theorem headPart_take {log : BoundedLog} {written : Bytes} (data : Bytes)
    (ht : log.total = written.length) :
    written.take C.headCap ++ headPart C log data = (written ++ data).take C.headCap := by
  unfold headPart
  rw [List.take_append]
  split
  · rw [ht]
  · have : C.headCap - written.length = 0 := by omega
    simp [this]

/-- A write that stays in the head, or one that goes past it. -/
theorem write_cases (log : BoundedLog) (data : Bytes) :
    (log.write C data = { log with total := log.total + data.length } ∧
      (data = [] ∨ log.total + data.length ≤ C.headCap)) ∨
    ∃ rest, rest <:+ data ∧ (log.total < C.headCap ∨ rest = data) ∧
      C.headCap + rest.length ≤ log.total + data.length ∧
      log.write C data = ⟨log.total + data.length, trimTail C (log.tail ++ rest), true⟩ := by
  unfold BoundedLog.write headPart
  by_cases hlt : log.total < C.headCap
  · simp only [hlt, if_true]
    by_cases hrest : data.drop (data.take (C.headCap - log.total)).length = []
    · left
      have hle : data.length ≤ C.headCap - log.total := by
        simp only [List.length_take, List.drop_eq_nil_iff] at hrest
        omega
      rw [List.take_of_length_le hle]
      exact ⟨by simp, .inr (by omega)⟩
    · right
      have hgt : C.headCap - log.total < data.length := by
        simp only [List.length_take, List.drop_eq_nil_iff] at hrest
        omega
      refine ⟨data.drop (data.take (C.headCap - log.total)).length, List.drop_suffix _ _,
        .inl trivial, ?_, ?_⟩
      · simp only [List.length_drop, List.length_take]
        omega
      · rw [if_neg hrest, BoundedLog.mk.injEq]
        simp only [List.length_drop, List.length_take, and_true]
        omega
  · simp only [hlt, if_false, List.length_nil, List.drop_zero, Nat.add_zero, false_or]
    by_cases hdata : data = []
    · left
      simp [hdata]
    · right
      refine ⟨data, List.suffix_rfl, rfl, by omega, by simp [hdata]⟩

theorem suffix_append {tail written rest data : Bytes} (ht : tail <:+ written)
    (hr : rest <:+ data) (h : tail = [] ∨ rest = data) :
    tail ++ rest <:+ written ++ data := by
  rcases h with rfl | rfl
  · exact hr.trans (List.suffix_append _ _)
  · obtain ⟨t, rfl⟩ := ht
    exact ⟨t, by simp⟩

theorem kept_write {s s' : LogState} {data : Bytes} (hk : Kept C s)
    (h : logStep C s (.write data) = some s') : Kept C s' := by
  simp only [logStep] at h
  split at h
  · rename_i out hout hfin
    obtain rfl := Option.some.inj h
    have htot := hk.total
    have htail := hk.tail_le
    have hlen : (s.written ++ data).length = s.written.length + data.length := by simp
    have hfile : ∀ tailStart bytes, s.files.tail = some (tailStart, bytes) →
        C.headCap ≤ tailStart ∧ tailStart + bytes.length ≤ (s.written ++ data).length ∧
          bytes <+: (s.written ++ data).drop tailStart := by
      intro tailStart bytes hf
      obtain ⟨h₁, h₂, h₃⟩ := hk.file tailStart bytes hf
      refine ⟨h₁, by omega, ?_⟩
      rw [List.drop_append_of_le_length (by omega)]
      exact h₃.trans (List.prefix_append _ _)
    have hout' : ∀ out', some (out ++ headPart C s.log data) = some out' →
        out' = (s.written ++ data).take C.headCap := by
      rintro out' ⟨⟩
      rw [hk.output out hout]
      exact headPart_take C data htot
    rcases write_cases C s.log data with ⟨hw, hor⟩ | ⟨rest, hsuf, hor, hle, hw⟩
    · have hnil : s.log.tail = [] ∨ data = [] := by
        rcases hor with rfl | hor
        · exact .inr rfl
        · by_cases hd : data.length = 0
          · exact .inr (List.eq_nil_of_length_eq_zero hd)
          · exact .inl (List.eq_nil_of_length_eq_zero (by omega))
      refine ⟨?_, by simp, hout', ?_, ?_, ?_, hfile, ?_, by simp [hfin]⟩
      · simp only [hw]
        omega
      · simp only [hw]
        omega
      · simp only [hw]
        rcases hnil with hz | rfl
        · rw [hz]
          exact List.nil_suffix
        · simpa using hk.tail
      · intro hd
        simp only [hw] at hd
        have := hk.past hd
        simp only
        omega
      · intro hd hlt
        simp only [hw] at hd
        rcases hor with rfl | hor
        · simpa using hk.clean hd (by simpa using hlt)
        · simp only at hlt
          omega
    · have hnil : s.log.tail = [] ∨ rest = data := by
        rcases hor with hor | hor
        · exact .inl (List.eq_nil_of_length_eq_zero (by omega))
        · exact .inr hor
      have htrim := trimTail_suffix C (s.log.tail ++ rest)
      have hsmall : (s.log.tail ++ rest).length ≤ (s.written ++ data).length - C.headCap := by
        rw [List.length_append]
        rcases hnil with hz | rfl
        · rw [hz]
          simp only [List.length_nil]
          omega
        · have : s.log.tail.length = 0 ∨ C.headCap ≤ s.log.total := by omega
          omega
      refine ⟨?_, by simp, hout', ?_, ?_, ?_, hfile, by simp [hw], by simp [hfin]⟩
      · simp only [hw]
        omega
      · simp only [hw]
        exact Nat.le_trans htrim.length_le hsmall
      · simp only [hw]
        exact htrim.trans (suffix_append hk.tail hsuf hnil)
      · intro _
        simp only
        omega
  · simp at h

theorem kept_publish {s : LogState} (hk : Kept C s) :
    Kept C (publish C s) ∧ (publish C s).log.dirty = false := by
  unfold publish
  split
  · rename_i hd
    have hle := (lastBytes_suffix C.tailCap s.log.tail).length_le
    have hsuf := List.suffix_iff_eq_drop.mp
      ((lastBytes_suffix C.tailCap s.log.tail).trans hk.tail)
    have htail := hk.tail_le
    have htot := hk.total
    have hpast := hk.past hd
    refine ⟨⟨hk.total, hk.fresh, hk.output, hk.tail_le, hk.tail, by simp, ?_, ?_,
      fun _ => rfl⟩, rfl⟩
    · rintro tailStart bytes h
      simp only [BoundedLog.kept, Option.some.injEq, Prod.mk.injEq] at h
      obtain ⟨rfl, rfl⟩ := h
      refine ⟨by omega, ?_, ?_⟩
      · simp only
        omega
      · rw [htot, ← hsuf]
    · intro _ _
      refine ⟨_, _, rfl, ?_⟩
      simp only
      omega
  · rename_i hd
    exact ⟨hk, by simpa using hd⟩

/-- The reads do not touch what the writer keeps. -/
theorem Kept.of_eq {s s' : LogState} (hk : Kept C s) (hw : s'.written = s.written)
    (hf : s'.files = s.files) (hl : s'.log = s.log) (hfin : s'.finished = s.finished) :
    Kept C s' := by
  cases s
  cases s'
  simp only at hw hf hl hfin
  subst hw hf hl hfin
  exact ⟨hk.total, hk.fresh, hk.output, hk.tail_le, hk.tail, hk.past, hk.file, hk.clean,
    hk.finished⟩

theorem logStep_kept {s s' : LogState} {a : LogAction} (hk : Kept C s)
    (h : logStep C s a = some s') : Kept C s' := by
  cases a with
  | create =>
      simp only [logStep] at h
      split at h
      · rename_i hnone
        obtain rfl := Option.some.inj h
        have hw := hk.fresh hnone
        refine ⟨hk.total, by simp, ?_, hk.tail_le, hk.tail, hk.past, hk.file, hk.clean,
          hk.finished⟩
        rintro out ⟨⟩
        simp [hw]
      · simp at h
  | write data => exact kept_write C hk h
  | snapshot =>
      simp only [logStep] at h
      split at h
      · simp at h
      · obtain rfl := Option.some.inj h
        exact (kept_publish C hk).1
  | finish =>
      simp only [logStep] at h
      split at h
      · simp at h
      · obtain rfl := Option.some.inj h
        obtain ⟨hk', hd⟩ := kept_publish C hk
        exact ⟨hk'.total, hk'.fresh, hk'.output, hk'.tail_le, hk'.tail, hk'.past, hk'.file,
          hk'.clean, fun _ => hd⟩
  | checkSize i since =>
      simp only [logStep] at h
      split at h
      · split at h <;> obtain rfl := Option.some.inj h <;> exact hk.of_eq C rfl rfl rfl rfl
      · simp at h
  | readHead i =>
      simp only [logStep] at h
      split at h
      · split at h
        · obtain rfl := Option.some.inj h
          exact hk.of_eq C rfl rfl rfl rfl
        · simp at h
      · simp at h
  | readTail i =>
      simp only [logStep] at h
      split at h
      · split at h
        · simp at h
        · obtain rfl := Option.some.inj h
          exact hk.of_eq C rfl rfl rfl rfl
      · simp at h

/-! ## The readers -/

/-- Where the reads stand. -/
structure ReadsAt (s : LogState) : Prop where
  checked : ∀ i since seen, s.reads i = .checked since seen →
    since ≤ s.written.length ∧ (seen < C.headCap → since ≤ seen) ∧
      ∃ out, s.files.output = some out ∧ seen ≤ out.length
  results : ∀ r ∈ s.results, r.offset ≤ s.written.length

theorem readsAt_init : ReadsAt C LogState.init := by
  constructor <;> simp [LogState.init]

/-- A slice of the stream at `start`. -/
theorem readOk_iff {r : Reading} (start : Nat) (hoff : start + r.data.length = r.offset)
    (hle : start ≤ r.written.length) (hdata : r.data <+: r.written.drop start)
    (hsince : r.since ≤ start) :
    ReadOk r ↔ ∀ k, r.since ≤ k → k < start → ¬ OnDisk r.files k := by
  constructor
  · rintro ⟨start', hoff', -, -, -, hgap⟩ k hk hlt
    exact hgap k hk (by omega)
  · intro hgap
    have hlen := hdata.length_le
    rw [List.length_drop] at hlen
    exact ⟨start, hoff, by omega, List.prefix_iff_eq_take.mp hdata, hsince, hgap⟩

theorem readHead_ok {s : LogState} {since seen : Nat} {out : Bytes} (hk : Kept C s)
    (hout : s.files.output = some out) (hs : since < seen) (hseen : seen ≤ out.length) :
    ReadOk ⟨since, (readHead C out since seen).1, (readHead C out since seen).2, s.files,
      s.written⟩ ∧ (readHead C out since seen).2 ≤ s.written.length := by
  have ho := hk.output out hout
  have hlen : out.length ≤ s.written.length := by
    rw [ho, List.length_take]
    omega
  have hdata : (readHead C out since seen).1 <+: s.written.drop since := by
    have h₁ : out.drop since <+: s.written.drop since := by
      rw [ho, List.drop_take]
      exact List.take_prefix _ _
    exact (List.take_prefix _ _).trans h₁
  have hle := hdata.length_le
  rw [List.length_drop] at hle
  refine ⟨(readOk_iff since rfl (by simp only; omega) hdata (Nat.le_refl _)).mpr
    fun k hk hlt => ?_, ?_⟩
  · simp only at hk
    omega
  · simp only [readHead] at hle ⊢
    omega

/-- A read of `tail.log` is right exactly when it is undisturbed. -/
theorem readTail_ok {s : LogState} {i since seen : Nat} (hk : Kept C s)
    (hr : ReadsAt C s) (hread : s.reads i = .checked since seen) (hs : ¬ since < seen) :
    (ReadOk ⟨since, (readTail C s.files.tail since).1, (readTail C s.files.tail since).2,
      s.files, s.written⟩ ↔ Undisturbed s (.readTail i)) ∧
      (readTail C s.files.tail since).2 ≤ s.written.length := by
  obtain ⟨hle, hlow, out, hout, hseen⟩ := hr.checked i since seen hread
  have ho := hk.output out hout
  simp only [Undisturbed, hread, hs, false_or, hout, Option.mem_def, Option.some.injEq]
  cases ht : s.files.tail with
  | none =>
      refine ⟨?_, by simpa [readTail] using hle⟩
      rw [readOk_iff since rfl (by simpa using hle) (by simp [readTail])
        (Nat.le_refl _)]
      constructor
      · intro _
        exact .inl rfl
      · intro _ k hk hlt
        simp only at hk
        omega
  | some file =>
      obtain ⟨tailStart, bytes⟩ := file
      obtain ⟨hhead, hend, hbytes⟩ := hk.file tailStart bytes ht
      have hdata : (readTail C (some (tailStart, bytes)) since).1 <+:
          s.written.drop (max since tailStart) := by
        obtain ⟨later, hlater⟩ := hbytes
        have hstart : s.written.drop (max since tailStart) =
            (bytes ++ later).drop (max since tailStart - tailStart) := by
          rw [hlater, List.drop_drop, Nat.add_sub_cancel' (Nat.le_max_right _ _)]
        rw [hstart, List.drop_append]
        exact (List.take_prefix _ _).trans (List.prefix_append _ _)
      have hmax : max since tailStart ≤ s.written.length := by omega
      have hlen := hdata.length_le
      rw [List.length_drop] at hlen
      refine ⟨?_, ?_⟩
      · rw [readOk_iff (max since tailStart) rfl hmax hdata (Nat.le_max_left _ _)]
        simp only [reduceCtorEq, false_or]
        constructor
        · rintro hgap _ rfl
          by_contra hne
          have hsmall : seen < out.length := by omega
          have hcap : out.length ≤ C.headCap := by
            rw [ho, List.length_take]
            omega
          have hsince := hlow (by omega)
          exact hgap since (Nat.le_refl _) (by omega) (.inl ⟨out, hout, by omega⟩)
        · rintro hsame k hk hlt (⟨out', hout', hin⟩ | ⟨ts, bs, htail, hts, -⟩)
          · rw [hout] at hout'
            obtain rfl := Option.some.inj hout'
            have := hsame out rfl
            omega
          · rw [ht] at htail
            simp only [Option.some.injEq, Prod.mk.injEq] at htail
            omega
      · simp only [readTail] at hlen ⊢
        omega

/-- What a step does to the results: one more, which is right exactly when the
step is undisturbed, or none. -/
theorem logStep_results {s s' : LogState} {a : LogAction} (hk : Kept C s) (hr : ReadsAt C s)
    (h : logStep C s a = some s') :
    s'.results = s.results ∧ Undisturbed s a ∨
      ∃ r, s'.results = s.results ++ [r] ∧ (ReadOk r ↔ Undisturbed s a) ∧
        r.offset ≤ s.written.length := by
  cases a with
  | create =>
      simp only [logStep] at h
      split at h <;> simp only [Option.some.injEq, reduceCtorEq] at h
      subst h
      exact .inl ⟨rfl, trivial⟩
  | write data =>
      simp only [logStep] at h
      split at h <;> simp only [Option.some.injEq, reduceCtorEq] at h
      subst h
      exact .inl ⟨rfl, trivial⟩
  | snapshot =>
      simp only [logStep, publish] at h
      split at h <;> simp only [Option.some.injEq, reduceCtorEq] at h
      subst h
      left
      split <;> exact ⟨rfl, trivial⟩
  | finish =>
      simp only [logStep, publish] at h
      split at h <;> simp only [Option.some.injEq, reduceCtorEq] at h
      subst h
      left
      split <;> exact ⟨rfl, trivial⟩
  | checkSize i since =>
      simp only [logStep] at h
      split at h
      · rename_i hcond
        have hle : since ≤ s.written.length := by
          rcases hcond.2 with rfl | hmem
          · exact Nat.zero_le _
          · obtain ⟨r, hrm, rfl⟩ := List.mem_map.mp hmem
            exact hr.results r hrm
        split at h <;> obtain rfl := Option.some.inj h
        · refine .inr ⟨_, rfl, ?_, hle⟩
          rw [readOk_iff since rfl hle (by simp) (Nat.le_refl _)]
          simp only [Undisturbed, iff_true]
          intro k hk hlt
          omega
        · exact .inl ⟨rfl, trivial⟩
      · simp at h
  | readHead i =>
      simp only [logStep] at h
      split at h
      · rename_i since seen out hread hout
        split at h
        · rename_i hlt
          obtain rfl := Option.some.inj h
          obtain ⟨-, -, out', hout', hseen⟩ := hr.checked i since seen hread
          rw [hout] at hout'
          obtain rfl := Option.some.inj hout'
          obtain ⟨hok, hoff⟩ := readHead_ok C hk hout hlt hseen
          exact .inr ⟨_, rfl, ⟨fun _ => trivial, fun _ => hok⟩, hoff⟩
        · simp at h
      · simp at h
  | readTail i =>
      simp only [logStep] at h
      split at h
      · rename_i since seen hread
        split at h
        · simp at h
        · rename_i hlt
          obtain rfl := Option.some.inj h
          obtain ⟨hok, hoff⟩ := readTail_ok C hk hr hread hlt
          exact .inr ⟨_, rfl, hok, hoff⟩
      · simp at h

/-- The writer leaves the reads where they are. -/
theorem ReadsAt.mono {s s' : LogState} (hr : ReadsAt C s) (hreads : s'.reads = s.reads)
    (hres : s'.results = s.results) (hw : s.written.length ≤ s'.written.length)
    (hout : ∀ out, s.files.output = some out →
      ∃ out', s'.files.output = some out' ∧ out.length ≤ out'.length) : ReadsAt C s' := by
  constructor
  · intro i since seen h
    rw [hreads] at h
    obtain ⟨hle, hlow, out, ho, hseen⟩ := hr.checked i since seen h
    obtain ⟨out', ho', hlen⟩ := hout out ho
    exact ⟨by omega, hlow, out', ho', by omega⟩
  · intro r hrm
    rw [hres] at hrm
    have := hr.results r hrm
    omega

/-- A read that ends leaves the others where they are. -/
theorem ReadsAt.returned {s : LogState} (hr : ReadsAt C s) (i since : Nat) (r : Bytes × Nat)
    (hoff : r.2 ≤ s.written.length) : ReadsAt C (returned s i since r) := by
  constructor
  · intro j since' seen h
    simp only [Jobs.returned] at h
    split at h
    · simp at h
    · exact hr.checked j since' seen h
  · intro x hx
    simp only [Jobs.returned, List.mem_append, List.mem_singleton] at hx
    rcases hx with hx | rfl
    · exact hr.results x hx
    · exact hoff

theorem publish_eq (s : LogState) :
    (publish C s).reads = s.reads ∧ (publish C s).results = s.results ∧
      (publish C s).written = s.written ∧ (publish C s).files.output = s.files.output := by
  unfold publish
  split <;> exact ⟨rfl, rfl, rfl, rfl⟩

theorem logStep_readsAt {s s' : LogState} {a : LogAction} (hk : Kept C s) (hr : ReadsAt C s)
    (h : logStep C s a = some s') : ReadsAt C s' := by
  obtain ⟨hp₁, hp₂, hp₃, hp₄⟩ := publish_eq C s
  cases a with
  | create =>
      simp only [logStep] at h
      split at h <;> simp only [Option.some.injEq, reduceCtorEq] at h
      rename_i hnone
      subst h
      exact hr.mono C rfl rfl (Nat.le_refl _) (by simp [hnone])
  | write data =>
      simp only [logStep] at h
      split at h <;> simp only [Option.some.injEq, reduceCtorEq] at h
      rename_i out hout _
      subst h
      refine hr.mono C rfl rfl (by simp) ?_
      rintro out' ho
      rw [hout] at ho
      obtain rfl := Option.some.inj ho
      exact ⟨_, rfl, by simp⟩
  | snapshot =>
      simp only [logStep] at h
      split at h <;> simp only [Option.some.injEq, reduceCtorEq] at h
      subst h
      exact hr.mono C hp₁ hp₂ (Nat.le_of_eq (by rw [hp₃])) fun out ho =>
        ⟨out, hp₄.trans ho, Nat.le_refl _⟩
  | finish =>
      simp only [logStep] at h
      split at h <;> simp only [Option.some.injEq, reduceCtorEq] at h
      subst h
      exact hr.mono C hp₁ hp₂ (Nat.le_of_eq (by rw [hp₃])) fun out ho =>
        ⟨out, hp₄.trans ho, Nat.le_refl _⟩
  | checkSize i since =>
      simp only [logStep] at h
      split at h
      · rename_i hcond
        have hle : since ≤ s.written.length := by
          rcases hcond.2 with rfl | hmem
          · exact Nat.zero_le _
          · obtain ⟨r, hrm, rfl⟩ := List.mem_map.mp hmem
            exact hr.results r hrm
        split at h <;> obtain rfl := Option.some.inj h
        · exact hr.returned C i since _ hle
        · rename_i out hout
          refine ⟨fun j since' seen hj => ?_, hr.results⟩
          simp only at hj
          split at hj
          · simp only [ReadAt.checked.injEq] at hj
            obtain ⟨rfl, rfl⟩ := hj
            refine ⟨hle, fun hlt => ?_, out, hout, Nat.le_refl _⟩
            rw [hk.output out hout, List.length_take] at hlt ⊢
            omega
          · exact hr.checked j since' seen hj
      · simp at h
  | readHead i =>
      simp only [logStep] at h
      split at h
      · rename_i since seen out hread hout
        split at h
        · rename_i hlt
          obtain rfl := Option.some.inj h
          obtain ⟨-, -, out', hout', hseen⟩ := hr.checked i since seen hread
          rw [hout] at hout'
          obtain rfl := Option.some.inj hout'
          exact hr.returned C i since _ (readHead_ok C hk hout hlt hseen).2
        · simp at h
      · simp at h
  | readTail i =>
      simp only [logStep] at h
      split at h
      · rename_i since seen hread
        split at h
        · simp at h
        · rename_i hlt
          obtain rfl := Option.some.inj h
          exact hr.returned C i since _ (readTail_ok C hk hr hread hlt).2
      · simp at h

/-! ## Reaching the end -/

/-- Below the end of a finished stream a read gets on. -/
theorem output_progress {s : LogState} (hk : Kept C s) (hf : s.finished = true) {since : Nat}
    (hs : since < s.written.length) :
    since < (output C s.files since).2 ∧ (output C s.files since).2 ≤ s.written.length := by
  have hpos := C.chunkBytes_pos
  unfold output
  cases hout : s.files.output with
  | none =>
      rw [hk.fresh hout] at hs
      simp at hs
  | some out =>
      have ho := hk.output out hout
      simp only
      split
      · rename_i hlt
        refine ⟨?_, (readHead_ok C hk hout hlt (Nat.le_refl _)).2⟩
        simp only [readHead, List.length_take, List.length_drop]
        omega
      · rename_i hlt
        have hcap : C.headCap < s.written.length := by
          rw [ho, List.length_take] at hlt
          omega
        obtain ⟨tailStart, bytes, ht, hend⟩ := hk.clean (hk.finished hf) hcap
        rw [ht]
        simp only [readTail, List.length_take, List.length_drop]
        omega

theorem repeatRead_reaches {s : LogState} (hk : Kept C s) (hf : s.finished = true)
    {since : Nat} (hs : since ≤ s.written.length) :
    ∃ n, repeatRead C s.files n since = s.written.length := by
  induction hn : s.written.length - since using Nat.strongRecOn generalizing since with
  | ind n ih =>
      by_cases heq : since = s.written.length
      · exact ⟨0, heq⟩
      · have hshort : since < s.written.length := by omega
        obtain ⟨hlt, hle⟩ := output_progress C hk hf hshort
        obtain ⟨k, hk'⟩ := ih _ (by omega) hle rfl
        exact ⟨k + 1, hk'⟩

/-! ## Runs -/

theorem next_logInv {s : LogState} (a : LogAction) (hs : Kept C s ∧ ReadsAt C s) :
    Kept C (ofStep (logStep C) s a) ∧ ReadsAt C (ofStep (logStep C) s a) :=
  ofStep_inv (P := fun s => Kept C s ∧ ReadsAt C s)
    (fun _ _ _ h hs => ⟨logStep_kept C hs.1 h, logStep_readsAt C hs.1 hs.2 h⟩) s a hs

theorem undisturbed_of_disabled {s : LogState} {a : LogAction} (h : logStep C s a = none) :
    Undisturbed s a := by
  cases a with
  | readTail i =>
      simp only [logStep] at h
      simp only [Undisturbed]
      split at h
      · rename_i since seen hread
        split at h
        · rename_i hlt
          simp [hread, hlt]
        · simp at h
      · split
        · rename_i hno _ since seen hread
          exact absurd hread (hno since seen)
        · trivial
  | _ => trivial

theorem next_results {s : LogState} (a : LogAction) (hs : Kept C s ∧ ReadsAt C s) :
    (∀ r ∈ (ofStep (logStep C) s a).results, ReadOk r) ↔
      (∀ r ∈ s.results, ReadOk r) ∧ Undisturbed s a := by
  unfold ofStep
  cases h : logStep C s a with
  | none => simp [undisturbed_of_disabled C h]
  | some s' =>
      rcases logStep_results C hs.1 hs.2 h with ⟨hres, hu⟩ | ⟨r, hres, hok, -⟩
      · simp [hres, hu]
      · simp only [Option.getD_some, hres, List.mem_append, List.mem_singleton, ← hok]
        constructor
        · intro hall
          exact ⟨fun x hx => hall x (.inl hx), hall r (.inr rfl)⟩
        · rintro ⟨hold, hnew⟩ x (hx | rfl)
          · exact hold x hx
          · exact hnew

theorem results_iff_quiet {s : LogState} (hs : Kept C s ∧ ReadsAt C s)
    (run : List LogAction) :
    (∀ r ∈ (after (ofStep (logStep C)) s run).results, ReadOk r) ↔
      (∀ r ∈ s.results, ReadOk r) ∧ Quiet C s run := by
  induction run generalizing s with
  | nil => simp [Quiet]
  | cons a run ih =>
      rw [after_cons, ih (next_logInv C a hs), next_results C a hs]
      simp only [Quiet, and_assoc]

/-- After every run, the reads are right exactly when no read opened `tail.log`
after `output.log` had grown behind its size check. -/
theorem readsOk_iff_quiet (run : List LogAction) :
    ReadsOk C (logAfter C run) ↔ Quiet C LogState.init run := by
  have hs : Kept C (logAfter C run) ∧ ReadsAt C (logAfter C run) :=
    after_inv (P := fun s => Kept C s ∧ ReadsAt C s) _ (fun s a hs => next_logInv C a hs)
      ⟨kept_init C, readsAt_init C⟩ run
  have hiff := results_iff_quiet C ⟨kept_init C, readsAt_init C⟩ run
  constructor
  · intro h
    exact (hiff.mp h.1).2
  · intro h
    refine ⟨hiff.mpr ⟨by simp [LogState.init], h⟩, fun hf since hsince => ?_⟩
    refine repeatRead_reaches C hs.1 hf ?_
    rcases hsince with rfl | hmem
    · exact Nat.zero_le _
    · obtain ⟨r, hrm, rfl⟩ := List.mem_map.mp hmem
      exact hs.2.results r hrm

end Caps

/-! ## A read that is overtaken -/

def fourBytes : Caps := ⟨4, 4, 4, by decide⟩

/-- The head is filled between the size check of the second read and its opening
of `tail.log`. -/
def overtaken : List LogAction :=
  [.create, .write [1, 2], .checkSize 0 0, .readHead 0, .checkSize 0 2,
    .write [3, 4, 5], .snapshot, .readTail 0]

/-- The second read skips bytes 2 and 3, which are in `output.log`. -/
theorem readsOk_overtaken :
    ¬ ∀ (C : Caps) (run : List LogAction), ReadsOk C (logAfter C run) := by
  intro h
  have hread : (⟨2, [5], 5, ⟨some [1, 2, 3, 4], some (4, [5])⟩, [1, 2, 3, 4, 5]⟩ : Reading) ∈
      (logAfter fourBytes overtaken).results :=
    List.mem_cons_of_mem _ List.mem_cons_self
  obtain ⟨start, hoff, -, -, -, hgap⟩ := (h fourBytes overtaken).1 _ hread
  simp only [List.length_singleton] at hoff
  exact hgap 2 (Nat.le_refl _) (by omega) (.inl ⟨_, rfl, by decide⟩)

end Avibe.Jobs
