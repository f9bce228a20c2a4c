import Avibe.Pricing.Prices
import Mathlib.Algebra.BigOperators.Group.List.Basic
import Mathlib.Tactic.Ring
import Mathlib.Tactic.NormNum
import Mathlib.Tactic.Push

/-!
# The value of the usage ledger

A metered call is folded into the ledger row of its day, Source, model, context tier and
speed, and a row is valued from its summed counters. The clamps of a report bind on each
call, so that none binds on a sum: the value of the rows is the value of their calls.
-/

namespace Avibe.Pricing

/-! ## Reports and calls -/

/-- `ProtocolUsageReport` as `of` builds it: cache reads and writes are disjoint parts of the input,
and the write lifetimes disjoint parts of the writes. -/
structure Report where
  inputTokens : Nat
  cachedInputTokens : Nat
  outputTokens : Nat
  cacheWriteInputTokens : Nat
  cacheWrite1hInputTokens : Nat
  cacheWrite30mInputTokens : Nat
  cacheWrite12hInputTokens : Nat
  cacheWriteTtlUncapturedReports : Nat
  cache_le : cachedInputTokens + cacheWriteInputTokens ≤ inputTokens
  lifetimes_le : cacheWrite1hInputTokens + cacheWrite30mInputTokens + cacheWrite12hInputTokens ≤
    cacheWriteInputTokens
  deriving DecidableEq

/-- `ProtocolUsageReport.of` -/
def Report.of (input cached output write write1h write30m write12h ttlUncaptured : Int) : Report :=
  let invalidTtl := [write, write1h, write30m, write12h].any (· < 0) ||
    max 0 (input - max 0 cached) < write || write < write1h + write30m + write12h
  let cached := min cached.toNat input.toNat
  let write := min write.toNat (input.toNat - cached)
  let write1h := min write1h.toNat write
  let write30m := min write30m.toNat (write - write1h)
  { inputTokens := input.toNat
    cachedInputTokens := cached
    outputTokens := output.toNat
    cacheWriteInputTokens := write
    cacheWrite1hInputTokens := write1h
    cacheWrite30mInputTokens := write30m
    cacheWrite12hInputTokens := min write12h.toNat (write - write1h - write30m)
    cacheWriteTtlUncapturedReports := max ttlUncaptured.toNat invalidTtl.toNat
    cache_le := by omega
    lifetimes_le := by omega }

/-- `UsageCall`; the day is the owner day of its stamp. -/
structure Call where
  day : String
  sourceId : String
  modelId : String
  usage : Option Report
  requests : Nat
  contextTier : Nat
  speed : Option String
  deriving DecidableEq

def fastSpeed : String := "fast"

/-- The rates a call or a row of this speed is placed and valued by. -/
def ModelPrice.atSpeed (price : ModelPrice) (speed : Option String) : Listing :=
  if speed = some fastSpeed then price.fast.getD price.standard else price.standard

/-- `_context_tier` with the price that the held table has for the model. -/
def contextTier (price : Option ModelPrice) (usage : Option Report) (speed : Option String) : Nat :=
  match usage with
  | none => 0
  | some usage => contextTierSize (price.map fun p => p.atSpeed speed) usage.inputTokens

/-! ## Rows -/

structure Counters where
  requests : Nat
  tokenReports : Nat
  inputTokens : Nat
  cachedInputTokens : Nat
  outputTokens : Nat
  cacheWriteInputTokens : Nat
  cacheWrite1hInputTokens : Nat
  cacheWrite30mInputTokens : Nat
  cacheWrite12hInputTokens : Nat
  cacheWriteUncapturedReports : Nat
  cacheWriteTtlUncapturedReports : Nat
  deriving DecidableEq, Repr

def Counters.add (a b : Counters) : Counters where
  requests := a.requests + b.requests
  tokenReports := a.tokenReports + b.tokenReports
  inputTokens := a.inputTokens + b.inputTokens
  cachedInputTokens := a.cachedInputTokens + b.cachedInputTokens
  outputTokens := a.outputTokens + b.outputTokens
  cacheWriteInputTokens := a.cacheWriteInputTokens + b.cacheWriteInputTokens
  cacheWrite1hInputTokens := a.cacheWrite1hInputTokens + b.cacheWrite1hInputTokens
  cacheWrite30mInputTokens := a.cacheWrite30mInputTokens + b.cacheWrite30mInputTokens
  cacheWrite12hInputTokens := a.cacheWrite12hInputTokens + b.cacheWrite12hInputTokens
  cacheWriteUncapturedReports := a.cacheWriteUncapturedReports + b.cacheWriteUncapturedReports
  cacheWriteTtlUncapturedReports :=
    a.cacheWriteTtlUncapturedReports + b.cacheWriteTtlUncapturedReports

/-- `_row_key` of a model row. -/
structure Key where
  day : String
  sourceId : String
  modelId : String
  contextTier : Nat
  speed : Option String
  deriving DecidableEq, Repr

structure Row where
  key : Key
  counters : Counters
  deriving DecidableEq, Repr

/-- `_accumulate` -/
def accumulate (target row : Row) : Row := { target with counters := target.counters.add row.counters }

/-- `_model_increment`; an empty speed is none. -/
def modelIncrement (call : Call) : Row where
  key := ⟨call.day, call.sourceId, call.modelId, call.contextTier, call.speed.filter (· ≠ "")⟩
  counters :=
    match call.usage with
    | some usage =>
        { requests := call.requests
          tokenReports := call.requests
          inputTokens := usage.inputTokens
          cachedInputTokens := usage.cachedInputTokens
          outputTokens := usage.outputTokens
          cacheWriteInputTokens := usage.cacheWriteInputTokens
          cacheWrite1hInputTokens := usage.cacheWrite1hInputTokens
          cacheWrite30mInputTokens := usage.cacheWrite30mInputTokens
          cacheWrite12hInputTokens := usage.cacheWrite12hInputTokens
          cacheWriteUncapturedReports := 0
          cacheWriteTtlUncapturedReports := usage.cacheWriteTtlUncapturedReports }
    | none => ⟨call.requests, 0, 0, 0, 0, 0, 0, 0, 0, 0, 0⟩

/-- Rows of one key are added up, two at a time and in any order. -/
inductive Folds : List Row → List Row → Prop where
  | done (rows : List Row) : Folds rows rows
  | perm {rows rows' folded : List Row} : rows.Perm rows' → Folds rows' folded → Folds rows folded
  | fold {a b : Row} {rows folded : List Row} : a.key = b.key →
      Folds (accumulate a b :: rows) folded → Folds (a :: b :: rows) folded

/-! ## Costs -/

structure Cost where
  apiCostUsd : ℚ
  excludedTokens : Nat
  apiCostLowerBound : Bool
  deriving DecidableEq, Repr

def Cost.zero : Cost := ⟨0, 0, false⟩

def Cost.add (a b : Cost) : Cost :=
  ⟨a.apiCostUsd + b.apiCostUsd, a.excludedTokens + b.excludedTokens,
    a.apiCostLowerBound || b.apiCostLowerBound⟩

/-- The parts of the input that `row_cost` values apart. -/
structure Parts where
  fresh : Int
  cacheRead : Int
  unknownWrite : Int
  cacheWrite30m : Int
  cacheWrite12h : Int
  cacheWrite1h : Int
  deriving DecidableEq, Repr

def parts (c : Counters) : Parts :=
  let cacheRead : Int := min c.cachedInputTokens c.inputTokens
  let cacheWrite : Int := min c.cacheWriteInputTokens (c.inputTokens - cacheRead)
  let cacheWrite1h : Int := min c.cacheWrite1hInputTokens cacheWrite
  let remaining : Int := max 0 (cacheWrite - cacheWrite1h)
  let cacheWrite30m : Int := min c.cacheWrite30mInputTokens remaining
  let cacheWrite12h : Int := min c.cacheWrite12hInputTokens (remaining - cacheWrite30m)
  { fresh := c.inputTokens - cacheRead - cacheWrite
    cacheRead
    unknownWrite := max 0 (remaining - cacheWrite30m - cacheWrite12h)
    cacheWrite30m
    cacheWrite12h
    cacheWrite1h }

def usd (rates : Rates) (c : Counters) : ℚ :=
  let p := parts c
  (p.fresh * rates.input + p.cacheRead * rates.cacheRead + p.unknownWrite * rates.cacheWrite +
    p.cacheWrite30m * rates.cacheWrite30m + p.cacheWrite12h * rates.cacheWrite12h +
    p.cacheWrite1h * rates.cacheWrite1h + c.outputTokens * rates.output) / 1000000

/-- The rates a row is valued at. -/
def Row.rates (row : Row) (price : ModelPrice) : Rates :=
  contextTierPrice (price.atSpeed row.key.speed) row.key.contextTier

/-- `row_cost` -/
def rowCost (row : Row) (price : Option ModelPrice) : Cost :=
  let c := row.counters
  let unreported : Bool := c.tokenReports < c.requests
  match price with
  | none => ⟨0, c.inputTokens + c.outputTokens, unreported⟩
  | some price =>
      let fastUnpriced : Bool := row.key.speed = some fastSpeed && price.fast.isNone
      { apiCostUsd := usd (row.rates price) c
        excludedTokens := 0
        apiCostLowerBound := unreported || fastUnpriced || 0 < c.cacheWriteTtlUncapturedReports ||
          (0 < c.cacheWriteUncapturedReports && (row.rates price).chargesCacheWrites) }

/-- The costs of rows, added up in their order, where a table prices models. -/
def total (prices : String → Option ModelPrice) (rows : List Row) : Cost :=
  rows.foldl (fun sum row => sum.add (rowCost row (prices row.key.modelId))) .zero

/-! ## Sums -/

/-- The parts are non-negative and make up the input. -/
theorem parts_sum (c : Counters) :
    0 ≤ (parts c).fresh ∧ 0 ≤ (parts c).cacheRead ∧ 0 ≤ (parts c).unknownWrite ∧
      0 ≤ (parts c).cacheWrite30m ∧ 0 ≤ (parts c).cacheWrite12h ∧ 0 ≤ (parts c).cacheWrite1h ∧
      (parts c).fresh + (parts c).cacheRead + (parts c).unknownWrite + (parts c).cacheWrite30m +
        (parts c).cacheWrite12h + (parts c).cacheWrite1h = c.inputTokens := by
  simp only [parts]
  omega

/-- Counters on which no clamp binds. -/
structure Unclamped (c : Counters) : Prop where
  cache_le : c.cachedInputTokens + c.cacheWriteInputTokens ≤ c.inputTokens
  lifetimes_le : c.cacheWrite1hInputTokens + c.cacheWrite30mInputTokens +
    c.cacheWrite12hInputTokens ≤ c.cacheWriteInputTokens
  reports_le : c.tokenReports ≤ c.requests

theorem unclamped_modelIncrement (call : Call) : Unclamped (modelIncrement call).counters := by
  unfold modelIncrement
  cases hu : call.usage with
  | none => exact ⟨Nat.le_refl _, Nat.le_refl _, Nat.zero_le _⟩
  | some usage => exact ⟨usage.cache_le, usage.lifetimes_le, Nat.le_refl _⟩

theorem Unclamped.add {a b : Counters} (ha : Unclamped a) (hb : Unclamped b) :
    Unclamped (a.add b) where
  cache_le := by
    have hca := ha.cache_le
    have hcb := hb.cache_le
    simp only [Counters.add]
    omega
  lifetimes_le := by
    have hla := ha.lifetimes_le
    have hlb := hb.lifetimes_le
    simp only [Counters.add]
    omega
  reports_le := Nat.add_le_add ha.reports_le hb.reports_le

/-- Where no clamp binds, the parts are the counters themselves. -/
theorem Unclamped.parts_eq {c : Counters} (h : Unclamped c) :
    parts c = {
      fresh := c.inputTokens - c.cachedInputTokens - c.cacheWriteInputTokens
      cacheRead := c.cachedInputTokens
      unknownWrite := c.cacheWriteInputTokens - c.cacheWrite1hInputTokens -
        c.cacheWrite30mInputTokens - c.cacheWrite12hInputTokens
      cacheWrite30m := c.cacheWrite30mInputTokens
      cacheWrite12h := c.cacheWrite12hInputTokens
      cacheWrite1h := c.cacheWrite1hInputTokens } := by
  have hcache := h.cache_le
  have hlifetimes := h.lifetimes_le
  simp only [parts, Parts.mk.injEq]
  omega

theorem usd_add (rates : Rates) {a b : Counters} (ha : Unclamped a) (hb : Unclamped b) :
    usd rates (a.add b) = usd rates a + usd rates b := by
  simp only [usd, ha.parts_eq, hb.parts_eq, (ha.add hb).parts_eq]
  simp only [Counters.add]
  push_cast
  ring

/-- The cost of a folded row is the cost of both rows. -/
theorem rowCost_accumulate {a b : Row} (hk : a.key = b.key) (ha : Unclamped a.counters)
    (hb : Unclamped b.counters) (price : Option ModelPrice) :
    rowCost (accumulate a b) price = (rowCost a price).add (rowCost b price) := by
  have hra := ha.reports_le
  have hrb := hb.reports_le
  have hunreported : a.counters.tokenReports + b.counters.tokenReports <
      a.counters.requests + b.counters.requests ↔
      a.counters.tokenReports < a.counters.requests ∨
        b.counters.tokenReports < b.counters.requests := by omega
  have hpositive : ∀ m n : Nat, 0 < m + n ↔ 0 < m ∨ 0 < n := by omega
  cases price with
  | none =>
      simp only [rowCost, Cost.add, Cost.mk.injEq]
      refine ⟨(add_zero 0).symm, ?_, ?_⟩
      · simp only [accumulate, Counters.add]
        omega
      · rw [Bool.eq_iff_iff]
        simp only [Bool.or_eq_true, decide_eq_true_eq]
        exact hunreported
  | some price =>
      have hrates : b.rates price = a.rates price := by rw [Row.rates, Row.rates, hk]
      have hrates' : (accumulate a b).rates price = a.rates price := rfl
      have husd := usd_add (a.rates price) ha hb
      simp only [rowCost, Cost.add, Cost.mk.injEq, hrates, hrates']
      refine ⟨husd, trivial, ?_⟩
      rw [← hk, Bool.eq_iff_iff]
      simp only [Bool.or_eq_true, Bool.and_eq_true, decide_eq_true_eq]
      simp only [accumulate, Counters.add, hunreported, hpositive]
      grind

theorem Cost.assoc (a b c : Cost) : (a.add b).add c = a.add (b.add c) := by
  simp only [Cost.add, Cost.mk.injEq]
  exact ⟨add_assoc _ _ _, Nat.add_assoc _ _ _, Bool.or_assoc _ _ _⟩

theorem Cost.right_comm (a b c : Cost) : (a.add b).add c = (a.add c).add b := by
  simp only [Cost.add, Cost.mk.injEq]
  exact ⟨add_right_comm _ _ _, Nat.add_right_comm _ _ _, Bool.or_right_comm _ _ _⟩

theorem total_perm (prices : String → Option ModelPrice) {rows rows' : List Row}
    (h : rows.Perm rows') : total prices rows = total prices rows' :=
  h.foldl_eq' (fun _ _ _ _ _ => Cost.right_comm _ _ _) _

/-- Folding rows keeps their clamps loose and their total. -/
theorem Folds.total_eq (prices : String → Option ModelPrice) {rows folded : List Row}
    (h : Folds rows folded) (hrows : ∀ r ∈ rows, Unclamped r.counters) :
    (∀ r ∈ folded, Unclamped r.counters) ∧ total prices folded = total prices rows := by
  induction h with
  | done rows => exact ⟨hrows, rfl⟩
  | perm hp _ ih =>
      obtain ⟨hfolded, htotal⟩ := ih fun r hr => hrows r (hp.mem_iff.mpr hr)
      exact ⟨hfolded, htotal.trans (total_perm prices hp).symm⟩
  | @fold a b rows folded hk _ ih =>
      have ha := hrows a List.mem_cons_self
      have hb := hrows b (List.mem_cons_of_mem _ List.mem_cons_self)
      have hadd : Unclamped (accumulate a b).counters := ha.add hb
      obtain ⟨hfolded, htotal⟩ := ih fun r hr => by
        rcases List.mem_cons.mp hr with rfl | hr
        · exact hadd
        · exact hrows r (List.mem_cons_of_mem _ (List.mem_cons_of_mem _ hr))
      refine ⟨hfolded, htotal.trans ?_⟩
      have hcost := rowCost_accumulate hk ha hb (prices a.key.modelId)
      have hmodel : prices b.key.modelId = prices a.key.modelId := by rw [hk]
      have hkey : (accumulate a b).key = a.key := rfl
      simp only [total, List.foldl_cons, hmodel, hkey, hcost, Cost.assoc]

/-- A call is placed in the base tier or in a tier that the held price lists. -/
theorem contextTier_listed (price : ModelPrice) (usage : Option Report) (speed : Option String) :
    contextTier (some price) usage speed = 0 ∨ ∃ rates,
      (contextTier (some price) usage speed, rates) ∈ (price.atSpeed speed).contextTiers := by
  cases usage with
  | none => exact .inl rfl
  | some usage =>
      rcases contextTierSize_listed (price.atSpeed speed) usage.inputTokens with h | ⟨rates, h, -⟩
      · exact .inl h
      · exact .inr ⟨rates, h⟩

theorem modelIncrement_rates (call : Call) (price : ModelPrice) :
    (modelIncrement call).rates price =
      contextTierPrice (price.atSpeed call.speed) call.contextTier := by
  have hspeed : price.atSpeed (call.speed.filter (· ≠ "")) = price.atSpeed call.speed := by
    cases hs : call.speed with
    | none => rfl
    | some speed =>
        by_cases hempty : speed = ""
        · subst hempty
          rfl
        · rw [Option.filter_some, if_pos (by simpa using hempty)]
  rw [Row.rates]
  exact congrArg (fun listing => contextTierPrice listing call.contextTier) hspeed

/-- The rates that a table lists for the tier of a row, or its flat rates for the base tier. -/
inductive Applies (price : ModelPrice) (key : Key) : Rates → Prop where
  | listed {rates : Rates} :
      (key.contextTier, rates) ∈ (price.atSpeed key.speed).contextTiers → Applies price key rates
  | base : key.contextTier = 0 → Applies price key (price.atSpeed key.speed).rates

theorem Applies.rates_eq {row : Row} {price : ModelPrice} {rates : Rates}
    (h : Applies price row.key rates) : row.rates price = rates := by
  cases h with
  | listed hlisted => exact contextTierPrice_listed hlisted
  | base hzero =>
      rw [Row.rates, hzero]
      exact contextTierPrice_zero _

/-- What a row of a priced model is worth at the rates of its tier: every token of its input is charged
once, as fresh, as a cache read or as a write of its lifetime, and the value is a floor exactly where
something is left unpriced. -/
structure Valued (row : Row) (price : ModelPrice) (rates : Rates) : Prop where
  usd : (rowCost row (some price)).apiCostUsd * 1000000 =
    (row.counters.inputTokens - row.counters.cachedInputTokens - row.counters.cacheWriteInputTokens) *
        rates.input +
      row.counters.cachedInputTokens * rates.cacheRead +
      (row.counters.cacheWriteInputTokens - row.counters.cacheWrite1hInputTokens -
        row.counters.cacheWrite30mInputTokens - row.counters.cacheWrite12hInputTokens) *
        rates.cacheWrite +
      row.counters.cacheWrite30mInputTokens * rates.cacheWrite30m +
      row.counters.cacheWrite12hInputTokens * rates.cacheWrite12h +
      row.counters.cacheWrite1hInputTokens * rates.cacheWrite1h +
      row.counters.outputTokens * rates.output
  excluded : (rowCost row (some price)).excludedTokens = 0
  lowerBound : (rowCost row (some price)).apiCostLowerBound = true ↔
    row.counters.tokenReports < row.counters.requests ∨
      (row.key.speed = some fastSpeed ∧ price.fast = none) ∨
      0 < row.counters.cacheWriteTtlUncapturedReports ∨
      (0 < row.counters.cacheWriteUncapturedReports ∧ rates.chargesCacheWrites = true)

theorem Unclamped.valued {row : Row} (h : Unclamped row.counters) {price : ModelPrice} {rates : Rates}
    (hrates : Applies price row.key rates) : Valued row price rates where
  usd := by
    simp only [rowCost, Pricing.usd, h.parts_eq, hrates.rates_eq]
    push_cast
    ring
  excluded := rfl
  lowerBound := by
    simp only [rowCost, hrates.rates_eq, Bool.or_eq_true, Bool.and_eq_true, decide_eq_true_eq,
      Option.isNone_iff_eq_none, or_assoc]

/-- The value of the ledger is the value of its calls: however the rows of the calls are folded
together, their costs add up to the costs of the calls alone. The parts of every row are
non-negative and make up its input, and a row of a tier that the table lists, or of the base tier,
is valued at that tier's own rates, part by part; a call that the table itself placed is in such a
tier; and a row without a price excludes its tokens. -/
theorem total_folded (prices : String → Option ModelPrice) {calls : List Call} {rows : List Row}
    (h : Folds (calls.map modelIncrement) rows) :
    total prices rows = total prices (calls.map modelIncrement) ∧
      (∀ row ∈ rows, 0 ≤ (parts row.counters).fresh ∧ 0 ≤ (parts row.counters).cacheRead ∧
        0 ≤ (parts row.counters).unknownWrite ∧ 0 ≤ (parts row.counters).cacheWrite30m ∧
        0 ≤ (parts row.counters).cacheWrite12h ∧ 0 ≤ (parts row.counters).cacheWrite1h ∧
        (parts row.counters).fresh + (parts row.counters).cacheRead +
          (parts row.counters).unknownWrite + (parts row.counters).cacheWrite30m +
          (parts row.counters).cacheWrite12h + (parts row.counters).cacheWrite1h =
            row.counters.inputTokens) ∧
      (∀ row ∈ rows, ∀ price, prices row.key.modelId = some price →
        (∀ rates, (row.key.contextTier, rates) ∈ (price.atSpeed row.key.speed).contextTiers →
          row.rates price = rates) ∧
        (row.key.contextTier = 0 → row.rates price = (price.atSpeed row.key.speed).rates)) ∧
      (∀ call ∈ calls, ∀ price, call.contextTier = contextTier (some price) call.usage call.speed →
        call.contextTier = 0 ∨ ∃ rates,
          (call.contextTier, rates) ∈ (price.atSpeed call.speed).contextTiers ∧
            (modelIncrement call).rates price = rates) ∧
      (∀ row ∈ rows, ∀ price rates, Applies price row.key rates → Valued row price rates) ∧
      ∀ row ∈ rows, (rowCost row none).apiCostUsd = 0 ∧
        (rowCost row none).excludedTokens = row.counters.inputTokens + row.counters.outputTokens ∧
        ((rowCost row none).apiCostLowerBound = true ↔
          row.counters.tokenReports < row.counters.requests) := by
  have hrows : ∀ r ∈ calls.map modelIncrement, Unclamped r.counters := by
    intro r hr
    obtain ⟨call, -, rfl⟩ := List.mem_map.mp hr
    exact unclamped_modelIncrement call
  obtain ⟨hfolded, htotal⟩ := h.total_eq prices hrows
  refine ⟨htotal, fun row _ => parts_sum row.counters, ?_, ?_, ?_, ?_⟩
  · intro row _ price _
    constructor
    · intro rates hrates
      exact contextTierPrice_listed hrates
    · intro hzero
      rw [Row.rates, hzero]
      exact contextTierPrice_zero _
  · intro call _ price hplaced
    rcases contextTier_listed price call.usage call.speed with hzero | ⟨rates, hrates⟩
    · exact .inl (hplaced.trans hzero)
    · rw [← hplaced] at hrates
      refine .inr ⟨rates, hrates, ?_⟩
      rw [modelIncrement_rates]
      exact contextTierPrice_listed hrates
  · intro row hrow price rates hrates
    exact (hfolded row hrow).valued hrates
  · intro row _
    exact ⟨rfl, rfl, decide_eq_true_iff⟩

/-- Two calls of one row, one of them without a report: its 400 fresh, 400 cached and 200 written tokens
and its 50 tokens of output are worth 2820 millionths of a dollar, as a floor. -/
theorem total_folded_pair :
    let calls : List Call :=
      [⟨"2026-09-25", "s", "m", some (.of 1000 400 50 200 0 0 0 0), 1, 0, none⟩,
        ⟨"2026-09-25", "s", "m", none, 1, 0, none⟩]
    let price : Listing :=
      { rates := ⟨3, 15, 3 / 10, 15 / 4, 6, 15 / 4, 15 / 2, true⟩
        contextTiers := []
        positive := by simp
        increasing := List.Pairwise.nil }
    let row := accumulate (modelIncrement calls[0]) (modelIncrement calls[1])
    total (fun _ => some ⟨price, none⟩) [row] =
        total (fun _ => some ⟨price, none⟩) (calls.map modelIncrement) ∧
      (rowCost row (some ⟨price, none⟩)).apiCostUsd * 1000000 = 2820 ∧
      (rowCost row (some ⟨price, none⟩)).apiCostLowerBound = true := by
  intro calls price row
  have hfolds : Folds (calls.map modelIncrement) [row] := .fold rfl (.done _)
  have hfolded := total_folded (fun _ => some ⟨price, none⟩) hfolds
  have hvalued : Valued row ⟨price, none⟩ price.rates :=
    hfolded.2.2.2.2.1 row (List.mem_singleton.mpr rfl) ⟨price, none⟩ price.rates (.base rfl)
  refine ⟨hfolded.1, ?_, ?_⟩
  · have hcounters : row.counters = ⟨2, 1, 1000, 400, 50, 200, 0, 0, 0, 0, 0⟩ := by decide
    rw [hvalued.usd, hcounters]
    norm_num [price]
  · rw [hvalued.lowerBound]
    exact .inl (by decide)

end Avibe.Pricing
