import Avibe.Lib.SortOn
import Mathlib.Algebra.Order.Ring.Rat

/-!
# Model prices

A price lists rates in USD per million tokens, as exact rationals, for each context tier
and for the fast tier of a model. `modelPrice` reads a listed `cost` object; the tiers it
keeps have distinct positive sizes in ascending order, which `Listing` carries.
-/

namespace Avibe.Pricing

open SortOn

/-- The rates of a flat `ModelPrice`. -/
structure Rates where
  input : ℚ
  output : ℚ
  cacheRead : ℚ
  cacheWrite : ℚ
  cacheWrite1h : ℚ
  cacheWrite30m : ℚ
  cacheWrite12h : ℚ
  chargesCacheWrites : Bool
  deriving DecidableEq, Repr

/-- Flat rates and the rates past each context size. -/
structure Listing where
  rates : Rates
  contextTiers : List (Nat × Rates)
  positive : ∀ tier ∈ contextTiers, 0 < tier.1
  increasing : Increasing Prod.fst contextTiers

/-- `ModelPrice`: the standard rates and those of the fast tier. -/
structure ModelPrice where
  standard : Listing
  fast : Option Listing

/-! ## Reading a listed price -/

/-- The rate members of a `cost` object; `none` is a missing member or no number. -/
structure Listed where
  input : Option ℚ
  output : Option ℚ
  cacheRead : Option ℚ
  cacheWrite : Option ℚ
  cacheWrite1h : Option ℚ
  cacheWrite30m : Option ℚ
  cacheWrite12h : Option ℚ
  deriving DecidableEq, Repr

/-- An entry of `tiers`; the size is there when the entry is a context tier with an integer size. -/
structure TierEntry where
  size : Option Int
  listed : Listed
  deriving DecidableEq, Repr

/-- A `cost` object. -/
structure CostObject where
  listed : Listed
  tiers : List TierEntry
  contextOver200k : Option Listed
  deriving DecidableEq, Repr

def maxPricePerMtok : ℚ := 100000

def legacyContextTierSize : Nat := 200000

/-- `_price` -/
def price (value : Option ℚ) : Option ℚ := value.filter fun v => 0 ≤ v && v ≤ maxPricePerMtok

/-- `_flat_price` -/
def flatPrice (cost : Listed) : Option Rates :=
  match price cost.input, price cost.output with
  | some input, some output =>
      some {
        input
        output
        cacheRead := (price cost.cacheRead).getD input
        cacheWrite := (price cost.cacheWrite).getD input
        cacheWrite1h := (price cost.cacheWrite1h).getD (input * 2)
        cacheWrite30m := (price cost.cacheWrite30m).getD (input * (5 / 4))
        cacheWrite12h := (price cost.cacheWrite12h).getD (input * (5 / 2))
        chargesCacheWrites :=
          [price cost.cacheWrite, price cost.cacheWrite1h].any fun p => p.any fun p => input < p }
  | _, _ => none

/-- The context tiers, where the first usable entry of a size counts. -/
def addTier (tiers : List (Nat × Rates)) (entry : TierEntry) : List (Nat × Rates) :=
  match entry.size with
  | some size =>
      if 0 < size then
        match flatPrice entry.listed with
        | some rates =>
            if size.toNat ∈ tiers.map Prod.fst then tiers else tiers ++ [(size.toNat, rates)]
        | none => tiers
      else tiers
  | none => tiers

def tiersOf (cost : CostObject) : List (Nat × Rates) :=
  let tiers := cost.tiers.foldl addTier []
  if tiers = [] then
    match cost.contextOver200k.bind flatPrice with
    | some legacy => [(legacyContextTierSize, legacy)]
    | none => []
  else tiers

/-- Tiers with distinct positive sizes. -/
structure Distinct (tiers : List (Nat × Rates)) : Prop where
  positive : ∀ tier ∈ tiers, 0 < tier.1
  nodup : (tiers.map Prod.fst).Nodup

theorem distinct_nil : Distinct [] := ⟨by simp, by simp⟩

theorem Distinct.addTier {tiers : List (Nat × Rates)} (h : Distinct tiers) (entry : TierEntry) :
    Distinct (addTier tiers entry) := by
  unfold Pricing.addTier
  split
  · rename_i size _
    split
    · rename_i hsize
      split
      · rename_i rates _
        split
        · exact h
        · rename_i hnew
          constructor
          · intro tier ht
            rcases List.mem_append.mp ht with ht | ht
            · exact h.positive tier ht
            · cases List.mem_singleton.mp ht
              exact Int.pos_iff_toNat_pos.mp hsize
          · rw [List.map_append, List.nodup_append]
            refine ⟨h.nodup, by simp, ?_⟩
            rintro a ha b hb rfl
            have hsame : a = size.toNat := List.mem_singleton.mp hb
            exact hnew (hsame ▸ ha)
      · exact h
    · exact h
  · exact h

theorem distinct_tiersOf (cost : CostObject) : Distinct (tiersOf cost) := by
  have hfold : ∀ (entries : List TierEntry) (tiers : List (Nat × Rates)), Distinct tiers →
      Distinct (entries.foldl addTier tiers) := by
    intro entries
    induction entries with
    | nil => exact fun _ h => h
    | cons entry entries ih => exact fun tiers h => ih _ (h.addTier entry)
  unfold tiersOf
  dsimp only
  split
  · split
    · exact ⟨by simp [legacyContextTierSize], by simp⟩
    · exact distinct_nil
  · exact hfold cost.tiers [] distinct_nil

/-- One `cost` object as a listing, or none without a usable flat price. -/
def listing (cost : Option CostObject) : Option Listing :=
  match cost with
  | none => none
  | some cost =>
      (flatPrice cost.listed).map fun rates =>
        { rates
          contextTiers := sortOn Prod.fst (tiersOf cost)
          positive := fun tier h => (distinct_tiersOf cost).positive tier (mem_sortOn.mp h)
          increasing := sortOn_increasing (distinct_tiersOf cost).nodup }

/-- `model_price`; the fast tier never prices a model whose standard price is missing. -/
def modelPrice (cost fastCost : Option CostObject) : Option ModelPrice :=
  (listing cost).map fun standard => { standard, fast := listing fastCost }

/-! ## Context tiers -/

/-- `context_tier_size` -/
def contextTierSize (price : Option Listing) (contextInputTokens : Nat) : Nat :=
  match price with
  | none => 0
  | some listing =>
      (listing.contextTiers.map Prod.fst).foldl
        (fun best size => if size < contextInputTokens then max best size else best) 0

/-- `context_tier_price` -/
def contextTierPrice (listing : Listing) (size : Nat) : Rates :=
  listing.contextTiers.foldl (fun rates tier => if tier.1 ≤ size then tier.2 else rates)
    listing.rates

theorem foldl_tiers_of_lt {size : Nat} {tiers : List (Nat × Rates)} (rates : Rates)
    (h : ∀ tier ∈ tiers, size < tier.1) :
    tiers.foldl (fun rates tier => if tier.1 ≤ size then tier.2 else rates) rates = rates := by
  induction tiers generalizing rates with
  | nil => rfl
  | cons tier tiers ih =>
      have hlt := h tier List.mem_cons_self
      rw [List.foldl_cons, if_neg (Nat.not_le.mpr hlt)]
      exact ih rates fun t ht => h t (List.mem_cons_of_mem _ ht)

/-- The tier of a listed size is valued at its own rates. -/
theorem contextTierPrice_listed {listing : Listing} {size : Nat} {rates : Rates}
    (h : (size, rates) ∈ listing.contextTiers) : contextTierPrice listing size = rates := by
  obtain ⟨before, later, hsplit⟩ := List.append_of_mem h
  have hlater : ∀ tier ∈ later, size < tier.1 := by
    have hpairs := listing.increasing
    rw [hsplit] at hpairs
    exact (List.pairwise_cons.mp (List.pairwise_append.mp hpairs).2.1).1
  unfold contextTierPrice
  rw [hsplit, List.foldl_append, List.foldl_cons, if_pos (Nat.le_refl size)]
  exact foldl_tiers_of_lt rates hlater

/-- The base tier is valued at the flat rates. -/
theorem contextTierPrice_zero (listing : Listing) : contextTierPrice listing 0 = listing.rates :=
  foldl_tiers_of_lt _ listing.positive

/-- A call falls in the base tier, or in a listed tier whose size it exceeds. -/
theorem contextTierSize_listed (listing : Listing) (tokens : Nat) :
    contextTierSize (some listing) tokens = 0 ∨
      ∃ rates, (contextTierSize (some listing) tokens, rates) ∈ listing.contextTiers ∧
        contextTierSize (some listing) tokens < tokens := by
  have hfold : ∀ (sizes : List Nat) (best : Nat),
      sizes.foldl (fun best size => if size < tokens then max best size else best) best = best ∨
        sizes.foldl (fun best size => if size < tokens then max best size else best) best ∈ sizes ∧
          sizes.foldl (fun best size => if size < tokens then max best size else best) best <
            tokens := by
    intro sizes
    induction sizes with
    | nil => exact fun best => .inl rfl
    | cons size sizes ih =>
        intro best
        rw [List.foldl_cons]
        rcases ih (if size < tokens then max best size else best) with heq | ⟨hmem, hlt⟩
        · rw [heq]
          split
          · rename_i hsize
            rcases Nat.le_total size best with hle | hle
            · exact .inl (Nat.max_eq_left hle)
            · rw [Nat.max_eq_right hle]
              exact .inr ⟨List.mem_cons_self, hsize⟩
          · exact .inl rfl
        · exact .inr ⟨List.mem_cons_of_mem _ hmem, hlt⟩
  rcases hfold (listing.contextTiers.map Prod.fst) 0 with hzero | ⟨hmem, hlt⟩
  · exact .inl hzero
  · obtain ⟨tier, ht, hsize⟩ := List.mem_map.mp hmem
    refine .inr ⟨tier.2, ?_, hlt⟩
    have hpair : (contextTierSize (some listing) tokens, tier.2) = tier := Prod.ext hsize.symm rfl
    rw [hpair]
    exact ht

end Avibe.Pricing
