import Avibe.Hub.AddressSafety

/-!
# The test that comes before the repair

A repair costs one credential read per source, so a payload is first searched for an id of the minted
shape. Nothing is renamed on its say-so, and a payload it passes over needs no repair.
-/

namespace Avibe.Repair

variable {F : Type}

def lowerHex (c : Char) : Bool := ('0' ≤ c && c ≤ '9') || ('a' ≤ c && c ≤ 'f')

/-- The shape a source's address is minted in. -/
def minted (address : Text) : Bool :=
  address.take 6 = "avibe-".toList && (address.drop 6).length = 24 && (address.drop 6).all lowerHex

/-- The id begins with an address of the minted shape and a slash. -/
def addressedId (value : Text) : Bool :=
  minted (value.take 30) && (value.drop 30).head? = some '/'

def storedModelIds (payload : Payload F) : List Text :=
  (payload.sources.flatMap fun source => source.models.map Row.id) ++
    payload.agents.flatMap fun e =>
      e.2.models.map Row.id ++ e.2.removedModelIds ++ ((e.2.menu.map Menu.checked).getD []) ++
        e.2.routes.flatMap fun route => route.1 :: route.2.hops.map Hop.modelId

/-- Report whether any stored id looks like it still carries an address. -/
def payloadCarriesCredentialAddress (payload : Payload F) : Bool :=
  (storedModelIds payload).any addressedId

theorem minted_length {address : Text} (h : minted address = true) : address.length = 30 := by
  simp only [minted, Bool.and_eq_true, decide_eq_true_eq] at h
  have htake := congrArg List.length h.1.1
  have hdrop := h.1.2
  rw [List.length_take] at htake
  rw [List.length_drop] at hdrop
  have hsix : "avibe-".toList.length = 6 := rfl
  omega

/-- Only an id of the minted shape has a minted address to take away. -/
theorem bare_of_not_addressed {known : List Text} (hminted : ∀ a ∈ known, minted a = true)
    {value : Text} (h : addressedId value = false) : Bare known value := by
  apply unwrap_eq_self
  cases hpeel : peel known value with
  | none => rfl
  | some remainder =>
      obtain ⟨address, hknown, rfl⟩ := eq_of_peel hpeel
      have hshape := hminted address hknown
      have hlength := minted_length hshape
      rw [addressedId, ← hlength, List.take_left, List.drop_left, hshape] at h
      cases h

theorem minted_of_lookup {addresses : List (Text × Text)} (hminted : ∀ e ∈ addresses, minted e.2 = true)
    {sourceId address : Text} (h : addresses.lookup sourceId = some address) : minted address = true := by
  obtain ⟨before, after, hsplit, -⟩ := List.lookup_eq_some_iff.mp h
  exact hminted (sourceId, address) (hsplit ▸ by simp)

theorem stripHop_of_not_addressed {addresses : List (Text × Text)}
    (hminted : ∀ e ∈ addresses, minted e.2 = true) {hop : Hop} (h : addressedId hop.modelId = false) :
    stripHop addresses hop = hop := by
  unfold stripHop
  cases hlookup : addresses.lookup hop.sourceId with
  | none => rfl
  | some pre =>
      have hbare : Bare [pre] hop.modelId := by
        apply bare_of_not_addressed _ h
        intro a ha
        cases List.mem_singleton.mp ha
        exact minted_of_lookup hminted hlookup
      show { hop with modelId := strip [pre] hop.modelId } = hop
      rw [show strip [pre] hop.modelId = hop.modelId from hbare]

/-- A payload that the test passes over is one the repair leaves as it is. -/
theorem repairCredentialAddresses_of_not_carries (payload : Payload F) (addresses : List (Text × Text))
    (h : payload.Parsed) (hminted : ∀ e ∈ addresses, minted e.2 = true)
    (hnone : payloadCarriesCredentialAddress payload = false) :
    repairCredentialAddresses payload addresses = { payload } := by
  have hall : ∀ id ∈ storedModelIds payload, addressedId id = false := by
    intro id hid
    have hnot := List.any_eq_false.mp hnone id hid
    simpa using hnot
  simp only [storedModelIds, List.mem_append, List.mem_flatMap, List.mem_map, List.mem_cons] at hall
  have hknown : ∀ a ∈ addresses.map Prod.snd, minted a = true := by
    intro a ha
    obtain ⟨e, he, rfl⟩ := List.mem_map.mp ha
    exact hminted e he
  rw [repairCredentialAddresses_eq h]
  apply healedPayload_of_clean h
  exact {
    sources := by
      intro source hsource row hrow
      apply bare_of_not_addressed
      · intro a ha
        obtain hlookup : addresses.lookup source.id = some a := by
          simpa [ownAddress] using ha
        exact minted_of_lookup hminted hlookup
      · exact hall row.id (.inl ⟨source, hsource, row, hrow, rfl⟩)
    agents := fun e he => {
      models := fun row hrow => bare_of_not_addressed hknown <|
        hall row.id (.inr ⟨e, he, .inl (.inl (.inl ⟨row, hrow, rfl⟩))⟩)
      removed := fun id hid => bare_of_not_addressed hknown <|
        hall id (.inr ⟨e, he, .inl (.inl (.inr hid))⟩)
      checked := by
        intro menu hmenu id hid
        have hmenu' : e.2.menu = some menu := hmenu
        apply bare_of_not_addressed hknown
        exact hall id (.inr ⟨e, he, .inl (.inr (by simpa [hmenu'] using hid))⟩)
      routes := fun route hroute => bare_of_not_addressed hknown <|
        hall route.1 (.inr ⟨e, he, .inr ⟨route, hroute, .inl rfl⟩⟩)
      hops := fun route hroute hop hhop => stripHop_of_not_addressed hminted <|
        hall hop.modelId (.inr ⟨e, he, .inr ⟨route, hroute, .inr ⟨hop, hhop, rfl⟩⟩⟩) } }

/-- A name that is spelled like an address but not of the minted length is no such id. -/
theorem repairCredentialAddresses_of_not_carries_met :
    repairCredentialAddresses metPayload [(['s'], "avibe-0123456789abcdef01234567".toList)] =
      { payload := metPayload } :=
  repairCredentialAddresses_of_not_carries metPayload _ metPayload_parsed (by decide) (by decide)

end Avibe.Repair
