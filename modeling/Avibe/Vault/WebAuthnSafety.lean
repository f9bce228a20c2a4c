import Avibe.Vault.CborExact
import Avibe.Vault.WebAuthn

/-!
# What WebAuthn verification accepts and raises

The callers handle `WebAuthnVerificationError` alone. `RegistrationClean` and
`AssertionClean` say of which inputs nothing else is raised: those in which the checks do
not come to client data that is no JSON object, to a value that cannot be hashed, to a text
that is not UTF-8, to a top origin that cannot be split, or to items nested too deep.
-/

namespace Avibe.Vault

open Bytes Checked Json

section Conditions

variable {κ : Type} (p : Python κ)

/-- The cross-origin members of client data can be hashed and split. -/
def CrossClean (members : List (PyStr × PyJson)) (expectedOrigin : PyStr) : Prop :=
  (∀ items, getMember members "crossOrigin" ≠ some (.list items)) ∧
  (∀ inner, getMember members "crossOrigin" ≠ some (.dict inner)) ∧
  (getMember members "crossOrigin" = some (.bool true) → expectedOrigin = py vaultSandboxOrigin →
    isText (getMember members "origin") (py vaultSandboxOrigin) = true →
    ∀ topOrigin, getMember members "topOrigin" = some (.str topOrigin) →
      p.urlsplit (strip topOrigin) ≠ none)

/-- The client data fails to load only as JSON, is an object when it loads, and its cross-origin
members are clean when its type and origin are the expected ones. -/
def ClientClean (bytes : List UInt8) (type : String) (expected : Expected) : Prop :=
  (∀ e, loads p.jsonRoom p.intDigits bytes = .error e → e = .decodeError) ∧
  ∀ value, loads p.jsonRoom p.intDigits bytes = .ok value → ∃ members, value = .dict members ∧
    (isText (getMember members "type") (py type) = true →
      isText (getMember members "origin") expected.origin = true →
      CrossClean p members expected.origin)

/-- The bytes of a COSE key are read without a fault, and its algorithm can be hashed. -/
def KeyClean (room : Nat) (bytes : List UInt8) : Prop :=
  ¬ Faulty room bytes ∧ ∀ item rest cose alg, bytes = item ++ rest → Encodes room item (.map cose) →
    dictGet cose (.int 3) = some alg → alg.key? ≠ none

/-- The attestation object is read without a fault, and so is the key of its authenticator data. -/
def AttestationClean (bytes : List UInt8) (rpId : List UInt8) : Prop :=
  ¬ Faulty p.cborRoom bytes ∧ ∀ entries authData parts, Encodes p.cborRoom bytes (.map entries) →
    bytesOf (dictGet entries (.text "authData".toList)) = some authData →
    attestedParts p authData rpId = .ok parts → KeyClean p.cborRoom parts.2.2

/-- Every part of a registration is clean that the checks before it let through. -/
def RegistrationClean (credential : PyJson) (expected : Expected) : Prop :=
  ∀ members response, credential = .dict members →
    getMember members "response" = some (.dict response) →
    (∀ bytes, b64decode (fieldText p (getMember response "clientDataJSON")) = .ok bytes →
      ClientClean p bytes "webauthn.create" expected) ∧
    ∀ accepted bytes,
      clientData p (fieldText p (getMember response "clientDataJSON")) "webauthn.create" expected =
        .ok accepted →
      b64decode (fieldText p (getMember response "attestationObject")) = .ok bytes →
      AttestationClean p bytes expected.rpId

/-- Every part of an assertion is clean that the checks before it let through. -/
def AssertionClean (assertion : PyJson) (stored : Stored) (storedSignCount : Nat)
    (expected : Expected) : Prop :=
  ∀ members response rawId, assertion = .dict members →
    getMember members "response" = some (.dict response) →
    b64decode (fieldText p (getMember members "rawId")) = .ok rawId →
    b64encode rawId = stored.credentialId →
    (∀ bytes, b64decode (fieldText p (getMember response "clientDataJSON")) = .ok bytes →
      ClientClean p bytes "webauthn.get" expected) ∧
    ∀ accepted authData common signature key,
      clientData p (fieldText p (getMember response "clientDataJSON")) "webauthn.get" expected =
        .ok accepted →
      b64decode (fieldText p (getMember response "authenticatorData")) = .ok authData →
      parseCommon p authData expected.rpId = .ok common →
      ¬ (0 < storedSignCount ∧ common.2 ≤ storedSignCount) →
      b64decode (fieldText p (getMember response "signature")) = .ok signature →
      b64decode stored.publicKey = .ok key → KeyClean p.cborRoom key

end Conditions

/-! ## Errors -/

section Errors

variable {κ : Type} (p : Python κ)

theorem b64decode_own (value : PyStr) : Only Exn.Own (b64decode value) := by
  unfold b64decode
  dsimp only
  split
  · exact only_error.mpr trivial
  · split
    · exact only_ok
    · exact only_error.mpr trivial

theorem loadClientData_own (bytes : List UInt8) :
    Only Exn.Own (loadClientData p bytes) ↔
      ∀ e, loads p.jsonRoom p.intDigits bytes = .error e → e = .decodeError := by
  unfold loadClientData
  cases loads p.jsonRoom p.intDigits bytes with
  | ok value => simp
  | error e => cases e <;> simp [Exn.Own]

theorem loadClientData_ok {bytes : List UInt8} {value : PyJson} :
    loadClientData p bytes = .ok value ↔ loads p.jsonRoom p.intDigits bytes = .ok value := by
  unfold loadClientData
  cases loads p.jsonRoom p.intDigits bytes with
  | ok value => simp
  | error e => cases e <;> simp

theorem asDict_own {value : PyJson} :
    Only Exn.Own (asDict value) ↔ ∃ members, value = .dict members := by
  cases value <;> simp [asDict, Exn.Own]

theorem isAllowedSandboxTopOrigin_own {origin : PyStr} :
    Only Exn.Own (isAllowedSandboxTopOrigin p origin) ↔ p.urlsplit (strip origin) ≠ none := by
  unfold isAllowedSandboxTopOrigin
  cases p.urlsplit (strip origin) with
  | none => simp [Exn.Own]
  | some parts => simp

theorem validateCrossOriginClientData_own {members : List (PyStr × PyJson)} {origin : PyStr} :
    Only Exn.Own (validateCrossOriginClientData p members origin) ↔ CrossClean p members origin := by
  unfold validateCrossOriginClientData CrossClean
  cases hcross : getMember members "crossOrigin" with
  | none => simp
  | some cross =>
      cases cross with
      | null => simp
      | bool b =>
          cases b with
          | false => simp
          | true =>
              simp only [Option.getD_some]
              split
              · rename_i hne
                simp [Exn.Own, hne]
              · rename_i heq
                rw [not_not] at heq
                cases horigin : getMember members "origin" with
                | none => simp [Exn.Own, isText]
                | some o =>
                    cases o with
                    | str o =>
                        simp only
                        split
                        · rename_i hne
                          simp [Exn.Own, isText, hne]
                        · rename_i hsame
                          rw [not_not] at hsame
                          cases htop : getMember members "topOrigin" with
                          | none => simp
                          | some top =>
                              cases top with
                              | str t =>
                                  simp only [Option.getD_some]
                                  rw [only_bind, isAllowedSandboxTopOrigin_own]
                                  constructor
                                  · rintro ⟨hsplit, -⟩
                                    refine ⟨by simp, by simp, fun _ _ _ topOrigin ht => ?_⟩
                                    cases ht
                                    exact hsplit
                                  · rintro ⟨-, -, hclean⟩
                                    exact ⟨hclean trivial heq (by simp [isText, hsame]) t rfl,
                                      fun _ _ => only_require trivial⟩
                              | _ => simp [Exn.Own]
                    | _ => simp [Exn.Own, isText]
      | int n =>
          simp only [Option.getD_some]
          split <;> simp [Exn.Own]
      | float literal =>
          simp only [Option.getD_some]
          split <;> simp [Exn.Own]
      | str s => simp [Exn.Own]
      | list items => simp [Exn.Own]
      | dict inner => simp [Exn.Own]

/-- The client data raises only the verification error exactly when it is clean. -/
theorem clientData_own {text : PyStr} {type : String} {expected : Expected} :
    Only Exn.Own (clientData p text type expected) ↔
      ∀ bytes, b64decode text = .ok bytes → ClientClean p bytes type expected := by
  unfold clientData ClientClean
  rw [only_bind]
  simp only [b64decode_own, true_and, only_bind, loadClientData_own, loadClientData_ok]
  refine forall_congr' fun bytes => imp_congr_right fun _ => and_congr_right fun _ =>
    forall_congr' fun value => imp_congr_right fun _ => ?_
  rw [asDict_own]
  constructor
  · rintro ⟨⟨members, rfl⟩, hmore⟩
    refine ⟨members, rfl, fun htype horigin => ?_⟩
    have hafter := (hmore members rfl).2 () (require_eq_ok htype)
    have hcross := (hafter.2 () (require_eq_ok horigin)).1
    exact (validateCrossOriginClientData_own p).mp hcross
  · rintro ⟨members, rfl, hclean⟩
    refine ⟨⟨members, rfl⟩, fun found hfound => ?_⟩
    cases hfound
    refine ⟨only_require trivial, fun _ htype => ⟨only_require trivial, fun _ horigin => ?_⟩⟩
    refine ⟨(validateCrossOriginClientData_own p).mpr
      (hclean (require_ok htype) (require_ok horigin)), fun _ _ => fun _ _ => ?_⟩
    exact ⟨only_require trivial, fun _ _ => only_ok⟩

theorem cborDecodeFirst_ok {room : Nat} {bytes : List UInt8} {value : Cbor} :
    cborDecodeFirst room bytes = .ok value ↔
      ∃ item rest, bytes = item ++ rest ∧ Encodes room item value := by
  unfold cborDecodeFirst
  constructor
  · intro h
    obtain ⟨⟨v, rest⟩, hdecode, hret⟩ := bind_ok h
    cases hret
    obtain ⟨item, hbytes, hitem⟩ := (decode_ok room bytes value rest).mp hdecode
    exact ⟨item, rest, hbytes, hitem⟩
  · rintro ⟨item, rest, hbytes, hitem⟩
    rw [(decode_ok room bytes value rest).mpr ⟨item, hbytes, hitem⟩]
    rfl

theorem cborDecodeFirst_own {room : Nat} {bytes : List UInt8} :
    Only Exn.Own (cborDecodeFirst room bytes) ↔ ¬ Faulty room bytes := by
  unfold cborDecodeFirst
  rw [only_bind, decode_fails]
  exact ⟨fun h => h.1, fun h => ⟨h, fun _ _ => only_ok⟩⟩

/-- `_cbor_decode` accepts exactly one item and nothing after it. -/
theorem cborDecode_ok {room : Nat} {bytes : List UInt8} {value : Cbor} :
    cborDecode room bytes = .ok value ↔ Encodes room bytes value := by
  unfold cborDecode
  constructor
  · intro h
    obtain ⟨⟨v, rest⟩, hdecode, hret⟩ := bind_ok h
    dsimp only at hret
    split at hret
    · cases hret
    · rename_i hrest
      rw [not_not] at hrest
      cases hret
      obtain ⟨item, hbytes, hitem⟩ := (decode_ok room bytes value rest).mp hdecode
      rw [hrest, List.append_nil] at hbytes
      rw [hbytes]
      exact hitem
  · intro h
    rw [(decode_ok room bytes value []).mpr ⟨bytes, by simp, h⟩]
    rfl

theorem cborDecode_own {room : Nat} {bytes : List UInt8} :
    Only Exn.Own (cborDecode room bytes) ↔ ¬ Faulty room bytes := by
  unfold cborDecode
  rw [only_bind, decode_fails]
  refine ⟨fun h => h.1, fun h => ⟨h, fun _ _ => ?_⟩⟩
  dsimp only
  split
  · exact only_error.mpr trivial
  · exact only_ok

theorem supportedAlg_own {value : Option Cbor} :
    Only Exn.Own (supportedAlg value) ↔ ∀ alg, value = some alg → alg.key? ≠ none := by
  cases value with
  | none => simp [supportedAlg, Exn.Own]
  | some alg =>
      cases alg with
      | scalar s =>
          have hown : Only Exn.Own (supportedAlg (some (.scalar s))) := by
            cases s with
            | int n =>
                simp only [supportedAlg]
                split
                · exact only_ok
                · exact only_error.mpr trivial
            | _ => exact only_error.mpr trivial
          simp [hown, Cbor.key?]
      | array items => simp [supportedAlg, Exn.Own, Cbor.key?]
      | map entries => simp [supportedAlg, Exn.Own, Cbor.key?]

theorem found_own {α : Type} {o : Option α} {message : String} :
    Only Exn.Own (found o (.verification message)) := by
  cases o with
  | none => exact only_error.mpr trivial
  | some a => exact only_ok

theorem keyOf_own {cose : List (Scalar × Cbor)} {alg : Int} : Only Exn.Own (keyOf p cose alg) := by
  unfold keyOf
  split
  · split
    · split
      · exact found_own
      · exact only_error.mpr trivial
    · exact only_error.mpr trivial
  · split
    · split
      · exact found_own
      · exact only_error.mpr trivial
    · exact only_error.mpr trivial

theorem publicKeyFromCose_own {bytes : List UInt8} :
    Only Exn.Own (publicKeyFromCose p bytes) ↔ KeyClean p.cborRoom bytes := by
  unfold publicKeyFromCose KeyClean
  rw [only_bind, cborDecodeFirst_own]
  refine and_congr_right fun _ => ⟨fun h item rest cose alg hbytes hitem halg => ?_,
    fun h value hvalue => ?_⟩
  · have hmap := h (.map cose) (cborDecodeFirst_ok.mpr ⟨item, rest, hbytes, hitem⟩)
    have halg' := (only_bind.mp ((only_bind.mp hmap).2 cose rfl)).1
    exact supportedAlg_own.mp halg' alg halg
  · obtain ⟨item, rest, hbytes, hitem⟩ := cborDecodeFirst_ok.mp hvalue
    refine only_bind.mpr ⟨?_, fun cose hcose => only_bind.mpr ⟨?_, fun _ _ => only_bind.mpr
      ⟨keyOf_own p, fun _ _ => only_ok⟩⟩⟩
    · cases value with
      | map entries => exact only_ok
      | _ => exact only_error.mpr trivial
    · cases value with
      | map entries =>
          cases hcose
          exact supportedAlg_own.mpr fun alg halg => h item rest cose alg hbytes hitem halg
      | scalar s => cases hcose
      | array items => cases hcose

theorem parseCommon_own {authData rpId : List UInt8} : Only Exn.Own (parseCommon p authData rpId) := by
  unfold parseCommon
  simp only [only_bind]
  exact ⟨only_require trivial, fun _ _ => ⟨only_require trivial, fun _ _ => ⟨only_require trivial,
    fun _ _ => ⟨only_require trivial, fun _ _ => only_ok⟩⟩⟩⟩

theorem attestedParts_own {authData rpId : List UInt8} :
    Only Exn.Own (attestedParts p authData rpId) := by
  unfold attestedParts
  simp only [only_bind]
  exact ⟨parseCommon_own p, fun _ _ => ⟨only_require trivial, fun _ _ => ⟨only_require trivial,
    fun _ _ => ⟨only_require trivial, fun _ _ => ⟨only_require trivial, fun _ _ => only_ok⟩⟩⟩⟩⟩

theorem responseOf_ok {object : PyJson} {noObject noResponse : String}
    {members response : List (PyStr × PyJson)} :
    responseOf object noObject noResponse = .ok (members, response) ↔
      object = .dict members ∧ getMember members "response" = some (.dict response) := by
  unfold responseOf
  cases object with
  | dict found =>
      dsimp only
      split
      · rename_i r hr
        constructor
        · intro h
          cases h
          exact ⟨rfl, hr⟩
        · rintro ⟨hmembers, hresponse⟩
          cases hmembers
          rw [hr] at hresponse
          cases hresponse
          rfl
      · rename_i hno
        refine ⟨fun h => (by cases h), fun ⟨hmembers, hresponse⟩ => ?_⟩
        cases hmembers
        exact (hno response hresponse).elim
  | _ => simp

theorem responseOf_own {object : PyJson} {noObject noResponse : String} :
    Only Exn.Own (responseOf object noObject noResponse) := by
  unfold responseOf
  split
  · split
    · exact only_ok
    · exact only_error.mpr trivial
  · exact only_error.mpr trivial

theorem authDataOf_own {value : Cbor} : Only Exn.Own (authDataOf value) := by
  cases value with
  | map entries => exact found_own
  | _ => exact only_error.mpr trivial

theorem authDataOf_ok {value : Cbor} {authData : List UInt8} :
    authDataOf value = .ok authData ↔ ∃ entries, value = .map entries ∧
      bytesOf (dictGet entries (.text "authData".toList)) = some authData := by
  cases value with
  | map entries =>
      constructor
      · intro h
        exact ⟨entries, rfl, found_ok h⟩
      · rintro ⟨entries', hentries, hbytes⟩
        cases hentries
        simp only [authDataOf, hbytes, found]
  | _ => simp [authDataOf]

theorem parseAttested_own {authData rpId : List UInt8} :
    Only Exn.Own (parseAttested p authData rpId) ↔
      ∀ parts, attestedParts p authData rpId = .ok parts → KeyClean p.cborRoom parts.2.2 := by
  unfold parseAttested
  simp only [only_bind, attestedParts_own, true_and, publicKeyFromCose_own]
  exact forall_congr' fun parts => imp_congr_right fun _ => ⟨fun h => h.1, fun h => ⟨h, fun _ _ =>
    only_ok⟩⟩

/-- The key of an attested credential was read before, so it is read again. -/
theorem parseAttested_ok {authData rpId : List UInt8} {parts : Nat × List UInt8 × List UInt8}
    (h : parseAttested p authData rpId = .ok parts) :
    attestedParts p authData rpId = .ok parts ∧ ∃ key, publicKeyFromCose p parts.2.2 = .ok key := by
  obtain ⟨found, hparts, hmore⟩ := bind_ok h
  obtain ⟨key, hkey, hret⟩ := bind_ok hmore
  cases hret
  exact ⟨hparts, key, hkey⟩

/-- The rest of a registration after its client data. -/
theorem attestation_own {text : PyStr} {members : List (PyStr × PyJson)} {expected : Expected} :
    Only Exn.Own (do
      let bytes ← b64decode text
      let attestation ← cborDecode p.cborRoom bytes
      let authData ← authDataOf attestation
      let (signCount, credentialId, publicKey) ← parseAttested p authData expected.rpId
      let rawId ← b64decode (fieldText p (getMember members "rawId"))
      require (rawId = credentialId) (.verification "WebAuthn credential id mismatch")
      let (_, alg) ← publicKeyFromCose p publicKey
      .ok (⟨b64encode credentialId, b64encode publicKey, alg, signCount⟩ : Registration)) ↔
      ∀ bytes, b64decode text = .ok bytes → AttestationClean p bytes expected.rpId := by
  unfold AttestationClean
  simp only [only_bind, b64decode_own, true_and, cborDecode_own, cborDecode_ok, authDataOf_own,
    authDataOf_ok, parseAttested_own]
  refine forall_congr' fun bytes => imp_congr_right fun _ => and_congr_right fun _ =>
    ⟨fun h entries authData parts hentries hauth hparts => ?_, fun h value hvalue authData => ?_⟩
  · exact (h (.map entries) hentries authData ⟨entries, rfl, hauth⟩).1 parts hparts
  · rintro ⟨entries, rfl, hauth⟩
    refine ⟨fun parts hparts => h entries authData parts hvalue hauth hparts, ?_⟩
    rintro parts hparts rawId -
    obtain ⟨-, key, hkey⟩ := parseAttested_ok p hparts
    refine ⟨only_require trivial, fun _ _ => ?_⟩
    rw [hkey]
    exact ⟨only_ok, fun _ _ => only_ok⟩

/-- A registration raises only the verification error exactly when it is clean. -/
theorem verifyRegistration_own (credential : PyJson) (expected : Expected) :
    Only Exn.Own (verifyRegistration p credential expected) ↔
      RegistrationClean p credential expected := by
  unfold verifyRegistration RegistrationClean
  rw [only_bind]
  simp only [responseOf_own, true_and, Prod.forall, responseOf_ok, and_imp]
  refine forall_congr' fun members => forall_congr' fun response => imp_congr_right fun _ =>
    imp_congr_right fun _ => ?_
  rw [only_bind, clientData_own]
  refine and_congr_right fun _ => ?_
  simp only [attestation_own, Prod.forall]
  exact ⟨fun h a b bytes hc hb => h a b hc bytes hb, fun h a b hc bytes hb => h a b bytes hc hb⟩

/-- The rest of an assertion after its client data. -/
theorem assertion_own {response : List (PyStr × PyJson)} {stored : Stored} {storedSignCount : Nat}
    {expected : Expected} {clientDataJson : List UInt8} :
    Only Exn.Own (do
      let authData ← b64decode (fieldText p (getMember response "authenticatorData"))
      let (_, signCount) ← parseCommon p authData expected.rpId
      require (¬ (0 < storedSignCount ∧ signCount ≤ storedSignCount))
        (.verification "WebAuthn signature counter replay")
      let signature ← b64decode (fieldText p (getMember response "signature"))
      let keyBytes ← b64decode stored.publicKey
      let (key, parsedAlg) ← publicKeyFromCose p keyBytes
      require (parsedAlg = stored.alg) (.verification "WebAuthn public key algorithm mismatch")
      require (p.verifies key stored.alg signature (authData ++ p.sha256 clientDataJson) = true)
        (.verification "invalid WebAuthn assertion signature")
      .ok (⟨stored.credentialId, signCount⟩ : Assertion)) ↔
      ∀ authData common signature key,
        b64decode (fieldText p (getMember response "authenticatorData")) = .ok authData →
        parseCommon p authData expected.rpId = .ok common →
        ¬ (0 < storedSignCount ∧ common.2 ≤ storedSignCount) →
        b64decode (fieldText p (getMember response "signature")) = .ok signature →
        b64decode stored.publicKey = .ok key → KeyClean p.cborRoom key := by
  simp only [only_bind, b64decode_own, true_and, parseCommon_own, publicKeyFromCose_own]
  constructor
  · intro h authData common signature key hauth hcommon hcounter hsignature hkey
    have hafter := (h authData hauth common hcommon).2 () (require_eq_ok hcounter)
    exact (hafter signature hsignature key hkey).1
  · intro h authData hauth common hcommon
    refine ⟨only_require trivial, fun _ hcounter signature hsignature key hkey => ?_⟩
    refine ⟨h authData common signature key hauth hcommon (require_ok hcounter) hsignature hkey, ?_⟩
    exact fun _ _ => ⟨only_require trivial, fun _ _ => ⟨only_require trivial, fun _ _ => only_ok⟩⟩

/-- An assertion raises only the verification error exactly when it is clean. -/
theorem verifyAssertion_own (assertion : PyJson) (stored : Stored) (storedSignCount : Nat)
    (expected : Expected) :
    Only Exn.Own (verifyAssertion p assertion stored storedSignCount expected) ↔
      AssertionClean p assertion stored storedSignCount expected := by
  unfold verifyAssertion AssertionClean
  rw [only_bind]
  simp only [responseOf_own, true_and, Prod.forall, responseOf_ok, and_imp]
  refine forall_congr' fun members => forall_congr' fun response => ?_
  constructor
  · intro h rawId hobject hresponse hraw hid
    have hafter := (only_bind.mp ((only_bind.mp (h hobject hresponse)).2 rawId hraw)).2 ()
      (require_eq_ok hid)
    obtain ⟨hclient, hrest⟩ := only_bind.mp hafter
    refine ⟨(clientData_own p).mp hclient, ?_⟩
    intro members bytes authData flags signCount signature key haccepted
    exact (assertion_own p).mp (hrest (members, bytes) haccepted) authData (flags, signCount)
      signature key
  · intro h hobject hresponse
    refine only_bind.mpr ⟨b64decode_own _, fun rawId hraw => only_bind.mpr
      ⟨only_require trivial, fun _ hid => ?_⟩⟩
    obtain ⟨hclient, hrest⟩ := h rawId hobject hresponse hraw (require_ok hid)
    refine only_bind.mpr ⟨(clientData_own p).mpr hclient, fun accepted haccepted => ?_⟩
    refine (assertion_own p).mpr fun authData common signature key => ?_
    exact hrest accepted.1 accepted.2 authData common.1 common.2 signature key haccepted

end Errors

/-! ## What a registration and a run of assertions show -/

section Accepted

variable {κ : Type} (p : Python κ)

/-- The client data that these bytes are. -/
structure Addressed (bytes : List UInt8) (type : String) (expected : Expected) : Prop where
  object : ∃ members, loads p.jsonRoom p.intDigits bytes = .ok (.dict members) ∧
    isText (getMember members "type") (py type) = true ∧
    isText (getMember members "origin") expected.origin = true ∧
    ∃ challenge, b64decode (fieldText p (getMember members "challenge")) = .ok challenge ∧
      challengeHash p challenge = expected.challengeHash

/-- What authenticator data shows of a new credential. -/
structure Attested (authData credentialId : List UInt8) (expected : Expected) : Prop where
  rpId : authData.take 32 = p.sha256 expected.rpId
  present : ((authData.drop 32).headD 0).toNat &&& flagUp = flagUp
  verified : ((authData.drop 32).headD 0).toNat &&& flagUv = flagUv
  attested : ((authData.drop 32).headD 0).toNat &&& flagAt = flagAt
  id : credentialId = (authData.drop 55).take (ofBig ((authData.drop 53).take 2))

/-- A registration that was accepted. -/
def Registers (credential : PyJson) (expected : Expected) : Prop :=
  ∃ members response clientBytes attestation entries authData rawId,
    credential = .dict members ∧ getMember members "response" = some (.dict response) ∧
    b64decode (fieldText p (getMember response "clientDataJSON")) = .ok clientBytes ∧
    Addressed p clientBytes "webauthn.create" expected ∧
    b64decode (fieldText p (getMember response "attestationObject")) = .ok attestation ∧
    Encodes p.cborRoom attestation (.map entries) ∧
    bytesOf (dictGet entries (.text "authData".toList)) = some authData ∧
    b64decode (fieldText p (getMember members "rawId")) = .ok rawId ∧
    Attested p authData rawId expected

theorem clientData_ok {text : PyStr} {type : String} {expected : Expected}
    {accepted : List (PyStr × PyJson) × List UInt8}
    (h : clientData p text type expected = .ok accepted) :
    b64decode text = .ok accepted.2 ∧ Addressed p accepted.2 type expected := by
  obtain ⟨bytes, hbytes, h⟩ := bind_ok h
  obtain ⟨value, hvalue, h⟩ := bind_ok h
  obtain ⟨members, hmembers, h⟩ := bind_ok h
  obtain ⟨htype, h⟩ := require_bind_ok h
  obtain ⟨horigin, h⟩ := require_bind_ok h
  obtain ⟨_, _, h⟩ := bind_ok h
  obtain ⟨challenge, hchallenge, h⟩ := bind_ok h
  obtain ⟨hhash, h⟩ := require_bind_ok h
  cases h
  have hdict : value = .dict members := by
    cases value <;> cases hmembers
    rfl
  rw [loadClientData_ok, hdict] at hvalue
  exact ⟨hbytes, members, hvalue, htype, horigin, challenge, hchallenge, hhash⟩

theorem parseCommon_ok {authData rpId : List UInt8} {common : Nat × Nat}
    (h : parseCommon p authData rpId = .ok common) :
    authData.take 32 = p.sha256 rpId ∧ common.1 = ((authData.drop 32).headD 0).toNat ∧
      common.1 &&& flagUp = flagUp ∧ common.1 &&& flagUv = flagUv := by
  obtain ⟨-, h⟩ := require_bind_ok h
  obtain ⟨hhash, h⟩ := require_bind_ok h
  obtain ⟨hup, h⟩ := require_bind_ok h
  obtain ⟨huv, h⟩ := require_bind_ok h
  cases h
  exact ⟨hhash, rfl, hup, huv⟩

theorem attestedParts_ok {authData : List UInt8} {expected : Expected}
    {parts : Nat × List UInt8 × List UInt8}
    (h : attestedParts p authData expected.rpId = .ok parts) :
    Attested p authData parts.2.1 expected := by
  obtain ⟨common, hcommon, h⟩ := bind_ok h
  obtain ⟨hhash, hflags, hup, huv⟩ := parseCommon_ok p hcommon
  obtain ⟨hat, h⟩ := require_bind_ok h
  obtain ⟨-, h⟩ := require_bind_ok h
  obtain ⟨-, h⟩ := require_bind_ok h
  obtain ⟨-, h⟩ := require_bind_ok h
  cases h
  rw [hflags] at hup huv
  have hat' : common.1 &&& flagAt = flagAt := hat
  rw [hflags] at hat'
  exact ⟨hhash, hup, huv, hat', rfl⟩

theorem verifyRegistration_registers {credential : PyJson} {expected : Expected} {r : Registration}
    (h : verifyRegistration p credential expected = .ok r) : Registers p credential expected := by
  obtain ⟨⟨members, response⟩, hresponse, h⟩ := bind_ok h
  obtain ⟨hobject, hresponse⟩ := responseOf_ok.mp hresponse
  obtain ⟨accepted, haccepted, h⟩ := bind_ok h
  obtain ⟨hclient, haddressed⟩ := clientData_ok p haccepted
  obtain ⟨attestation, hattestation, h⟩ := bind_ok h
  obtain ⟨value, hvalue, h⟩ := bind_ok h
  obtain ⟨authData, hauth, h⟩ := bind_ok h
  obtain ⟨parts, hparts, h⟩ := bind_ok h
  obtain ⟨rawId, hraw, h⟩ := bind_ok h
  obtain ⟨hid, -⟩ := require_bind_ok h
  obtain ⟨entries, rfl, hentries⟩ := authDataOf_ok.mp hauth
  have hattested := attestedParts_ok p (parseAttested_ok p hparts).1
  refine ⟨members, response, accepted.2, attestation, entries, authData, rawId, hobject, hresponse,
    hclient, haddressed, hattestation, cborDecode_ok.mp hvalue, hentries, hraw, ?_⟩
  rw [hid]
  exact hattested

/-- The counter of an accepted assertion is above the stored one, where that is positive. -/
theorem verifyAssertion_counter {assertion : PyJson} {stored : Stored} {storedSignCount : Nat}
    {expected : Expected} {a : Assertion}
    (h : verifyAssertion p assertion stored storedSignCount expected = .ok a)
    (hpos : 0 < storedSignCount) : storedSignCount < a.signCount := by
  obtain ⟨⟨members, response⟩, -, h⟩ := bind_ok h
  obtain ⟨_, _, h⟩ := bind_ok h
  obtain ⟨-, h⟩ := require_bind_ok h
  obtain ⟨_, _, h⟩ := bind_ok h
  obtain ⟨_, _, h⟩ := bind_ok h
  obtain ⟨common, -, h⟩ := bind_ok h
  obtain ⟨hcounter, h⟩ := require_bind_ok h
  obtain ⟨_, _, h⟩ := bind_ok h
  obtain ⟨_, _, h⟩ := bind_ok h
  obtain ⟨_, _, h⟩ := bind_ok h
  obtain ⟨-, h⟩ := require_bind_ok h
  obtain ⟨-, h⟩ := require_bind_ok h
  cases h
  by_contra hle
  exact hcounter ⟨hpos, not_lt.mp hle⟩

/-- The counters that a run of assertions accepts; each one is stored. -/
def acceptedCounters (stored : Stored) : Nat → List (PyJson × Expected) → List Nat
  | _, [] => []
  | count, (assertion, expected) :: rest =>
      match verifyAssertion p assertion stored count expected with
      | .ok a => a.signCount :: acceptedCounters stored a.signCount rest
      | .error _ => acceptedCounters stored count rest

theorem acceptedCounters_above {stored : Stored} {count : Nat} (calls : List (PyJson × Expected))
    (hpos : 0 < count) : (count :: acceptedCounters p stored count calls).Pairwise (· < ·) := by
  induction calls generalizing count with
  | nil => simp [acceptedCounters]
  | cons call rest ih =>
      simp only [acceptedCounters]
      cases hcall : verifyAssertion p call.1 stored count call.2 with
      | error e => exact ih hpos
      | ok a =>
          have hlt := verifyAssertion_counter p hcall hpos
          have hrest := ih (hpos.trans hlt)
          refine List.pairwise_cons.mpr ⟨fun n hn => ?_, hrest⟩
          rcases List.mem_cons.mp hn with rfl | hmem
          · exact hlt
          · exact hlt.trans (List.rel_of_pairwise_cons hrest hmem)

/-- From the first positive counter on, each accepted counter is above all before it. -/
theorem acceptedCounters_increasing (stored : Stored) (count : Nat)
    (calls : List (PyJson × Expected)) :
    ((count :: acceptedCounters p stored count calls).dropWhile (· = 0)).Pairwise (· < ·) := by
  induction calls generalizing count with
  | nil => cases count <;> simp [acceptedCounters]
  | cons call rest ih =>
      by_cases hzero : count = 0
      · subst hzero
        rw [List.dropWhile_cons_of_pos (by simp)]
        simp only [acceptedCounters]
        cases verifyAssertion p call.1 stored 0 call.2 with
        | error e =>
            have hrest := ih 0
            rw [List.dropWhile_cons_of_pos (by simp)] at hrest
            exact hrest
        | ok a => exact ih a.signCount
      · rw [List.dropWhile_cons_of_neg (by simpa using hzero)]
        exact acceptedCounters_above p (call :: rest) (Nat.pos_of_ne_zero hzero)

/-- Outside functions for one input; the limits are the ones of the interpreter by default. -/
def plainPython : Python Unit where
  cborRoom := 1000
  jsonRoom := 1000
  intDigits := 4300
  text := fun _ => []
  urlsplit := fun _ => none
  sha256 := fun _ => []
  ecKey := fun _ _ => none
  rsaKey := fun _ _ => none
  verifies := fun _ _ _ _ => false

/-! ## A passkey of the base point -/

/-- A number in big-endian bytes. -/
def sampleBytes (width n : Nat) : List UInt8 := (toLittle width n).reverse

def sampleText (s : String) : List UInt8 := s.toList.map fun c => UInt8.ofNat c.toNat

/-- The client data of a ceremony whose challenge is the bytes 1, 2 and 3. -/
def sampleClientData (type : String) : List UInt8 :=
  sampleText ("\x7b\"type\":\"" ++ type ++
    "\",\"challenge\":\"AQID\",\"origin\":\"https://avibe.bot\"\x7d")

def sampleX : Nat := 0x6b17d1f2e12c4247f8bce6e563a440f277037d812deb33a0f4a13945d898c296

def sampleY : Nat := 0x4fe342e2fe1a7f9b8ee7eb4a7c0f9e162bce33576b315ececbb6406837bf51f5

def sampleCose : Cbor :=
  .map [(.int 1, .scalar (.int 2)), (.int 3, .scalar (.int (-7))), (.int (-1), .scalar (.int 1)),
    (.int (-2), .scalar (.bytes (sampleBytes 32 sampleX))),
    (.int (-3), .scalar (.bytes (sampleBytes 32 sampleY)))]

/-- The hash of the relying party. -/
def sampleRp : List UInt8 :=
  sampleBytes 32 0x19b783a210861b47183757fe13690f0264daf820e05b3953ec61296264a01089

def sampleChallengeHash : List UInt8 :=
  sampleBytes 32 0x039058c6f2c0cb492c533b0a4d14ef77cc0f78abccced5287d84a1a2011cfb81

/-- The hash of the client data of an assertion. -/
def sampleGetHash : List UInt8 :=
  sampleBytes 32 0x486633e3d12a5fd2e4cd524e91c4dfd8d174e2f9a62a6ff94cd72fece6061f50

def sampleHashes : List (List UInt8 × List UInt8) :=
  [(sampleText "avibe.bot", sampleRp), ([1, 2, 3], sampleChallengeHash),
    (sampleClientData "webauthn.get", sampleGetHash)]

/-- Authenticator data with these flags and this counter. -/
def sampleAuthData (flags counter : Nat) : List UInt8 :=
  sampleRp ++ sampleBytes 1 flags ++ sampleBytes 4 counter

/-- An attestation object for the credential id 9, 8 and the counter 5. -/
def sampleAttestation : List UInt8 :=
  (Cbor.map [(.text "fmt".toList, .scalar (.text "none".toList)),
    (.text "attStmt".toList, .map []),
    (.text "authData".toList, .scalar (.bytes (sampleAuthData 0x45 5 ++ List.replicate 16 0 ++
      [0, 2, 9, 8] ++ sampleCose.encode)))]).encode

/-- The signatures of the assertions with the counters 5 and 7. -/
def sampleSignature (counter : Nat) : List UInt8 :=
  if counter = 5 then
    sampleBytes 2 0x3044 ++
      sampleBytes 34 0x022051590b7a515140d2d784c85608668fdfef8c82fd1f5be52421554a0dc3d033ed ++
      sampleBytes 34 0x02201761f5aca984f977c77f5ca7582825a5080efa26f2930fac7575dbf21487d715
  else
    sampleBytes 2 0x3045 ++
      sampleBytes 35 0x0221008e533b6fa0bf7b4625bb30667c01fb607ef9f8b8a80fef5b300628703187b2a3 ++
      sampleBytes 34 0x02203298ea8cc67408e0b6b37f2def8e1f91da3a65099e2ff8bfb2bd949823fc9611

/-- The outside functions on the hashes, the key and the signatures above. -/
def samplePython : Python Unit :=
  { plainPython with
    sha256 := fun data => (sampleHashes.lookup data).getD []
    ecKey := fun x y => if x = sampleX ∧ y = sampleY then some () else none
    verifies := fun _ alg signature signed => alg = algEs256 ∧
      (signature, signed) ∈ [5, 7].map fun counter =>
        (sampleSignature counter, sampleAuthData 0x05 counter ++ sampleGetHash) }

def sampleExpected : Expected :=
  ⟨(toHex sampleChallengeHash).map Char.toNat, py "https://avibe.bot", sampleText "avibe.bot"⟩

def sampleCredential : PyJson :=
  .dict [(py "rawId", .str (py "CQg=")), (py "response", .dict
    [(py "clientDataJSON", .str (b64encode (sampleClientData "webauthn.create"))),
      (py "attestationObject", .str (b64encode sampleAttestation))])]

/-- The assertion with this counter. -/
def sampleAssertion (counter : Nat) : PyJson × Expected :=
  (.dict [(py "rawId", .str (py "CQg=")), (py "response", .dict
    [(py "clientDataJSON", .str (b64encode (sampleClientData "webauthn.get"))),
      (py "authenticatorData", .str (b64encode (sampleAuthData 0x05 counter))),
      (py "signature", .str (b64encode (sampleSignature counter)))])], sampleExpected)

def sampleStored : Stored := ⟨py "CQg=", b64encode sampleCose.encode, algEs256⟩

/-- A registration whose client data is the JSON text `[]`. -/
def arrayClientData : PyJson :=
  .dict [(py "response", .dict [(py "clientDataJSON", .str (py "W10="))])]

end Accepted

end Avibe.Vault
