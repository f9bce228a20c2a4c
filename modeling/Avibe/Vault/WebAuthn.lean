import Avibe.Json.Document
import Avibe.Lib.Bytes
import Avibe.Vault.Cbor

/-!
# WebAuthn verification

`verifyRegistration` captures the public key of a new passkey and `verifyAssertion` checks a
fresh assertion of a known one. Both read JSON, base64 in two alphabets, CBOR and the fixed
layout of the authenticator data, and refuse what does not verify.

`Python` holds what comes from outside: the limits of the interpreter, `str` of a value that
is no string, `urlsplit`, SHA-256, and the keys and signatures of the cryptography library.
-/

namespace Avibe.Vault

open Bytes Checked Json

structure Python (κ : Type) where
  /-- How many calls of the CBOR reader the stack has room for. -/
  cborRoom : Nat
  /-- How many JSON containers the stack has room for. -/
  jsonRoom : Nat
  /-- How many digits a JSON integer may have. -/
  intDigits : Nat
  text : PyJson → PyStr
  /-- The scheme and the host of a URL in lower case; none where `urlsplit` raises `ValueError`. -/
  urlsplit : PyStr → Option (PyStr × PyStr)
  sha256 : List UInt8 → List UInt8
  /-- The key of a point; none where the library raises. -/
  ecKey : Nat → Nat → Option κ
  rsaKey : Nat → Nat → Option κ
  verifies : κ → Int → List UInt8 → List UInt8 → Bool

/-! ## base64 -/

/-- The value of a character of the standard alphabet. -/
def sextet (c : Nat) : Option Nat :=
  if 0x41 ≤ c ∧ c ≤ 0x5A then some (c - 0x41)
  else if 0x61 ≤ c ∧ c ≤ 0x7A then some (c - 0x61 + 26)
  else if 0x30 ≤ c ∧ c ≤ 0x39 then some (c - 0x30 + 52)
  else if c = 0x2B then some 62
  else if c = 0x2F then some 63
  else none

/-- The state of `binascii.a2b_base64`. -/
structure Base64 where
  quad : Nat
  left : Nat
  pads : Nat
  padding : Bool
  out : List UInt8

/-- `binascii.a2b_base64`; none where it raises. -/
def a2bBase64 (strict : Bool) : Base64 → PyStr → Option (List UInt8)
  | s, [] => if s.quad = 0 then some s.out else none
  | s, c :: rest =>
      if c = 0x3D then
        if strict ∧ s.quad = 0 then none
        else if 2 ≤ s.quad ∧ 4 ≤ s.quad + s.pads + 1 then
          if strict ∧ rest ≠ [] then none else some s.out
        else
          a2bBase64 strict { s with padding := true, pads := if 2 ≤ s.quad then s.pads + 1 else s.pads }
            rest
      else
        match sextet c with
        | none => if strict then none else a2bBase64 strict s rest
        | some v =>
            if strict ∧ s.padding then none
            else
              match s.quad with
              | 0 => a2bBase64 strict ⟨1, v, 0, s.padding, s.out⟩ rest
              | 1 =>
                  let byte := UInt8.ofNat (s.left * 4 + v / 16)
                  a2bBase64 strict ⟨2, v % 16, 0, s.padding, s.out ++ [byte]⟩ rest
              | 2 =>
                  let byte := UInt8.ofNat (s.left * 16 + v / 4)
                  a2bBase64 strict ⟨3, v % 4, 0, s.padding, s.out ++ [byte]⟩ rest
              | _ =>
                  let byte := UInt8.ofNat (s.left * 64 + v)
                  a2bBase64 strict ⟨0, 0, 0, s.padding, s.out ++ [byte]⟩ rest

def fromBase64 (strict : Bool) (s : PyStr) : Option (List UInt8) :=
  if s.all (· < 0x80) then a2bBase64 strict ⟨0, 0, 0, false, []⟩ s else none

/-- `base64.urlsafe_b64decode` -/
def fromUrlsafe (s : PyStr) : Option (List UInt8) :=
  fromBase64 false (s.map fun c => if c = 0x2D then 0x2B else if c = 0x5F then 0x2F else c)

/-- `str.isspace` of a character. -/
def isSpaceChar (c : Nat) : Bool :=
  (9 ≤ c && c ≤ 13) || (28 ≤ c && c ≤ 32) || c = 0x85 || c = 0xA0 || c = 0x1680 ||
    (0x2000 ≤ c && c ≤ 0x200A) || c = 0x2028 || c = 0x2029 || c = 0x202F || c = 0x205F || c = 0x3000

def strip (s : PyStr) : PyStr := ((s.dropWhile isSpaceChar).reverse.dropWhile isSpaceChar).reverse

/-- `b64decode` -/
def b64decode (value : PyStr) : Except Exn (List UInt8) :=
  let raw := strip value
  if raw = [] then .error (.verification "missing base64 field")
  else
    let padded := raw ++ List.replicate ((4 - raw.length % 4) % 4) 0x3D
    let first :=
      if 0x2D ∈ raw ∨ 0x5F ∈ raw then fromUrlsafe padded else fromBase64 true padded
    match first <|> fromUrlsafe padded with
    | some bytes => .ok bytes
    | none => .error (.verification "invalid base64 field")

def base64Char (v : Nat) : Nat :=
  if v < 26 then 0x41 + v else if v < 52 then 0x61 + v - 26 else if v < 62 then 0x30 + v - 52
  else if v = 62 then 0x2B else 0x2F

/-- `b64encode` -/
def b64encode : List UInt8 → PyStr
  | a :: b :: c :: rest =>
      base64Char (a.toNat / 4) :: base64Char (a.toNat % 4 * 16 + b.toNat / 16) ::
        base64Char (b.toNat % 16 * 4 + c.toNat / 64) :: base64Char (c.toNat % 64) :: b64encode rest
  | [a, b] => [base64Char (a.toNat / 4), base64Char (a.toNat % 4 * 16 + b.toNat / 16),
      base64Char (b.toNat % 16 * 4), 0x3D]
  | [a] => [base64Char (a.toNat / 4), base64Char (a.toNat % 4 * 16), 0x3D, 0x3D]
  | [] => []

section Verification

variable {κ : Type} (p : Python κ)

/-- `str(value or "")` of a member that may be missing. -/
def fieldText (value : Option PyJson) : PyStr :=
  match value with
  | none => []
  | some (.str s) => s
  | some v => if v.truthy then p.text v else []

/-- `hashlib.sha256(_).hexdigest()` -/
def challengeHash (challenge : List UInt8) : PyStr := (toHex (p.sha256 challenge)).map Char.toNat

/-! ## Client data -/

def vaultSandboxOrigin : String := "https://sandbox.avibe.bot"

/-- `_is_allowed_sandbox_top_origin` -/
def isAllowedSandboxTopOrigin (origin : PyStr) : Except Exn Bool :=
  match p.urlsplit (strip origin) with
  | none => .error .valueError
  | some (scheme, host) =>
      .ok <|
        if scheme = [] ∨ host = [] then false
        else if host = py "localhost" ∨ host = py "127.0.0.1" ∨ host = py "::1" then
          scheme = py "http" || scheme = py "https"
        else scheme = py "https" && (host = py "avibe.bot" || (py ".avibe.bot").isSuffixOf host)

/-- `_validate_cross_origin_client_data` -/
def validateCrossOriginClientData (clientData : List (PyStr × PyJson)) (expectedOrigin : PyStr) :
    Except Exn Unit :=
  -- Membership in a set hashes the value; zero is `False`.
  match (getMember clientData "crossOrigin").getD .null with
  | .list _ | .dict _ => .error .typeError
  | .null | .bool false => .ok ()
  | .bool true =>
      if expectedOrigin ≠ py vaultSandboxOrigin then
        .error (.verification
          "cross-origin WebAuthn assertions are only accepted from the Vault sandbox")
      else
        match getMember clientData "origin" with
        | some (.str origin) =>
            if origin ≠ py vaultSandboxOrigin then
              .error (.verification
                "cross-origin WebAuthn assertions are only accepted from the Vault sandbox")
            else
              match (getMember clientData "topOrigin").getD .null with
              | .null => .ok ()
              | .str topOrigin => do
                  let allowed ← isAllowedSandboxTopOrigin p topOrigin
                  require (allowed = true) (.verification "unexpected WebAuthn top origin")
              | _ => .error (.verification "unexpected WebAuthn top origin")
        | _ => .error (.verification
            "cross-origin WebAuthn assertions are only accepted from the Vault sandbox")
  | .int n =>
      if n = 0 then .ok () else .error (.verification "invalid WebAuthn crossOrigin flag")
  | .float literal =>
      if isZeroLiteral literal then .ok ()
      else .error (.verification "invalid WebAuthn crossOrigin flag")
  | .str _ => .error (.verification "invalid WebAuthn crossOrigin flag")

/-- What the server expects of a ceremony. -/
structure Expected where
  challengeHash : PyStr
  origin : PyStr
  rpId : List UInt8

/-- The member is this text. -/
def isText (value : Option PyJson) (s : PyStr) : Bool :=
  match value with
  | some (.str t) => t = s
  | _ => false

/-- `json.loads` where `_client_data` calls it; only a `JSONDecodeError` is handled. -/
def loadClientData (bytes : List UInt8) : Except Exn PyJson :=
  match loads p.jsonRoom p.intDigits bytes with
  | .ok value => .ok value
  | .error .decodeError => .error (.verification "invalid clientDataJSON")
  | .error .unicodeDecodeError => .error .unicodeDecodeError
  | .error .tooManyDigits => .error .valueError
  | .error .recursionError => .error .recursionError

/-- The `get` of a value that has to be a dictionary. -/
def asDict : PyJson → Except Exn (List (PyStr × PyJson))
  | .dict members => .ok members
  | _ => .error .attributeError

/-- `_client_data` -/
def clientData (clientDataJson : PyStr) (type : String) (expected : Expected) :
    Except Exn (List (PyStr × PyJson) × List UInt8) := do
  let bytes ← b64decode clientDataJson
  let value ← loadClientData p bytes
  let members ← asDict value
  require (isText (getMember members "type") (py type) = true)
    (.verification "unexpected WebAuthn client data type")
  require (isText (getMember members "origin") expected.origin = true)
    (.verification "unexpected WebAuthn origin")
  validateCrossOriginClientData p members expected.origin
  let challenge ← b64decode (fieldText p (getMember members "challenge"))
  require (challengeHash p challenge = expected.challengeHash)
    (.verification "WebAuthn challenge mismatch")
  .ok (members, bytes)

/-! ## Keys and authenticator data -/

def algEs256 : Int := -7

def algRs256 : Int := -257

/-- The member of a COSE key is this integer. -/
def isInt (value : Option Cbor) (n : Int) : Bool :=
  match value with
  | some (.scalar s) => s.same (.int n)
  | _ => false

def bytesOf : Option Cbor → Option (List UInt8)
  | some (.scalar (.bytes s)) => some s
  | _ => none

/-- The `alg` of a COSE key; membership in a set hashes it. -/
def supportedAlg : Option Cbor → Except Exn Int
  | some (.array _) | some (.map _) => .error .typeError
  | some (.scalar (.int n)) =>
      if n = algEs256 ∨ n = algRs256 then .ok n
      else .error (.verification "unsupported WebAuthn public key algorithm")
  | _ => .error (.verification "unsupported WebAuthn public key algorithm")

def asMap : Cbor → Except Exn (List (Scalar × Cbor))
  | .map entries => .ok entries
  | _ => .error (.verification "invalid COSE public key")

/-- The key of a COSE map, once its algorithm is known. -/
def keyOf (cose : List (Scalar × Cbor)) (alg : Int) : Except Exn κ :=
  if alg = algEs256 then
    match bytesOf (dictGet cose (.int (-2))), bytesOf (dictGet cose (.int (-3))) with
    | some x, some y =>
        if isInt (dictGet cose (.int 1)) 2 ∧ isInt (dictGet cose (.int (-1))) 1 then
          found (p.ecKey (ofBig x) (ofBig y)) (.verification "invalid ES256 COSE public key")
        else .error (.verification "invalid ES256 COSE public key")
    | _, _ => .error (.verification "invalid ES256 COSE public key")
  else
    match bytesOf (dictGet cose (.int (-1))), bytesOf (dictGet cose (.int (-2))) with
    | some n, some e =>
        if isInt (dictGet cose (.int 1)) 3 then
          found (p.rsaKey (ofBig e) (ofBig n)) (.verification "invalid RS256 COSE public key")
        else .error (.verification "invalid RS256 COSE public key")
    | _, _ => .error (.verification "invalid RS256 COSE public key")

/-- `_public_key_from_cose` -/
def publicKeyFromCose (publicKeyCose : List UInt8) : Except Exn (κ × Int) := do
  let value ← cborDecodeFirst p.cborRoom publicKeyCose
  let cose ← asMap value
  let alg ← supportedAlg (dictGet cose (.int 3))
  let key ← keyOf p cose alg
  .ok (key, alg)

def flagUp : Nat := 0x01

def flagUv : Nat := 0x04

def flagAt : Nat := 0x40

/-- The part of `_parse_authenticator_data` that every ceremony needs: the flags and the counter. -/
def parseCommon (authData rpId : List UInt8) : Except Exn (Nat × Nat) := do
  require (37 ≤ authData.length) (.verification "authenticatorData is too short")
  require (authData.take 32 = p.sha256 rpId) (.verification "WebAuthn RP id hash mismatch")
  let flags := ((authData.drop 32).headD 0).toNat
  require (flags &&& flagUp = flagUp) (.verification "WebAuthn user presence is required")
  require (flags &&& flagUv = flagUv) (.verification "WebAuthn user verification is required")
  .ok (flags, ofBig ((authData.drop 33).take 4))

/-- The counter, the credential id and the bytes of the public key, where `require_attested`. -/
def attestedParts (authData rpId : List UInt8) : Except Exn (Nat × List UInt8 × List UInt8) := do
  let (flags, signCount) ← parseCommon p authData rpId
  require (flags &&& flagAt = flagAt)
    (.verification "WebAuthn attested credential data is required")
  require (55 ≤ authData.length) (.verification "WebAuthn credential id is truncated")
  let length := ofBig ((authData.drop 53).take 2)
  let credentialId := (authData.drop 55).take length
  require (credentialId.length = length) (.verification "WebAuthn credential id is truncated")
  let publicKey := authData.drop (55 + length)
  require (publicKey ≠ []) (.verification "WebAuthn credential public key is missing")
  .ok (signCount, credentialId, publicKey)

/-- `_parse_authenticator_data` with `require_attested` -/
def parseAttested (authData rpId : List UInt8) : Except Exn (Nat × List UInt8 × List UInt8) := do
  let parts ← attestedParts p authData rpId
  let _ ← publicKeyFromCose p parts.2.2
  .ok parts

/-! ## Ceremonies -/

structure Registration where
  credentialId : PyStr
  publicKey : PyStr
  alg : Int
  signCount : Nat
  deriving DecidableEq, Repr

structure Assertion where
  credentialId : PyStr
  signCount : Nat
  deriving DecidableEq, Repr

/-- The object and its `response`. -/
def responseOf (object : PyJson) (noObject noResponse : String) :
    Except Exn (List (PyStr × PyJson) × List (PyStr × PyJson)) :=
  match object with
  | .dict members =>
      match getMember members "response" with
      | some (.dict response) => .ok (members, response)
      | _ => .error (.verification noResponse)
  | _ => .error (.verification noObject)

/-- The authenticator data of an attestation object. -/
def authDataOf : Cbor → Except Exn (List UInt8)
  | .map entries =>
      found (bytesOf (dictGet entries (.text "authData".toList)))
        (.verification "invalid WebAuthn attestation object")
  | _ => .error (.verification "invalid WebAuthn attestation object")

/-- `verify_registration` -/
def verifyRegistration (credential : PyJson) (expected : Expected) : Except Exn Registration := do
  let (members, response) ← responseOf credential "WebAuthn credential must be an object"
    "WebAuthn registration response is missing"
  let _ ← clientData p (fieldText p (getMember response "clientDataJSON")) "webauthn.create" expected
  let bytes ← b64decode (fieldText p (getMember response "attestationObject"))
  let attestation ← cborDecode p.cborRoom bytes
  let authData ← authDataOf attestation
  let (signCount, credentialId, publicKey) ← parseAttested p authData expected.rpId
  let rawId ← b64decode (fieldText p (getMember members "rawId"))
  require (rawId = credentialId) (.verification "WebAuthn credential id mismatch")
  let (_, alg) ← publicKeyFromCose p publicKey
  .ok ⟨b64encode credentialId, b64encode publicKey, alg, signCount⟩

/-- A passkey as the service has it. -/
structure Stored where
  credentialId : PyStr
  publicKey : PyStr
  alg : Int

/-- `verify_assertion` -/
def verifyAssertion (assertion : PyJson) (stored : Stored) (storedSignCount : Nat)
    (expected : Expected) : Except Exn Assertion := do
  let (members, response) ← responseOf assertion "WebAuthn assertion must be an object"
    "WebAuthn assertion response is missing"
  let rawId ← b64decode (fieldText p (getMember members "rawId"))
  require (b64encode rawId = stored.credentialId)
    (.verification "WebAuthn assertion credential mismatch")
  let (_, clientDataJson) ← clientData p (fieldText p (getMember response "clientDataJSON"))
    "webauthn.get" expected
  let authData ← b64decode (fieldText p (getMember response "authenticatorData"))
  let (_, signCount) ← parseCommon p authData expected.rpId
  require (¬ (0 < storedSignCount ∧ signCount ≤ storedSignCount))
    (.verification "WebAuthn signature counter replay")
  let signature ← b64decode (fieldText p (getMember response "signature"))
  let keyBytes ← b64decode stored.publicKey
  let (key, parsedAlg) ← publicKeyFromCose p keyBytes
  require (parsedAlg = stored.alg) (.verification "WebAuthn public key algorithm mismatch")
  require (p.verifies key stored.alg signature (authData ++ p.sha256 clientDataJson) = true)
    (.verification "invalid WebAuthn assertion signature")
  .ok ⟨stored.credentialId, signCount⟩

end Verification

end Avibe.Vault
