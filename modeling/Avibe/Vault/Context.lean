import Avibe.Lib.SortOn
import Avibe.Vault.Parser
import Mathlib.Data.String.Basic

/-!
# The signing context

The checks that a signing context passes before its digest is signed: its shape,
its transaction, its fee, and the digest recomputed from what the user is shown.
The hash functions and the key derivation are parameters.
-/

namespace Avibe.Vault

open Bytes Checked SortOn

/-- A decoded JSON value. -/
inductive Value where
  | null
  | bool (value : Bool)
  | int (value : Int)
  | float (text : String)
  | str (value : String)
  | arr (items : List Value)
  | obj (fields : List (String × Value))

/-- A refused context, or an integer that does not fit its bytes. -/
inductive Failure where
  | context (message : String)
  | overflow
  deriving DecidableEq, Repr

def bitcoinContextKind : String := "bitcoin-taproot-keypath-v1"

def bitcoinDigestAlgorithm : String := "bip341-sighash-default-keypath"

def bitcoinNetworks : List String := ["bitcoin", "testnet", "signet", "regtest"]

/-! ## Shape -/

def commaJoin (names : List String) : String := ", ".intercalate (sortOn id names.dedup)

def ensureExactFields (fields : List (String × Value)) (allowed : List String) (label : String) :
    Except String Unit := do
  let extra := (fields.map Prod.fst).filter (· ∉ allowed)
  let names := commaJoin extra
  require (extra = []) s!"{label} contains unsupported fields: {names}"
  let missing := allowed.filter (· ∉ fields.map Prod.fst)
  let names := commaJoin missing
  require (missing = []) s!"{label} is missing required fields: {names}"

def ensureLowerHex (value : Option Value) (field : String) (length : Option Nat) :
    Except String String := do
  let suffix := match length with
    | some n => s!" of length {n}"
    | none => ""
  let message := s!"{field} must be lowercase hexadecimal{suffix}"
  match value with
  | some (.str text) => do
      require (length.all (text.toList.length = ·) ∧ text.toList ≠ [] ∧
        ∀ c ∈ text.toList, isHex c = true) message
      return text
  | _ => .error message

def objectOf (value : Option Value) (message : String) : Except String (List (String × Value)) :=
  match value with
  | some (.obj fields) => .ok fields
  | _ => .error message

def stringOf : Option Value → Option String
  | some (.str text) => some text
  | _ => none

/-- `_ensure_integer` on a JSON value. -/
def ensureIntegerValue (value : Option Value) (minimum maximum : Nat) (field : String) :
    Except String Nat :=
  match value with
  | some (.int n) =>
      if (minimum : Int) ≤ n ∧ n ≤ maximum then .ok n.toNat
      else .error s!"{field} must be an integer in {minimum}..{maximum}"
  | _ => .error s!"{field} must be an integer in {minimum}..{maximum}"

/-- The fields of a context that passed `validate_context_shape`. -/
structure ContextShape where
  network : String
  unsignedTransaction : String
  amountSats : Nat
  scriptPubKey : String
  digest : String
  deriving DecidableEq, Repr

def validateContextShape (context : Value) (expectedDigest : String) :
    Except String ContextShape := do
  let fields ← objectOf (some context) "signing_context must be an object"
  ensureExactFields fields
    ["kind", "network", "unsignedTransaction", "prevout", "digestAlgorithm", "digest"]
    "bitcoin signing_context"
  require (stringOf (fields.lookup "kind") = some bitcoinContextKind)
    "unsupported Bitcoin signing_context kind"
  let network ← found ((stringOf (fields.lookup "network")).filter (· ∈ bitcoinNetworks))
    "bitcoin signing_context network is invalid"
  let unsignedTransaction ← ensureLowerHex (fields.lookup "unsignedTransaction")
    "unsignedTransaction" none
  require (unsignedTransaction.toList.length ≤ 2 * maxTransactionBytes)
    "unsignedTransaction exceeds the 137-byte V1 limit"
  let prevout ← objectOf (fields.lookup "prevout")
    "bitcoin signing_context.prevout must be an object"
  ensureExactFields prevout ["amountSats", "scriptPubKey"] "bitcoin signing_context.prevout"
  let amountSats ← ensureIntegerValue (prevout.lookup "amountSats") 1 moneyRangeSats
    "prevout.amountSats"
  let script ← ensureLowerHex (prevout.lookup "scriptPubKey") "prevout.scriptPubKey" (some 68)
  require (script.toList.take 4 = ['5', '1', '2', '0'])
    "prevout.scriptPubKey must be a lowercase P2TR output key script"
  require (stringOf (fields.lookup "digestAlgorithm") = some bitcoinDigestAlgorithm)
    "unsupported Bitcoin digest algorithm"
  let digest ← ensureLowerHex (fields.lookup "digest") "signing_context.digest" (some 64)
  require (expectedDigest = digest)
    "Bitcoin signing_context digest must match the sign request digest exactly"
  return ⟨network, unsignedTransaction, amountSats, script, digest⟩

/-! ## The digest -/

/-- `int.to_bytes`, little-endian. -/
def toBytes (width n : Nat) : Except Failure (List UInt8) :=
  if n < 256 ^ width then .ok (toLittle width n) else .error .overflow

/-- A length as one byte, then the script. -/
def sizedScript (script : List UInt8) : Except Failure (List UInt8) :=
  if script.length < 256 then .ok (UInt8.ofNat script.length :: script) else .error .overflow

def outputSerialization (output : BitcoinOutput) : Except Failure (List UInt8) := do
  let amount ← toBytes 8 output.amountSats
  let script ← sizedScript output.scriptPubKey
  return amount ++ script

/-- What the digest hashes, one part for each kind of data. -/
structure SighashParts where
  version : List UInt8
  locktime : List UInt8
  prevouts : List UInt8
  amounts : List UInt8
  scriptPubkeys : List UInt8
  sequences : List UInt8
  outputs : List UInt8

def sighashParts (tx : BitcoinTransaction) (prevoutAmountSats : Nat) (prevoutScript : List UInt8) :
    Except Failure SighashParts := do
  let index ← toBytes 4 tx.prevoutIndex
  let amounts ← toBytes 8 prevoutAmountSats
  let scriptPubkeys ← sizedScript prevoutScript
  let sequences ← toBytes 4 tx.sequence
  let outputs ← tx.outputs.mapM' outputSerialization
  let version ← toBytes 4 tx.version
  let locktime ← toBytes 4 tx.locktime
  return {
    version := version
    locktime := locktime
    prevouts := tx.prevoutHashLe ++ index
    amounts := amounts
    scriptPubkeys := scriptPubkeys
    sequences := sequences
    outputs := outputs.flatten }

section Digest

variable (sha256 : List UInt8 → List UInt8)

/-- The preimage of the digest. -/
def SighashParts.message (parts : SighashParts) : List UInt8 :=
  [0x00] ++ [0x00] ++ parts.version ++ parts.locktime ++ sha256 parts.prevouts ++
    sha256 parts.amounts ++ sha256 parts.scriptPubkeys ++ sha256 parts.sequences ++
    sha256 parts.outputs ++ [0x00] ++ toLittle 4 0

def taggedHash (tag : String) (value : List UInt8) : List UInt8 :=
  let tagHash := sha256 tag.toUTF8.toList
  sha256 (tagHash ++ tagHash ++ value)

def computeTaprootSighash (tx : BitcoinTransaction) (prevoutAmountSats : Nat)
    (prevoutScript : List UInt8) : Except Failure (List UInt8) := do
  let parts ← sighashParts tx prevoutAmountSats prevoutScript
  return taggedHash sha256 "TapSighash" (parts.message sha256)

end Digest

/-! ## The whole check -/

def isSpace (c : Char) : Bool := c ∈ [' ', '\t', '\n', '\r', Char.ofNat 11, Char.ofNat 12]

/-- The value of a digit of either case. -/
def hexValue (c : Char) : Option Nat := value? c.toLower

/-- `bytes.fromhex`: digits of either case, with blanks between the bytes. -/
def fromHex : List Char → Option (List UInt8)
  | [] => some []
  | [c] => if isSpace c then some [] else none
  | c :: d :: rest =>
      if isSpace c then fromHex (d :: rest)
      else do
        let high ← hexValue c
        let low ← hexValue d
        let bytes ← fromHex rest
        return UInt8.ofNat (16 * high + low) :: bytes

def refused {α : Type} (x : Except String α) : Except Failure α := x.mapError .context

structure ValidatedBitcoinContext where
  context : ContextShape
  transaction : BitcoinTransaction
  digest : List UInt8
  outputKeyXonly : List UInt8
  sameKeyOutputIndexes : List Nat
  feeSats : Int
  signedWeight : Nat
  signedVsize : Nat
  highFeeWarning : Bool
  rbfSignals : Bool

section Validate

variable (sha256 hash160 : List UInt8 → List UInt8) (taprootOutputKey : String → Option (List UInt8))

def sameKeyLegacyScripts (compressedPublicKey : List UInt8) : List (List UInt8) :=
  let keyHash := hash160 compressedPublicKey
  let redeem := [0x00, 0x14] ++ keyHash
  [[0x76, 0xa9, 0x14] ++ keyHash ++ [0x88, 0xac], [0x00, 0x14] ++ keyHash,
    [0xa9, 0x14] ++ hash160 redeem ++ [0x87]]

/-- The output key that the prevout must pay to, and the bytes of the signing key. -/
def bindKey (compressedPublicKey : Option String) (prevoutScript : List UInt8) :
    Except String (List UInt8 × Option (List UInt8)) :=
  match compressedPublicKey with
  | none => .ok (prevoutScript.drop 2, none)
  | some key => do
      let bytes ← found (fromHex key.toList) "signing public key must be compressed secp256k1"
      require (bytes.length = 33 ∧ bytes.head? ∈ [some 2, some 3])
        "signing public key must be compressed secp256k1"
      let outputKey ← found (taprootOutputKey key) "signing public key must be compressed secp256k1"
      require (prevoutScript = [0x51, 0x20] ++ outputKey)
        "prevout.scriptPubKey does not bind to the signing key's BIP86 output key"
      return (outputKey, some bytes)

/-- The loop over the outputs, from an index on. Without a key nothing is forbidden. -/
def checkForbidden (forbidden : List (List UInt8)) : Nat → List BitcoinOutput → Except String Unit
  | _, [] => .ok ()
  | index, output :: outputs => do
      require (output.scriptPubKey ∉ forbidden)
        s!"output {index} uses a same-key legacy or SegWit-v0 address that this workflow cannot spend"
      checkForbidden forbidden (index + 1) outputs

def validateContext (context : Value) (expectedDigest : String)
    (compressedPublicKey : Option String) : Except Failure ValidatedBitcoinContext := do
  let shape ← refused (validateContextShape context expectedDigest)
  let tx ← refused (parseUnsignedTransaction shape.unsignedTransaction)
  let prevoutScript ← refused (found (fromHex shape.scriptPubKey.toList) "non-hexadecimal number")
  let (outputKey, publicKey) ← refused (bindKey taprootOutputKey compressedPublicKey prevoutScript)
  refused (checkForbidden (publicKey.elim [] (sameKeyLegacyScripts hash160)) 0 tx.outputs)
  let sameKeyIndexes := tx.outputs.findIdxs (·.scriptPubKey = prevoutScript)
  refused (require (sameKeyIndexes.length ≤ 1)
    "transaction may contain at most one same-key P2TR return output")
  let fee : Int := shape.amountSats - outputTotal tx.outputs
  refused (require (0 < fee) "transaction fee must be positive")
  let signedWeight := tx.raw.length * 4 + 68
  let signedVsize := (signedWeight + 3) / 4
  refused (require (fee ≤ 10000 * signedVsize)
    "transaction fee rate exceeds the 10,000 sat/vB V1 safety ceiling")
  let digest ← computeTaprootSighash sha256 tx shape.amountSats prevoutScript
  refused (require (String.ofList (toHex digest) = shape.digest)
    "Bitcoin signing_context digest does not match the independently computed BIP341 digest")
  return {
    context := shape
    transaction := tx
    digest := digest
    outputKeyXonly := outputKey
    sameKeyOutputIndexes := sameKeyIndexes
    feeSats := fee
    signedWeight := signedWeight
    signedVsize := signedVsize
    highFeeWarning := 100 * signedVsize < fee ∨ shape.amountSats * 2 < fee * 100
    rbfSignals := tx.sequence = 0xFFFFFFFD }

end Validate

end Avibe.Vault
