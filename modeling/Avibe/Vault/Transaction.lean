import Avibe.Lib.Bytes
import Avibe.Lib.Checked

/-!
# The protected Bitcoin transaction

The parser of the unsigned transaction that a user approves, over the bytes and an
offset into them, and the transactions it is for: their fields, their script
templates and their canonical bytes.
-/

namespace Avibe.Vault

open Bytes Checked

/-! ## Data -/

inductive ScriptKind where
  | p2pkh
  | p2sh
  | p2wpkh
  | p2wsh
  | p2tr
  deriving DecidableEq, Repr

def ScriptKind.name : ScriptKind → String
  | .p2pkh => "p2pkh"
  | .p2sh => "p2sh"
  | .p2wpkh => "p2wpkh"
  | .p2wsh => "p2wsh"
  | .p2tr => "p2tr"

def ScriptKind.length : ScriptKind → Nat
  | .p2pkh => 25
  | .p2sh => 23
  | .p2wpkh => 22
  | .p2wsh => 34
  | .p2tr => 34

def ScriptKind.dustFloor : ScriptKind → Nat
  | .p2pkh => 546
  | .p2sh => 540
  | .p2wpkh => 294
  | .p2wsh => 330
  | .p2tr => 330

structure BitcoinOutput where
  amountSats : Nat
  scriptPubKey : List UInt8
  kind : ScriptKind
  deriving DecidableEq, Repr

structure BitcoinTransaction where
  raw : List UInt8
  version : Nat
  prevoutHashLe : List UInt8
  prevoutIndex : Nat
  sequence : Nat
  outputs : List BitcoinOutput
  locktime : Nat
  deriving DecidableEq, Repr

def moneyRangeSats : Nat := 21000000 * 100000000

def maxTransactionBytes : Nat := 137

def outputTotal (outputs : List BitcoinOutput) : Nat := (outputs.map (·.amountSats)).sum

/-! ## The parser -/

def ensureInteger (value minimum maximum : Nat) (field : String) : Except String Unit :=
  require (minimum ≤ value ∧ value ≤ maximum)
    s!"{field} must be an integer in {minimum}..{maximum}"

def readCompactSize (raw : List UInt8) (offset : Nat) (field : String) :
    Except String (Nat × Nat) := do
  let value ← found raw[offset]? s!"transaction is truncated before {field}"
  require (value < 0xFD) s!"{field} must use a single-byte CompactSize"
  return (value.toNat, offset + 1)

def readExact (raw : List UInt8) (offset length : Nat) (field : String) :
    Except String (List UInt8 × Nat) := do
  require (offset + length ≤ raw.length) s!"transaction is truncated while reading {field}"
  return ((raw.drop offset).take length, offset + length)

def scriptKind (script : List UInt8) : Except String ScriptKind :=
  if script.length = 25 ∧ script.take 3 = [0x76, 0xa9, 0x14] ∧ script.drop 23 = [0x88, 0xac] then
    .ok .p2pkh
  else if script.length = 23 ∧ script.take 2 = [0xa9, 0x14] ∧ script.drop 22 = [0x87] then
    .ok .p2sh
  else if script.length = 22 ∧ script.take 2 = [0x00, 0x14] then .ok .p2wpkh
  else if script.length = 34 ∧ script.take 2 = [0x00, 0x20] then .ok .p2wsh
  else if script.length = 34 ∧ script.take 2 = [0x51, 0x20] then .ok .p2tr
  else .error "transaction output uses an unsupported script template"

def readOutput (raw : List UInt8) (index offset : Nat) : Except String (BitcoinOutput × Nat) := do
  let (amountRaw, offset) ← readExact raw offset 8 s!"output {index} amount"
  let amount := ofLittle amountRaw
  ensureInteger amount 1 moneyRangeSats s!"output {index} amount"
  let (scriptLength, offset) ← readCompactSize raw offset s!"output {index} script length"
  let (script, offset) ← readExact raw offset scriptLength s!"output {index} script"
  let kind ← scriptKind script
  let name := kind.name
  require (scriptLength = kind.length)
    s!"output {index} script length is not canonical for {name}"
  require (kind.dustFloor ≤ amount) s!"output {index} is below the V1 {name} dust floor"
  return (⟨amount, script, kind⟩, offset)

/-- The loop over the outputs, from one index on. -/
def readOutputs (raw : List UInt8) : Nat → Nat → Nat → Except String (List BitcoinOutput × Nat)
  | 0, _, offset => return ([], offset)
  | count + 1, index, offset => do
      let (output, offset) ← readOutput raw index offset
      let (outputs, offset) ← readOutputs raw count (index + 1) offset
      return (output :: outputs, offset)

/-- The parser on the bytes. -/
def parseRaw (raw : List UInt8) : Except String BitcoinTransaction := do
  require (raw.length ≤ maxTransactionBytes) "unsignedTransaction exceeds the 137-byte V1 limit"
  require (4 ≤ raw.length) "transaction is truncated before version"
  require (raw.take 4 = [0x02, 0x00, 0x00, 0x00]) "transaction version must be exactly 2"
  let (inputCount, offset) ← readCompactSize raw 4 "input count"
  require (inputCount = 1) "transaction must contain exactly one input"
  let (prevoutHash, offset) ← readExact raw offset 32 "outpoint hash"
  require (prevoutHash ≠ List.replicate 32 0) "outpoint hash must not be null"
  let (prevoutIndexRaw, offset) ← readExact raw offset 4 "outpoint index"
  let (scriptSigLength, offset) ← readCompactSize raw offset "scriptSig length"
  require (scriptSigLength = 0) "scriptSig must be empty"
  let (sequenceRaw, offset) ← readExact raw offset 4 "sequence"
  let sequence := ofLittle sequenceRaw
  require (sequence ∈ [0xFFFFFFFD, 0xFFFFFFFE, 0xFFFFFFFF])
    "sequence must be 0xfffffffd, 0xfffffffe, or 0xffffffff"
  let (outputCount, offset) ← readCompactSize raw offset "output count"
  require (outputCount ∈ [1, 2]) "transaction must contain one or two outputs"
  let (outputs, offset) ← readOutputs raw outputCount 0 offset
  let (locktimeRaw, offset) ← readExact raw offset 4 "locktime"
  let locktime := ofLittle locktimeRaw
  require (locktime = 0) "locktime must be exactly zero"
  require (offset = raw.length) "transaction has trailing bytes"
  ensureInteger (outputTotal outputs) 1 moneyRangeSats "output total"
  return {
    raw := raw
    version := 2
    prevoutHashLe := prevoutHash
    prevoutIndex := ofLittle prevoutIndexRaw
    sequence := sequence
    outputs := outputs
    locktime := locktime }

def parseUnsignedTransaction (unsignedTransaction : String) :
    Except String BitcoinTransaction := do
  let digits := unsignedTransaction.toList
  require (digits.length ≠ 0 ∧ digits.length % 2 = 0 ∧ digits.length ≤ 2 * maxTransactionBytes)
    "unsignedTransaction must be lowercase hex and at most 137 bytes"
  require (∀ c ∈ digits, isHex c = true)
    "unsignedTransaction must be lowercase hex without 0x or whitespace"
  let raw ← found (ofHex digits) "unsignedTransaction must be lowercase hex"
  parseRaw raw

/-! ## The grammar -/

/-- The bytes of a template before and after the hash or key it holds. -/
def ScriptKind.template : ScriptKind → List UInt8 × Nat × List UInt8
  | .p2pkh => ([0x76, 0xa9, 0x14], 20, [0x88, 0xac])
  | .p2sh => ([0xa9, 0x14], 20, [0x87])
  | .p2wpkh => ([0x00, 0x14], 20, [])
  | .p2wsh => ([0x00, 0x20], 32, [])
  | .p2tr => ([0x51, 0x20], 32, [])

/-- The script is an instance of the template. -/
def ScriptKind.Matches (kind : ScriptKind) (script : List UInt8) : Prop :=
  ∃ body, body.length = kind.template.2.1 ∧
    script = kind.template.1 ++ body ++ kind.template.2.2

structure BitcoinOutput.WellFormed (output : BitcoinOutput) : Prop where
  template : output.kind.Matches output.scriptPubKey
  dust : output.kind.dustFloor ≤ output.amountSats
  money : output.amountSats ≤ moneyRangeSats

structure BitcoinTransaction.WellFormed (tx : BitcoinTransaction) : Prop where
  version : tx.version = 2
  hashLength : tx.prevoutHashLe.length = 32
  nonNull : tx.prevoutHashLe ≠ List.replicate 32 0
  index : tx.prevoutIndex < 2 ^ 32
  sequence : tx.sequence ∈ [0xFFFFFFFD, 0xFFFFFFFE, 0xFFFFFFFF]
  count : tx.outputs.length ∈ [1, 2]
  outputs : ∀ output ∈ tx.outputs, output.WellFormed
  total : outputTotal tx.outputs ≤ moneyRangeSats
  locktime : tx.locktime = 0

def BitcoinOutput.bytes (output : BitcoinOutput) : List UInt8 :=
  toLittle 8 output.amountSats ++ UInt8.ofNat output.scriptPubKey.length :: output.scriptPubKey

/-- The canonical serialisation. -/
def BitcoinTransaction.bytes (tx : BitcoinTransaction) : List UInt8 :=
  toLittle 4 tx.version ++ 0x01 :: tx.prevoutHashLe ++ toLittle 4 tx.prevoutIndex ++
    0x00 :: toLittle 4 tx.sequence ++ UInt8.ofNat tx.outputs.length ::
      tx.outputs.flatMap BitcoinOutput.bytes ++ toLittle 4 tx.locktime

end Avibe.Vault
