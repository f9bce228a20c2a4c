import Mathlib.Data.Nat.Digits.Defs
import Avibe.Lib.Places

/-!
# Address texts

The two encoders of `vault_addresses.py`: base58 with four checksum bytes, and the segwit form
of bech32 and bech32m. Beside each one stands its reader, as the standards describe it: what a
wallet that is given the text makes of it.

A digest is a parameter that gives 32 bytes.
-/

namespace Avibe.Vault.Addresses

open Places

abbrev Text := List Char

/-- `int.from_bytes(data, "big")` -/
def ofBig (data : List UInt8) : Nat := ofPlaces 256 (data.map UInt8.toNat)

/-! ## Base58 -/

def b58Charset : Text := "123456789ABCDEFGHJKLMNPQRSTUVWXYZabcdefghijkmnopqrstuvwxyz".toList

def b58Char (digit : Nat) : Char := b58Charset.getD digit '1'

/-- The loop of `_b58check`: the digits of `n` before those already written. -/
def b58Loop (n : Nat) (out : Text) : Text :=
  if n = 0 then out else b58Loop (n / 58) (b58Char (n % 58) :: out)

def leadingZeros (data : List UInt8) : Nat := data.length - (data.dropWhile (· == 0)).length

/-- The payload and the first four bytes of its double digest. -/
def checkedPayload (sha256 : List UInt8 → Vector UInt8 32) (payload : List UInt8) : List UInt8 :=
  payload ++ (sha256 (sha256 payload).toList).toList.take 4

/-- `_b58check` -/
def b58check (sha256 : List UInt8 → Vector UInt8 32) (payload : List UInt8) : Text :=
  let data := checkedPayload sha256 payload
  List.replicate (leadingZeros data) '1' ++ b58Loop (ofBig data) []

/-- The bytes of a base58 text: one zero byte for each leading `1`, then those of its number. -/
def b58decode (text : Text) : Option (List UInt8) := do
  let digits ← text.mapM b58Charset.idxOf?
  let zeros := (text.takeWhile (· == '1')).length
  let bytes := (Nat.digits 256 (ofPlaces 58 digits)).reverse
  return List.replicate zeros 0 ++ bytes.map UInt8.ofNat

/-! ## The bech32 checksum -/

def bech32Const : Nat := 1

def bech32mConst : Nat := 0x2BC830A3

def generators : List Nat := [0x3B6A57B2, 0x26508E6D, 0x1EA119FA, 0x3D4233DD, 0x2A1462B3]

/-- The body of the loop over the values in `_bech32_polymod`. -/
def polymodStep (chk value : Nat) : Nat :=
  let top := chk >>> 25
  let chk := ((chk &&& 0x1FFFFFF) <<< 5) ^^^ value
  (List.range 5).foldl
    (fun chk i => chk ^^^ if (top >>> i) &&& 1 ≠ 0 then generators.getD i 0 else 0) chk

/-- `_bech32_polymod` -/
def bech32Polymod (values : List Nat) : Nat := values.foldl polymodStep 1

/-- `_hrp_expand` -/
def hrpExpand (hrp : Text) : List Nat :=
  hrp.map (·.toNat >>> 5) ++ [0] ++ hrp.map (·.toNat &&& 31)

/-- `_bech32_checksum` -/
def bech32Checksum (hrp : Text) (data : List Nat) (const : Nat) : List Nat :=
  let values := hrpExpand hrp ++ data
  let polymod := bech32Polymod (values ++ [0, 0, 0, 0, 0, 0]) ^^^ const
  (List.range 6).map fun i => (polymod >>> (5 * (5 - i))) &&& 31

/-! ## Groups of bits -/

/-- The inner loop of `_convertbits`: one value for each `tobits` bits at hand, and the number of
bits left. The program asks for groups of five bits; with groups of none its loop has no end. -/
def drain (acc tobits bits : Nat) (ret : List Nat) : Nat × List Nat :=
  if 0 < tobits ∧ tobits ≤ bits then
    drain acc tobits (bits - tobits)
      (ret ++ [(acc >>> (bits - tobits)) &&& ((1 <<< tobits) - 1)])
  else (bits, ret)
termination_by bits

/-- The variables of `_convertbits`. -/
structure Bits where
  acc : Nat := 0
  bits : Nat := 0
  ret : List Nat := []

def Bits.step (frombits tobits : Nat) (s : Bits) (value : UInt8) : Bits :=
  let acc := (s.acc <<< frombits) ||| value.toNat
  let left := drain acc tobits (s.bits + frombits) s.ret
  ⟨acc, left.1, left.2⟩

/-- `_convertbits` -/
def convertbits (data : List UInt8) (frombits tobits : Nat) : List Nat :=
  let s := data.foldl (Bits.step frombits tobits) {}
  if s.bits ≠ 0 then
    s.ret ++ [(s.acc <<< (tobits - s.bits)) &&& ((1 <<< tobits) - 1)]
  else s.ret

/-- The bytes of a list of five-bit values: at most four bits may be left over, all of them
zero. -/
def regroup (values : List Nat) : Option (List UInt8) :=
  let pad := 5 * values.length % 8
  let number := ofPlaces 32 values
  if pad ≤ 4 ∧ number % 2 ^ pad = 0 then
    some ((places 256 (5 * values.length / 8) (number / 2 ^ pad)).map UInt8.ofNat)
  else none

/-! ## Segwit addresses -/

def bech32Charset : Text := "qpzry9x8gf2tvdw0s3jn54khce6mua7l".toList

/-- The constant of a witness version. -/
def versionConst (witver : Nat) : Nat := if witver = 0 then bech32Const else bech32mConst

/-- `_segwit_encode`; a value outside the charset is an `IndexError`. -/
def segwitEncode (hrp : Text) (witver : Nat) (witprog : List UInt8) : Option Text := do
  let data := witver :: convertbits witprog 8 5
  let combined := data ++ bech32Checksum hrp data (versionConst witver)
  let symbols ← combined.mapM (bech32Charset[·]?)
  return hrp ++ '1' :: symbols

/-- The part before the last `1` and the values of the symbols after it. -/
def splitAddress (text : Text) : Option (Text × List Nat) := do
  let symbols := (text.reverse.takeWhile (· != '1')).reverse
  let hrp ← (text.reverse.dropWhile (· != '1')).tail?
  let values ← symbols.mapM bech32Charset.idxOf?
  return (hrp.reverse, values)

/-- The address is one of the standards: its checksum gives the constant of its version, and its
data is a whole number of bytes. -/
def segwitDecode (text : Text) : Option (Text × Nat × List UInt8) := do
  let (hrp, values) ← splitAddress text
  let witver ← values.head?
  guard (bech32Polymod (hrpExpand hrp ++ values) = versionConst witver)
  let witprog ← regroup ((values.take (values.length - 6)).tail)
  return (hrp, witver, witprog)

end Avibe.Vault.Addresses
