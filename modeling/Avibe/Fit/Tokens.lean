import Avibe.Lib.Codec
import Mathlib.Algebra.Order.BigOperators.Group.List
import Mathlib.Algebra.Order.Group.Nat

/-!
# Token estimates

The estimate counts a token for every four bytes of UTF-8 and a fixed number for an image.
-/

namespace Avibe.Fit

open Texts

/-- The bytes of a text as the estimate counts them, lone surrogates included. -/
def utf8 (t : Text) : Nat := (encode t).length

def tokensOf (bytes : Nat) : Nat := (bytes + 3) / 4

def textTokens (t : Text) : Nat := tokensOf (utf8 t)

def imageTokens : Nat := 1600

/-- A block of a tool result: a text, a stored text with its size, or an image. -/
inductive Block
  | text (t : Text)
  | ref (bytes : Nat)
  | image
deriving DecidableEq

def Block.bytes : Block → Nat
  | .text t => utf8 t
  | .ref bytes => bytes
  | .image => 0

def Block.isImage : Block → Bool
  | .image => true
  | _ => false

/-- `message_tokens` of a tool result. -/
def messageTokens (content : List Block) : Nat :=
  tokensOf (content.map Block.bytes).sum + content.countP Block.isImage * imageTokens

theorem utf8_append (t u : Text) : utf8 (t ++ u) = utf8 t + utf8 u := by
  rw [utf8, utf8, utf8, encode, List.flatMap_append, List.length_append]
  rfl

theorem messageTokens_text (t : Text) : messageTokens [.text t] = textTokens t := by
  simp [messageTokens, Block.bytes, Block.isImage, textTokens]

theorem utf8_filter_le (p : CodePoint → Bool) (t : Text) : utf8 (t.filter p) ≤ utf8 t := by
  rw [utf8, utf8, length_encode, length_encode]
  exact (List.filter_sublist.map utf8Size).sum_le_sum fun _ _ => Nat.zero_le _

theorem utf8_within_le (limit : Nat) (t : Text) : utf8 (within limit t) ≤ limit :=
  length_encode_within limit t

end Avibe.Fit
