import Avibe.Lib.Texts

/-!
# UTF-8 with error handlers

`encodePoint` is the UTF-8 encoding of a code point, in three bytes for a surrogate as the error handler
`surrogatepass` has it. `decode` reads bytes back and hands each byte of an ill-formed sequence to an
error handler: the handler `ignore` drops it, `surrogateescape` keeps it as a lone surrogate. Both
handlers treat the bytes of an ill-formed sequence one by one, so its extent plays no role.

The handler `replace` puts one U+FFFD for a sequence that breaks off, whatever its extent, where `decode`
puts one for each of its bytes. The two agree on the end of an encoded text that is cut where a sequence
starts: all that is ill-formed there is a surrogate, and each of its three bytes is replaced by itself.
-/

namespace Texts

def encodePoint (c : CodePoint) : List UInt8 :=
  let n := c.val
  if n < 0x80 then [.ofNat n]
  else if n < 0x800 then [.ofNat (0xc0 + n / 64), .ofNat (0x80 + n % 64)]
  else if n < 0x10000 then
    [.ofNat (0xe0 + n / 4096), .ofNat (0x80 + n / 64 % 64), .ofNat (0x80 + n % 64)]
  else
    [.ofNat (0xf0 + n / 262144), .ofNat (0x80 + n / 4096 % 64), .ofNat (0x80 + n / 64 % 64),
      .ofNat (0x80 + n % 64)]

/-- `str.encode` with `surrogatepass`. -/
def encode (t : Text) : List UInt8 := t.flatMap encodePoint

/-- The number that the bytes at the front would encode. -/
def candidate : List UInt8 → Nat
  | [] => 0
  | a :: rest =>
      let bits := fun i => (rest.getD i 0).toNat % 64
      if a.toNat < 0x80 then a.toNat
      else if a.toNat < 0xe0 then a.toNat % 32 * 64 + bits 0
      else if a.toNat < 0xf0 then a.toNat % 16 * 4096 + bits 0 * 64 + bits 1
      else a.toNat % 8 * 262144 + bits 0 * 4096 + bits 1 * 64 + bits 2

/-- The code point of the well-formed sequence at the front. -/
def sequence? (bytes : List UInt8) : Option CodePoint :=
  if h : candidate bytes < 0x110000 then
    let c : CodePoint := ⟨candidate bytes, h⟩
    if isScalar c && (encodePoint c).isPrefixOf bytes then some c else none
  else none

section Decode

variable (onError : UInt8 → Text)

/-- The code points after some bytes of the sequence before. -/
def decodeFrom : Nat → List UInt8 → Text
  | _, [] => []
  | 0, b :: rest =>
      match sequence? (b :: rest) with
      | some c => c :: decodeFrom ((encodePoint c).length - 1) rest
      | none => onError b ++ decodeFrom 0 rest
  | skip + 1, _ :: rest => decodeFrom skip rest

def decode (bytes : List UInt8) : Text := decodeFrom onError 0 bytes

end Decode

/-! ## Single code points -/

theorem encodePoint_cases (c : CodePoint) :
    (c.val < 0x80 ∧ encodePoint c = [.ofNat c.val] ∧ utf8Size c = 1) ∨
      (0x80 ≤ c.val ∧ c.val < 0x800 ∧ utf8Size c = 2 ∧
        encodePoint c = [.ofNat (0xc0 + c.val / 64), .ofNat (0x80 + c.val % 64)]) ∨
      (0x800 ≤ c.val ∧ c.val < 0x10000 ∧ utf8Size c = 3 ∧
        encodePoint c = [.ofNat (0xe0 + c.val / 4096), .ofNat (0x80 + c.val / 64 % 64),
          .ofNat (0x80 + c.val % 64)]) ∨
      (0x10000 ≤ c.val ∧ utf8Size c = 4 ∧
        encodePoint c = [.ofNat (0xf0 + c.val / 262144), .ofNat (0x80 + c.val / 4096 % 64),
          .ofNat (0x80 + c.val / 64 % 64), .ofNat (0x80 + c.val % 64)]) := by
  by_cases h₁ : c.val < 0x80
  · exact .inl ⟨h₁, if_pos h₁, if_pos h₁⟩
  · by_cases h₂ : c.val < 0x800
    · exact .inr (.inl ⟨not_lt.mp h₁, h₂, (if_neg h₁).trans (if_pos h₂), (if_neg h₁).trans (if_pos h₂)⟩)
    · by_cases h₃ : c.val < 0x10000
      · exact .inr (.inr (.inl ⟨not_lt.mp h₂, h₃, (if_neg h₁).trans ((if_neg h₂).trans (if_pos h₃)),
          (if_neg h₁).trans ((if_neg h₂).trans (if_pos h₃))⟩))
      · exact .inr (.inr (.inr ⟨not_lt.mp h₃, (if_neg h₁).trans ((if_neg h₂).trans (if_neg h₃)),
          (if_neg h₁).trans ((if_neg h₂).trans (if_neg h₃))⟩))

theorem length_encodePoint (c : CodePoint) : (encodePoint c).length = utf8Size c := by
  rcases encodePoint_cases c with ⟨-, heq, hsize⟩ | ⟨-, -, hsize, heq⟩ | ⟨-, -, hsize, heq⟩ | ⟨-, hsize, heq⟩
  all_goals rw [heq, hsize]; rfl

theorem utf8Size_pos (c : CodePoint) : 0 < utf8Size c := by
  rcases encodePoint_cases c with ⟨-, -, hsize⟩ | ⟨-, -, hsize, -⟩ | ⟨-, -, hsize, -⟩ | ⟨-, hsize, -⟩
  all_goals rw [hsize]; decide

theorem candidate_encodePoint (c : CodePoint) (rest : List UInt8) :
    candidate (encodePoint c ++ rest) = c := by
  have hc := c.isLt
  rcases encodePoint_cases c with ⟨_, heq, -⟩ | ⟨_, _, -, heq⟩ | ⟨_, _, -, heq⟩ | ⟨_, -, heq⟩
  all_goals
    rw [heq]
    simp [candidate]
    split_ifs <;> omega

/-- The byte is one after the first of a sequence. -/
def IsTail (b : UInt8) : Prop := 0x80 ≤ b.toNat ∧ b.toNat < 0xc0

/-- An encoding is a first byte and tail bytes. -/
theorem encodePoint_shape (c : CodePoint) :
    ∃ a tails, encodePoint c = a :: tails ∧ ¬ IsTail a ∧ ∀ b ∈ tails, IsTail b := by
  have hc := c.isLt
  rcases encodePoint_cases c with ⟨_, heq, -⟩ | ⟨_, _, -, heq⟩ | ⟨_, _, -, heq⟩ | ⟨_, -, heq⟩
  all_goals
    refine ⟨_, _, heq, ?_, ?_⟩
    · simp [IsTail]
      omega
    · simp [IsTail]
      try omega

theorem sequence?_eq_some {bytes : List UInt8} {c : CodePoint} :
    sequence? bytes = some c ↔ isScalar c = true ∧ encodePoint c <+: bytes := by
  constructor
  · intro h
    rw [sequence?] at h
    split at h
    · dsimp only at h
      split at h
      · rename_i hboth
        rw [Bool.and_eq_true] at hboth
        cases h
        exact ⟨hboth.1, List.isPrefixOf_iff_prefix.mp hboth.2⟩
      · cases h
    · cases h
  · rintro ⟨hscalar, rest, rfl⟩
    have hcandidate : candidate (encodePoint c ++ rest) = c := candidate_encodePoint c rest
    have hprefix : (encodePoint c).isPrefixOf (encodePoint c ++ rest) = true :=
      List.isPrefixOf_iff_prefix.mpr (List.prefix_append _ _)
    rw [sequence?, dif_pos (hcandidate ▸ c.isLt)]
    simp only [hcandidate, Fin.eta, hscalar, hprefix, Bool.and_self, if_true]

/-- Encodings are a prefix code. -/
theorem encodePoint_prefix_code {c d : CodePoint} {rest rest' : List UInt8}
    (h : encodePoint c ++ rest = encodePoint d ++ rest') : c = d := by
  apply Fin.ext
  rw [← candidate_encodePoint c rest, h, candidate_encodePoint]

theorem sequence?_tail {b : UInt8} (h : IsTail b) (rest : List UInt8) : sequence? (b :: rest) = none := by
  cases hsequence : sequence? (b :: rest) with
  | none => rfl
  | some c =>
      obtain ⟨-, after, heq⟩ := sequence?_eq_some.mp hsequence
      obtain ⟨a, tails, hshape, hhead, -⟩ := encodePoint_shape c
      rw [hshape, List.cons_append] at heq
      exact absurd ((List.cons.inj heq).1 ▸ h) hhead

/-- The bytes of a surrogate are not a well-formed sequence. -/
theorem sequence?_surrogate {c : CodePoint} (h : isScalar c = false) (rest : List UInt8) :
    sequence? (encodePoint c ++ rest) = none := by
  cases hsequence : sequence? (encodePoint c ++ rest) with
  | none => rfl
  | some d =>
      obtain ⟨hscalar, after, heq⟩ := sequence?_eq_some.mp hsequence
      obtain rfl := encodePoint_prefix_code heq
      rw [h] at hscalar
      cases hscalar

/-- A sequence that is cut short is not well-formed. -/
theorem sequence?_cut {c : CodePoint} {bytes : List UInt8} (h : bytes <+: encodePoint c)
    (hne : bytes ≠ encodePoint c) : sequence? bytes = none := by
  cases hsequence : sequence? bytes with
  | none => rfl
  | some d =>
      obtain ⟨-, more, hmore⟩ := sequence?_eq_some.mp hsequence
      obtain ⟨rest, hrest⟩ := h
      have heq : encodePoint d ++ (more ++ rest) = encodePoint c ++ [] := by
        rw [← List.append_assoc, hmore, hrest, List.append_nil]
      obtain rfl := encodePoint_prefix_code heq
      rw [List.append_cancel_left_eq] at heq
      obtain ⟨rfl, rfl⟩ := List.append_eq_nil_iff.mp heq
      exact absurd (hrest.symm ▸ (List.append_nil bytes).symm) hne

/-! ## Decoding -/

section Decode

variable {onError : UInt8 → Text}

theorem decodeFrom_drop (skip : Nat) (bytes : List UInt8) :
    decodeFrom onError skip bytes = decode onError (bytes.drop skip) := by
  induction bytes generalizing skip with
  | nil => cases skip <;> rfl
  | cons b bytes ih =>
      cases skip with
      | zero => rfl
      | succ skip => exact ih skip

theorem decode_sequence {bytes rest : List UInt8} {c : CodePoint} (hscalar : isScalar c = true)
    (h : bytes = encodePoint c ++ rest) : decode onError bytes = c :: decode onError rest := by
  obtain ⟨a, tails, hshape, -⟩ := encodePoint_shape c
  have hsequence : sequence? bytes = some c :=
    sequence?_eq_some.mpr ⟨hscalar, h ▸ List.prefix_append _ _⟩
  rw [h, hshape, List.cons_append] at hsequence ⊢
  rw [decode, decodeFrom, hsequence]
  simp only [hshape, List.length_cons, Nat.add_sub_cancel, decodeFrom_drop, List.drop_left']

theorem decode_error {b : UInt8} {rest : List UInt8} (h : sequence? (b :: rest) = none) :
    decode onError (b :: rest) = onError b ++ decode onError rest := by
  rw [decode, decodeFrom, h]
  rfl

theorem decode_tails {tails : List UInt8} (h : ∀ b ∈ tails, IsTail b) (rest : List UInt8) :
    decode onError (tails ++ rest) = tails.flatMap onError ++ decode onError rest := by
  induction tails with
  | nil => rfl
  | cons b tails ih =>
      rw [List.cons_append, decode_error (sequence?_tail (h b List.mem_cons_self) _),
        ih fun b hb => h b (List.mem_cons_of_mem _ hb), List.flatMap_cons, List.append_assoc]

/-- One encoded code point read back: a surrogate byte by byte. -/
theorem decode_encodePoint (c : CodePoint) (rest : List UInt8) :
    decode onError (encodePoint c ++ rest) =
      (if isScalar c then [c] else (encodePoint c).flatMap onError) ++ decode onError rest := by
  by_cases hscalar : isScalar c = true
  · rw [if_pos hscalar, decode_sequence hscalar rfl]
    rfl
  · rw [if_neg hscalar]
    have hnone := sequence?_surrogate (Bool.not_eq_true _ ▸ hscalar) rest
    obtain ⟨a, tails, hshape, -, htails⟩ := encodePoint_shape c
    rw [hshape, List.cons_append] at hnone ⊢
    rw [decode_error hnone, decode_tails htails, List.flatMap_cons, List.append_assoc]

theorem decode_cut {c : CodePoint} {bytes : List UInt8} (h : bytes <+: encodePoint c)
    (hne : bytes ≠ encodePoint c) : decode onError bytes = bytes.flatMap onError := by
  cases bytes with
  | nil => rfl
  | cons b bytes =>
      obtain ⟨a, tails, hshape, -, htails⟩ := encodePoint_shape c
      have hnone := sequence?_cut h hne
      rw [hshape, List.cons_prefix_cons] at h
      have hbytes : decode onError (bytes ++ []) = bytes.flatMap onError ++ [] :=
        decode_tails (fun b hb => htails b (h.2.subset hb)) []
      rw [List.append_nil] at hbytes
      rw [decode_error hnone, hbytes, List.flatMap_cons]
      exact congrArg _ (List.append_nil _)

end Decode

/-! ## Heads of texts -/

/-- The longest head within a number of bytes. -/
def within (limit : Nat) : Text → Text
  | [] => []
  | c :: t => if utf8Size c ≤ limit then c :: within (limit - utf8Size c) t else []

theorem isPrefix_within (limit : Nat) (t : Text) : within limit t <+: t := by
  induction t generalizing limit with
  | nil => exact List.prefix_refl _
  | cons c t ih =>
      rw [within]
      split
      · exact List.cons_prefix_cons.mpr ⟨rfl, ih _⟩
      · exact List.nil_prefix

theorem within_mono {limit limit' : Nat} (h : limit ≤ limit') (t : Text) :
    within limit t <+: within limit' t := by
  induction t generalizing limit limit' with
  | nil => exact List.prefix_refl _
  | cons c t ih =>
      rw [within, within]
      by_cases hfits : utf8Size c ≤ limit
      · rw [if_pos hfits, if_pos (hfits.trans h)]
        exact List.cons_prefix_cons.mpr ⟨rfl, ih (Nat.sub_le_sub_right h _)⟩
      · rw [if_neg hfits]
        exact List.nil_prefix

theorem within_zero (t : Text) : within 0 t = [] := by
  cases t with
  | nil => rfl
  | cons c t => rw [within, if_neg (Nat.not_le.mpr (utf8Size_pos c))]

theorem length_encode (t : Text) : (encode t).length = (t.map utf8Size).sum := by
  induction t with
  | nil => rfl
  | cons c t ih =>
      rw [encode, List.flatMap_cons, List.length_append, length_encodePoint, ← encode, ih]
      rfl

theorem length_encode_within (limit : Nat) (t : Text) : (encode (within limit t)).length ≤ limit := by
  induction t generalizing limit with
  | nil => exact Nat.zero_le _
  | cons c t ih =>
      rw [within]
      split
      · rename_i hfits
        have := ih (limit - utf8Size c)
        rw [encode, List.flatMap_cons, List.length_append, length_encodePoint, ← encode]
        omega
      · exact Nat.zero_le _

/-- The bytes of a text cut at a limit, read back with `ignore`: the head within the limit, without
its lone surrogates. -/
theorem decode_take_encode (limit : Nat) (t : Text) :
    decode (fun _ => []) ((encode t).take limit) = (within limit t).filter isScalar := by
  induction t generalizing limit with
  | nil => rw [encode, List.flatMap_nil, List.take_nil]; rfl
  | cons c t ih =>
      rw [encode, List.flatMap_cons, within, List.take_append, length_encodePoint]
      split
      · rename_i hfits
        rw [List.take_of_length_le (length_encodePoint c ▸ hfits), decode_encodePoint, ← encode, ih,
          List.filter_cons, List.flatMap_eq_nil_iff.mpr fun _ _ => rfl]
        split <;> rfl
      · rename_i hlong
        have hcut : (encodePoint c).take limit ≠ encodePoint c := by
          intro heq
          have hlength := congrArg List.length heq
          rw [List.length_take, length_encodePoint] at hlength
          omega
        rw [Nat.sub_eq_zero_of_le (Nat.le_of_not_le hlong), List.take_zero, List.append_nil,
          decode_cut (List.take_prefix _ _) hcut]
        exact List.flatMap_eq_nil_iff.mpr fun _ _ => rfl

/-! ## Escapes -/

/-- The lone surrogate that stands for a byte. -/
def escape (b : UInt8) : CodePoint := ⟨0xdc00 + b.toNat, by have := b.toNat_lt; omega⟩

/-- `bytes.decode` with `surrogateescape`. -/
def decodeFile (bytes : List UInt8) : Text := decode (fun b => [escape b]) bytes

/-- `str.encode` with `surrogateescape`, which has no bytes for other lone surrogates. -/
def encodeFile : Text → Option (List UInt8)
  | [] => some []
  | c :: t =>
      if isScalar c then (encodeFile t).map (encodePoint c ++ ·)
      else if 0xdc80 ≤ c.val ∧ c.val < 0xdd00 then (encodeFile t).map (UInt8.ofNat (c.val - 0xdc00) :: ·)
      else none

theorem toNat_lt_of_ascii {b : UInt8} (h : b.toNat < 0x80) : b.toNat < 0x110000 := by omega

theorem sequence?_ascii {b : UInt8} (h : b.toNat < 0x80) (rest : List UInt8) :
    sequence? (b :: rest) = some ⟨b.toNat, by omega⟩ := by
  have hencode : encodePoint ⟨b.toNat, by omega⟩ = [b] := by
    rw [encodePoint, if_pos h, UInt8.ofNat_toNat]
  rw [sequence?_eq_some, hencode]
  exact ⟨by simp [isScalar, Fin.lt_def]; omega, by simp⟩

/-- Bytes survive being read and written back. -/
theorem encodeFile_decodeFile (bytes : List UInt8) : encodeFile (decodeFile bytes) = some bytes := by
  induction hlength : bytes.length using Nat.strong_induction_on generalizing bytes with
  | _ n ih =>
      cases bytes with
      | nil => rfl
      | cons b rest =>
          cases hsequence : sequence? (b :: rest) with
          | some c =>
              obtain ⟨hscalar, after, heq⟩ := sequence?_eq_some.mp hsequence
              have hshort : after.length < n := by
                have := congrArg List.length heq
                have := utf8Size_pos c
                rw [List.length_append, length_encodePoint] at *
                omega
              rw [decodeFile, decode_sequence hscalar heq.symm, encodeFile, if_pos hscalar, ← decodeFile,
                ih _ hshort after rfl, Option.map_some, heq]
          | none =>
              have hbyte : 0x80 ≤ b.toNat := by
                by_contra hascii
                rw [sequence?_ascii (not_le.mp hascii)] at hsequence
                cases hsequence
              have hlt := b.toNat_lt
              have hscalar : isScalar (escape b) = false := by
                simp [isScalar, escape, Fin.lt_def]
                omega
              have hescape : 0xdc80 ≤ (escape b).val ∧ (escape b).val < 0xdd00 := by
                simp only [escape]
                omega
              have hshort : rest.length < n := hlength ▸ Nat.lt_succ_self _
              have hback : UInt8.ofNat ((escape b).val - 0xdc00) = b := by
                rw [escape, Nat.add_sub_cancel_left, UInt8.ofNat_toNat]
              rw [decodeFile, decode_error hsequence, List.singleton_append, encodeFile,
                if_neg (Bool.not_eq_true _ ▸ hscalar), if_pos hescape, ← decodeFile,
                ih _ hshort rest rfl, Option.map_some, hback]

end Texts
