import Avibe.Lib.Codec

/-!
# Lengths in bytes and ends of texts

`utf8Len` is the number of bytes of a text. `endWithin` is the longest end of a text within a number of
bytes; it is what the last bytes of the text are from the next character on (`skipTails_drop`).
-/

namespace Texts

/-! ## Lengths -/

def utf8Len (t : Text) : Nat := (encode t).length

theorem encode_append (t u : Text) : encode (t ++ u) = encode t ++ encode u := List.flatMap_append

@[simp] theorem utf8Len_nil : utf8Len [] = 0 := rfl

@[simp] theorem utf8Len_cons (c : CodePoint) (t : Text) : utf8Len (c :: t) = utf8Size c + utf8Len t := by
  rw [utf8Len, encode, List.flatMap_cons, List.length_append, length_encodePoint]
  rfl

@[simp] theorem utf8Len_append (t u : Text) : utf8Len (t ++ u) = utf8Len t + utf8Len u := by
  rw [utf8Len, encode_append, List.length_append]
  rfl

@[simp] theorem utf8Len_reverse (t : Text) : utf8Len t.reverse = utf8Len t := by
  induction t with
  | nil => rfl
  | cons c t ih =>
      rw [List.reverse_cons, utf8Len_append, ih, utf8Len_cons, utf8Len_cons, utf8Len_nil]
      omega

/-! ## Ends of texts -/

theorem utf8Len_within_le (limit : Nat) (t : Text) : utf8Len (within limit t) ≤ limit := length_encode_within limit t

/-- What stops the head within a limit is the character after it. -/
theorem within_stop {limit : Nat} {t : Text} (h : within limit t ≠ t) :
    ∃ c rest, t = within limit t ++ c :: rest ∧ limit < utf8Len (within limit t) + utf8Size c := by
  induction t generalizing limit with
  | nil => exact absurd rfl h
  | cons c t ih =>
      rw [within] at h ⊢
      by_cases hfits : utf8Size c ≤ limit
      · rw [if_pos hfits] at h ⊢
        obtain ⟨d, rest, heq, hlong⟩ := ih fun heq => h (by rw [heq])
        refine ⟨d, rest, congrArg (c :: ·) heq, ?_⟩
        rw [utf8Len_cons]
        omega
      · rw [if_neg hfits]
        refine ⟨c, t, rfl, ?_⟩
        rw [utf8Len_nil]
        omega

theorem within_eq_self {limit : Nat} {t : Text} (h : utf8Len t ≤ limit) : within limit t = t := by
  by_contra hne
  obtain ⟨c, rest, heq, hlong⟩ := within_stop hne
  rw [heq, utf8Len_append, utf8Len_cons] at h
  omega

/-- Every head within the limit is part of the longest one. -/
theorem prefix_within_of_le {limit : Nat} {t u : Text} (h : u <+: t) (hle : utf8Len u ≤ limit) :
    u <+: within limit t := by
  obtain ⟨rest, rfl⟩ := h
  induction u generalizing limit with
  | nil => exact List.nil_prefix
  | cons c u ih =>
      rw [utf8Len_cons] at hle
      rw [List.cons_append, within, if_pos (Nat.le_of_add_right_le hle)]
      exact List.cons_prefix_cons.mpr ⟨rfl, ih (by omega)⟩

/-- The longest end within a number of bytes. -/
def endWithin (limit : Nat) (t : Text) : Text := (within limit t.reverse).reverse

theorem endWithin_suffix (limit : Nat) (t : Text) : endWithin limit t <:+ t := by
  have h := List.reverse_suffix.mpr (isPrefix_within limit t.reverse)
  rwa [List.reverse_reverse] at h

theorem utf8Len_endWithin_le (limit : Nat) (t : Text) : utf8Len (endWithin limit t) ≤ limit := by
  rw [endWithin, utf8Len_reverse]
  exact utf8Len_within_le limit _

theorem endWithin_eq_self {limit : Nat} {t : Text} (h : utf8Len t ≤ limit) : endWithin limit t = t := by
  rw [endWithin, within_eq_self (le_of_eq_of_le (utf8Len_reverse t) h), List.reverse_reverse]

theorem endWithin_stop {limit : Nat} {t : Text} (h : endWithin limit t ≠ t) :
    ∃ before c, t = before ++ c :: endWithin limit t ∧ limit < utf8Size c + utf8Len (endWithin limit t) := by
  have hne : within limit t.reverse ≠ t.reverse := by
    intro heq
    exact h (by rw [endWithin, heq, List.reverse_reverse])
  obtain ⟨c, rest, heq, hlong⟩ := within_stop hne
  refine ⟨rest.reverse, c, ?_, ?_⟩
  · have hrev := congrArg List.reverse heq
    rw [List.reverse_reverse, List.reverse_append, List.reverse_cons, List.append_assoc,
      List.singleton_append] at hrev
    exact hrev
  · rw [endWithin, utf8Len_reverse]
    omega

theorem suffix_endWithin_of_le {limit : Nat} {t u : Text} (h : u <:+ t) (hle : utf8Len u ≤ limit) :
    u <:+ endWithin limit t := by
  have hprefix : u.reverse <+: within limit t.reverse := by
    apply prefix_within_of_le (List.reverse_prefix.mpr h)
    rwa [utf8Len_reverse]
  have hsuffix := List.reverse_suffix.mpr hprefix
  rwa [List.reverse_reverse] at hsuffix

theorem within_append {limit : Nat} {t u : Text} {c : CodePoint} (h : limit < utf8Len t + utf8Size c) :
    within limit (t ++ c :: u) = within limit t := by
  induction t generalizing limit with
  | nil =>
      rw [utf8Len_nil, Nat.zero_add] at h
      exact if_neg (not_le.mpr h)
  | cons d t ih =>
      rw [utf8Len_cons] at h
      rw [List.cons_append, within, within]
      by_cases hfits : utf8Size d ≤ limit
      · rw [if_pos hfits, if_pos hfits, ih (by omega)]
      · rw [if_neg hfits, if_neg hfits]

/-- What does not fit does not matter for the end that fits. -/
theorem endWithin_append {limit : Nat} {t u : Text} {c : CodePoint} (h : limit < utf8Size c + utf8Len t) :
    endWithin limit (u ++ c :: t) = endWithin limit t := by
  have hreverse : (u ++ c :: t).reverse = t.reverse ++ c :: u.reverse := by simp
  rw [endWithin, endWithin, hreverse, within_append (by rw [utf8Len_reverse]; omega)]

/-- `b & 0xc0 == 0x80`. -/
def isTailByte (b : UInt8) : Bool := b &&& 0xc0 == 0x80

/-- The bytes from the next first byte of a sequence on. -/
def skipTails (bytes : List UInt8) : List UInt8 := bytes.dropWhile isTailByte

theorem isTailByte_iff (b : UInt8) : isTailByte b = true ↔ IsTail b := by
  have h : ∀ b : Fin 256, isTailByte (UInt8.ofNat b.val) = true ↔ 0x80 ≤ b.val ∧ b.val < 0xc0 := by
    decide +kernel
  have hb := h ⟨b.toNat, b.toNat_lt⟩
  rwa [UInt8.ofNat_toNat] at hb

theorem skipTails_encode (t : Text) : skipTails (encode t) = encode t := by
  cases t with
  | nil => rfl
  | cons c t =>
      obtain ⟨a, tails, heq, hfirst, -⟩ := encodePoint_shape c
      rw [encode, List.flatMap_cons, heq, List.cons_append, skipTails, List.dropWhile_cons_of_neg]
      exact fun hbyte => hfirst ((isTailByte_iff a).mp hbyte)

theorem skipTails_tails {tails : List UInt8} (h : ∀ b ∈ tails, IsTail b) (rest : List UInt8) :
    skipTails (tails ++ rest) = skipTails rest := by
  induction tails with
  | nil => rfl
  | cons b tails ih =>
      have hb := (isTailByte_iff b).mpr (h b List.mem_cons_self)
      rw [List.cons_append, skipTails, List.dropWhile_cons_of_pos hb]
      exact ih fun b hb => h b (List.mem_cons_of_mem _ hb)

/-- The last bytes of a text from a character on are the longest end within as many bytes. -/
theorem skipTails_drop (limit : Nat) (t : Text) :
    skipTails ((encode t).drop ((encode t).length - limit)) = encode (endWithin limit t) := by
  by_cases hself : endWithin limit t = t
  · have hle : utf8Len t ≤ limit := by
      rw [← hself]
      exact utf8Len_endWithin_le limit t
    have hzero : (encode t).length - limit = 0 := Nat.sub_eq_zero_of_le hle
    rw [hzero, List.drop_zero, skipTails_encode, hself]
  · obtain ⟨before, c, heq, hlong⟩ := endWithin_stop hself
    have hle := utf8Len_endWithin_le limit t
    generalize endWithin limit t = last at heq hlong hle ⊢
    subst heq
    obtain ⟨a, tails, hshape, -, htails⟩ := encodePoint_shape c
    have hsize : tails.length + 1 = utf8Size c := by
      rw [← length_encodePoint, hshape]
      rfl
    have hdrop : (encode (before ++ c :: last)).drop ((encode (before ++ c :: last)).length - limit) =
        tails.drop (tails.length + utf8Len last - limit) ++ encode last := by
      have hbytes : encode (before ++ c :: last) = encode before ++ [a] ++ (tails ++ encode last) := by
        rw [encode_append]
        simp [encode, hshape]
      have hskip : (encode (before ++ c :: last)).length - limit =
          (encode before ++ [a]).length + (tails.length + utf8Len last - limit) := by
        have hlast : (encode last).length = utf8Len last := rfl
        rw [hbytes, List.length_append, List.length_append, List.length_append, List.length_singleton, hlast]
        omega
      rw [hskip, hbytes, ← List.drop_drop, List.drop_left, List.drop_append_of_le_length (by omega)]
    rw [hdrop, skipTails_tails (fun b hb => htails b (List.mem_of_mem_drop hb)), skipTails_encode]

/-- A text read back from its bytes: an error handler takes the bytes of a lone surrogate one by one. -/
theorem decode_encode_onError (onError : UInt8 → Text) (t : Text) :
    decode onError (encode t) = t.flatMap fun c => if isScalar c then [c] else (encodePoint c).flatMap onError := by
  induction t with
  | nil => rfl
  | cons c t ih =>
      rw [encode, List.flatMap_cons, decode_encodePoint, ← encode, ih, List.flatMap_cons]

/-- A lone surrogate has three bytes. -/
theorem surrogate_size {c : CodePoint} (h : isScalar c = false) : 1 < utf8Size c := by
  simp [isScalar, Fin.lt_def] at h
  rcases encodePoint_cases c with ⟨hlt, -⟩ | ⟨-, hlt, -⟩ | ⟨-, -, hsize, -⟩ | ⟨-, hsize, -⟩
  · omega
  · omega
  · rw [hsize]
    decide
  · rw [hsize]
    decide

end Texts
