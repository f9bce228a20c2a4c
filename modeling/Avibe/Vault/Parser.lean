import Avibe.Vault.Transaction

/-!
# The parser accepts exactly its grammar

Each reader is described by what it takes off the bytes after its offset. Read
together they say that a text parses to a transaction exactly when the transaction
is well formed and the text is the hexadecimal of its canonical bytes.
-/

namespace Avibe.Vault

open Bytes Checked

/-! ## Readers -/

/-- What is left of the bytes at an offset. -/
def At (raw : List UInt8) (offset : Nat) (rest : List UInt8) : Prop :=
  offset ≤ raw.length ∧ raw.drop offset = rest

theorem At.append {raw taken rest : List UInt8} {offset : Nat}
    (h : At raw offset (taken ++ rest)) : At raw (offset + taken.length) rest := by
  obtain ⟨hle, hdrop⟩ := h
  have hlen := congrArg List.length hdrop
  rw [List.length_drop, List.length_append] at hlen
  refine ⟨by omega, ?_⟩
  rw [← List.drop_drop, hdrop, List.drop_left]

theorem At.tail {raw rest : List UInt8} {byte : UInt8} {offset : Nat}
    (h : At raw offset (byte :: rest)) : At raw (offset + 1) rest := by
  rw [← List.singleton_append] at h
  exact h.append

theorem At.length {raw rest : List UInt8} {offset : Nat} (h : At raw offset rest) :
    offset + rest.length = raw.length := by
  obtain ⟨hle, rfl⟩ := h
  rw [List.length_drop]
  omega

section Readers

variable {raw rest : List UInt8} {offset : Nat}

theorem readExact_iff (h : At raw offset rest) {length next : Nat} {field : String}
    {taken : List UInt8} :
    readExact raw offset length field = .ok (taken, next) ↔
      ∃ rest', rest = taken ++ rest' ∧ taken.length = length ∧ next = offset + taken.length := by
  have hlen := h.length
  obtain ⟨-, hdrop⟩ := h
  constructor
  · intro hread
    obtain ⟨hle, hread⟩ := require_bind_ok hread
    cases pure_ok hread
    have htake : ((raw.drop offset).take length).length = length := by
      rw [hdrop, List.length_take]
      omega
    exact ⟨rest.drop length, by rw [hdrop, List.take_append_drop], htake, by rw [htake]⟩
  · rintro ⟨rest', rfl, rfl, rfl⟩
    rw [List.length_append] at hlen
    rw [readExact, bind_eq_ok (require_eq_ok (by omega)), hdrop, List.take_left]
    rfl

theorem readCompactSize_iff (h : At raw offset rest) {value next : Nat} {field : String} :
    readCompactSize raw offset field = .ok (value, next) ↔
      ∃ rest', rest = UInt8.ofNat value :: rest' ∧ value < 0xFD ∧ next = offset + 1 := by
  obtain ⟨-, hdrop⟩ := h
  have hget : raw[offset]? = rest.head? := by rw [← hdrop, List.head?_drop]
  constructor
  · intro hread
    obtain ⟨byte, hbyte, hread⟩ := bind_ok hread
    obtain ⟨hlt, hread⟩ := require_bind_ok hread
    cases pure_ok hread
    have hhead := found_ok hbyte
    rw [hget] at hhead
    obtain ⟨rest', rfl⟩ := List.head?_eq_some_iff.mp hhead
    exact ⟨rest', by rw [UInt8.ofNat_toNat], UInt8.lt_iff_toNat_lt.mp hlt, rfl⟩
  · rintro ⟨rest', rfl, hlt, rfl⟩
    have hnat : (UInt8.ofNat value).toNat = value := by
      rw [UInt8.toNat_ofNat']
      omega
    have hbyte : UInt8.ofNat value < 0xFD := by
      rw [UInt8.lt_iff_toNat_lt, hnat]
      exact hlt
    rw [readCompactSize, hget, List.head?_cons]
    change (require (UInt8.ofNat value < 0xFD) _ >>= _) = _
    rw [bind_eq_ok (require_eq_ok hbyte), hnat]
    rfl

theorem ensureInteger_iff {value minimum maximum : Nat} {field : String} {u : Unit} :
    ensureInteger value minimum maximum field = .ok u ↔ minimum ≤ value ∧ value ≤ maximum :=
  ⟨require_ok, fun h => require_eq_ok h⟩

end Readers

/-! ## Scripts -/

theorem matches_length {kind : ScriptKind} {script : List UInt8} (h : kind.Matches script) :
    script.length = kind.length := by
  obtain ⟨body, hbody, rfl⟩ := h
  cases kind <;> simp_all [ScriptKind.template, ScriptKind.length]

/-- A template, read as its length, its first bytes and its last bytes. -/
theorem matches_iff {kind : ScriptKind} {script : List UInt8} :
    kind.Matches script ↔
      script.length = kind.length ∧
        script.take kind.template.1.length = kind.template.1 ∧
        script.drop (kind.template.1.length + kind.template.2.1) = kind.template.2.2 := by
  constructor
  · intro h
    refine ⟨matches_length h, ?_⟩
    obtain ⟨body, hbody, rfl⟩ := h
    constructor
    · rw [List.append_assoc, List.take_left]
    · rw [← hbody, ← List.length_append, List.drop_left]
  · rintro ⟨hlen, htake, hdrop⟩
    refine ⟨(script.drop kind.template.1.length).take kind.template.2.1, ?_, ?_⟩
    · rw [List.length_take, List.length_drop, hlen]
      cases kind <;> rfl
    · have hsplit := List.take_append_drop (kind.template.1.length + kind.template.2.1) script
      rw [List.take_add, htake, hdrop] at hsplit
      exact hsplit.symm

theorem scriptKind_iff {script : List UInt8} {kind : ScriptKind} :
    scriptKind script = .ok kind ↔ kind.Matches script := by
  rw [matches_iff]
  constructor
  · intro h
    unfold scriptKind at h
    split at h
    · rename_i hc
      cases h
      exact hc
    split at h
    · rename_i hc
      cases h
      exact hc
    split at h
    · rename_i hc
      cases h
      exact ⟨hc.1, hc.2, List.drop_eq_nil_of_le (Nat.le_of_eq hc.1)⟩
    split at h
    · rename_i hc
      cases h
      exact ⟨hc.1, hc.2, List.drop_eq_nil_of_le (Nat.le_of_eq hc.1)⟩
    split at h
    · rename_i hc
      cases h
      exact ⟨hc.1, hc.2, List.drop_eq_nil_of_le (Nat.le_of_eq hc.1)⟩
    · cases h
  · rintro ⟨hlen, htake, hdrop⟩
    cases kind <;>
      simp_all [scriptKind, ScriptKind.template, ScriptKind.length]

/-! ## Outputs -/

theorem length_le_of_kind (kind : ScriptKind) : kind.length ≤ 34 := by
  cases kind <;> decide

theorem dustFloor_pos (kind : ScriptKind) : 1 ≤ kind.dustFloor := by
  cases kind <;> decide

theorem money_lt : moneyRangeSats < 256 ^ 8 := by decide

/-- One output is read exactly when its bytes come next. -/
theorem readOutput_iff {raw rest : List UInt8} {index offset next : Nat} {output : BitcoinOutput}
    (h : At raw offset rest) :
    readOutput raw index offset = .ok (output, next) ↔
      ∃ rest', rest = output.bytes ++ rest' ∧ output.WellFormed ∧
        next = offset + output.bytes.length := by
  constructor
  · intro hread
    obtain ⟨⟨amountRaw, o₁⟩, hamount, hread⟩ := bind_ok hread
    obtain ⟨r₁, rfl, hamountLen, rfl⟩ := (readExact_iff h).mp hamount
    have h₁ := h.append
    obtain ⟨_, hmoney, hread⟩ := bind_ok hread
    have hmoney := ensureInteger_iff.mp hmoney
    obtain ⟨⟨scriptLength, o₂⟩, hsize, hread⟩ := bind_ok hread
    obtain ⟨r₂, rfl, -, rfl⟩ := (readCompactSize_iff h₁).mp hsize
    have h₂ : At raw (offset + amountRaw.length + 1) r₂ := h₁.tail
    obtain ⟨⟨script, o₃⟩, hscript, hread⟩ := bind_ok hread
    obtain ⟨r₃, rfl, rfl, rfl⟩ := (readExact_iff h₂).mp hscript
    obtain ⟨kind, hkind, hread⟩ := bind_ok hread
    obtain ⟨-, hread⟩ := require_bind_ok hread
    obtain ⟨hdust, hread⟩ := require_bind_ok hread
    cases pure_ok hread
    have hlittle : toLittle 8 (ofLittle amountRaw) = amountRaw := by
      rw [← hamountLen, toLittle_ofLittle]
    refine ⟨r₃, ?_, ⟨scriptKind_iff.mp hkind, hdust, hmoney.2⟩, ?_⟩
    · simp [BitcoinOutput.bytes, hlittle]
    · simp [BitcoinOutput.bytes, hamountLen]
      omega
  · rintro ⟨rest', rfl, ⟨htemplate, hdust, hmoney⟩, rfl⟩
    obtain ⟨amount, script, kind⟩ := output
    have hlen : script.length = kind.length := matches_length htemplate
    have hle := length_le_of_kind kind
    have hpos := dustFloor_pos kind
    simp only [BitcoinOutput.bytes, List.append_assoc, List.cons_append] at h ⊢
    have hread₁ : ∀ field, readExact raw offset 8 field = .ok (toLittle 8 amount, offset + 8) :=
      fun field => (readExact_iff h).mpr ⟨_, rfl, by simp, by simp⟩
    have h₁ := h.append
    rw [length_toLittle] at h₁
    have hread₂ : ∀ field, readCompactSize raw (offset + 8) field =
        .ok (script.length, offset + 8 + 1) :=
      fun field => (readCompactSize_iff h₁).mpr ⟨_, rfl, by omega, rfl⟩
    have h₂ := h₁.tail
    have hread₃ : ∀ field, readExact raw (offset + 8 + 1) script.length field =
        .ok (script, offset + 8 + 1 + script.length) :=
      fun field => (readExact_iff h₂).mpr ⟨_, rfl, rfl, rfl⟩
    have hamount : ofLittle (toLittle 8 amount) = amount :=
      ofLittle_toLittle (Nat.lt_of_le_of_lt hmoney money_lt)
    rw [readOutput, bind_eq_ok (hread₁ _)]
    dsimp only
    rw [hamount, bind_eq_ok (ensureInteger_iff (u := ()).mpr ⟨Nat.le_trans hpos hdust, hmoney⟩),
      bind_eq_ok (hread₂ _)]
    dsimp only
    rw [bind_eq_ok (hread₃ _)]
    dsimp only
    rw [bind_eq_ok (scriptKind_iff.mpr htemplate), bind_eq_ok (require_eq_ok hlen),
      bind_eq_ok (require_eq_ok hdust)]
    simp only [List.length_append, length_toLittle, List.length_cons]
    have hnext : offset + 8 + 1 + script.length = offset + (8 + (script.length + 1)) := by omega
    rw [hnext]
    rfl

/-- The outputs are read exactly when their bytes come next. -/
theorem readOutputs_iff {raw rest : List UInt8} {count index offset next : Nat}
    {outputs : List BitcoinOutput} (h : At raw offset rest) :
    readOutputs raw count index offset = .ok (outputs, next) ↔
      ∃ rest', rest = outputs.flatMap BitcoinOutput.bytes ++ rest' ∧ outputs.length = count ∧
        (∀ output ∈ outputs, output.WellFormed) ∧
        next = offset + (outputs.flatMap BitcoinOutput.bytes).length := by
  induction count generalizing index offset rest outputs next with
  | zero =>
      rw [readOutputs]
      constructor
      · intro hread
        cases pure_ok hread
        exact ⟨rest, rfl, rfl, fun _ ho => (by cases ho), rfl⟩
      · rintro ⟨rest', rfl, hlen, -, rfl⟩
        rw [List.length_eq_zero_iff.mp hlen]
        rfl
  | succ count ih =>
      rw [readOutputs]
      constructor
      · intro hread
        obtain ⟨⟨output, o₁⟩, houtput, hread⟩ := bind_ok hread
        obtain ⟨r₁, rfl, hwf, rfl⟩ := (readOutput_iff h).mp houtput
        obtain ⟨⟨tail, o₂⟩, htail, hread⟩ := bind_ok hread
        obtain ⟨r₂, rfl, hlen, hall, rfl⟩ := (ih h.append).mp htail
        cases pure_ok hread
        refine ⟨r₂, by simp, by simp [hlen], List.forall_mem_cons.mpr ⟨hwf, hall⟩, ?_⟩
        simp only [List.flatMap_cons, List.length_append]
        omega
      · rintro ⟨rest', rfl, hlen, hall, rfl⟩
        cases outputs with
        | nil => cases hlen
        | cons output tail =>
            obtain ⟨hwf, hall⟩ := List.forall_mem_cons.mp hall
            rw [List.flatMap_cons, List.append_assoc] at h
            rw [bind_eq_ok ((readOutput_iff h).mpr ⟨_, rfl, hwf, rfl⟩)]
            dsimp only
            rw [bind_eq_ok ((ih h.append).mpr
              ⟨rest', rfl, Nat.succ.inj hlen, hall, rfl⟩)]
            simp only [List.flatMap_cons, List.length_append]
            rw [Nat.add_assoc]
            rfl

/-! ## The transaction -/

theorem bytes_length {tx : BitcoinTransaction} (h : tx.prevoutHashLe.length = 32) :
    tx.bytes.length = 51 + (tx.outputs.flatMap BitcoinOutput.bytes).length := by
  simp only [BitcoinTransaction.bytes, List.length_append, List.length_cons, length_toLittle, h]
  omega

theorem output_bytes_length {output : BitcoinOutput} (h : output.WellFormed) :
    output.bytes.length = 9 + output.kind.length := by
  simp only [BitcoinOutput.bytes, List.length_append, List.length_cons, length_toLittle,
    matches_length h.template]
  omega

/-- The byte limit rejects no transaction of the grammar. -/
theorem bytes_le {tx : BitcoinTransaction} (h : tx.WellFormed) :
    tx.bytes.length ≤ maxTransactionBytes := by
  have hall : ∀ outputs : List BitcoinOutput, (∀ o ∈ outputs, o.WellFormed) →
      (outputs.flatMap BitcoinOutput.bytes).length ≤ 43 * outputs.length := by
    intro outputs hout
    induction outputs with
    | nil => exact Nat.le_refl 0
    | cons output outputs ih =>
        obtain ⟨ho, hout⟩ := List.forall_mem_cons.mp hout
        have hlen := output_bytes_length ho
        have hle := length_le_of_kind output.kind
        have := ih hout
        simp only [List.flatMap_cons, List.length_append, List.length_cons]
        omega
  have hbound := hall tx.outputs h.outputs
  have hcount : tx.outputs.length ≤ 2 := by
    have := h.count
    simp only [List.mem_cons, List.not_mem_nil, or_false] at this
    omega
  rw [bytes_length h.hashLength, maxTransactionBytes]
  omega

theorem one_le_total {outputs : List BitcoinOutput} (hne : outputs ≠ [])
    (h : ∀ output ∈ outputs, output.WellFormed) : 1 ≤ outputTotal outputs := by
  cases outputs with
  | nil => exact absurd rfl hne
  | cons output outputs =>
      have hfloor := dustFloor_pos output.kind
      have hdust := (h output List.mem_cons_self).dust
      simp only [outputTotal, List.map_cons, List.sum_cons]
      omega

theorem parseRaw_ok {raw : List UInt8} {tx : BitcoinTransaction} (h : parseRaw raw = .ok tx) :
    tx.WellFormed ∧ tx.raw = raw ∧ tx.bytes = raw := by
  obtain ⟨-, h⟩ := require_bind_ok h
  obtain ⟨hfour, h⟩ := require_bind_ok h
  obtain ⟨hversion, h⟩ := require_bind_ok h
  have h₀ : At raw 4 (raw.drop 4) := ⟨hfour, rfl⟩
  obtain ⟨⟨inputCount, o₁⟩, hread, h⟩ := bind_ok h
  obtain ⟨r₁, hr₁, -, rfl⟩ := (readCompactSize_iff h₀).mp hread
  obtain ⟨hone, h⟩ := require_bind_ok h
  have h₁ := (hr₁ ▸ h₀).tail
  obtain ⟨⟨hash, o₂⟩, hread, h⟩ := bind_ok h
  obtain ⟨r₂, rfl, hhash, rfl⟩ := (readExact_iff h₁).mp hread
  obtain ⟨hnull, h⟩ := require_bind_ok h
  have h₂ := h₁.append
  obtain ⟨⟨indexRaw, o₃⟩, hread, h⟩ := bind_ok h
  obtain ⟨r₃, rfl, hindex, rfl⟩ := (readExact_iff h₂).mp hread
  have h₃ := h₂.append
  obtain ⟨⟨sigLength, o₄⟩, hread, h⟩ := bind_ok h
  obtain ⟨r₄, rfl, -, rfl⟩ := (readCompactSize_iff h₃).mp hread
  obtain ⟨hempty, h⟩ := require_bind_ok h
  have h₄ := h₃.tail
  obtain ⟨⟨sequenceRaw, o₅⟩, hread, h⟩ := bind_ok h
  obtain ⟨r₅, rfl, hsequence, rfl⟩ := (readExact_iff h₄).mp hread
  obtain ⟨hmem, h⟩ := require_bind_ok h
  have h₅ := h₄.append
  obtain ⟨⟨outputCount, o₆⟩, hread, h⟩ := bind_ok h
  obtain ⟨r₆, rfl, -, rfl⟩ := (readCompactSize_iff h₅).mp hread
  obtain ⟨hcount, h⟩ := require_bind_ok h
  have h₆ := h₅.tail
  obtain ⟨⟨outputs, o₇⟩, hread, h⟩ := bind_ok h
  obtain ⟨r₇, rfl, hlength, hall, rfl⟩ := (readOutputs_iff h₆).mp hread
  have h₇ := h₆.append
  obtain ⟨⟨locktimeRaw, o₈⟩, hread, h⟩ := bind_ok h
  obtain ⟨r₈, rfl, hlocktime, rfl⟩ := (readExact_iff h₇).mp hread
  obtain ⟨hzero, h⟩ := require_bind_ok h
  have h₈ := h₇.append
  obtain ⟨hend, h⟩ := require_bind_ok h
  obtain ⟨_, hmoney, h⟩ := bind_ok h
  have hmoney := ensureInteger_iff.mp hmoney
  cases pure_ok h
  have hnil : r₈ = [] := by
    have := h₈.length
    exact List.length_eq_zero_iff.mp (by omega)
  refine ⟨⟨rfl, hhash, hnull, ?_, hmem, hlength ▸ hcount, hall, hmoney.2, hzero⟩, rfl, ?_⟩
  · have := ofLittle_lt indexRaw
    rw [hindex] at this
    exact this
  · have hle : ∀ bs : List UInt8, bs.length = 4 → toLittle 4 (ofLittle bs) = bs := by
      intro bs hbs
      rw [← hbs, toLittle_ofLittle]
    have htwo : toLittle 4 2 = [0x02, 0x00, 0x00, 0x00] := by decide
    simp only [BitcoinTransaction.bytes, hle _ hindex, hle _ hsequence, hle _ hlocktime, htwo,
      hlength]
    conv_rhs => rw [← List.take_append_drop 4 raw, hversion, hr₁, hnil, hone, hempty]
    simp

/-- The parser reads the canonical bytes of a well-formed transaction back. -/
theorem parseRaw_bytes {tx : BitcoinTransaction} (h : tx.WellFormed) :
    parseRaw tx.bytes = .ok { tx with raw := tx.bytes } := by
  have hlimit := bytes_le h
  have hlen := bytes_length h.hashLength
  have hcount : tx.outputs.length < 0xFD := by
    have := h.count
    simp only [List.mem_cons, List.not_mem_nil, or_false] at this
    omega
  have hsequence : tx.sequence < 256 ^ 4 := by
    have := h.sequence
    simp only [List.mem_cons, List.not_mem_nil, or_false] at this
    omega
  have hne : tx.outputs ≠ [] := by
    intro hnil
    have := h.count
    simp [hnil] at this
  have htwo : toLittle 4 2 = [0x02, 0x00, 0x00, 0x00] := by decide
  have hraw : tx.bytes = [0x02, 0x00, 0x00, 0x00] ++ (0x01 :: (tx.prevoutHashLe ++
      (toLittle 4 tx.prevoutIndex ++ (0x00 :: (toLittle 4 tx.sequence ++
        (UInt8.ofNat tx.outputs.length :: (tx.outputs.flatMap BitcoinOutput.bytes ++
          (toLittle 4 tx.locktime ++ [])))))))) := by
    simp [BitcoinTransaction.bytes, h.version, htwo]
  have hstart : At tx.bytes 0 _ := ⟨Nat.zero_le _, hraw⟩
  have h₀ : At tx.bytes 4 _ := hstart.append
  have h₁ := h₀.tail
  have h₂ := h₁.append
  have h₃ := h₂.append
  have h₄ := h₃.tail
  have h₅ := h₄.append
  have h₆ := h₅.tail
  have h₇ := h₆.append
  have h₈ := h₇.append
  rw [parseRaw, bind_eq_ok (require_eq_ok hlimit), bind_eq_ok (require_eq_ok (by omega)),
    bind_eq_ok (require_eq_ok (by rw [hraw]; rfl)),
    bind_eq_ok ((readCompactSize_iff h₀).mpr ⟨_, rfl, by decide, rfl⟩)]
  dsimp only
  rw [bind_eq_ok (require_eq_ok rfl),
    bind_eq_ok ((readExact_iff h₁).mpr ⟨_, rfl, h.hashLength, rfl⟩)]
  dsimp only
  rw [bind_eq_ok (require_eq_ok h.nonNull),
    bind_eq_ok ((readExact_iff h₂).mpr ⟨_, rfl, length_toLittle _ _, rfl⟩)]
  dsimp only
  rw [bind_eq_ok ((readCompactSize_iff h₃).mpr ⟨_, rfl, by decide, rfl⟩)]
  dsimp only
  rw [bind_eq_ok (require_eq_ok rfl),
    bind_eq_ok ((readExact_iff h₄).mpr ⟨_, rfl, length_toLittle _ _, rfl⟩)]
  dsimp only
  rw [ofLittle_toLittle hsequence, bind_eq_ok (require_eq_ok h.sequence),
    bind_eq_ok ((readCompactSize_iff h₅).mpr ⟨_, rfl, hcount, rfl⟩)]
  dsimp only
  rw [bind_eq_ok (require_eq_ok h.count),
    bind_eq_ok ((readOutputs_iff h₆).mpr ⟨_, rfl, rfl, h.outputs, rfl⟩)]
  dsimp only
  rw [bind_eq_ok ((readExact_iff h₇).mpr ⟨_, rfl, length_toLittle _ _, rfl⟩)]
  dsimp only
  have hlocktime : ofLittle (toLittle 4 tx.locktime) = tx.locktime :=
    ofLittle_toLittle (by rw [h.locktime]; decide)
  rw [hlocktime, bind_eq_ok (require_eq_ok h.locktime),
    bind_eq_ok (require_eq_ok (by simpa using h₈.length)),
    bind_eq_ok (ensureInteger_iff (u := ()).mpr ⟨one_le_total hne h.outputs, h.total⟩),
    ofLittle_toLittle (by simpa using h.index)]
  simp only [← h.version]
  rfl

theorem parseUnsignedTransaction_iff {s : String} {tx : BitcoinTransaction} :
    parseUnsignedTransaction s = .ok tx ↔
      tx.WellFormed ∧ tx.raw = tx.bytes ∧ s = String.ofList (toHex tx.bytes) := by
  constructor
  · intro h
    obtain ⟨-, h⟩ := require_bind_ok h
    obtain ⟨-, h⟩ := require_bind_ok h
    obtain ⟨raw, hraw, h⟩ := bind_ok h
    obtain ⟨hwf, hr, hbytes⟩ := parseRaw_ok h
    refine ⟨hwf, hr.trans hbytes.symm, ?_⟩
    rw [hbytes, toHex_ofHex (found_ok hraw), String.ofList_toList]
  · rintro ⟨hwf, hr, rfl⟩
    have hlimit := bytes_le hwf
    have hlen := bytes_length hwf.hashLength
    have hdigits : (toHex tx.bytes).length = 2 * tx.bytes.length := length_toHex _
    rw [parseUnsignedTransaction]
    simp only [String.toList_ofList]
    rw [bind_eq_ok (require_eq_ok ⟨by omega, by omega, by omega⟩),
      bind_eq_ok (require_eq_ok (isHex_toHex _)), ofHex_toHex]
    change parseRaw tx.bytes = _
    rw [parseRaw_bytes hwf, ← hr]

end Avibe.Vault
