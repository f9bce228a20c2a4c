import Avibe.Vault.Context

/-!
# What a signature commits to

An accepted context has a positive fee, and its digest's preimage is computed
without overflow. The preimage determines every field that the transaction
spends or pays, as far as the hash does not collide on the parts of the two.
-/

namespace Avibe.Vault

open Bytes Checked SortOn

/-! ## The shape -/

theorem refused_ok {α : Type} {x : Except String α} {a : α} (h : refused x = .ok a) :
    x = .ok a := by
  cases x with
  | error e => cases h
  | ok b => cases h; rfl

theorem refused_ne_overflow {α : Type} (x : Except String α) : refused x ≠ .error .overflow := by
  cases x with
  | error e => exact fun h => (by cases h)
  | ok b => exact fun h => (by cases h)

theorem ensureLowerHex_ok {value : Option Value} {field : String} {length : Option Nat}
    {text : String} (h : ensureLowerHex value field length = .ok text) :
    length.all (text.toList.length = ·) ∧ ∀ c ∈ text.toList, isHex c = true := by
  unfold ensureLowerHex at h
  dsimp only at h
  split at h
  · obtain ⟨hall, h⟩ := require_bind_ok h
    cases pure_ok h
    exact ⟨hall.1, hall.2.2⟩
  · cases h

theorem ensureIntegerValue_ok {value : Option Value} {minimum maximum n : Nat} {field : String}
    (h : ensureIntegerValue value minimum maximum field = .ok n) : n ≤ maximum := by
  unfold ensureIntegerValue at h
  split at h
  · split at h
    · cases h
      omega
    · cases h
  · cases h

/-- What a context that passed the shape check spends, and the digest it names. -/
theorem validateContextShape_ok {context : Value} {expectedDigest : String}
    {shape : ContextShape} (h : validateContextShape context expectedDigest = .ok shape) :
    shape.amountSats ≤ moneyRangeSats ∧ shape.scriptPubKey.toList.length = 68 ∧
      (∀ c ∈ shape.scriptPubKey.toList, isHex c = true) ∧ shape.digest = expectedDigest := by
  obtain ⟨fields, -, h⟩ := bind_ok h
  obtain ⟨_, -, h⟩ := bind_ok h
  obtain ⟨-, h⟩ := require_bind_ok h
  obtain ⟨network, -, h⟩ := bind_ok h
  obtain ⟨unsigned, -, h⟩ := bind_ok h
  obtain ⟨-, h⟩ := require_bind_ok h
  obtain ⟨prevout, -, h⟩ := bind_ok h
  obtain ⟨_, -, h⟩ := bind_ok h
  obtain ⟨amount, hamount, h⟩ := bind_ok h
  obtain ⟨script, hscript, h⟩ := bind_ok h
  obtain ⟨-, h⟩ := require_bind_ok h
  obtain ⟨-, h⟩ := require_bind_ok h
  obtain ⟨digest, -, h⟩ := bind_ok h
  obtain ⟨hsame, h⟩ := require_bind_ok h
  cases pure_ok h
  obtain ⟨hlen, hhex⟩ := ensureLowerHex_ok hscript
  exact ⟨ensureIntegerValue_ok hamount, by simpa using hlen, hhex, hsame.symm⟩

theorem not_isSpace_of_isHex {c : Char} (h : isHex c = true) : isSpace c = false := by
  obtain ⟨n, hn⟩ := Option.isSome_iff_exists.mp h
  have hlt := value?_lt hn
  rw [← digit_value hn]
  clear hn h
  revert n
  decide

theorem hexValue_of_isHex {c : Char} (h : isHex c = true) : hexValue c = value? c := by
  obtain ⟨n, hn⟩ := Option.isSome_iff_exists.mp h
  have hlt := value?_lt hn
  rw [← digit_value hn]
  clear hn h
  revert n
  decide

/-- On lowercase digits `bytes.fromhex` reads the digits as they are. -/
theorem fromHex_eq {cs : List Char} (h : ∀ c ∈ cs, isHex c = true) : fromHex cs = ofHex cs := by
  induction cs using ofHex.induct with
  | case1 => rfl
  | case2 c =>
      have hc := not_isSpace_of_isHex (h c List.mem_cons_self)
      simp [fromHex, ofHex, hc]
  | case3 c d rest ih =>
      obtain ⟨hc, h⟩ := List.forall_mem_cons.mp h
      obtain ⟨hd, h⟩ := List.forall_mem_cons.mp h
      rw [fromHex, ofHex, not_isSpace_of_isHex hc, hexValue_of_isHex hc, hexValue_of_isHex hd, ih h]
      rfl

/-- The bytes of the prevout's script. -/
theorem fromHex_script {shape : ContextShape} (hlen : shape.scriptPubKey.toList.length = 68)
    (h : ∀ c ∈ shape.scriptPubKey.toList, isHex c = true) :
    ∃ script, fromHex shape.scriptPubKey.toList = some script ∧ script.length = 34 ∧
      shape.scriptPubKey = String.ofList (toHex script) := by
  obtain ⟨script, hscript⟩ := ofHex_isSome (by rw [hlen]) h
  have htext := toHex_ofHex hscript
  have hlength := congrArg List.length htext
  rw [length_toHex, hlen] at hlength
  refine ⟨script, by rw [fromHex_eq h, hscript], by omega, ?_⟩
  rw [htext, String.ofList_toList]

/-! ## The preimage -/

theorem toBytes_eq {width n : Nat} (h : n < 256 ^ width) : toBytes width n = .ok (toLittle width n) :=
  if_pos h

theorem outputSerialization_eq {output : BitcoinOutput} (h : output.WellFormed) :
    outputSerialization output = .ok output.bytes := by
  have hlen := matches_length h.template
  have hle := length_le_of_kind output.kind
  have hscript : sizedScript output.scriptPubKey =
      .ok (UInt8.ofNat output.scriptPubKey.length :: output.scriptPubKey) := if_pos (by omega)
  rw [outputSerialization, bind_eq_ok (toBytes_eq (Nat.lt_of_le_of_lt h.money money_lt)),
    bind_eq_ok hscript]
  rfl

/-- The parts of a well-formed transaction fit their bytes. -/
theorem sighashParts_eq {tx : BitcoinTransaction} (h : tx.WellFormed) {amount : Nat}
    (hamount : amount ≤ moneyRangeSats) {script : List UInt8} (hscript : script.length = 34) :
    sighashParts tx amount script = .ok {
      version := toLittle 4 tx.version
      locktime := toLittle 4 tx.locktime
      prevouts := tx.prevoutHashLe ++ toLittle 4 tx.prevoutIndex
      amounts := toLittle 8 amount
      scriptPubkeys := UInt8.ofNat script.length :: script
      sequences := toLittle 4 tx.sequence
      outputs := tx.outputs.flatMap BitcoinOutput.bytes } := by
  have hsequence : tx.sequence < 256 ^ 4 := by
    have := h.sequence
    simp only [List.mem_cons, List.not_mem_nil, or_false] at this
    omega
  have hsized : sizedScript script = .ok (UInt8.ofNat script.length :: script) :=
    if_pos (by omega)
  have hversion : tx.version < 256 ^ 4 := by
    rw [h.version]
    decide
  have hlocktime : tx.locktime < 256 ^ 4 := by
    rw [h.locktime]
    decide
  rw [sighashParts, bind_eq_ok (toBytes_eq h.index),
    bind_eq_ok (toBytes_eq (Nat.lt_of_le_of_lt hamount money_lt)), bind_eq_ok hsized,
    bind_eq_ok (toBytes_eq hsequence),
    bind_eq_ok (mapM'_eq_ok fun output ho => outputSerialization_eq (h.outputs output ho)),
    bind_eq_ok (toBytes_eq hversion), bind_eq_ok (toBytes_eq hlocktime)]
  simp only [List.flatMap]
  rfl

/-! ## What the preimage determines -/

theorem toLittle_inj {width m n : Nat} (hm : m < 256 ^ width) (hn : n < 256 ^ width)
    (h : toLittle width m = toLittle width n) : m = n := by
  rw [← ofLittle_toLittle hm, h, ofLittle_toLittle hn]

/-- Output encodings are a prefix code. -/
theorem output_bytes_inj {a b : BitcoinOutput} (ha : a.WellFormed) (hb : b.WellFormed)
    {r r' : List UInt8} (h : a.bytes ++ r = b.bytes ++ r') : a = b ∧ r = r' := by
  have hla := length_le_of_kind a.kind
  have hlb := length_le_of_kind b.kind
  have hma := matches_length ha.template
  have hmb := matches_length hb.template
  simp only [BitcoinOutput.bytes, List.append_assoc, List.cons_append] at h
  obtain ⟨hamount, h⟩ := List.append_inj h (by simp)
  obtain ⟨hlen, h⟩ := List.cons.inj h
  have hlen : a.scriptPubKey.length = b.scriptPubKey.length := by
    have := congrArg UInt8.toNat hlen
    rw [UInt8.toNat_ofNat', UInt8.toNat_ofNat'] at this
    omega
  obtain ⟨hscript, hrest⟩ := List.append_inj h hlen
  have hkind : a.kind = b.kind := by
    have h₁ := scriptKind_iff.mpr ha.template
    have h₂ := scriptKind_iff.mpr hb.template
    rw [hscript] at h₁
    exact Except.ok.inj (h₁.symm.trans h₂)
  have hsats := toLittle_inj (Nat.lt_of_le_of_lt ha.money money_lt)
    (Nat.lt_of_le_of_lt hb.money money_lt) hamount
  obtain ⟨amount, script, kind⟩ := a
  obtain ⟨amount', script', kind'⟩ := b
  dsimp only at hsats hscript hkind
  exact ⟨by rw [hsats, hscript, hkind], hrest⟩

theorem outputs_bytes_inj {as bs : List BitcoinOutput} (ha : ∀ a ∈ as, a.WellFormed)
    (hb : ∀ b ∈ bs, b.WellFormed)
    (h : as.flatMap BitcoinOutput.bytes = bs.flatMap BitcoinOutput.bytes) : as = bs := by
  have hne : ∀ o : BitcoinOutput, o.bytes ≠ [] := by
    intro o ho
    have := congrArg List.length ho
    simp [BitcoinOutput.bytes] at this
  induction as generalizing bs with
  | nil =>
      cases bs with
      | nil => rfl
      | cons b bs =>
          rw [List.flatMap_cons] at h
          exact absurd (List.append_eq_nil_iff.mp h.symm).1 (hne b)
  | cons a as ih =>
      cases bs with
      | nil =>
          rw [List.flatMap_cons] at h
          exact absurd (List.append_eq_nil_iff.mp h).1 (hne a)
      | cons b bs =>
          obtain ⟨haw, has⟩ := List.forall_mem_cons.mp ha
          obtain ⟨hbw, hbs⟩ := List.forall_mem_cons.mp hb
          rw [List.flatMap_cons, List.flatMap_cons] at h
          obtain ⟨hab, hrest⟩ := output_bytes_inj haw hbw h
          rw [hab, ih has hbs hrest]

section Message

variable {sha256 : List UInt8 → List UInt8}

/-- The hash does not collide on the parts of two preimages. An injective hash would not
collide at all, but no hash of 32 bytes is injective. -/
structure NoCollision (sha256 : List UInt8 → List UInt8) (p q : SighashParts) : Prop where
  prevouts : sha256 p.prevouts = sha256 q.prevouts → p.prevouts = q.prevouts
  amounts : sha256 p.amounts = sha256 q.amounts → p.amounts = q.amounts
  scriptPubkeys : sha256 p.scriptPubkeys = sha256 q.scriptPubkeys →
    p.scriptPubkeys = q.scriptPubkeys
  sequences : sha256 p.sequences = sha256 q.sequences → p.sequences = q.sequences
  outputs : sha256 p.outputs = sha256 q.outputs → p.outputs = q.outputs

theorem message_inj (hsha : ∀ bytes, (sha256 bytes).length = 32) {p q : SighashParts}
    (hversion : p.version.length = q.version.length)
    (hlocktime : p.locktime.length = q.locktime.length) (hfree : NoCollision sha256 p q)
    (h : p.message sha256 = q.message sha256) : p = q := by
  have hsize : ∀ a b, (sha256 a).length = (sha256 b).length := fun a b => by rw [hsha, hsha]
  simp only [SighashParts.message, List.append_assoc] at h
  have h := (List.append_inj h rfl).2
  have h := (List.append_inj h rfl).2
  obtain ⟨hv, h⟩ := List.append_inj h hversion
  obtain ⟨hl, h⟩ := List.append_inj h hlocktime
  obtain ⟨hp, h⟩ := List.append_inj h (hsize _ _)
  obtain ⟨ha, h⟩ := List.append_inj h (hsize _ _)
  obtain ⟨hs, h⟩ := List.append_inj h (hsize _ _)
  obtain ⟨hq, h⟩ := List.append_inj h (hsize _ _)
  obtain ⟨ho, -⟩ := List.append_inj h (hsize _ _)
  have hp := hfree.prevouts hp
  have ha := hfree.amounts ha
  have hs := hfree.scriptPubkeys hs
  have hq := hfree.sequences hq
  have ho := hfree.outputs ho
  obtain ⟨pv, pl, pp, pa, ps, pq, po⟩ := p
  obtain ⟨qv, ql, qp, qa, qs, qq, qo⟩ := q
  dsimp only at hv hl hp ha hs hq ho
  rw [hv, hl, hp, ha, hs, hq, ho]

end Message

section Validate

variable {sha256 hash160 : List UInt8 → List UInt8} {taprootOutputKey : String → Option (List UInt8)}

/-- The parts that the digest of an accepted context hashes. -/
def ValidatedBitcoinContext.parts (v : ValidatedBitcoinContext) : Except Failure SighashParts := do
  let script ← refused (found (fromHex v.context.scriptPubKey.toList) "non-hexadecimal number")
  sighashParts v.transaction v.context.amountSats script

/-- What an accepted context went through. -/
theorem validateContext_ok {context : Value} {expectedDigest : String} {key : Option String}
    {v : ValidatedBitcoinContext}
    (h : validateContext sha256 hash160 taprootOutputKey context expectedDigest key = .ok v) :
    v.transaction.WellFormed ∧ v.context.amountSats ≤ moneyRangeSats ∧
      (∃ script, fromHex v.context.scriptPubKey.toList = some script ∧ script.length = 34 ∧
        v.context.scriptPubKey = String.ofList (toHex script)) ∧
      v.feeSats = v.context.amountSats - outputTotal v.transaction.outputs ∧ 0 < v.feeSats ∧
      v.signedWeight = v.transaction.bytes.length * 4 + 68 := by
  obtain ⟨shape, hshape, h⟩ := bind_ok h
  obtain ⟨hamount, hlen, hhex, -⟩ := validateContextShape_ok (refused_ok hshape)
  obtain ⟨tx, htx, h⟩ := bind_ok h
  obtain ⟨hwf, hraw, -⟩ := parseUnsignedTransaction_iff.mp (refused_ok htx)
  obtain ⟨script, -, h⟩ := bind_ok h
  obtain ⟨⟨outputKey, publicKey⟩, -, h⟩ := bind_ok h
  obtain ⟨_, -, h⟩ := bind_ok h
  obtain ⟨_, -, h⟩ := bind_ok h
  obtain ⟨_, hfee, h⟩ := bind_ok h
  obtain ⟨_, -, h⟩ := bind_ok h
  obtain ⟨digest, -, h⟩ := bind_ok h
  obtain ⟨_, -, h⟩ := bind_ok h
  cases pure_ok h
  exact ⟨hwf, hamount, fromHex_script hlen hhex, rfl, require_ok (refused_ok hfee),
    by rw [← hraw]⟩

/-- No integer of the digest is too large for its bytes. -/
theorem validateContext_ne_overflow (context : Value) (expectedDigest : String)
    (key : Option String) :
    validateContext sha256 hash160 taprootOutputKey context expectedDigest key ≠
      .error .overflow := by
  intro h
  rcases bind_error h with h | ⟨shape, hshape, h⟩
  · exact refused_ne_overflow _ h
  obtain ⟨hamount, hlen, hhex, -⟩ := validateContextShape_ok (refused_ok hshape)
  rcases bind_error h with h | ⟨tx, htx, h⟩
  · exact refused_ne_overflow _ h
  obtain ⟨hwf, -, -⟩ := parseUnsignedTransaction_iff.mp (refused_ok htx)
  rcases bind_error h with h | ⟨script, hscript, h⟩
  · exact refused_ne_overflow _ h
  obtain ⟨script', hscript', hscriptLen, -⟩ := fromHex_script hlen hhex
  cases hscript'.symm.trans (found_ok (refused_ok hscript))
  rcases bind_error h with h | ⟨⟨outputKey, publicKey⟩, -, h⟩
  · exact refused_ne_overflow _ h
  rcases bind_error h with h | ⟨_, -, h⟩
  · exact refused_ne_overflow _ h
  rcases bind_error h with h | ⟨_, -, h⟩
  · exact refused_ne_overflow _ h
  rcases bind_error h with h | ⟨_, -, h⟩
  · exact refused_ne_overflow _ h
  rcases bind_error h with h | ⟨_, -, h⟩
  · exact refused_ne_overflow _ h
  rcases bind_error h with h | ⟨digest, -, h⟩
  · rw [computeTaprootSighash, sighashParts_eq hwf hamount hscriptLen] at h
    cases h
  rcases bind_error h with h | ⟨_, -, h⟩
  · exact refused_ne_overflow _ h
  · cases h

/-- The digest that was signed is the tagged hash of the parts, and it is the one the user was shown. -/
theorem validateContext_digest {context : Value} {expectedDigest : String} {key : Option String}
    {v : ValidatedBitcoinContext}
    (h : validateContext sha256 hash160 taprootOutputKey context expectedDigest key = .ok v) :
    (∃ p, v.parts = .ok p ∧ v.digest = taggedHash sha256 "TapSighash" (p.message sha256)) ∧
      String.ofList (toHex v.digest) = v.context.digest ∧ v.context.digest = expectedDigest := by
  obtain ⟨shape, hshape, h⟩ := bind_ok h
  obtain ⟨tx, -, h⟩ := bind_ok h
  obtain ⟨script, hscript, h⟩ := bind_ok h
  obtain ⟨⟨outputKey, publicKey⟩, -, h⟩ := bind_ok h
  obtain ⟨_, -, h⟩ := bind_ok h
  obtain ⟨_, -, h⟩ := bind_ok h
  obtain ⟨_, -, h⟩ := bind_ok h
  obtain ⟨_, -, h⟩ := bind_ok h
  obtain ⟨digest, hdigest, h⟩ := bind_ok h
  obtain ⟨_, hshown, h⟩ := bind_ok h
  cases pure_ok h
  obtain ⟨p, hp, hmessage⟩ := bind_ok hdigest
  refine ⟨⟨p, ?_, (pure_ok hmessage).symm⟩, require_ok (refused_ok hshown),
    (validateContextShape_ok (refused_ok hshape)).2.2.2⟩
  exact (bind_eq_ok hscript).trans hp

theorem parts_eq {v : ValidatedBitcoinContext} {script : List UInt8} {p : SighashParts}
    (hwf : v.transaction.WellFormed) (hamount : v.context.amountSats ≤ moneyRangeSats)
    (hscript : fromHex v.context.scriptPubKey.toList = some script) (hlen : script.length = 34)
    (h : v.parts = .ok p) :
    p = {
      version := toLittle 4 v.transaction.version
      locktime := toLittle 4 v.transaction.locktime
      prevouts := v.transaction.prevoutHashLe ++ toLittle 4 v.transaction.prevoutIndex
      amounts := toLittle 8 v.context.amountSats
      scriptPubkeys := UInt8.ofNat script.length :: script
      sequences := toLittle 4 v.transaction.sequence
      outputs := v.transaction.outputs.flatMap BitcoinOutput.bytes } := by
  obtain ⟨found, hfound, h⟩ := bind_ok h
  cases hscript.symm.trans (found_ok (refused_ok hfound))
  rw [sighashParts_eq hwf hamount hlen] at h
  exact (Except.ok.inj h).symm

/-- The fields of a context that its signature commits to. -/
def ValidatedBitcoinContext.committed (v : ValidatedBitcoinContext) :
    Nat × Nat × List UInt8 × Nat × Nat × Nat × String × List BitcoinOutput :=
  (v.transaction.version, v.transaction.locktime, v.transaction.prevoutHashLe,
    v.transaction.prevoutIndex, v.transaction.sequence, v.context.amountSats,
    v.context.scriptPubKey, v.transaction.outputs)

theorem committed_eq (hsha : ∀ bytes, (sha256 bytes).length = 32)
    {context context' : Value} {digest digest' : String} {key key' : Option String}
    {v v' : ValidatedBitcoinContext} {p p' : SighashParts}
    (hv : validateContext sha256 hash160 taprootOutputKey context digest key = .ok v)
    (hv' : validateContext sha256 hash160 taprootOutputKey context' digest' key' = .ok v')
    (hp : v.parts = .ok p) (hp' : v'.parts = .ok p') (hfree : NoCollision sha256 p p')
    (h : p.message sha256 = p'.message sha256) : v.committed = v'.committed := by
  obtain ⟨hwf, hamount, ⟨script, hscript, hlen, htext⟩, -⟩ := validateContext_ok hv
  obtain ⟨hwf', hamount', ⟨script', hscript', hlen', htext'⟩, -⟩ := validateContext_ok hv'
  have heq := parts_eq hwf hamount hscript hlen hp
  have heq' := parts_eq hwf' hamount' hscript' hlen' hp'
  have hparts : p = p' := message_inj hsha (by rw [heq, heq']; simp) (by rw [heq, heq']; simp)
    hfree h
  rw [heq, heq'] at hparts
  injection hparts with _ _ hprevouts hamounts hscripts hsequences houtputs
  obtain ⟨hhash, hindex⟩ := List.append_inj hprevouts
    (hwf.hashLength.trans hwf'.hashLength.symm)
  have hsequence : ∀ {tx : BitcoinTransaction}, tx.WellFormed → tx.sequence < 256 ^ 4 := by
    intro tx htx
    have := htx.sequence
    simp only [List.mem_cons, List.not_mem_nil, or_false] at this
    omega
  have hbytes : script = script' := (List.cons.inj hscripts).2
  simp only [ValidatedBitcoinContext.committed, hwf.version, hwf'.version, hwf.locktime,
    hwf'.locktime, hhash, toLittle_inj hwf.index hwf'.index hindex,
    toLittle_inj (hsequence hwf) (hsequence hwf') hsequences,
    toLittle_inj (Nat.lt_of_le_of_lt hamount money_lt) (Nat.lt_of_le_of_lt hamount' money_lt)
      hamounts, htext, htext', hbytes, outputs_bytes_inj hwf.outputs hwf'.outputs houtputs]

end Validate

/-- The protected Bitcoin parser accepts exactly its grammar and hides nothing that is
signed. -/
theorem bitcoin_parser_exact (sha256 hash160 : List UInt8 → List UInt8)
    (taprootOutputKey : String → Option (List UInt8))
    (hsha : ∀ bytes, (sha256 bytes).length = 32) :
    (∀ s, (∃ tx, parseUnsignedTransaction s = .ok tx) ↔
      ∃ tx : BitcoinTransaction, tx.WellFormed ∧ s = String.ofList (toHex tx.bytes)) ∧
    (∀ s tx, parseUnsignedTransaction s = .ok tx →
      tx.bytes = tx.raw ∧ String.ofList (toHex tx.bytes) = s) ∧
    (∀ s s' tx tx', parseUnsignedTransaction s = .ok tx → parseUnsignedTransaction s' = .ok tx' →
      { tx with raw := [] } = { tx' with raw := [] } → s = s') ∧
    (∀ tx : BitcoinTransaction, tx.WellFormed → tx.bytes.length ≤ maxTransactionBytes) ∧
    (∀ context digest key, validateContext sha256 hash160 taprootOutputKey context digest key ≠
      .error .overflow) ∧
    (∀ context digest key v,
      validateContext sha256 hash160 taprootOutputKey context digest key = .ok v →
      v.feeSats = v.context.amountSats - outputTotal v.transaction.outputs ∧ 0 < v.feeSats ∧
        v.signedWeight = v.transaction.bytes.length * 4 + 68) ∧
    (∀ context digest key v,
      validateContext sha256 hash160 taprootOutputKey context digest key = .ok v →
      (∃ p, v.parts = .ok p ∧ v.digest = taggedHash sha256 "TapSighash" (p.message sha256)) ∧
        String.ofList (toHex v.digest) = v.context.digest ∧ v.context.digest = digest) ∧
    ∀ context digest key v context' digest' key' v' p p',
      validateContext sha256 hash160 taprootOutputKey context digest key = .ok v →
      validateContext sha256 hash160 taprootOutputKey context' digest' key' = .ok v' →
      v.parts = .ok p → v'.parts = .ok p' → NoCollision sha256 p p' →
      p.message sha256 = p'.message sha256 → v.committed = v'.committed := by
  refine ⟨fun s => ⟨?_, ?_⟩, ?_, ?_, fun tx => bytes_le, validateContext_ne_overflow, ?_,
    fun _ _ _ _ => validateContext_digest, ?_⟩
  · rintro ⟨tx, htx⟩
    obtain ⟨hwf, -, hs⟩ := parseUnsignedTransaction_iff.mp htx
    exact ⟨tx, hwf, hs⟩
  · rintro ⟨tx, hwf, hs⟩
    have hwf' : BitcoinTransaction.WellFormed { tx with raw := tx.bytes } :=
      ⟨hwf.version, hwf.hashLength, hwf.nonNull, hwf.index, hwf.sequence, hwf.count, hwf.outputs,
        hwf.total, hwf.locktime⟩
    exact ⟨{ tx with raw := tx.bytes }, parseUnsignedTransaction_iff.mpr ⟨hwf', rfl, hs⟩⟩
  · intro s tx htx
    obtain ⟨-, hraw, hs⟩ := parseUnsignedTransaction_iff.mp htx
    exact ⟨hraw.symm, hs.symm⟩
  · intro s s' tx tx' htx htx' hfields
    obtain ⟨-, -, hs⟩ := parseUnsignedTransaction_iff.mp htx
    obtain ⟨-, -, hs'⟩ := parseUnsignedTransaction_iff.mp htx'
    have hbytes := congrArg BitcoinTransaction.bytes hfields
    change tx.bytes = tx'.bytes at hbytes
    rw [hs, hs', hbytes]
  · intro context digest key v hv
    obtain ⟨-, -, -, hfee, hpos, hweight⟩ := validateContext_ok hv
    exact ⟨hfee, hpos, hweight⟩
  · intro context digest key v context' digest' key' v' p p' hv hv' hp hp' hfree h
    exact committed_eq hsha hv hv' hp hp' hfree h

/-! ## One context -/

/-- The 32 bytes of a digest. -/
def digestBytes (value : Nat) : List UInt8 := (toLittle 32 value).reverse

/-- The digests of the strings that the context below hashes; the last one is that of the
tagged preimage. -/
def sampleSha (bytes : List UInt8) : List UInt8 :=
  if bytes = "TapSighash".toUTF8.toList then
    digestBytes 0xf40a48df4b2a70c8b4924bf2654661ed3d95fd66a313eb87237597c628e4a031
  else if bytes = List.replicate 32 1 ++ [0, 0, 0, 0] then
    digestBytes 0x3f6c2724a21a3b29ef886a52aa414bec96c46f7af137c636065209ff892cee6c
  else if bytes = toLittle 8 1500 then
    digestBytes 0x2468d20d1cd3f3377102dbe1b812abf12d4eca2c6272b4573c6d90d2b811b1c8
  else if bytes = [34, 0x51, 0x20] ++ List.replicate 32 3 then
    digestBytes 0x51ec961717045347df2d572ae779c42fe64215e4e25be555bc11fcfdfc6a8cf1
  else if bytes = toLittle 4 0xFFFFFFFD then
    digestBytes 0x23e9829bfb4e23fbd3c4848baa035af15d73bcb83e510f7f097f90a21a4280d2
  else if bytes = toLittle 8 1000 ++ [22, 0x00, 0x14] ++ List.replicate 20 2 then
    digestBytes 0x164f6823a3affee2713c8d98105f748c0a7c8207e79a3bceabf9626d272f899a
  else digestBytes 0x16ccf1cc5c50cdba399f32b5c1df40719c7fd569e1c4cb4307c783b0da5d707c

theorem length_sampleSha (bytes : List UInt8) : (sampleSha bytes).length = 32 := by
  have hlen : ∀ value, (digestBytes value).length = 32 := fun value => by
    rw [digestBytes, List.length_reverse, length_toLittle]
  unfold sampleSha
  repeat' split
  all_goals exact hlen _

def sampleDigest : String :=
  String.ofList (toHex
    (digestBytes 0x16ccf1cc5c50cdba399f32b5c1df40719c7fd569e1c4cb4307c783b0da5d707c))

/-- A coin of 1500 satoshis pays 1000 to a key hash. -/
def sampleTransaction : BitcoinTransaction where
  raw := [2, 0, 0, 0, 1] ++ List.replicate 32 1 ++ [0, 0, 0, 0, 0] ++ toLittle 4 0xFFFFFFFD ++ [1] ++
    toLittle 8 1000 ++ [22, 0x00, 0x14] ++ List.replicate 20 2 ++ [0, 0, 0, 0]
  version := 2
  prevoutHashLe := List.replicate 32 1
  prevoutIndex := 0
  sequence := 0xFFFFFFFD
  outputs := [⟨1000, [0x00, 0x14] ++ List.replicate 20 2, .p2wpkh⟩]
  locktime := 0

def sampleScript : List UInt8 := [0x51, 0x20] ++ List.replicate 32 3

def sampleContext : Value := .obj [
  ("kind", .str "bitcoin-taproot-keypath-v1"),
  ("network", .str "regtest"),
  ("unsignedTransaction", .str (String.ofList (toHex sampleTransaction.bytes))),
  ("prevout", .obj [("amountSats", .int 1500),
    ("scriptPubKey", .str (String.ofList (toHex sampleScript)))]),
  ("digestAlgorithm", .str "bip341-sighash-default-keypath"),
  ("digest", .str sampleDigest)]

def sampleShape : ContextShape where
  network := "regtest"
  unsignedTransaction := String.ofList (toHex sampleTransaction.bytes)
  amountSats := 1500
  scriptPubKey := String.ofList (toHex sampleScript)
  digest := sampleDigest

theorem ensureLowerHex_toHex (bytes : List UInt8) (h : bytes ≠ []) (field : String)
    (length : Option Nat) (hl : length.all (2 * bytes.length = ·) = true) :
    ensureLowerHex (some (.str (String.ofList (toHex bytes)))) field length =
      .ok (String.ofList (toHex bytes)) := by
  have hlen : (toHex bytes).length = 2 * bytes.length := length_toHex bytes
  have hne : toHex bytes ≠ [] := by
    intro hnil
    rw [hnil] at hlen
    cases bytes with
    | nil => exact h rfl
    | cons b bytes => simp at hlen
  have hcheck : length.all ((String.ofList (toHex bytes)).toList.length = ·) = true ∧
      (String.ofList (toHex bytes)).toList ≠ [] ∧
      ∀ c ∈ (String.ofList (toHex bytes)).toList, isHex c = true := by
    rw [String.toList_ofList, hlen]
    exact ⟨hl, hne, isHex_toHex bytes⟩
  exact (bind_eq_ok (require_eq_ok hcheck)).trans rfl

theorem sampleContext_shape : validateContextShape sampleContext sampleDigest = .ok sampleShape := by
  have htx := ensureLowerHex_toHex sampleTransaction.bytes (by decide) "unsignedTransaction" none rfl
  have hlimit : (String.ofList (toHex sampleTransaction.bytes)).toList.length ≤
      2 * maxTransactionBytes := by
    rw [String.toList_ofList, length_toHex]
    decide
  have hscript := ensureLowerHex_toHex sampleScript (by decide) "prevout.scriptPubKey" (some 68) rfl
  have htaproot : (String.ofList (toHex sampleScript)).toList.take 4 = ['5', '1', '2', '0'] := by
    rw [String.toList_ofList]
    rfl
  have hdigest := ensureLowerHex_toHex
    (digestBytes 0x16ccf1cc5c50cdba399f32b5c1df40719c7fd569e1c4cb4307c783b0da5d707c)
    (by decide) "signing_context.digest" (some 64) rfl
  refine (bind_eq_ok rfl).trans ?_
  refine (bind_eq_ok rfl).trans ?_
  refine (bind_eq_ok rfl).trans ?_
  refine (bind_eq_ok rfl).trans ?_
  refine (bind_eq_ok htx).trans ?_
  refine (bind_eq_ok (require_eq_ok hlimit)).trans ?_
  refine (bind_eq_ok rfl).trans ?_
  refine (bind_eq_ok rfl).trans ?_
  refine (bind_eq_ok rfl).trans ?_
  refine (bind_eq_ok hscript).trans ?_
  refine (bind_eq_ok (require_eq_ok htaproot)).trans ?_
  refine (bind_eq_ok rfl).trans ?_
  refine (bind_eq_ok hdigest).trans ?_
  exact bind_eq_ok (require_eq_ok rfl)

theorem sampleTransaction_parse :
    parseUnsignedTransaction sampleShape.unsignedTransaction = .ok sampleTransaction := by
  refine parseUnsignedTransaction_iff.mpr ⟨?_, rfl, rfl⟩
  have houtput : (⟨1000, [0x00, 0x14] ++ List.replicate 20 2, .p2wpkh⟩ :
      BitcoinOutput).WellFormed := ⟨⟨List.replicate 20 2, rfl, rfl⟩, by decide, by decide⟩
  exact ⟨rfl, rfl, by decide, by decide, by decide, by decide,
    List.forall_mem_singleton.mpr houtput, by decide, rfl⟩

theorem bitcoin_parser_exact_sample :
    ∃ v, validateContext sampleSha id (fun _ => none) sampleContext sampleDigest none = .ok v ∧
      0 < v.feeSats ∧ String.ofList (toHex v.digest) = sampleDigest ∧
      ∃ p, v.parts = .ok p ∧ v.digest = taggedHash sampleSha "TapSighash" (p.message sampleSha) := by
  have hscript : fromHex sampleShape.scriptPubKey.toList = some sampleScript := by
    rw [sampleShape, String.toList_ofList, fromHex_eq (isHex_toHex _), ofHex_toHex]
  have hdigest : computeTaprootSighash sampleSha sampleTransaction 1500 sampleScript = .ok
      (digestBytes 0x16ccf1cc5c50cdba399f32b5c1df40719c7fd569e1c4cb4307c783b0da5d707c) := by
    decide +kernel
  have hok : ∃ v, validateContext sampleSha id (fun _ => none) sampleContext sampleDigest none =
      .ok v := by
    apply Exists.intro
    refine (bind_eq_ok (congrArg refused sampleContext_shape)).trans ?_
    refine (bind_eq_ok (congrArg refused sampleTransaction_parse)).trans ?_
    refine (bind_eq_ok (congrArg (fun o => refused (found o _)) hscript)).trans ?_
    refine (bind_eq_ok rfl).trans ?_
    refine (bind_eq_ok rfl).trans ?_
    refine (bind_eq_ok rfl).trans ?_
    refine (bind_eq_ok rfl).trans ?_
    refine (bind_eq_ok rfl).trans ?_
    refine (bind_eq_ok hdigest).trans ?_
    exact bind_eq_ok (congrArg refused (require_eq_ok rfl))
  obtain ⟨v, hv⟩ := hok
  have hexact := bitcoin_parser_exact sampleSha id (fun _ => none) length_sampleSha
  have hfee := hexact.2.2.2.2.2.1 sampleContext sampleDigest none v hv
  obtain ⟨hparts, hshown, hdigest⟩ := hexact.2.2.2.2.2.2.1 sampleContext sampleDigest none v hv
  exact ⟨v, hv, hfee.2.1, hshown.trans hdigest, hparts⟩

end Avibe.Vault
