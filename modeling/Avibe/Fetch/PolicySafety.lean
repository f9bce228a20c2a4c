import Mathlib.Data.List.Basic
import Avibe.Fetch.Policy

/-!
# What the policy accepts

A text that `checkedIp` returns reads as an address outside the denied networks, and is
returned again. A URL that `parseUrl` accepts is parsed to itself, and an answer set with one
refused address is refused as a whole.
-/

namespace Avibe.Fetch

open Ip Places Checked

/-! ## Addresses -/

/-- The address that a connection reaches: an IPv4-mapped address is IPv4, and one of the DNS64
network is the IPv4 address it embeds. -/
def reached (a : Address) : Address :=
  match unmapped a with
  | .v4 v => .v4 v
  | .v6 v => if contains dns64 v then .v4 (v.setWidth 32) else .v6 v

/-- The address is in no denied network. -/
def Permitted (a : Address) : Prop :=
  match reached a with
  | .v4 v => ∀ net ∈ v4Deny, contains net v = false
  | .v6 v => contains v6Global v = true ∧ isIsatap v = false ∧ ∀ net ∈ v6Deny, contains net v = false

theorem checkedV4_ok {v : BitVec 32} {u : Unit} (h : checkedV4 v = .ok u) :
    ∀ net ∈ v4Deny, contains net v = false := by
  obtain ⟨-, h⟩ := require_bind_ok h
  have hdeny := require_ok h
  simpa using hdeny

theorem unmapped_unmapped (a : Address) : unmapped (unmapped a) = unmapped a := by
  cases a with
  | v4 v => rfl
  | v6 v =>
      by_cases hv : v >>> 32 = 0xffff#128
      · simp [unmapped, hv]
      · simp [unmapped, hv]

theorem checkedAddress_ok {a b : Address} (h : checkedAddress a = .ok b) :
    b = unmapped a ∧ Permitted b ∧ checkedAddress b = .ok b := by
  have hb : b = unmapped a := by
    unfold checkedAddress at h
    split at h
    · rename_i v hv
      obtain ⟨_, -, h⟩ := bind_ok h
      rw [hv, ← pure_ok h]
    · rename_i v hv
      split at h
      · obtain ⟨_, -, h⟩ := bind_ok h
        rw [hv, ← pure_ok h]
      · obtain ⟨-, h⟩ := require_bind_ok h
        rw [hv, ← pure_ok h]
  have hagain : checkedAddress b = .ok b := by
    rw [← h, hb]
    unfold checkedAddress
    rw [unmapped_unmapped]
  refine ⟨hb, ?_, hagain⟩
  unfold checkedAddress at hagain
  unfold Permitted reached
  generalize unmapped b = c at hagain ⊢
  cases c with
  | v4 v =>
      obtain ⟨_, hv4, -⟩ := bind_ok hagain
      exact checkedV4_ok hv4
  | v6 v =>
      dsimp only at hagain ⊢
      by_cases hdns : contains dns64 v = true
      · rw [if_pos hdns] at hagain ⊢
        obtain ⟨_, hv4, -⟩ := bind_ok hagain
        exact checkedV4_ok hv4
      · rw [if_neg hdns] at hagain ⊢
        obtain ⟨hall, -⟩ := require_bind_ok hagain
        simpa [and_assoc] using hall

/-- What `checkedIp` returns reads as a permitted address, that of the text or its IPv4 form. -/
theorem checkedIp_ok {value ip : Text} (h : checkedIp value = .ok ip) :
    ∃ a b, parse value = some a ∧ b = unmapped a ∧ ip = b.text ∧ parse ip = some b ∧ Permitted b ∧
      checkedIp ip = .ok ip := by
  obtain ⟨-, h⟩ := require_bind_ok h
  obtain ⟨a, ha, h⟩ := bind_ok h
  obtain ⟨b, hb, h⟩ := bind_ok h
  have hip : ip = b.text := (pure_ok h).symm
  obtain ⟨hunmapped, hpermitted, hagain⟩ := checkedAddress_ok hb
  have hread : parse ip = some b := by
    rw [hip, parse_text]
  have hpercent : '%' ∉ ip := by
    rw [hip]
    cases b with
    | v4 v => exact fun hc => absurd (mem_text4 hc) (by decide)
    | v6 v => exact fun hc => absurd (mem_text6 hc) (by decide)
  refine ⟨a, b, found_ok ha, hunmapped, hip, hread, hpermitted, ?_⟩
  unfold checkedIp
  rw [require_eq_ok (decide_eq_true hpercent)]
  change found (parse ip) unverified >>= _ = _
  rw [hread]
  change checkedAddress b >>= _ = _
  rw [hagain, hip]
  rfl

/-! ## Hosts -/

/-- What the code relies on in the tables: the printable ASCII characters are no spaces or controls,
and `idna.encode` is idempotent and returns lower-case labels of letters, digits and hyphens, none
of them empty, with a final dot where the name has one. -/
structure Texts.Lawful (t : Texts) : Prop where
  lower_host : ∀ s : Text, (∀ c ∈ s, Url.isHostChar c = true) → t.lower s = s
  refused_printable : ∀ c : Char, 0x21 ≤ c.toNat → c.toNat ≤ 0x7e → t.refused c = false
  idna_idem : ∀ s h, t.idna s = some h → t.idna h = some h
  idna_chars : ∀ s h, t.idna s = some h → ∀ c ∈ h, Url.isHostChar c = true ∧ c ≠ ':'
  idna_root : ∀ h, t.idna (h ++ ['.']) = some (h ++ ['.']) → t.idna h = some h
  idna_label : ∀ s h, t.idna s = some (h ++ ['.']) → h.getLast? ≠ some '.'

theorem dropRoot_eq {host : Text} (h : host.getLast? ≠ some '.') : dropRoot host = host := if_neg h

/-- A host as `parse_url` writes it. -/
structure HostOk (t : Texts) (host : Text) (literal : Bool) : Prop where
  chars : ∀ c ∈ host, Url.isHostChar c = true
  nonempty : host ≠ []
  root : host.getLast? ≠ some '.'
  colon : ':' ∈ host → (parse6 host).isSome = true
  again : canonicalHost t host = .ok (host, literal)

theorem getLast?_text4 (v : BitVec 32) : (text4 v).getLast? ≠ some '.' := by
  have hlast : ∃ before : Text, text4 v = before ++ textOf 10 3 (v.toNat % 256) := by
    refine ⟨textOf 10 3 (v.toNat / 256 / 256 / 256 % 256) ++ '.' ::
      (textOf 10 3 (v.toNat / 256 / 256 % 256) ++ '.' ::
        (textOf 10 3 (v.toNat / 256 % 256) ++ ['.'])), ?_⟩
    simp [text4, places, List.intercalate]
  obtain ⟨before, hlast⟩ := hlast
  rw [hlast, List.getLast?_append]
  obtain ⟨init, c, hc⟩ := (List.eq_nil_or_concat (textOf 10 3 (v.toNat % 256))).resolve_left
    textOf_ne_nil
  have hmem : c ∈ textOf 10 3 (v.toNat % 256) := hc ▸ by simp
  rw [hc, List.concat_eq_append, List.getLast?_concat, Option.some_or]
  rintro heq
  cases heq
  exact absurd (mem_textOf (by decide) (by decide) hmem) (by decide)

theorem text_ne_nil (a : Address) : a.text ≠ [] := fun h => by
  have hread := parse_text a
  have hnone : parse [] = none := by decide
  rw [h, hnone] at hread
  cases hread

theorem hostOk_literal {t : Texts} {a : Address} {host : Text} (h : checkedIp a.text = .ok host) :
    HostOk t host true := by
  obtain ⟨-, b, -, -, rfl, hread, -, hagain⟩ := checkedIp_ok h
  refine ⟨fun c hc => ?_, text_ne_nil b, ?_, fun hcolon => ?_, ?_⟩
  · cases b with
    | v4 v =>
        rcases List.mem_cons.mp (mem_text4 hc) with rfl | hc
        · decide
        · exact Url.mem_hexDigits hc
    | v6 v =>
        rcases List.mem_cons.mp (mem_text6 hc) with rfl | hc
        · decide
        · exact Url.mem_hexDigits hc
  · cases b with
    | v4 v => exact getLast?_text4 v
    | v6 v =>
        intro hlast
        exact absurd (mem_text6 (List.mem_of_getLast? hlast)) (by decide)
  · cases b with
    | v4 v => exact absurd (mem_text4 hcolon) (by decide)
    | v6 v =>
        rw [Address.text, parse6_text6]
        rfl
  · unfold canonicalHost
    rw [hread]
    dsimp only
    rw [bind_eq_ok hagain]
    rfl

theorem mapM_some_mem {α β : Type} {f : α → Option β} {l : List α} {r : List β}
    (h : l.mapM f = some r) : ∀ a ∈ l, ∃ b, f a = some b := by
  induction l generalizing r with
  | nil => exact fun a ha => by cases ha
  | cons a l ih =>
      rw [List.mapM_cons] at h
      obtain ⟨b, hb, h⟩ := Option.bind_eq_some_iff.mp h
      obtain ⟨bs, hbs, -⟩ := Option.bind_eq_some_iff.mp h
      intro c hc
      rcases List.mem_cons.mp hc with rfl | hc
      · exact ⟨b, hb⟩
      · exact ih hbs c hc

theorem digit_of_decimal {c : Char} {n : Nat} (h : digitValue? c = some n) (hn : n < 10) :
    Url.isAsciiDigit c = true := by
  unfold digitValue? at h
  split at h
  · rename_i hdigit
    simpa [Url.isAsciiDigit] using hdigit
  · split at h
    · cases h
      omega
    · split at h
      · cases h
        omega
      · cases h

/-- An octet is a number of the old resolvers too. -/
theorem isNumberLabel_of_octet {label : Text} {n : Nat} (h : octet? label = some n) :
    isNumberLabel label = true := by
  unfold octet? at h
  split at h
  · cases h
  · rename_i hshape
    obtain ⟨hv, -⟩ := Option.filter_eq_some_iff.mp h
    obtain ⟨ds, hds, -⟩ := Option.map_eq_some_iff.mp hv
    have hdigits : label.all Url.isAsciiDigit = true := by
      rw [List.all_eq_true]
      intro c hc
      obtain ⟨d, hd⟩ := mapM_some_mem hds c hc
      obtain ⟨hd, hlt⟩ := Option.filter_eq_some_iff.mp hd
      exact digit_of_decimal hd (of_decide_eq_true hlt)
    have hne : label ≠ [] := fun hnil => hshape (.inl hnil)
    simp [isNumberLabel, hne, hdigits]

theorem splitOn_of_not_mem {sep : Char} {s : Text} (h : sep ∉ s) : s.splitOn sep = [s] := by
  have hone : ([sep].intercalate [s]).splitOn sep = [s] :=
    List.splitOn_intercalate sep (fun l hl => List.mem_singleton.mp hl ▸ h) (by simp)
  simpa using hone

/-- A public name is not read as an address. -/
theorem parse_of_named {host : Text} (hlocal : isLocalName host = false) (hcolon : ':' ∉ host) :
    parse host = none := by
  have h4 : parse4 host = none := by
    cases h : parse4 host with
    | none => rfl
    | some a =>
        unfold parse4 at h
        dsimp only at h
        split at h
        · rename_i hlength
          obtain ⟨os, hos, -⟩ := Option.map_eq_some_iff.mp h
          have hnumbers : (host.splitOn '.').all isNumberLabel = true := by
            rw [List.all_eq_true]
            intro label hl
            obtain ⟨n, hn⟩ := mapM_some_mem hos label hl
            exact isNumberLabel_of_octet hn
          simp [isLocalName, hnumbers] at hlocal
        · cases h
  have h6 : parse6 host = none := by
    unfold parse6
    rw [splitOn_of_not_mem hcolon]
    rfl
  rw [parse, h4, h6]
  rfl

theorem hostOk_named {t : Texts} (L : t.Lawful) {name host : Text} (h : namedHost t name = .ok host) :
    HostOk t host false := by
  obtain ⟨encoded, hencoded, h⟩ := bind_ok h
  obtain ⟨hlocal, h⟩ := require_bind_ok h
  have hhost := pure_ok h
  have hidna := found_ok hencoded
  have hchars := L.idna_chars name encoded hidna
  have hlower : t.lower encoded = encoded := L.lower_host encoded fun c hc => (hchars c hc).1
  rw [hlower] at hhost hlocal
  rw [hhost] at hlocal
  simp only [Bool.not_eq_true'] at hlocal
  have hsame : host.getLast? ≠ some '.' ∧ t.idna host = some host ∧ ∀ c ∈ host, c ∈ encoded := by
    unfold dropRoot at hhost
    split at hhost
    · rename_i hdot
      have hsplit : encoded = host ++ ['.'] := by
        rw [← hhost]
        exact (List.dropLast_append_getLast? '.' hdot).symm
      rw [hsplit] at hidna
      refine ⟨L.idna_label name host hidna, L.idna_root host (L.idna_idem _ _ hidna), fun c hc => ?_⟩
      rw [hsplit]
      exact List.mem_append_left _ hc
    · rename_i hdot
      rw [← hhost]
      exact ⟨hdot, L.idna_idem _ _ hidna, fun c hc => hc⟩
  obtain ⟨hroot, hagain, hsub⟩ := hsame
  have hcolon : ':' ∉ host := fun hc => (hchars ':' (hsub ':' hc)).2 rfl
  have hkeep : ∀ c ∈ host, Url.isHostChar c = true := fun c hc => (hchars c (hsub c hc)).1
  refine ⟨hkeep, ?_, hroot, fun hc => absurd hc hcolon, ?_⟩
  · rintro rfl
    revert hlocal
    decide
  · have hnamed : namedHost t host = .ok host := by
      unfold namedHost
      rw [hagain]
      change require _ blocked >>= _ = _
      rw [L.lower_host host hkeep, dropRoot_eq hroot, require_eq_ok (by simp [hlocal])]
      rfl
    unfold canonicalHost
    rw [parse_of_named hlocal hcolon]
    dsimp only
    rw [bind_eq_ok hnamed]
    rfl

theorem canonicalHost_ok {t : Texts} (L : t.Lawful) {name host : Text} {literal : Bool}
    (h : canonicalHost t name = .ok (host, literal)) : HostOk t host literal := by
  unfold canonicalHost at h
  split at h
  · obtain ⟨ip, hip, h⟩ := bind_ok h
    cases pure_ok h
    exact hostOk_literal hip
  · obtain ⟨named, hnamed, h⟩ := bind_ok h
    cases pure_ok h
    exact hostOk_named L hnamed

/-! ## URLs -/

/-- A URL as `parse_url` writes it, from its port, its path and its query. -/
structure Canonical (t : Texts) (u : FetchURL) (port? : Option Nat) (path query : Text) : Prop where
  scheme : u.scheme = http ∨ u.scheme = https
  host : HostOk t u.host u.literal
  port : u.port = port?.getD (if u.scheme = https then 443 else 80)
  port_le : ∀ n, port? = some n → n ≤ 65535
  port_ne : port? ≠ some 0
  root : path.head? = some '/'
  path_chars : ∀ c ∈ path, Url.isUnreserved c = true ∨ c ∈ pathSafe
  query_chars : ∀ c ∈ query, Url.isUnreserved c = true ∨ c ∈ querySafe
  url : u.url = Url.unsplit u.scheme (Url.authority u.host port?) path query
  length : u.url.length ≤ 8192

theorem quote_root {path : Text} (h : path.head? = some '/') :
    (Url.quote pathSafe path).head? = some '/' := by
  obtain ⟨c, rest, rfl⟩ : ∃ c rest, path = c :: rest := by
    cases path with
    | nil => cases h
    | cons c rest => exact ⟨c, rest, rfl⟩
  cases h
  have hsafe : (Url.isUnreserved '/' || decide ('/' ∈ pathSafe)) = true := by decide
  rw [Url.quote, List.flatMap_cons, if_pos hsafe]
  rfl

theorem port_bound {netloc : Text} {port? : Option Nat} (h : Url.port netloc = some port?) :
    ∀ n, port? = some n → n ≤ 65535 := by
  rintro n rfl
  unfold Url.port at h
  dsimp only at h
  split at h
  · cases h
  · split at h
    · split at h
      · cases h
        assumption
      · cases h
    · cases h

theorem canonical_of_parseUrl {t : Texts} (L : t.Lawful) {value : Text} {u : FetchURL}
    (h : parseUrl t value = .ok u) : ∃ port? path query, Canonical t u port? path query := by
  obtain ⟨-, h⟩ := require_bind_ok h
  obtain ⟨parts, hparts, h⟩ := bind_ok h
  obtain ⟨hscheme, h⟩ := require_bind_ok h
  obtain ⟨host, -, h⟩ := bind_ok h
  obtain ⟨-, h⟩ := require_bind_ok h
  obtain ⟨port?, hport, h⟩ := bind_ok h
  obtain ⟨hzero, h⟩ := require_bind_ok h
  obtain ⟨-, h⟩ := require_bind_ok h
  obtain ⟨⟨canonical, literal⟩, hhost, h⟩ := bind_ok h
  obtain ⟨hlength, h⟩ := require_bind_ok h
  obtain rfl := pure_ok h
  simp only [Bool.and_eq_true, Bool.or_eq_true, decide_eq_true_eq] at hscheme hzero hlength
  obtain ⟨⟨hscheme, hnetloc⟩, -⟩ := hscheme
  have hroot : (if parts.path = [] then ['/'] else parts.path).head? = some '/' := by
    split
    · rfl
    · rename_i hne
      exact (Url.split_path (found_ok hparts) hnetloc).resolve_left hne
  exact ⟨port?, _, _, hscheme, canonicalHost_ok L hhost, rfl, port_bound (found_ok hport), hzero,
    quote_root hroot, fun c hc => Url.mem_quote (by decide) hc,
    fun c hc => Url.mem_quote (by decide) hc, rfl, hlength⟩

/-- A character of a canonical URL: printable ASCII and no backslash. -/
def isUrlChar (c : Char) : Bool := 0x21 ≤ c.toNat && c.toNat ≤ 0x7e && c ≠ '\\'

theorem charLe_iff {a b : Char} : a ≤ b ↔ a.toNat ≤ b.toNat := Iff.rfl

theorem ne_backslash {c : Char} (h : c.toNat ≠ 0x5c) : c ≠ '\\' := by
  rintro rfl
  exact h rfl

theorem isUrlChar_alnum {c : Char}
    (h : ('a' ≤ c ∧ c ≤ 'z') ∨ ('A' ≤ c ∧ c ≤ 'Z') ∨ '0' ≤ c ∧ c ≤ '9') : isUrlChar c = true := by
  have hbounds : 0x21 ≤ c.toNat ∧ c.toNat ≤ 0x7e ∧ c.toNat ≠ 0x5c := by
    simp only [charLe_iff, Char.reduceToNat] at h
    omega
  simp [isUrlChar, hbounds, ne_backslash hbounds.2.2]

theorem isUrlChar_unreserved {c : Char} (h : Url.isUnreserved c = true) : isUrlChar c = true := by
  simp only [Url.isUnreserved, Url.isAsciiLetter, Url.isAsciiDigit, Bool.or_eq_true,
    Bool.and_eq_true, decide_eq_true_eq] at h
  rcases h with ((h | h) | h) | h
  · exact isUrlChar_alnum (.inl h)
  · exact isUrlChar_alnum (.inr (.inl h))
  · exact isUrlChar_alnum (.inr (.inr h))
  · have hall : ∀ d ∈ ['_', '.', '-', '~'], isUrlChar d = true :=
      List.all_eq_true.mp (by decide)
    exact hall c h

theorem isUrlChar_hostChar {c : Char} (h : Url.isHostChar c = true) : isUrlChar c = true := by
  simp only [Url.isHostChar, Url.isAsciiDigit, Bool.or_eq_true, Bool.and_eq_true,
    decide_eq_true_eq] at h
  rcases h with (h | h) | h
  · exact isUrlChar_alnum (.inl h)
  · exact isUrlChar_alnum (.inr (.inr h))
  · have hall : ∀ d ∈ ['-', '.', ':'], isUrlChar d = true :=
      List.all_eq_true.mp (by decide)
    exact hall c h

section Canonical

variable {t : Texts} {u : FetchURL} {port? : Option Nat} {path query : Text}

theorem Canonical.scheme_chars (h : Canonical t u port? path query) :
    ∀ c ∈ u.scheme, Url.isAsciiLetter c = true ∧ c.toLower = c ∧ isUrlChar c = true := by
  have hall : ∀ s : Text, (s.all fun c => Url.isAsciiLetter c && c.toLower == c && isUrlChar c) →
      ∀ c ∈ s, Url.isAsciiLetter c = true ∧ c.toLower = c ∧ isUrlChar c = true := by
    intro s hs c hc
    simpa [and_assoc] using List.all_eq_true.mp hs c hc
  rcases h.scheme with hs | hs
  · exact hall _ (by rw [hs]; decide)
  · exact hall _ (by rw [hs]; decide)

theorem Canonical.netloc_chars (h : Canonical t u port? path query) :
    ∀ c ∈ Url.authority u.host port?,
      isUrlChar c = true ∧ c ∉ ['/', '?', '#'] ∧ c.toNat < 128 := by
  intro c hc
  have hchar : isUrlChar c = true ∧ c ∉ ['/', '?', '#'] := by
    rcases Url.mem_authority h.host.chars hc with hc | rfl | rfl
    · refine ⟨isUrlChar_hostChar hc, fun hmem => ?_⟩
      have hall : ∀ d ∈ ['/', '?', '#'], (!Url.isHostChar d) = true :=
        List.all_eq_true.mp (by decide)
      have hnot := hall c hmem
      rw [hc] at hnot
      cases hnot
    · decide
    · decide
  refine ⟨hchar.1, hchar.2, ?_⟩
  have hprintable := hchar.1
  simp only [isUrlChar, Bool.and_eq_true, decide_eq_true_eq] at hprintable
  omega

theorem Canonical.chars (h : Canonical t u port? path query) : ∀ c ∈ u.url, isUrlChar c = true := by
  have hsafe : ∀ d ∈ querySafe, isUrlChar d = true :=
      List.all_eq_true.mp (by decide)
  have hsafe' : ∀ d ∈ pathSafe, isUrlChar d = true :=
      List.all_eq_true.mp (by decide)
  have hslash : ¬ (path ≠ [] ∧ path.head? ≠ some '/') := fun hp => hp.2 h.root
  have hscheme : u.scheme ≠ [] := by
    rcases h.scheme with hs | hs <;> rw [hs] <;> decide
  intro c hc
  rw [h.url] at hc
  unfold Url.unsplit at hc
  dsimp only at hc
  rw [if_neg hslash, if_neg hscheme] at hc
  have hmem : c ∈ u.scheme ∨ c ∈ [':', '/', '?'] ∨ c ∈ Url.authority u.host port? ∨ c ∈ path ∨
      c ∈ query := by
    clear hslash hscheme hsafe hsafe'
    split at hc
    · simp only [List.mem_append, List.mem_cons, List.not_mem_nil] at hc ⊢
      grind
    · simp only [List.mem_append, List.mem_cons, List.not_mem_nil] at hc ⊢
      grind
  rcases hmem with hc | hc | hc | hc | hc
  · exact (h.scheme_chars c hc).2.2
  · have hall : ∀ d ∈ [':', '/', '?'], isUrlChar d = true :=
      List.all_eq_true.mp (by decide)
    exact hall c hc
  · exact (h.netloc_chars c hc).1
  · exact (h.path_chars c hc).elim isUrlChar_unreserved (hsafe' c)
  · exact (h.query_chars c hc).elim isUrlChar_unreserved (hsafe c)

end Canonical

theorem parseUrl_of_canonical {t : Texts} (L : t.Lawful) {u : FetchURL} {port? : Option Nat}
    {path query : Text} (h : Canonical t u port? path query) : parseUrl t u.url = .ok u := by
  have hhost := h.host
  have hne : u.scheme ≠ [] := by
    rcases h.scheme with hs | hs <;> rw [hs] <;> decide
  have hletters : ∀ c ∈ u.scheme, Url.isAsciiLetter c = true ∧ c.toLower = c := fun c hc =>
    ⟨(h.scheme_chars c hc).1, (h.scheme_chars c hc).2.1⟩
  have hnetloc := h.netloc_chars
  have hpath : ∀ c ∈ path, c ∉ ['?', '#'] := by
    intro c hc hmem
    have hchar := h.path_chars c hc
    simp only [List.mem_cons, List.not_mem_nil, or_false] at hmem
    rcases hmem with rfl | rfl <;> revert hchar <;> decide
  have hquery : '#' ∉ query := fun hc => by
    have hchar := h.query_chars '#' hc
    revert hchar
    decide
  have hsplit : Url.split t.normal u.url =
      some ⟨u.scheme, Url.authority u.host port?, path, query, []⟩ := by
    rw [h.url]
    exact Url.split_unsplit hne hletters (fun c hc => (hnetloc c hc).2.1) (fun c hc => (hnetloc c hc).2.2)
      (Url.bracketsOk_authority hhost.chars port? hhost.colon) h.root hpath hquery
  have hscheme : ((decide (u.scheme = http) || decide (u.scheme = https)) &&
      decide (Url.authority u.host port? ≠ []) &&
      !Url.hasUserinfo (Url.authority u.host port?)) = true := by
    have hat : Url.hasUserinfo (Url.authority u.host port?) = false := by
      simp only [Url.hasUserinfo, decide_eq_false_iff_not]
      exact Url.authority_not_mem hhost.chars (by decide) (by decide) (by decide)
    have hsome : Url.authority u.host port? ≠ [] := Url.authority_ne_nil hhost.nonempty
    simp [hat, hsome, h.scheme]
  have hpercent : (decide ('%' ∉ u.host) &&
      decide ((Url.authority u.host port?).getLast? ≠ some ':')) = true := by
    have hnot : '%' ∉ u.host := Url.host_not_mem hhost.chars (by decide)
    simp [hnot, Url.getLast?_authority]
  have hroot : dropRoot u.host = u.host := dropRoot_eq hhost.root
  have hquoted : Url.quote pathSafe (if path = [] then ['/'] else path) = path := by
    have hsome : path ≠ [] := fun hnil => by
      have := h.root
      rw [hnil] at this
      cases this
    rw [if_neg hsome]
    exact Url.quote_eq_self h.path_chars
  have hlegal : (decide (u.url ≠ []) && decide (u.url.length ≤ 8192) && decide ('\\' ∉ u.url) &&
      !u.url.any t.refused) = true := by
    have hsome : u.url ≠ [] := by
      rw [h.url]
      exact Url.unsplit_ne_nil
    have hslash : '\\' ∉ u.url := fun hc => absurd (h.chars '\\' hc) (by decide)
    have hrefused : u.url.any t.refused = false := by
      rw [List.any_eq_false]
      intro c hc
      have hchar := h.chars c hc
      simp only [isUrlChar, Bool.and_eq_true, decide_eq_true_eq] at hchar
      simp [L.refused_printable c hchar.1.1 hchar.1.2]
    simp [hsome, h.length, hslash, hrefused]
  unfold parseUrl
  rw [require_eq_ok hlegal]
  change found (Url.split t.normal u.url) blocked >>= _ = _
  rw [hsplit]
  change require _ blocked >>= _ = _
  rw [require_eq_ok hscheme]
  change found (Url.hostname t.lower (Url.authority u.host port?)) blocked >>= _ = _
  rw [Url.hostname_authority hhost.chars port? hhost.nonempty (L.lower_host _ hhost.chars)]
  change require _ blocked >>= _ = _
  rw [require_eq_ok hpercent]
  change found (Url.port (Url.authority u.host port?)) blocked >>= _ = _
  rw [Url.port_authority hhost.chars h.port_le]
  change require _ blocked >>= _ = _
  rw [require_eq_ok h.port_ne]
  change require _ blocked >>= _ = _
  rw [hroot, require_eq_ok hhost.root]
  change canonicalHost t u.host >>= _ = _
  rw [bind_eq_ok hhost.again]
  dsimp only
  rw [hquoted, Url.quote_eq_self h.query_chars, ← h.url, require_eq_ok (decide_eq_true h.length)]
  change Except.ok _ = _
  rw [← h.port]

/-- `parse_url` is idempotent. -/
theorem parseUrl_again {t : Texts} (L : t.Lawful) {value : Text} {u : FetchURL}
    (h : parseUrl t value = .ok u) : parseUrl t u.url = .ok u := by
  obtain ⟨_, _, _, hcanonical⟩ := canonical_of_parseUrl L h
  exact parseUrl_of_canonical L hcanonical

end Avibe.Fetch
