import Avibe.Lib.Ip

/-!
# URLs

`split` and `unsplit` of `urllib.parse` on texts without spaces and controls, the host and
the port of an authority, and `quote`. What `unsplit` writes from parts of the right shape
is split into the same parts, and quoting twice is quoting once.
-/

namespace Url

open Ip Places

structure Parts where
  scheme : Text
  netloc : Text
  path : Text
  query : Text
  fragment : Text
  deriving DecidableEq, Repr

def isAsciiLetter (c : Char) : Bool := ('a' ≤ c && c ≤ 'z') || ('A' ≤ c && c ≤ 'Z')

def isAsciiDigit (c : Char) : Bool := '0' ≤ c && c ≤ '9'

def isSchemeChar (c : Char) : Bool := isAsciiLetter c || isAsciiDigit c || c ∈ ['+', '-', '.']

/-- The text before the first such character, and the rest. -/
def cut (p : Char → Bool) (t : Text) : Text × Text :=
  (t.takeWhile fun c => !p c, t.dropWhile fun c => !p c)

/-- `str.partition`: the text before the first separator and the text after it. -/
def partition (sep : Char) (t : Text) : Text × Text :=
  (t.takeWhile (· ≠ sep), (t.dropWhile (· ≠ sep)).drop 1)

def splitScheme (t : Text) : Text × Text :=
  let (scheme, rest) := partition ':' t
  if ':' ∈ t ∧ scheme.head?.any isAsciiLetter ∧ scheme.all isSchemeChar then
    (scheme.map Char.toLower, rest)
  else ([], t)

/-- The address of a future version: its number, a dot and more. -/
def isFuture : Text → Bool
  | 'v' :: t =>
      let (digits, rest) := cut (fun c => (digitValue? c).isNone) t
      digits ≠ [] && rest.head? = some '.' && 1 < rest.length
  | _ => false

/-- An address in brackets is an IPv6 one, or one of a future version. -/
def bracketsOk (netloc : Text) : Bool :=
  if '[' ∈ netloc ∨ ']' ∈ netloc then
    let host := (partition ']' (partition '[' netloc).2).1
    '[' ∈ netloc ∧ ']' ∈ netloc ∧ (isFuture host ∨ (parse6 host).isSome)
  else true

def splitNetloc : Text → Text × Text
  | '/' :: '/' :: t => cut (· ∈ ['/', '?', '#']) t
  | t => ([], t)

/-- `urlsplit`; none where it raises `ValueError`. The first argument says that a netloc outside
ASCII has no separator in its compatibility form. -/
def split (normal : Text → Bool) (t : Text) : Option Parts :=
  let (scheme, t) := splitScheme t
  let (netloc, t) := splitNetloc t
  let (t, fragment) := partition '#' t
  let (path, query) := partition '?' t
  if bracketsOk netloc ∧ (netloc.all (·.toNat < 128) ∨ normal netloc) then
    some ⟨scheme, netloc, path, query, fragment⟩
  else none

/-- `urlunsplit` of parts with a netloc and without a fragment. -/
def unsplit (scheme netloc path query : Text) : Text :=
  let path := if path ≠ [] ∧ path.head? ≠ some '/' then '/' :: path else path
  let url := '/' :: '/' :: netloc ++ path
  let url := if scheme = [] then url else scheme ++ ':' :: url
  if query = [] then url else url ++ '?' :: query

theorem unsplit_ne_nil {scheme netloc path query : Text} : unsplit scheme netloc path query ≠ [] := by
  unfold unsplit
  dsimp only
  split <;> split <;> simp

/-! ## The authority -/

def hasUserinfo (netloc : Text) : Bool := '@' ∈ netloc

/-- The host and the text of the port; an empty one is none. -/
def hostPort (netloc : Text) : Text × Text :=
  let hostinfo := (netloc.reverse.takeWhile (· ≠ '@')).reverse
  if '[' ∈ hostinfo then
    let (host, rest) := partition ']' (partition '[' hostinfo).2
    (host, (partition ':' rest).2)
  else partition ':' hostinfo

/-- `hostname`, with what comes after a percent sign as it is. -/
def hostname (lower : Text → Text) (netloc : Text) : Option Text :=
  let host := (hostPort netloc).1
  if host = [] then none
  else some (lower (host.takeWhile (· ≠ '%')) ++ host.dropWhile (· ≠ '%'))

/-- `port`: none where it raises `ValueError`. -/
def port (netloc : Text) : Option (Option Nat) :=
  let digits := (hostPort netloc).2
  if digits = [] then some none
  else
    match valueOf? 10 digits with
    | some n => if n ≤ 65535 then some (some n) else none
    | none => none

/-! ## Splitting what was written -/

theorem cut_append {p : Char → Bool} {a b : Text} (h : ∀ c ∈ a, p c = false)
    (hb : ∀ c, b.head? = some c → p c = true) : cut p (a ++ b) = (a, b) := by
  have hall : ∀ c ∈ a, (!p c) = true := fun c hc => by simp [h c hc]
  unfold cut
  rw [List.takeWhile_append_of_pos hall, List.dropWhile_append_of_pos hall]
  cases b with
  | nil => simp
  | cons c b => simp [hb c rfl]

theorem partition_cons {sep : Char} {a b : Text} (h : sep ∉ a) :
    partition sep (a ++ sep :: b) = (a, b) := by
  have hall : ∀ c ∈ a, decide (c ≠ sep) = true := fun c hc => by
    simp only [decide_eq_true_eq]
    rintro rfl
    exact h hc
  unfold partition
  rw [List.takeWhile_append_of_pos hall, List.dropWhile_append_of_pos hall]
  simp

theorem partition_none {sep : Char} {a : Text} (h : sep ∉ a) : partition sep a = (a, []) := by
  have hall : ∀ c ∈ a, decide (c ≠ sep) = true := fun c hc => by
    simp only [decide_eq_true_eq]
    rintro rfl
    exact h hc
  unfold partition
  rw [List.takeWhile_eq_self_iff.mpr hall, List.dropWhile_eq_nil_iff.mpr hall]
  rfl

theorem splitScheme_append {scheme rest : Text} (hne : scheme ≠ [])
    (h : ∀ c ∈ scheme, isAsciiLetter c = true ∧ c.toLower = c) :
    splitScheme (scheme ++ ':' :: rest) = (scheme, rest) := by
  have hcolon : ':' ∉ scheme := fun hc => absurd (h ':' hc).1 (by decide)
  unfold splitScheme
  rw [partition_cons hcolon]
  dsimp only
  rw [if_pos ?_]
  · congr 1
    conv_rhs => rw [← List.map_id scheme]
    exact List.map_congr_left fun c hc => (h c hc).2
  · refine ⟨by simp, ?_, ?_⟩
    · obtain ⟨c, t, rfl⟩ := List.exists_cons_of_ne_nil hne
      simpa using (h c List.mem_cons_self).1
    · rw [List.all_eq_true]
      exact fun c hc => by simp [isSchemeChar, (h c hc).1]

/-- A URL that was written from parts without separators is split into them. -/
theorem split_unsplit {normal : Text → Bool} {scheme netloc path query : Text} (hne : scheme ≠ [])
    (hscheme : ∀ c ∈ scheme, isAsciiLetter c = true ∧ c.toLower = c)
    (hnetloc : ∀ c ∈ netloc, c ∉ ['/', '?', '#']) (hascii : ∀ c ∈ netloc, c.toNat < 128)
    (hbrackets : bracketsOk netloc = true) (hpath : path.head? = some '/')
    (hpath' : ∀ c ∈ path, c ∉ ['?', '#']) (hquery : '#' ∉ query) :
    split normal (unsplit scheme netloc path query) = some ⟨scheme, netloc, path, query, []⟩ := by
  have hshape : unsplit scheme netloc path query =
      scheme ++ ':' :: '/' :: '/' :: (netloc ++ (path ++ if query = [] then [] else '?' :: query)) := by
    have hslash : ¬ (path ≠ [] ∧ path.head? ≠ some '/') := fun h => h.2 hpath
    unfold unsplit
    dsimp only
    rw [if_neg hslash, if_neg hne]
    split <;> simp
  have hcut : splitNetloc
      ('/' :: '/' :: (netloc ++ (path ++ if query = [] then [] else '?' :: query))) =
      (netloc, path ++ if query = [] then [] else '?' :: query) := by
    refine cut_append (fun c hc => decide_eq_false (hnetloc c hc)) fun c hc => ?_
    rw [List.head?_append, hpath] at hc
    cases hc
    decide
  have hfragment : partition '#' (path ++ if query = [] then [] else '?' :: query) =
      (path ++ if query = [] then [] else '?' :: query, []) := by
    refine partition_none fun hc => ?_
    rcases List.mem_append.mp hc with hc | hc
    · exact hpath' '#' hc (by decide)
    · split at hc
      · cases hc
      · exact hquery ((List.mem_cons.mp hc).resolve_left (by decide))
  have hsplit : partition '?' (path ++ if query = [] then [] else '?' :: query) = (path, query) := by
    have hnone : '?' ∉ path := fun hc => hpath' '?' hc (by decide)
    split
    · rename_i hnil
      rw [List.append_nil, partition_none hnone, hnil]
    · exact partition_cons hnone
  unfold split
  rw [hshape, splitScheme_append hne hscheme]
  dsimp only
  rw [hcut]
  dsimp only
  rw [hfragment]
  dsimp only
  rw [hsplit]
  refine if_pos ⟨hbrackets, .inl ?_⟩
  rw [List.all_eq_true]
  exact fun c hc => decide_eq_true (hascii c hc)

theorem head?_dropWhile_cut {p : Char → Bool} {t : Text} {c : Char}
    (h : (cut p t).2.head? = some c) : p c = true := by
  have hhead := List.head?_dropWhile_not (fun c => !p c) t
  unfold cut at h
  rw [h] at hhead
  simpa using hhead

theorem head?_partition {sep c : Char} {t : Text} (h : (partition sep t).1.head? = some c) :
    t.head? = some c ∧ c ≠ sep := by
  cases t with
  | nil => cases h
  | cons d t =>
      unfold partition at h
      rw [List.takeWhile_cons] at h
      split at h
      · rename_i hd
        cases h
        exact ⟨rfl, of_decide_eq_true hd⟩
      · cases h

/-- The path after a netloc is empty or starts with a slash. -/
theorem split_path {normal : Text → Bool} {t : Text} {parts : Parts}
    (h : split normal t = some parts) (hne : parts.netloc ≠ []) :
    parts.path = [] ∨ parts.path.head? = some '/' := by
  unfold split at h
  dsimp only at h
  split at h
  · cases h
    dsimp only at hne ⊢
    generalize (splitScheme t).2 = rest at hne ⊢
    have hhead : ∀ c, (splitNetloc rest).2.head? = some c → c ∈ ['/', '?', '#'] := by
      intro c hc
      unfold splitNetloc at hne hc
      split at hc
      · exact of_decide_eq_true (head?_dropWhile_cut hc)
      · rename_i hother
        split at hne
        · exact absurd rfl (hother _)
        · exact absurd rfl hne
    cases hpath : (partition '?' (partition '#' (splitNetloc rest).2).1).1.head? with
    | none => exact .inl (List.head?_eq_none_iff.mp hpath)
    | some c =>
        obtain ⟨hc, hquery⟩ := head?_partition hpath
        obtain ⟨hc, hfragment⟩ := head?_partition hc
        have hmem := hhead c hc
        simp only [List.mem_cons, List.not_mem_nil, or_false] at hmem
        rcases hmem with rfl | rfl | rfl
        · exact .inr rfl
        · exact absurd rfl hquery
        · exact absurd rfl hfragment
  · cases h

/-! ## Authorities -/

def portPart : Option Nat → Text
  | none => []
  | some n => ':' :: textOf 10 5 n

/-- The authority of a host, in brackets where it has a colon, and of a port. -/
def authority (host : Text) (port : Option Nat) : Text :=
  (if ':' ∈ host then '[' :: host ++ [']'] else host) ++ portPart port

theorem partition_portPart (port : Option Nat) :
    (partition ':' (portPart port)).2 = (port.map (textOf 10 5)).getD [] := by
  cases port with
  | none => rfl
  | some n =>
      have hport : partition ':' ([] ++ ':' :: textOf 10 5 n) = ([], textOf 10 5 n) :=
        partition_cons (by simp)
      exact congrArg Prod.snd hport

theorem partition_authority {host : Text} (hcolon : ':' ∈ host) (hclose : ']' ∉ host)
    (port : Option Nat) :
    partition ']' (partition '[' (authority host port)).2 = (host, portPart port) := by
  have hopen : partition '[' ([] ++ '[' :: (host ++ ']' :: portPart port)) =
      ([], host ++ ']' :: portPart port) := partition_cons (by simp)
  have hshape : authority host port = [] ++ '[' :: (host ++ ']' :: portPart port) := by
    simp [authority, hcolon]
  rw [hshape, hopen]
  exact partition_cons hclose

/-- A character of a canonical host: a lower-case letter, a digit or one of three marks. -/
def isHostChar (c : Char) : Bool := ('a' ≤ c && c ≤ 'z') || isAsciiDigit c || c ∈ ['-', '.', ':']

theorem mem_hexDigits {c : Char} (h : c ∈ "0123456789abcdef".toList) : isHostChar c = true := by
  have hall : ∀ d ∈ "0123456789abcdef".toList, isHostChar d = true :=
    List.all_eq_true.mp (by decide)
  exact hall c h

theorem authority_ne_nil {host : Text} (h : host ≠ []) {port : Option Nat} :
    authority host port ≠ [] := by
  unfold authority
  split <;> simp [h]

/-- An authority does not end with a colon. -/
theorem getLast?_authority {host : Text} {port : Option Nat} :
    (authority host port).getLast? ≠ some ':' := by
  intro hlast
  unfold authority at hlast
  rw [List.getLast?_append] at hlast
  cases port with
  | none =>
      rw [portPart, List.getLast?_nil, Option.none_or] at hlast
      split at hlast
      · rw [List.getLast?_concat] at hlast
        cases hlast
      · rename_i hcolon
        exact hcolon (List.mem_of_getLast? hlast)
  | some n =>
      obtain ⟨init, c, hc⟩ := (List.eq_nil_or_concat (textOf 10 5 n)).resolve_left textOf_ne_nil
      have hmem : c ∈ textOf 10 5 n := hc ▸ by simp
      rw [portPart, hc, List.concat_eq_append, ← List.cons_append, List.getLast?_concat,
        Option.some_or] at hlast
      cases hlast
      exact absurd (mem_textOf (by decide) (by decide) hmem) (by decide)

section Authority

variable {host : Text} (hhost : ∀ c ∈ host, isHostChar c = true)
include hhost

theorem host_not_mem {c : Char} (h : isHostChar c = false) : c ∉ host := fun hc =>
  Bool.false_ne_true (h.symm.trans (hhost c hc))

theorem mem_authority {port : Option Nat} {c : Char} (h : c ∈ authority host port) :
    isHostChar c = true ∨ c = '[' ∨ c = ']' := by
  unfold authority at h
  rcases List.mem_append.mp h with h | h
  · split at h
    · rcases List.mem_append.mp h with h | h
      · rcases List.mem_cons.mp h with rfl | h
        · exact .inr (.inl rfl)
        · exact .inl (hhost c h)
      · exact .inr (.inr (List.mem_singleton.mp h))
    · exact .inl (hhost c h)
  · cases port with
    | none => cases h
    | some n =>
        rcases List.mem_cons.mp h with rfl | h
        · exact .inl (by decide)
        · exact .inl (mem_hexDigits (mem_textOf (by decide) (by decide) h))

theorem authority_not_mem {port : Option Nat} {c : Char} (h : isHostChar c = false) (hopen : c ≠ '[')
    (hclose : c ≠ ']') : c ∉ authority host port := fun hc => by
  rcases mem_authority hhost hc with hc | hc | hc
  · exact Bool.false_ne_true (h.symm.trans hc)
  · exact hopen hc
  · exact hclose hc

theorem hostinfo_authority (port : Option Nat) :
    ((authority host port).reverse.takeWhile (· ≠ '@')).reverse = authority host port := by
  have hat : '@' ∉ authority host port :=
    authority_not_mem hhost (by decide) (by decide) (by decide)
  have hall : ∀ c ∈ (authority host port).reverse, decide (c ≠ '@') = true := fun c hc => by
    simp only [decide_eq_true_eq]
    rintro rfl
    exact hat (List.mem_reverse.mp hc)
  rw [List.takeWhile_eq_self_iff.mpr hall, List.reverse_reverse]

theorem bracket_mem_authority (port : Option Nat) {c : Char} (hc : c = '[' ∨ c = ']') :
    c ∈ authority host port ↔ ':' ∈ host := by
  have hhost' : c ∉ host := by
    rcases hc with rfl | rfl <;> exact host_not_mem hhost (by decide)
  have hport : c ∉ portPart port := by
    cases port with
    | none => simp [portPart]
    | some n =>
        intro h
        rcases List.mem_cons.mp h with rfl | h
        · simp at hc
        · have hdigit := mem_hexDigits (mem_textOf (by decide) (by decide) h)
          rcases hc with rfl | rfl <;> exact absurd hdigit (by decide)
  unfold authority
  by_cases hcolon : ':' ∈ host
  · rcases hc with rfl | rfl <;> simp [hcolon]
  · simp [hcolon, hhost', hport]

theorem hostPort_authority (port : Option Nat) :
    hostPort (authority host port) = (host, (port.map (textOf 10 5)).getD []) := by
  unfold hostPort
  dsimp only
  rw [hostinfo_authority hhost]
  by_cases hcolon : ':' ∈ host
  · rw [if_pos ((bracket_mem_authority hhost port (.inl rfl)).mpr hcolon),
      partition_authority hcolon (host_not_mem hhost (by decide))]
    dsimp only
    rw [partition_portPart]
  · rw [if_neg fun h => hcolon ((bracket_mem_authority hhost port (.inl rfl)).mp h)]
    unfold authority
    rw [if_neg hcolon]
    cases port with
    | none =>
        rw [portPart, List.append_nil]
        exact partition_none hcolon
    | some n => exact partition_cons hcolon

theorem bracketsOk_authority (port : Option Nat) (h : ':' ∈ host → (parse6 host).isSome = true) :
    bracketsOk (authority host port) = true := by
  unfold bracketsOk
  by_cases hcolon : ':' ∈ host
  · have hopen := (bracket_mem_authority hhost port (.inl rfl)).mpr hcolon
    have hclose := (bracket_mem_authority hhost port (.inr rfl)).mpr hcolon
    rw [if_pos (.inl hopen), partition_authority hcolon (host_not_mem hhost (by decide))]
    simp [hopen, hclose, h hcolon]
  · have hopen : '[' ∉ authority host port := fun h => hcolon ((bracket_mem_authority hhost port (.inl rfl)).mp h)
    have hclose : ']' ∉ authority host port := fun h =>
      hcolon ((bracket_mem_authority hhost port (.inr rfl)).mp h)
    rw [if_neg (not_or.mpr ⟨hopen, hclose⟩)]

theorem port_authority {port : Option Nat} (h : ∀ n, port = some n → n ≤ 65535) :
    Url.port (authority host port) = some port := by
  unfold Url.port
  rw [hostPort_authority hhost]
  cases port with
  | none => rfl
  | some n =>
      have hn := h n rfl
      dsimp only [Option.map_some, Option.getD_some]
      rw [if_neg textOf_ne_nil, valueOf?_textOf (by decide) (by decide) (by omega)]
      exact if_pos hn

theorem hostname_authority {lower : Text → Text} (port : Option Nat) (hne : host ≠ [])
    (hlower : lower host = host) : hostname lower (authority host port) = some host := by
  have hall : ∀ c ∈ host, decide (c ≠ '%') = true := fun c hc => by
    simp only [decide_eq_true_eq]
    rintro rfl
    exact absurd (hhost '%' hc) (by decide)
  unfold hostname
  rw [hostPort_authority hhost]
  dsimp only
  rw [if_neg hne, List.takeWhile_eq_self_iff.mpr hall, List.dropWhile_eq_nil_iff.mpr hall, hlower,
    List.append_nil]

end Authority

/-! ## Quoting -/

def isUnreserved (c : Char) : Bool :=
  isAsciiLetter c || isAsciiDigit c || c ∈ ['_', '.', '-', '~']

def hexDigit (n : Nat) : Char := (Nat.digitChar n).toUpper

/-- `quote` -/
def quote (safe t : Text) : Text :=
  t.flatMap fun c =>
    if isUnreserved c || c ∈ safe then [c]
    else (String.utf8EncodeChar c).flatMap fun b =>
      ['%', hexDigit (b.toNat / 16), hexDigit (b.toNat % 16)]

theorem hexDigit_unreserved : ∀ n < 16, isUnreserved (hexDigit n) = true := by decide

section Quote

variable {safe t : Text}

theorem mem_quote (hpercent : '%' ∈ safe) {c : Char} (h : c ∈ quote safe t) :
    isUnreserved c = true ∨ c ∈ safe := by
  obtain ⟨d, -, hc⟩ := List.mem_flatMap.mp h
  split at hc
  · rename_i hsafe
    rw [List.mem_singleton.mp hc]
    simpa using hsafe
  · obtain ⟨b, -, hb⟩ := List.mem_flatMap.mp hc
    have hlow := b.toNat_lt
    simp only [List.mem_cons, List.not_mem_nil, or_false] at hb
    rcases hb with rfl | rfl | rfl
    · exact .inr hpercent
    · exact .inl (hexDigit_unreserved _ (by omega))
    · exact .inl (hexDigit_unreserved _ (by omega))

theorem quote_eq_self (h : ∀ c ∈ t, isUnreserved c = true ∨ c ∈ safe) : quote safe t = t := by
  induction t with
  | nil => rfl
  | cons c t ih =>
      have hc : (isUnreserved c || decide (c ∈ safe)) = true := by
        simpa using h c List.mem_cons_self
      have hrest := ih fun d hd => h d (List.mem_cons_of_mem c hd)
      rw [quote, List.flatMap_cons, if_pos hc]
      exact congrArg (c :: ·) hrest

end Quote

end Url
