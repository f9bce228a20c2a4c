import Avibe.Fetch.Policy
import Avibe.Transcript.Store

/-!
# Cookies of one fetch

`OriginCookies`: what a response sets is kept under the origin of its address, and only what
that origin set is sent back to it. `Dates` holds `parsedate_to_datetime`; the clock is read
once for each response and once for each request.
-/

namespace Avibe.Fetch

open Ip Places

abbrev Origin := Text × Text × Nat

/-- A stored cookie; one without an expiry has none. -/
structure Cookie where
  origin : Origin
  path : Text
  key : Text
  value : Text
  secure : Bool
  expiry : Option Int
  deriving DecidableEq, Repr

/-- The cookies in the order of their insertion, with distinct identities. -/
abbrev Jar := List Cookie

def Cookie.identity (c : Cookie) : Origin × Text × Text := (c.origin, c.path, c.key)

def isSpace (c : Char) : Bool := Transcript.isSpace c

def strip (t : Text) : Text := ((t.dropWhile isSpace).reverse.dropWhile isSpace).reverse

def isTokenChar (c : Char) : Bool :=
  Url.isAsciiLetter c || Url.isAsciiDigit c || c ∈ "!#$%&'*+.^_`|~-".toList

/-- The attributes of a `Set-Cookie` header; of two of one name the last. -/
abbrev Attributes := List (Text × Text)

def Attributes.get (attributes : Attributes) (name : String) : Option Text :=
  (attributes.reverse.find? fun e => e.1 = name.toList).map Prod.snd

section Receive

variable (t : Texts) (parsedate : Text → Option Int)

def attributesOf (pieces : List Text) : Attributes :=
  pieces.map fun piece =>
    let (name, value) := Url.partition '=' (strip piece)
    (t.lower name, strip value)

/-- `re.fullmatch(r"-?[0-9]+", ...)`; a number that no float holds is passed over. -/
def seconds? (t : Text) : Option Int :=
  match t with
  | '-' :: digits => (nat? digits).map fun n => -(n : Int)
  | digits => (nat? digits).map fun n => (n : Int)
where
  nat? (digits : Text) : Option Nat :=
    if digits = [] then none else (valueOf? 10 digits).filter (· < 2 ^ 1024 - 2 ^ 970)

def utf8Length (value : Text) : Nat := (value.flatMap String.utf8EncodeChar).length

/-- The path up to its last slash; `/` where nothing is before it. -/
def defaultPath (path : Text) : Text :=
  let before := ((path.reverse.dropWhile (· ≠ '/')).drop 1).reverse
  if before = [] then ['/'] else before

/-- The path of a URL. -/
def pathOf (url : Text) : Text := ((Url.split t.normal url).map Url.Parts.path).getD []

/-- The domain attribute only decides whether a cookie is accepted. -/
def domainOk (address : FetchURL) (domain : Text) : Bool :=
  domain = [] || address.host = domain ||
    (!address.literal && '.' ∈ domain && ('.' :: domain).isSuffixOf address.host)

/-- The cookie that one header of a response sets. -/
def parsedCookie (now : Int) (address : FetchURL) (name value : Text) : Option Cookie :=
  if t.lower name ≠ "set-cookie".toList ∨ 4096 < utf8Length value then none
  else
    let pieces := value.splitOn ';'
    let pair := pieces.headD []
    if '=' ∉ pair then none
    else
      let (key, content) := Url.partition '=' pair
      let (key, content) := (strip key, strip content)
      if key = [] ∨ !key.all isTokenChar ∨ content.any (fun c => c.toNat < 32 || 126 < c.toNat) then none
      else
        let attributes := attributesOf t (pieces.drop 1)
        let secure := (attributes.get "secure").isSome
        let domain := t.lower (((attributes.get "domain").getD []).dropWhile (· = '.'))
        if !domainOk address domain then none
        else if secure && address.scheme ≠ https then none
        else if ("__Secure-".toList.isPrefixOf key || "__Host-".toList.isPrefixOf key) && !secure then none
        else if "__Host-".toList.isPrefixOf key &&
            (domain ≠ [] || attributes.get "path" ≠ some ['/']) then none
        else
          let path := (attributes.get "path").getD (defaultPath (pathOf t address.url))
          let path := if path.head? = some '/' then path else defaultPath (pathOf t address.url)
          let expires :=
            match attributes.get "expires" with
            | some date => if date = [] then none else parsedate date
            | none => none
          let expiry :=
            match (attributes.get "max-age").bind seconds? with
            | some n => some (now + n)
            | none => expires
          some ⟨address.origin, path, key, key ++ '=' :: content, secure, expiry⟩

def expired (now : Int) (c : Cookie) : Bool := c.expiry.any (· ≤ now)

/-- A cookie that is set replaces the one of its identity, or is added while there is room. -/
def Jar.put (now : Int) (jar : Jar) (c : Cookie) : Jar :=
  if expired now c then jar.filter (·.identity ≠ c.identity)
  else if jar.any (·.identity = c.identity) then
    jar.map fun d => if d.identity = c.identity then c else d
  else if jar.length < 64 then jar ++ [c]
  else jar

/-- `OriginCookies.receive` -/
def receive (now : Int) (jar : Jar) (address : FetchURL) (headers : List (Text × Text)) : Jar :=
  headers.foldl (fun jar h =>
    match parsedCookie t parsedate now address h.1 h.2 with
    | some c => jar.put now c
    | none => jar) jar

/-- The cookie goes with a request of this path and scheme. -/
def Cookie.matches (now : Int) (address : FetchURL) (path : Text) (c : Cookie) : Bool :=
  c.origin = address.origin &&
    (path = c.path || ((c.path.reverse.dropWhile (· = '/')).reverse ++ ['/']).isPrefixOf path) &&
    !(c.secure && address.scheme ≠ https) && !expired now c

/-- The values that go out, as many as the header has room for. -/
def fitting : Nat → List Text → List Text
  | _, [] => []
  | size, value :: rest =>
      let cost := utf8Length value + 2
      if size + cost ≤ 48 * 1024 then value :: fitting (size + cost) rest else fitting size rest

/-- The values of `OriginCookies.header`. -/
def sentValues (now : Int) (jar : Jar) (address : FetchURL) : List Text :=
  fitting 0 ((jar.filter (·.matches now address (pathOf t address.url))).map Cookie.value)

/-- `OriginCookies.header` -/
def header (now : Int) (jar : Jar) (address : FetchURL) : Text :=
  "; ".toList.intercalate (sentValues t now jar address)

end Receive

/-! ## What is sent -/

section Sent

variable {t : Texts} {parsedate : Text → Option Int} {now : Int}

theorem parsedCookie_origin {address : FetchURL} {name value : Text} {c : Cookie}
    (h : parsedCookie t parsedate now address name value = some c) : c.origin = address.origin := by
  unfold parsedCookie at h
  simp only at h
  split at h
  · cases h
  · split at h
    · cases h
    · split at h
      · cases h
      · split at h
        · cases h
        · split at h
          · cases h
          · split at h
            · cases h
            · split at h
              · cases h
              · cases h
                rfl

theorem mem_put {jar : Jar} {c d : Cookie} (h : d ∈ jar.put now c) : d ∈ jar ∨ d = c := by
  unfold Jar.put at h
  split at h
  · exact .inl (List.mem_of_mem_filter h)
  · split at h
    · obtain ⟨e, he, rfl⟩ := List.mem_map.mp h
      split
      · exact .inr rfl
      · exact .inl he
    · split at h
      · exact (List.mem_append.mp h).imp_right List.mem_singleton.mp
      · exact .inl h

/-- A cookie in the jar after a response was there before, or the response set it. -/
theorem mem_receive {jar : Jar} {address : FetchURL} {headers : List (Text × Text)} {c : Cookie}
    (h : c ∈ receive t parsedate now jar address headers) :
    c ∈ jar ∨ c.origin = address.origin ∧
      ∃ e ∈ headers, parsedCookie t parsedate now address e.1 e.2 = some c := by
  induction headers generalizing jar with
  | nil => exact .inl h
  | cons e headers ih =>
      unfold receive at h
      rw [List.foldl_cons] at h
      rcases ih h with h | ⟨horigin, e', he', hparsed⟩
      · cases hparsed : parsedCookie t parsedate now address e.1 e.2 with
        | none =>
            rw [hparsed] at h
            exact .inl h
        | some d =>
            rw [hparsed] at h
            rcases mem_put h with h | rfl
            · exact .inl h
            · exact .inr ⟨parsedCookie_origin hparsed, e, List.mem_cons_self, hparsed⟩
      · exact .inr ⟨horigin, e', List.mem_cons_of_mem e he', hparsed⟩

theorem mem_fitting {size : Nat} {values : List Text} {v : Text} (h : v ∈ fitting size values) :
    v ∈ values := by
  induction values generalizing size with
  | nil => cases h
  | cons value rest ih =>
      rw [fitting] at h
      split at h
      · rcases List.mem_cons.mp h with rfl | h
        · exact List.mem_cons_self
        · exact List.mem_cons_of_mem _ (ih h)
      · exact List.mem_cons_of_mem _ (ih h)

/-- What is sent to an address is the value of a cookie of its origin. -/
theorem mem_sentValues {jar : Jar} {address : FetchURL} {v : Text}
    (h : v ∈ sentValues t now jar address) :
    ∃ c ∈ jar, c.value = v ∧ c.origin = address.origin := by
  obtain ⟨c, hc, rfl⟩ := List.mem_map.mp (mem_fitting h)
  obtain ⟨hmem, hmatch⟩ := List.mem_filter.mp hc
  refine ⟨c, hmem, rfl, ?_⟩
  simp only [Cookie.matches, Bool.and_eq_true, decide_eq_true_eq] at hmatch
  exact hmatch.1.1.1

end Sent

end Avibe.Fetch
