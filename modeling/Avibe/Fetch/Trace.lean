import Avibe.Fetch.Lookups

/-!
# Traces of a fetch

What the events of a fetch say: which URL is the current one, which lookup is the latest, how
often the resolver was asked, and whether the URL that a response names was selected.
-/

namespace Avibe.Fetch

open Ip

/-! ## What guards a request -/

/-- The URL that was selected last. -/
def latestUrl : Text → List Event → Text
  | url, [] => url
  | _, .select value :: rest => latestUrl value rest
  | url, _ :: rest => latestUrl url rest

/-- The target of the latest lookup; none where it failed. -/
def latest : Option CheckedTarget → List Event → Option CheckedTarget
  | last, [] => last
  | _, .lookup _ (.ok target) :: rest => latest (some target) rest
  | _, .lookup _ (.error _) :: rest => latest none rest
  | last, _ :: rest => latest last rest

/-- Each lookup is one of the current URL, each request goes to the target of the latest lookup, and
each connection to an address of it. A selected URL is looked up at once. -/
def Guarded : Text → Option CheckedTarget → List Event → Prop
  | _, _, [] => True
  | url, _, .lookup value (.ok target) :: rest => value = url ∧ Guarded url (some target) rest
  | url, _, .lookup value (.error _) :: rest => value = url ∧ Guarded url none rest
  | _, last, .select value :: rest =>
      (∃ result more, rest = .lookup value result :: more) ∧ Guarded value last rest
  | url, last, .request target _ :: rest => last = some target ∧ Guarded url last rest
  | url, last, .connect ip :: rest =>
      (∃ target, last = some target ∧ ip ∈ target.ips) ∧ Guarded url last rest

theorem latestUrl_append (url : Text) (a b : List Event) :
    latestUrl url (a ++ b) = latestUrl (latestUrl url a) b := by
  induction a generalizing url with
  | nil => rfl
  | cons e a ih =>
      rw [List.cons_append]
      cases e with
      | lookup value result => exact ih _
      | select value => exact ih _
      | request target cookies => exact ih _
      | connect ip => exact ih _

theorem latest_append (last : Option CheckedTarget) (a b : List Event) :
    latest last (a ++ b) = latest (latest last a) b := by
  induction a generalizing last with
  | nil => rfl
  | cons e a ih =>
      rw [List.cons_append]
      cases e with
      | lookup value result => cases result <;> exact ih _
      | select value => exact ih _
      | request target cookies => exact ih _
      | connect ip => exact ih _

/-- Events after a trace are guarded by what it selected and looked up last. -/
theorem Guarded.append {url : Text} {last : Option CheckedTarget} {a b : List Event}
    (ha : Guarded url last a) (hb : Guarded (latestUrl url a) (latest last a) b) :
    Guarded url last (a ++ b) := by
  induction a generalizing url last with
  | nil => exact hb
  | cons e a ih =>
      rw [List.cons_append]
      cases e with
      | lookup value result => cases result <;> exact ⟨ha.1, ih ha.2 hb⟩
      | select value =>
          obtain ⟨⟨result, more, rfl⟩, ha⟩ := ha
          exact ⟨⟨result, more ++ b, rfl⟩, ih ha hb⟩
      | request target cookies => exact ⟨ha.1, ih ha.2 hb⟩
      | connect ip => exact ⟨ha.1, ih ha.2 hb⟩

theorem guarded_connects {url : Text} {target : CheckedTarget} {ips : List Text}
    (h : ∀ ip ∈ ips, ip ∈ target.ips) : Guarded url (some target) (ips.map Event.connect) := by
  induction ips with
  | nil => trivial
  | cons ip ips ih =>
      obtain ⟨hip, hips⟩ := List.forall_mem_cons.mp h
      exact ⟨⟨target, rfl, hip⟩, ih hips⟩

theorem guarded_lookup (url : Text) (last : Option CheckedTarget)
    (result : Except Failure CheckedTarget) : Guarded url last [.lookup url result] := by
  cases result <;> exact ⟨rfl, trivial⟩

theorem latest_lookup (trace : List Event) (value : Text) (target : CheckedTarget) :
    latest none (trace ++ [.lookup value (.ok target)]) = some target := by
  rw [latest_append]
  rfl

theorem latestUrl_lookup (url : Text) (trace : List Event) (value : Text)
    (result : Except Failure CheckedTarget) :
    latestUrl url (trace ++ [.lookup value result]) = latestUrl url trace := by
  rw [latestUrl_append]
  rfl

/-! ## What the resolver was asked -/

section Resolver

variable (t : Texts) (w : World)

/-- How often the resolver was asked. -/
def asked : List Event → Nat
  | [] => 0
  | .lookup value _ :: rest => (if asks t value then 1 else 0) + asked rest
  | _ :: rest => asked rest

/-- Each lookup gets the answer of the resolver that is next after the first `k`. -/
def Resolved : Nat → List Event → Prop
  | _, [] => True
  | k, .lookup value result :: rest =>
      Answered t w k value result ∧ Resolved (k + if asks t value then 1 else 0) rest
  | k, _ :: rest => Resolved k rest

variable {t w}

theorem asked_append (a b : List Event) : asked t (a ++ b) = asked t a + asked t b := by
  induction a with
  | nil => exact (Nat.zero_add _).symm
  | cons e a ih =>
      rw [List.cons_append]
      cases e with
      | lookup value result =>
          rw [asked, asked, ih, Nat.add_assoc]
      | select value => exact ih
      | request target cookies => exact ih
      | connect ip => exact ih

theorem asked_connects (ips : List Text) : asked t (ips.map Event.connect) = 0 := by
  induction ips with
  | nil => rfl
  | cons ip ips ih => exact ih

theorem resolved_append {k : Nat} {a b : List Event} :
    Resolved t w k (a ++ b) ↔ Resolved t w k a ∧ Resolved t w (k + asked t a) b := by
  induction a generalizing k with
  | nil => exact ⟨fun h => ⟨trivial, h⟩, fun h => h.2⟩
  | cons e a ih =>
      rw [List.cons_append]
      cases e with
      | lookup value result =>
          rw [Resolved, Resolved, asked, ih, and_assoc, Nat.add_assoc]
      | select value => exact ih
      | request target cookies => exact ih
      | connect ip => exact ih

theorem resolved_connects (k : Nat) (ips : List Text) :
    Resolved t w k (ips.map Event.connect) := by
  induction ips with
  | nil => trivial
  | cons ip ips ih => exact ih

/-- A lookup somewhere in the trace. -/
theorem Resolved.answered {before after : List Event} {value : Text}
    {result : Except Failure CheckedTarget}
    (h : Resolved t w 0 (before ++ .lookup value result :: after)) :
    Answered t w (asked t before) value result := by
  have hrest := (resolved_append.mp h).2.1
  rw [Nat.zero_add] at hrest
  exact hrest

end Resolver

/-! ## Requests -/

/-- The requests of a trace, with the cookies that went with them. -/
def requests (trace : List Event) : List (CheckedTarget × List Text) :=
  trace.filterMap fun
    | .request target cookies => some (target, cookies)
    | _ => none

theorem requests_append (a b : List Event) : requests (a ++ b) = requests a ++ requests b :=
  List.filterMap_append

theorem requests_connects (ips : List Text) : requests (ips.map Event.connect) = [] := by
  unfold requests
  rw [List.filterMap_map]
  exact List.filterMap_eq_nil_iff.mpr fun _ _ => rfl

theorem requests_append_left {trace : List Event} {k : Nat} {request : CheckedTarget × List Text}
    (h : (requests trace)[k]? = some request) (more : List Event) :
    (requests (trace ++ more))[k]? = some request := by
  rw [requests_append]
  exact (List.getElem?_append_left (List.getElem?_eq_some_iff.mp h).1).trans h

theorem requests_of_append {trace more : List Event} {k : Nat} {request : CheckedTarget × List Text}
    (h : (requests (trace ++ more))[k]? = some request) (hk : k < (requests trace).length) :
    (requests trace)[k]? = some request := by
  rw [requests_append, List.getElem?_append_left hk] at h
  exact h

/-! ## What a response names -/

section Names

variable (t : Texts) (w : World)

/-- The response redirects to the URL. -/
structure Redirects (address : FetchURL) (r : HopResponse) (value : Text) : Prop where
  passed : isChallenge t r.headers = false
  status : r.status ∈ [301, 302, 303, 307, 308]
  location : headerOf t r.headers "location" ≠ []
  joined : w.urljoin address.url (headerOf t r.headers "location") = some value

/-- The response is a page that goes on to the URL. -/
structure Continues (address : FetchURL) (r : HopResponse) (url : Text) (kind : FollowKind) : Prop where
  passed : isChallenge t r.headers = false
  status : r.status = 200
  page : ∃ page, w.extract r.body (headerOf t r.headers "content-type") address.url = .page page ∧
    page.follow = some (url, kind)

/-- One of the first requests got a page that goes on in this way. -/
def Used (trace : List Event) (before : Nat) (kind : FollowKind) : Prop :=
  ∃ k target cookies r url, k < before ∧ (requests trace)[k]? = some (target, cookies) ∧
    (w.hops k).ending = .response r ∧ Continues t w target.address r url kind

/-- The response to the `k`-th request names the URL: a redirect, or a page that is the first to go
on in its way. -/
def Names (trace : List Event) (k : Nat) (address : FetchURL) (r : HopResponse) (value : Text) :
    Prop :=
  Redirects t w address r value ∨
    ∃ kind, Continues t w address r value kind ∧ ¬ Used t w trace k kind

/-- What the response to one of the first requests names is selected after the connections of that
request, and looked up. -/
def Followed (trace : List Event) (below : Nat) : Prop :=
  ∀ k < below, ∀ target cookies r value, (requests trace)[k]? = some (target, cookies) →
    (w.hops k).ending = .response r → Names t w trace k target.address r value →
    ∃ before result after, (requests before).length = k ∧
      trace = before ++ .request target cookies ::
        ((connections w target (w.hops k)).map Event.connect ++
          .select value :: .lookup value result :: after)

variable {t w}

theorem Used.append {trace : List Event} {before : Nat} {kind : FollowKind}
    (h : Used t w trace before kind) (more : List Event) : Used t w (trace ++ more) before kind := by
  obtain ⟨k, target, cookies, r, url, hk, hrequest, hrest⟩ := h
  exact ⟨k, target, cookies, r, url, hk, requests_append_left hrequest more, hrest⟩

theorem Used.mono {trace : List Event} {a b : Nat} {kind : FollowKind} (h : Used t w trace a kind)
    (hle : a ≤ b) : Used t w trace b kind := by
  obtain ⟨k, target, cookies, r, url, hk, hrest⟩ := h
  exact ⟨k, target, cookies, r, url, Nat.lt_of_lt_of_le hk hle, hrest⟩

theorem Names.of_append {trace more : List Event} {k : Nat} {address : FetchURL} {r : HopResponse}
    {value : Text} (h : Names t w (trace ++ more) k address r value) :
    Names t w trace k address r value := by
  rcases h with h | ⟨kind, h, hunused⟩
  · exact .inl h
  · exact .inr ⟨kind, h, fun hused => hunused (hused.append more)⟩

/-- Later events change nothing. -/
theorem Followed.append {trace : List Event} {below : Nat} (h : Followed t w trace below)
    (hbelow : below ≤ (requests trace).length) (more : List Event) :
    Followed t w (trace ++ more) below := by
  intro k hk target cookies r value hrequest hending hnames
  obtain ⟨before, result, after, hlength, htrace⟩ := h k hk target cookies r value
    (requests_of_append hrequest (Nat.lt_of_lt_of_le hk hbelow)) hending hnames.of_append
  exact ⟨before, result, after ++ more, hlength, by rw [htrace]; simp⟩

end Names

end Avibe.Fetch
