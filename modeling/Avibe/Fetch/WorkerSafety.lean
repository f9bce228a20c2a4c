import Avibe.Fetch.Trace

/-!
# What a fetch can connect to

Whatever the resolver and the servers answer, each request goes to the target of the latest
lookup of the current URL and each connection to one of its checked addresses. What a response
names as the next URL is selected and looked up, and a lookup that is refused ends the fetch.
No visit is made twice, and what is sent to an origin was set by it.
-/

namespace Avibe.Fetch

open Ip Checked

section Runs

variable (t : Texts) (w : World)

/-- The pair that the loop remembers of a request. -/
def visitOf (request : CheckedTarget × List Text) : Text × Text :=
  (request.1.address.url, w.digest ("; ".toList.intercalate request.2))

/-- One of the first requests got a response whose header sets the cookie. -/
def SetBy (trace : List Event) (before : Nat) (c : Cookie) : Prop :=
  ∃ k target cookies r e now, k < before ∧ (requests trace)[k]? = some (target, cookies) ∧
    (w.hops k).ending = .response r ∧ e ∈ r.headers ∧
    parsedCookie t w.parsedate now target.address e.1 e.2 = some c

/-- What holds of a fetch of the URL at every point; `n` is the number of turns of the loop. -/
structure Sound (url : Text) (n : Nat) (s : State) : Prop where
  guarded : Guarded url none s.trace
  resolved : Resolved t w 0 s.trace
  lookups : s.lookups = asked t s.trace
  count : (requests s.trace).length = s.hops
  bound : s.hops ≤ n
  seen : s.seen = ((requests s.trace).map (visitOf w)).reverse
  fresh : s.seen.Nodup
  jar : ∀ c ∈ s.jar, SetBy t w s.trace s.hops c
  sent : ∀ k target cookies, (requests s.trace)[k]? = some (target, cookies) → ∀ v ∈ cookies,
    ∃ c, c.value = v ∧ c.origin = target.address.origin ∧ SetBy t w s.trace k c

/-- A lookup that failed ended the fetch, with a terminal failure where it was terminal. -/
def Ended (s : State) : Prop :=
  ∀ value f, .lookup value (.error f) ∈ s.trace → ∃ result, s.result = some result ∧
    (f.terminal = true → ∃ f', result = .error f' ∧ f'.terminal = true)

/-- No lookup failed. -/
def Clean (s : State) : Prop := ∀ value f, .lookup value (.error f) ∉ s.trace

/-- The first `k` requests were followed where they name a URL, in ways that no page used before. -/
structure Linked (trace : List Event) (used : List FollowKind) (k : Nat) : Prop where
  followed : Followed t w trace k
  used : ∀ kind ∈ used, Used t w trace k kind

/-- A fetch after a turn of the loop. -/
structure Good (url : Text) (n : Nat) (s : State) : Prop where
  sound : Sound t w url n s
  ended : Ended s
  linked : Linked t w s.trace s.usedFollow s.hops
  here : s.result = none → latestUrl url s.trace = s.current

/-- A fetch in which no lookup failed, at its current URL. -/
structure Going (url : Text) (n : Nat) (s : State) : Prop where
  sound : Sound t w url n s
  clean : Clean s
  linked : Linked t w s.trace s.usedFollow s.hops
  here : latestUrl url s.trace = s.current

/-- A fetch whose last request, the `k`-th, has its response and nothing after it. -/
structure Responds (url : Text) (n : Nat) (s : State) (k : Nat) (target : CheckedTarget)
    (r : HopResponse) : Prop where
  sound : Sound t w url n s
  clean : Clean s
  hops : s.hops = k + 1
  request : ∃ before cookies, (requests before).length = k ∧ s.trace = before ++
    .request target cookies :: (connections w target (w.hops k)).map Event.connect
  ending : (w.hops k).ending = .response r
  linked : Linked t w s.trace s.usedFollow k

end Runs

section Steps

variable {t : Texts} {w : World} {url : Text} {n : Nat} {s : State}

theorem SetBy.append {trace : List Event} {before : Nat} {c : Cookie} (h : SetBy t w trace before c)
    (more : List Event) : SetBy t w (trace ++ more) before c := by
  obtain ⟨k, target, cookies, r, e, now, hk, hrequest, hrest⟩ := h
  exact ⟨k, target, cookies, r, e, now, hk, requests_append_left hrequest more, hrest⟩

theorem SetBy.mono {trace : List Event} {a b : Nat} {c : Cookie} (h : SetBy t w trace a c)
    (hle : a ≤ b) : SetBy t w trace b c := by
  obtain ⟨k, target, cookies, r, e, now, hk, hrest⟩ := h
  exact ⟨k, target, cookies, r, e, now, Nat.lt_of_lt_of_le hk hle, hrest⟩

theorem Linked.append {trace : List Event} {used : List FollowKind} {k : Nat}
    (h : Linked t w trace used k) (hk : k ≤ (requests trace).length) (more : List Event) :
    Linked t w (trace ++ more) used k :=
  ⟨h.followed.append hk more, fun kind hkind => (h.used kind hkind).append more⟩

/-- One more request, where it is followed if its response names a URL. -/
theorem Linked.next {trace : List Event} {used : List FollowKind} {k : Nat}
    (h : Linked t w trace used k) (hlast : ∀ target cookies r value,
      (requests trace)[k]? = some (target, cookies) → (w.hops k).ending = .response r →
      Names t w trace k target.address r value → ∃ before result after,
        (requests before).length = k ∧ trace = before ++ .request target cookies ::
          ((connections w target (w.hops k)).map Event.connect ++
            .select value :: .lookup value result :: after)) :
    Linked t w trace used (k + 1) := by
  refine ⟨fun j hj => ?_, fun kind hkind => (h.used kind hkind).mono (Nat.le_succ k)⟩
  rcases Nat.lt_succ_iff_lt_or_eq.mp hj with hj | rfl
  · exact h.followed j hj
  · exact hlast

/-- Only the trace, the visits, the jar and the number of lookups matter. -/
theorem Sound.congr {s' : State} (h : Sound t w url n s) (htrace : s'.trace = s.trace)
    (hseen : s'.seen = s.seen) (hhops : s'.hops = s.hops) (hjar : s'.jar = s.jar)
    (hlookups : s'.lookups = s.lookups) : Sound t w url n s' := by
  obtain ⟨h₁, h₂, h₃, h₄, h₅, h₆, h₇, h₈, h₉⟩ := h
  rw [← htrace] at h₁ h₂ h₃ h₄ h₆ h₈ h₉
  rw [← hseen] at h₆ h₇
  rw [← hhops] at h₄ h₅ h₈
  rw [← hjar] at h₈
  rw [← hlookups] at h₃
  exact ⟨h₁, h₂, h₃, h₄, h₅, h₆, h₇, h₈, h₉⟩

theorem Sound.mono (h : Sound t w url n s) {m : Nat} (hle : n ≤ m) : Sound t w url m s :=
  { h with bound := h.bound.trans hle }

/-- Events that are no requests leave the requests as they are. -/
theorem Sound.more {s' : State} (h : Sound t w url n s) {events : List Event}
    (htrace : s'.trace = s.trace ++ events) (hseen : s'.seen = s.seen) (hhops : s'.hops = s.hops)
    (hjar : s'.jar = s.jar) (hlookups : s'.lookups = s.lookups + asked t events)
    (hnone : requests events = [])
    (hguarded : Guarded (latestUrl url s.trace) (latest none s.trace) events)
    (hresolved : Resolved t w s.lookups events) : Sound t w url n s' := by
  have hrequests : requests s'.trace = requests s.trace := by
    rw [htrace, requests_append, hnone, List.append_nil]
  have hset : ∀ {before c}, SetBy t w s.trace before c → SetBy t w s'.trace before c := by
    intro before c hc
    rw [htrace]
    exact hc.append events
  refine ⟨htrace ▸ h.guarded.append hguarded, ?_, ?_, ?_, ?_, ?_, ?_, fun c hc => ?_,
    fun k target cookies hk v hv => ?_⟩
  · rw [htrace]
    rw [h.lookups] at hresolved
    exact resolved_append.mpr ⟨h.resolved, (Nat.zero_add (asked t s.trace)).symm ▸ hresolved⟩
  · rw [hlookups, htrace, asked_append, h.lookups]
  · rw [hrequests, hhops]
    exact h.count
  · rw [hhops]
    exact h.bound
  · rw [hrequests, hseen]
    exact h.seen
  · rw [hseen]
    exact h.fresh
  · rw [hhops]
    exact hset (h.jar c (hjar ▸ hc))
  · rw [hrequests] at hk
    obtain ⟨c, hvalue, horigin, hsetby⟩ := h.sent k target cookies hk v hv
    exact ⟨c, hvalue, horigin, hset hsetby⟩

theorem Clean.ended (h : Clean s) : Ended s := fun value f hmem => absurd hmem (h value f)

theorem Ended.clean (h : Ended s) (hresult : s.result = none) : Clean s := fun value f hmem => by
  obtain ⟨result, hsome, -⟩ := h value f hmem
  rw [hresult] at hsome
  cases hsome

/-- A failed lookup at the end of the trace is the only one. -/
theorem ended_lookup {s' : State} {before : List Event} {value : Text} {f : Failure}
    (hclean : ∀ value f, .lookup value (.error f) ∉ before)
    (htrace : s'.trace = before ++ [.lookup value (.error f)])
    (hresult : ∃ result, s'.result = some result ∧
      (f.terminal = true → ∃ f', result = .error f' ∧ f'.terminal = true)) : Ended s' := by
  intro value' f' hmem
  rw [htrace] at hmem
  rcases List.mem_append.mp hmem with hmem | hmem
  · exact absurd hmem (hclean value' f')
  · cases List.mem_singleton.mp hmem
    exact hresult

theorem clean_lookup {before : List Event} {value : Text} {target : CheckedTarget}
    (hclean : ∀ value f, .lookup value (.error f) ∉ before) :
    ∀ value' f, .lookup value' (.error f) ∉ before ++ [.lookup value (.ok target)] := by
  intro value' f hmem
  rcases List.mem_append.mp hmem with hmem | hmem
  · exact hclean value' f hmem
  · cases List.mem_singleton.mp hmem

theorem resolve_spec (t : Texts) (w : World) (s : State) (value : Text) : ∃ result,
    resolve t w s value = ({ s with
      lookups := s.lookups + asked t [.lookup value result]
      trace := s.trace ++ [.lookup value result] }, result) ∧
    Answered t w s.lookups value result := by
  unfold resolve
  cases haddress : parseUrl t value with
  | error f =>
      refine ⟨.error f, ?_, .refused haddress⟩
      simp only [asked, asks, haddress, Bool.false_eq_true, if_false, Nat.add_zero]
  | ok address =>
      cases hliteral : address.literal with
      | true =>
          refine ⟨_, ?_, .literal haddress hliteral⟩
          simp only [asked, asks, haddress, hliteral, Bool.not_true, Bool.false_eq_true, if_false,
            Nat.add_zero, if_true]
      | false =>
          cases hreply : w.lookups s.lookups with
          | answers answers =>
              refine ⟨_, ?_, .named haddress hliteral hreply⟩
              simp only [asked, asks, haddress, hliteral, Bool.not_false, Bool.false_eq_true,
                if_false, Nat.add_zero, if_true]
          | late short =>
              refine ⟨if short then .error ⟨if s.sent then .timeout else .busy, false, none, true⟩
                else .error unverified, ?_, ?_⟩
              · cases short <;> simp only [asked, asks, haddress, hliteral, Bool.not_false,
                  Bool.false_eq_true, if_false, Nat.add_zero, if_true]
              · cases short
                · exact .late haddress hliteral hreply
                · exact .late haddress hliteral hreply

theorem resolved_lookup {k : Nat} {value : Text} {result : Except Failure CheckedTarget}
    (h : Answered t w k value result) : Resolved t w k [.lookup value result] := ⟨h, trivial⟩

/-- A terminal failure ends the fetch with itself. -/
theorem failHop_terminal (s : State) (hop : Hop) {f : Failure} (h : f.terminal = true) :
    ∃ f', (failHop s hop f).result = some (.error f') ∧ f'.terminal = true := by
  unfold failHop settle
  rw [h]
  exact ⟨_, rfl, rfl⟩

theorem Going.good (h : Going t w url n s) : Good t w url n s :=
  ⟨h.sound, h.clean.ended, h.linked, fun _ => h.here⟩

/-- An end that keeps the trace. -/
theorem Going.stop (h : Going t w url n s) (result : Except Failure Result) :
    Good t w url n { s with result := some result } := by
  have hclean : Clean { s with result := some result } := h.clean
  exact ⟨h.sound.congr rfl rfl rfl rfl rfl, hclean.ended, h.linked, fun hresult => by cases hresult⟩

/-! ## Responses -/

theorem Names.passed {trace : List Event} {k : Nat} {address : FetchURL} {r : HopResponse}
    {value : Text} (h : Names t w trace k address r value) : isChallenge t r.headers = false := by
  rcases h with h | ⟨_, h, -⟩
  · exact h.passed
  · exact h.passed

theorem Names.status {trace : List Event} {k : Nat} {address : FetchURL} {r : HopResponse}
    {value : Text} (h : Names t w trace k address r value) :
    r.status = 200 ∨ r.status ∈ [301, 302, 303, 307, 308] := by
  rcases h with h | ⟨_, h, -⟩
  · exact .inr h.status
  · exact .inl h.status

/-- A redirect names only where it goes. -/
theorem Names.redirects {trace : List Event} {k : Nat} {address : FetchURL} {r : HopResponse}
    {value : Text} (h : Names t w trace k address r value)
    (hstatus : r.status ∈ [301, 302, 303, 307, 308]) : Redirects t w address r value := by
  rcases h with h | ⟨_, h, -⟩
  · exact h
  · rw [h.status] at hstatus
    simp at hstatus

/-- A page names only what it goes on to. -/
theorem Names.continues {trace : List Event} {k : Nat} {address : FetchURL} {r : HopResponse}
    {value : Text} {page : Page} (h : Names t w trace k address r value) (hstatus : r.status = 200)
    (hpage : w.extract r.body (headerOf t r.headers "content-type") address.url = .page page) :
    ∃ kind, page.follow = some (value, kind) ∧ ¬ Used t w trace k kind := by
  rcases h with h | ⟨kind, h, hunused⟩
  · have hredirect := h.status
    rw [hstatus] at hredirect
    simp at hredirect
  · obtain ⟨page', hpage', hfollow⟩ := h.page
    cases hpage.symm.trans hpage'
    exact ⟨kind, hfollow, hunused⟩

section Responds

variable {k : Nat} {target : CheckedTarget} {r : HopResponse}

/-- The request of the response. -/
theorem Responds.requested (h : Responds t w url n s k target r) :
    ∃ cookies, (requests s.trace)[k]? = some (target, cookies) := by
  obtain ⟨before, cookies, hlength, htrace⟩ := h.request
  refine ⟨cookies, ?_⟩
  rw [htrace, requests_append, ← hlength]
  simp [requests]

theorem Responds.used (h : Responds t w url n s k target r) {value : Text} {kind : FollowKind}
    (hcontinues : Continues t w target.address r value kind) :
    Used t w s.trace (k + 1) kind := by
  obtain ⟨cookies, hrequest⟩ := h.requested
  exact ⟨k, target, cookies, r, value, Nat.lt_succ_self k, hrequest, h.ending, hcontinues⟩

/-- The chain with the last request, where its response names nothing else than what is selected. -/
theorem Responds.linked_of (h : Responds t w url n s k target r) {more : List Event}
    (hnames : ∀ value, Names t w s.trace k target.address r value →
      ∃ result after, more = .select value :: .lookup value result :: after) :
    Linked t w (s.trace ++ more) s.usedFollow s.hops := by
  have hcount := h.sound.count
  obtain ⟨before, cookies, hlength, htrace⟩ := h.request
  obtain ⟨cookies', hrequest'⟩ := h.requested
  have hk : k ≤ (requests s.trace).length := by
    rw [hcount, h.hops]
    exact Nat.le_succ k
  rw [h.hops]
  refine (h.linked.append hk more).next fun target' cookies'' r' value hrequest hending hname => ?_
  cases (requests_append_left hrequest' more).symm.trans hrequest
  cases h.ending.symm.trans hending
  obtain ⟨result, after, rfl⟩ := hnames value hname.of_append
  have hsame : cookies' = cookies := by
    rw [htrace, requests_append, ← hlength] at hrequest'
    simp [requests] at hrequest'
    exact hrequest'.symm
  refine ⟨before, result, after, hlength, ?_⟩
  rw [htrace, hsame]
  simp

/-- A response that names nothing ends the fetch. -/
theorem Responds.stop (h : Responds t w url n s k target r)
    (hnames : ∀ value, ¬ Names t w s.trace k target.address r value)
    (result : Except Failure Result) : Good t w url n { s with result := some result } := by
  have hlinked : Linked t w (s.trace ++ []) s.usedFollow s.hops :=
    h.linked_of fun value hname => absurd hname (hnames value)
  rw [List.append_nil] at hlinked
  have hclean : Clean { s with result := some result } := h.clean
  exact ⟨h.sound.congr rfl rfl rfl rfl rfl, hclean.ended, hlinked, fun hresult => by cases hresult⟩

/-- So does one that is no redirect and no page. -/
theorem Responds.stop_unread (h : Responds t w url n s k target r)
    (hredirect : r.status ∉ [301, 302, 303, 307, 308])
    (hunread : ∀ page, w.extract r.body (headerOf t r.headers "content-type") target.address.url ≠
      .page page)
    (result : Except Failure Result) : Good t w url n { s with result := some result } := by
  refine h.stop (fun value hname => ?_) result
  rcases hname with hname | ⟨_, hname, -⟩
  · exact hredirect hname.status
  · obtain ⟨page, hpage, -⟩ := hname.page
    exact hunread page hpage

/-- What a response sets is kept with the request that it answers. -/
theorem Responds.receive (h : Responds t w url n s k target r) (now : Int) :
    Responds t w url n
      { s with jar := receive t w.parsedate now s.jar target.address r.headers } k target r := by
  obtain ⟨cookies, hrequest⟩ := h.requested
  refine ⟨{ h.sound with jar := fun c hc => ?_ }, h.clean, h.hops, h.request, h.ending, h.linked⟩
  rcases mem_receive hc with hc | ⟨-, e, he, hparsed⟩
  · exact h.sound.jar c hc
  · exact ⟨k, target, cookies, r, e, now, h.hops ▸ Nat.lt_succ_self k, hrequest, h.ending, he, hparsed⟩

/-- A selected URL that is refused ends the fetch; otherwise the fetch goes on. -/
theorem Responds.select (h : Responds t w url n s k target r) {hop : Hop} {value : Text}
    {next : State → State}
    (hnames : ∀ value', Names t w s.trace k target.address r value' → value' = value)
    (hnext : ∀ s' more, Sound t w url n s' → Clean s' → s'.trace = s.trace ++ more →
      s'.hops = s.hops → s'.usedFollow = s.usedFollow → latestUrl url s'.trace = value →
      Linked t w s'.trace s.usedFollow s.hops → Good t w url n (next s')) :
    Good t w url n (select t w s hop value next) := by
  obtain ⟨result, hresolve, hanswered⟩ :=
    resolve_spec t w { s with trace := s.trace ++ [.select value] } value
  unfold Fetch.select
  rw [hresolve]
  have htrace : s.trace ++ [.select value] ++ [.lookup value result] =
      s.trace ++ [.select value, .lookup value result] := List.append_assoc _ _ _
  have hsound : Sound t w url n { s with
      lookups := s.lookups + asked t [.lookup value result]
      trace := s.trace ++ [.select value] ++ [.lookup value result] } := by
    refine h.sound.more htrace rfl rfl rfl rfl rfl ?_ (resolved_lookup hanswered)
    exact ⟨⟨result, [], rfl⟩, guarded_lookup value _ result⟩
  have hlinked : Linked t w (s.trace ++ [.select value] ++ [.lookup value result]) s.usedFollow
      s.hops := by
    rw [htrace]
    refine h.linked_of fun value' hname => ?_
    rw [hnames value' hname]
    exact ⟨result, [], rfl⟩
  have hselect : ∀ value' f, .lookup value' (.error f) ∉ s.trace ++ [.select value] := by
    intro value' f hmem
    rcases List.mem_append.mp hmem with hmem | hmem
    · exact h.clean value' f hmem
    · cases List.mem_singleton.mp hmem
  cases result with
  | ok target' =>
      refine hnext _ _ hsound (clean_lookup hselect) htrace rfl rfl ?_ hlinked
      rw [latestUrl_lookup, latestUrl_append]
      rfl
  | error f =>
      have hended : Ended (failHop { s with
          lookups := s.lookups + asked t [.lookup value (.error f)]
          trace := s.trace ++ [.select value] ++ [.lookup value (.error f)] } hop f) := by
        refine ended_lookup hselect rfl ⟨_, rfl, fun hterminal => ?_⟩
        obtain ⟨f', hf', hterminal'⟩ := failHop_terminal { s with
          lookups := s.lookups + asked t [.lookup value (.error f)]
          trace := s.trace ++ [.select value] ++ [.lookup value (.error f)] } hop hterminal
        exact ⟨f', Option.some.inj hf', hterminal'⟩
      exact ⟨hsound.congr rfl rfl rfl rfl rfl, hended, hlinked, fun hresult => by cases hresult⟩

theorem takePage_good (h : Responds t w url n s k target r) (hop : Hop) (index : Nat) (size : Nat)
    {page : Page} (hpassed : isChallenge t r.headers = false) (hstatus : r.status = 200)
    (hpage : w.extract r.body (headerOf t r.headers "content-type") target.address.url =
      .page page) :
    Good t w url n (takePage t w s hop index target.address size page) := by
  have hfinish : ∀ (s' : State) (shown : Page),
      (∀ result, Good t w url n { s' with result := some result }) → Good t w url n
      (if page.content.all isSpace then failHop s' hop (.of .targetUnreadable false)
        else { s' with result := some (.ok ⟨shown, target.address.url, size, none⟩) }) := by
    intro s' shown hs'
    split
    · exact hs' _
    · exact hs' _
  have hnames : ∀ value, Names t w s.trace k target.address r value →
      ∃ kind, page.follow = some (value, kind) ∧ ¬ Used t w s.trace k kind :=
    fun value hname => hname.continues hstatus hpage
  unfold takePage
  dsimp only
  split
  · rename_i value kind hfollow
    have hcontinues : Continues t w target.address r value kind :=
      ⟨hpassed, hstatus, page, hpage, hfollow⟩
    split
    · rename_i hused
      refine hfinish s _ (h.stop fun value' hname => ?_)
      obtain ⟨kind', hfollow', hunused⟩ := hnames value' hname
      cases hfollow.symm.trans hfollow'
      exact hunused (h.linked.used kind hused)
    · refine h.select (fun value' hname => ?_) fun s' more hs' hclean' htrace hhops hused hurl hlinked => ?_
      · obtain ⟨kind', hfollow', -⟩ := hnames value' hname
        cases hfollow.symm.trans hfollow'
        rfl
      · rw [← hhops] at hlinked
        split
        · refine ⟨hs'.congr rfl rfl rfl rfl rfl, Clean.ended hclean', ⟨hlinked.followed, ?_⟩,
            fun _ => hurl⟩
          rw [hused]
          intro kind' hkind'
          rcases List.mem_cons.mp hkind' with rfl | hkind'
          · have hthis := (h.used hcontinues).append more
            rw [← htrace, ← h.hops, ← hhops] at hthis
            exact hthis
          · exact hlinked.used kind' hkind'
        · rw [← hused] at hlinked
          exact hfinish s' _ fun result => ⟨hs'.congr rfl rfl rfl rfl rfl, Clean.ended hclean',
            hlinked, fun hresult => by cases hresult⟩
  · rename_i hfollow
    refine hfinish s _ (h.stop fun value' hname => ?_)
    obtain ⟨kind', hfollow', -⟩ := hnames value' hname
    cases hfollow.symm.trans hfollow'

theorem takeResponse_good (h : Responds t w url n s k target r) (hop : Hop) (index : Nat) :
    Good t w url n (takeResponse t w s hop index target.address r) := by
  have hjar := h.receive (w.clock (2 * index + 1))
  unfold takeResponse
  dsimp only
  generalize receive t w.parsedate (w.clock (2 * index + 1)) s.jar target.address r.headers = jar
    at hjar ⊢
  split
  · rename_i hchallenge
    refine hjar.stop (fun value hname => ?_) _
    rw [hname.passed] at hchallenge
    cases hchallenge
  · rename_i hpassed
    rw [Bool.not_eq_true] at hpassed
    split
    · rename_i hstatus
      refine hjar.stop (fun value hname => ?_) _
      simpa [hstatus] using hname.status
    · split
      · rename_i hstatus
        refine hjar.stop (fun value hname => ?_) _
        simpa [hstatus] using hname.status
      · split
        · rename_i hstatus
          split
          · rename_i hempty
            exact hjar.stop (fun value hname => (hname.redirects hstatus).location hempty) _
          · split
            · rename_i hjoin
              refine hjar.stop (fun value hname => ?_) _
              cases hjoin.symm.trans (hname.redirects hstatus).joined
            · rename_i value hjoin
              refine hjar.select (fun value' hname => ?_)
                fun s' more hs' hclean' _ hhops hused hurl hlinked => ?_
              · exact Option.some.inj ((hname.redirects hstatus).joined.symm.trans hjoin)
              · rw [← hhops, ← hused] at hlinked
                exact ⟨hs'.congr rfl rfl rfl rfl rfl, Clean.ended hclean', hlinked, fun _ => hurl⟩
        · rename_i hredirect
          have hnames : ∀ value, Names t w s.trace k target.address r value → r.status = 200 :=
            fun value hname => hname.status.resolve_right hredirect
          split
          · rename_i hstatus
            refine hjar.stop (fun value hname => ?_) _
            rw [hnames value hname] at hstatus
            simp at hstatus
          · split
            · rename_i hstatus
              exact hjar.stop (fun value hname => hstatus (hnames value hname)) _
            · rename_i hstatus
              rw [ne_eq, not_not] at hstatus
              split
              · rename_i page hpage
                exact takePage_good hjar hop index _ hpassed hstatus hpage
              · rename_i f hfailure
                exact hjar.stop_unread hredirect (fun page => by simp [hfailure]) _
              · rename_i hexception
                exact hjar.stop_unread hredirect (fun page => by simp [hexception]) _

end Responds

/-! ## Connections -/

theorem mem_interleave {a b : List Text} {ip : Text} (h : ip ∈ interleave a b) : ip ∈ a ∨ ip ∈ b := by
  induction a generalizing b with
  | nil => exact .inr (by simpa [interleave] using h)
  | cons x a ih =>
      cases b with
      | nil => exact .inl (by simpa [interleave] using h)
      | cons y b =>
          rw [interleave] at h
          rcases List.mem_cons.mp h with rfl | h
          · exact .inl List.mem_cons_self
          · rcases List.mem_cons.mp h with rfl | h
            · exact .inr List.mem_cons_self
            · exact (ih h).imp (List.mem_cons_of_mem x) (List.mem_cons_of_mem y)

theorem mem_tried {ips : List Text} {attempts : List Attempt} {ip : Text}
    (h : ip ∈ tried ips attempts) : ip ∈ ips := by
  induction ips generalizing attempts with
  | nil => simp [tried] at h
  | cons x ips ih =>
      cases attempts with
      | nil => simp [tried] at h
      | cons a attempts =>
          cases a with
          | timeUp => simp [tried] at h
          | failed =>
              rw [tried] at h
              rcases List.mem_cons.mp h with rfl | h
              · exact List.mem_cons_self
              · exact List.mem_cons_of_mem x (ih h)
          | connected peer =>
              rw [tried, List.mem_singleton] at h
              rw [h]
              exact List.mem_cons_self

/-- The pinned backend connects to addresses of the target only. -/
theorem mem_connectTcp {target : CheckedTarget} {hop : Hop} {ip : Text}
    (h : ip ∈ connectTcp target hop) : ip ∈ target.ips := by
  unfold connectTcp at h
  split at h
  · cases h
  · exact (mem_interleave (mem_tried h)).elim List.mem_of_mem_filter List.mem_of_mem_filter

/-- libcurl connects to the addresses that it is given. -/
def World.Pins (w : World) : Prop := ∀ k ips, ∀ ip ∈ (w.hops k).curl ips, ip ∈ ips

theorem mem_connections (hpins : w.Pins) {target : CheckedTarget} {k : Nat} {ip : Text}
    (h : ip ∈ connections w target (w.hops k)) : ip ∈ target.ips := by
  unfold connections at h
  split at h
  · exact hpins k target.ips ip h
  · exact mem_connectTcp h

/-! ## Hops -/

/-- A request to the target of the latest lookup, with cookies of its origin, at a new visit. -/
theorem sound_request (hpins : w.Pins) (h : Sound t w url n s) {target : CheckedTarget}
    {cookies : List Text} (s' : State) (hlatest : latest none s.trace = some target)
    (hcookies : ∀ v ∈ cookies, ∃ c ∈ s.jar, c.value = v ∧ c.origin = target.address.origin)
    (hnew : visitOf w (target, cookies) ∉ s.seen)
    (htrace : s'.trace = s.trace ++ .request target cookies ::
      (connections w target (w.hops s.hops)).map Event.connect)
    (hseen : s'.seen = visitOf w (target, cookies) :: s.seen) (hhops : s'.hops = s.hops + 1)
    (hjar : s'.jar = s.jar) (hlookups : s'.lookups = s.lookups) :
    Sound t w url (n + 1) s' := by
  have hrequests : requests s'.trace = requests s.trace ++ [(target, cookies)] := by
    rw [htrace, requests_append]
    exact congrArg (fun l => requests s.trace ++ (target, cookies) :: l) (requests_connects _)
  have hset : ∀ {before c}, SetBy t w s.trace before c → SetBy t w s'.trace before c := by
    intro before c hc
    rw [htrace]
    exact hc.append _
  refine ⟨?_, ?_, ?_, ?_, ?_, ?_, ?_, fun c hc => ?_, fun k target' cookies' hk v hv => ?_⟩
  · rw [htrace]
    refine h.guarded.append ⟨hlatest, ?_⟩
    rw [hlatest]
    exact guarded_connects fun ip hip => mem_connections hpins hip
  · rw [htrace]
    exact resolved_append.mpr ⟨h.resolved, resolved_connects _ _⟩
  · rw [htrace, hlookups, h.lookups, asked_append]
    exact congrArg (asked t s.trace + ·) (asked_connects _).symm
  · rw [hrequests, hhops, List.length_append, h.count]
    rfl
  · rw [hhops]
    exact Nat.succ_le_succ h.bound
  · rw [hseen, hrequests, h.seen]
    simp
  · rw [hseen]
    exact List.nodup_cons.mpr ⟨hnew, h.fresh⟩
  · rw [hhops]
    exact (hset (h.jar c (hjar ▸ hc))).mono (Nat.le_succ _)
  · by_cases hlast : k < (requests s.trace).length
    · rw [hrequests, List.getElem?_append_left hlast] at hk
      obtain ⟨c, hvalue, horigin, hsetby⟩ := h.sent k target' cookies' hk v hv
      exact ⟨c, hvalue, horigin, hset hsetby⟩
    · have hk' : k = s.hops := by
        have hlt := (List.getElem?_eq_some_iff.mp hk).1
        rw [hrequests, List.length_append, List.length_singleton] at hlt
        rw [← h.count]
        omega
      rw [hrequests, hk', ← h.count, List.getElem?_concat_length] at hk
      cases hk
      obtain ⟨c, hc, hvalue, horigin⟩ := hcookies v hv
      rw [hk']
      exact ⟨c, hvalue, horigin, hset (h.jar c hc)⟩

theorem makeHop_good (hpins : w.Pins) (h : Going t w url n s) (index : Nat)
    {target : CheckedTarget} (hlatest : latest none s.trace = some target) :
    Good t w url (n + 1) (makeHop t w s index target.address target) := by
  unfold makeHop
  dsimp only
  split
  · have hstop := h.stop (.error (.of .targetUnreadable false))
    exact { hstop with sound := hstop.sound.mono (Nat.le_succ n) }
  · rename_i hfresh
    have hcookies : ∀ v ∈ sentValues t (w.clock (2 * index)) s.jar target.address,
        ∃ c ∈ s.jar, c.value = v ∧ c.origin = target.address.origin := fun v hv => mem_sentValues hv
    have hcount := h.sound.count
    generalize hs' : ({ s with
      seen := (target.address.url, w.digest (header t (w.clock (2 * index)) s.jar target.address)) ::
        s.seen
      hops := s.hops + 1
      sent := s.sent || (w.hops s.hops).sent
      trace := s.trace ++ .request target (sentValues t (w.clock (2 * index)) s.jar target.address) ::
        (connections w target (w.hops s.hops)).map Event.connect } : State) = s'
    have hsound := sound_request hpins h.sound s' hlatest hcookies hfresh
      (by rw [← hs']) (by rw [← hs']; rfl) (by rw [← hs']) (by rw [← hs']) (by rw [← hs'])
    have hclean : Clean s' := by
      rw [← hs']
      intro value f hmem
      rcases List.mem_append.mp hmem with hmem | hmem
      · exact h.clean value f hmem
      · rcases List.mem_cons.mp hmem with hmem | hmem
        · cases hmem
        · obtain ⟨ip, -, hip⟩ := List.mem_map.mp hmem
          cases hip
    have hlinked : Linked t w s'.trace s'.usedFollow s.hops := by
      rw [← hs']
      exact h.linked.append (Nat.le_of_eq hcount.symm) _
    have hresponds : ∀ r, (w.hops s.hops).ending = .response r →
        Responds t w url (n + 1) s' s.hops target r := fun r hending =>
      ⟨hsound, hclean, by rw [← hs'], ⟨s.trace, _, hcount, by rw [← hs']⟩, hending, hlinked⟩
    have hended : (∀ r, (w.hops s.hops).ending ≠ .response r) → ∀ result,
        Good t w url (n + 1) { s' with result := some result } := by
      intro hnone result
      have hgood := hlinked.next fun target cookies r value _ hending => absurd hending (hnone r)
      have hclean' : Clean { s' with result := some result } := hclean
      refine ⟨hsound.congr rfl rfl rfl rfl rfl, hclean'.ended, ?_, fun hresult => by cases hresult⟩
      rw [← hs'] at hgood ⊢
      exact hgood
    cases hending : (w.hops s.hops).ending with
    | response r => exact takeResponse_good (hresponds r hending) _ index
    | failure f => exact hended (fun r hr => by cases hending.symm.trans hr) _
    | exception timeout => exact hended (fun r hr => by cases hending.symm.trans hr) _

/-- A lookup of the current URL: a failure ends the fetch, and otherwise it goes on. -/
theorem lookup_good (h : Going t w url n s) {next : State → CheckedTarget → State}
    (hnext : ∀ s' target, Going t w url n s' → s'.current = s.current →
      latest none s'.trace = some target → parseUrl t s.current = .ok target.address →
      Good t w url (n + 1) (next s' target)) :
    Good t w url (n + 1) (match resolve t w s s.current with
      | (s, .error f) => { s with result := some (.error f) }
      | (s, .ok target) => next s target) := by
  obtain ⟨result, hresolve, hanswered⟩ := resolve_spec t w s s.current
  have hsound : Sound t w url n { s with
      lookups := s.lookups + asked t [.lookup s.current result]
      trace := s.trace ++ [.lookup s.current result] } := by
    refine h.sound.more rfl rfl rfl rfl rfl rfl ?_ (resolved_lookup hanswered)
    rw [h.here]
    exact guarded_lookup _ _ result
  have hlinked : Linked t w (s.trace ++ [.lookup s.current result]) s.usedFollow s.hops :=
    h.linked.append (Nat.le_of_eq h.sound.count.symm) _
  rw [hresolve]
  cases result with
  | error f =>
      exact ⟨(hsound.mono (Nat.le_succ n)).congr rfl rfl rfl rfl rfl,
        ended_lookup h.clean rfl ⟨_, rfl, fun hterminal => ⟨f, rfl, hterminal⟩⟩, hlinked,
        fun hresult => by cases hresult⟩
  | ok target =>
      obtain ⟨answers, hvetted, -⟩ := hanswered.vetted
      exact hnext _ target ⟨hsound, clean_lookup h.clean, hlinked,
        (latestUrl_lookup url s.trace _ _).trans h.here⟩ rfl (latest_lookup s.trace _ target)
        hvetted.address

theorem step_good (hpins : w.Pins) (h : Good t w url n s) (index : Nat) :
    Good t w url (n + 1) (step t w s index) := by
  unfold step
  split
  · exact { h with sound := h.sound.mono (Nat.le_succ n) }
  · rename_i hresult
    have hgoing : Going t w url n s := ⟨h.sound, h.ended.clean hresult, h.linked, h.here hresult⟩
    split
    · have hstop := hgoing.stop (.error ‹_›)
      exact { hstop with sound := hstop.sound.mono (Nat.le_succ n) }
    · rename_i address haddress
      refine lookup_good hgoing fun s₁ _ hgoing₁ hcurrent₁ _ _ => ?_
      refine lookup_good hgoing₁ fun s₂ target hgoing₂ _ hlatest hparsed => ?_
      rw [hcurrent₁, haddress] at hparsed
      rw [Except.ok.inj hparsed]
      exact makeHop_good hpins hgoing₂ index hlatest

theorem start_going (url : Text) : Going t w url 0 (start url) := by
  refine ⟨⟨trivial, trivial, rfl, rfl, Nat.le_refl 0, rfl, List.nodup_nil, fun _ h => ?_,
    fun k target cookies hk => ?_⟩, fun _ _ h => ?_, ⟨fun k hk => ?_, fun _ h => ?_⟩, rfl⟩
  · cases h
  · cases hk
  · cases h
  · cases hk
  · cases h

theorem steps_good (hpins : w.Pins) (h : Good t w url n s) (indexes : List Nat) :
    Good t w url (n + indexes.length) (indexes.foldl (step t w) s) := by
  induction indexes generalizing n s with
  | nil => exact h
  | cons index indexes ih =>
      have hrest := ih (step_good hpins h index)
      rw [Nat.add_assoc, Nat.add_comm 1] at hrest
      exact hrest

/-- A fetch of an accepted URL is good after its six turns. -/
theorem fetchDocument_good (hpins : w.Pins) {original : FetchURL} (hurl : parseUrl t url = .ok original) :
    Good t w original.url 6 (fetchDocument t w url) := by
  unfold fetchDocument
  rw [hurl]
  have hgood : Good t w original.url 6 ((List.range 6).foldl (step t w) (start original.url)) :=
    steps_good hpins (start_going original.url).good (List.range 6)
  dsimp only
  split
  · exact hgood
  · rename_i hresult
    have hgoing : Going t w original.url 6 _ :=
      ⟨hgood.sound, hgood.ended.clean hresult, hgood.linked, hgood.here hresult⟩
    exact hgoing.stop _

/-- The page fetcher connects only to addresses that the policy accepted from the answers of the
lookup just before, and it follows what the responses name through the policy only. -/
theorem fetch_pinned (L : t.Lawful) (hpins : w.Pins) (url : Text) :
    let s := fetchDocument t w url
    (∀ f, parseUrl t url = .error f → s.trace = [] ∧ s.result = some (.error f)) ∧
    (∀ original, parseUrl t url = .ok original → Guarded original.url none s.trace) ∧
    (∀ before value result after, s.trace = before ++ .lookup value result :: after →
      (∀ target, result = .ok target → ∃ answers, Vetted t value answers target ∧
        (target.address.literal = false → w.lookups (asked t before) = .answers answers)) ∧
      (Forbidden t w (asked t before) value → ∃ f, s.result = some (.error f) ∧ f.terminal = true)) ∧
    (∀ value f, .lookup value (.error f) ∈ s.trace → f.terminal = true →
      ∃ f', s.result = some (.error f') ∧ f'.terminal = true) ∧
    Followed t w s.trace (requests s.trace).length ∧
    (requests s.trace).length ≤ 6 ∧
    ((requests s.trace).map fun r => (r.1.address.url, "; ".toList.intercalate r.2)).Nodup ∧
    (∀ (k : Nat) target cookies, (requests s.trace)[k]? = some (target, cookies) → ∀ v ∈ cookies,
      ∃ c, c.value = v ∧ c.origin = target.address.origin ∧ SetBy t w s.trace k c) ∧
    (∀ value all text f address, parseUrl t value = .ok address → address.literal = false →
      text ∈ all → checkedIp text = .error f →
      ∃ f', resolveTarget t value (some all) = .error f' ∧ f'.terminal = true) ∧
    ∀ value u, parseUrl t value = .ok u → parseUrl t u.url = .ok u := by
  obtain ⟨first, hgood, hfirst, hrefused⟩ : ∃ first, Good t w first 6 (fetchDocument t w url) ∧
      (∀ original, parseUrl t url = .ok original → original.url = first) ∧
      ∀ f, parseUrl t url = .error f →
        (fetchDocument t w url).trace = [] ∧ (fetchDocument t w url).result = some (.error f) := by
    cases hurl : parseUrl t url with
    | error f =>
        have hfetch : fetchDocument t w url = { start url with result := some (.error f) } := by
          unfold fetchDocument
          rw [hurl]
        rw [hfetch]
        have hstop := (start_going (t := t) (w := w) url).stop (.error f)
        refine ⟨url, { hstop with sound := hstop.sound.mono (Nat.zero_le 6) }, fun _ h => ?_,
          fun f' h => ⟨rfl, ?_⟩⟩
        · cases h
        · rw [Except.error.inj h]
    | ok original =>
        refine ⟨original.url, fetchDocument_good hpins hurl, fun original' h => ?_, fun _ h => ?_⟩
        · rw [Except.ok.inj h]
        · cases h
  have hend : ∀ value f, .lookup value (.error f) ∈ (fetchDocument t w url).trace →
      f.terminal = true →
      ∃ f', (fetchDocument t w url).result = some (.error f') ∧ f'.terminal = true := by
    intro value f hmem hterminal
    obtain ⟨result, hresult, hend⟩ := hgood.ended value f hmem
    obtain ⟨f', rfl, hterminal'⟩ := hend hterminal
    exact ⟨f', hresult, hterminal'⟩
  refine ⟨hrefused, fun original hurl => hfirst original hurl ▸ hgood.sound.guarded,
    fun before value result after htrace => ?_, hend, ?_, hgood.sound.count ▸ hgood.sound.bound, ?_,
    hgood.sound.sent, fun value all text f address haddress hname hmem hrefused =>
      resolveTarget_refused haddress hname hmem hrefused, fun value u h => parseUrl_again L h⟩
  · have hresolved := hgood.sound.resolved
    rw [htrace] at hresolved
    have hanswered := hresolved.answered
    refine ⟨fun target hok => (hok ▸ hanswered).vetted, fun hforbidden => ?_⟩
    obtain ⟨f, rfl, hterminal⟩ := hanswered.forbidden hforbidden
    refine hend value f ?_ hterminal
    rw [htrace]
    exact List.mem_append_right _ List.mem_cons_self
  · rw [hgood.sound.count]
    exact hgood.linked.followed
  · have hvisits : ((requests (fetchDocument t w url).trace).map (visitOf w)).Nodup := by
      have hfresh := hgood.sound.fresh
      rw [hgood.sound.seen, List.nodup_reverse] at hfresh
      exact hfresh
    have hcompose : (requests (fetchDocument t w url).trace).map (visitOf w) =
        ((requests (fetchDocument t w url).trace).map fun r =>
          (r.1.address.url, "; ".toList.intercalate r.2)).map fun v => (v.1, w.digest v.2) := by
      rw [List.map_map]
      rfl
    rw [hcompose] at hvisits
    exact List.Nodup.of_map _ hvisits

end Steps

/-! ## A fetch of one page -/

/-- No two dots in a row. -/
def noEmptyLabel (s : Text) : Bool := (s.zip (s.drop 1)).all fun p => !(p.1 = '.' && p.2 = '.')

/-- Names of lower-case letters, digits, hyphens and dots encode to themselves. -/
def sampleTexts : Texts where
  lower s := s.map Char.toLower
  refused c := c.toNat ≤ 0x20 || 0x7e < c.toNat
  normal _ := false
  idna s := if s.all (fun c => Url.isHostChar c && c ≠ ':') && noEmptyLabel s then some s else none

theorem noEmptyLabel_cons (c d : Char) (s : Text) :
    noEmptyLabel (c :: d :: s) = (!(c = '.' && d = '.') && noEmptyLabel (d :: s)) := rfl

theorem noEmptyLabel_concat {h : Text} (hlabel : noEmptyLabel (h ++ ['.']) = true) :
    noEmptyLabel h = true ∧ h.getLast? ≠ some '.' := by
  induction h with
  | nil => exact ⟨rfl, by simp⟩
  | cons c h ih =>
      cases h with
      | nil =>
          rw [List.singleton_append, noEmptyLabel_cons] at hlabel
          refine ⟨rfl, ?_⟩
          rintro heq
          cases heq
          cases hlabel
      | cons d h =>
          rw [List.cons_append, List.cons_append, noEmptyLabel_cons, Bool.and_eq_true] at hlabel
          obtain ⟨hrest, hlast⟩ := ih hlabel.2
          refine ⟨?_, by simpa using hlast⟩
          rw [noEmptyLabel_cons, hlabel.1, hrest]
          rfl

theorem toLower_hostChar {c : Char} (h : Url.isHostChar c = true) : c.toLower = c := by
  have hnot : ¬ ('A' ≤ c ∧ c ≤ 'Z') := by
    rintro ⟨hlow, hhigh⟩
    simp only [charLe_iff, Char.reduceToNat] at hlow hhigh
    simp only [Url.isHostChar, Url.isAsciiDigit, Bool.or_eq_true, Bool.and_eq_true,
      decide_eq_true_eq, charLe_iff, Char.reduceToNat, List.mem_cons, List.not_mem_nil] at h
    rcases h with (h | h) | rfl | rfl | rfl | h
    · omega
    · omega
    · revert hlow
      decide
    · revert hlow
      decide
    · revert hlow
      decide
    · exact h
  unfold Char.toLower
  exact dif_neg hnot

theorem sampleTexts_idna {s h : Text} (hidna : sampleTexts.idna s = some h) :
    h = s ∧ (∀ c ∈ s, Url.isHostChar c = true ∧ c ≠ ':') ∧ noEmptyLabel s = true := by
  unfold sampleTexts at hidna
  dsimp only at hidna
  split at hidna
  · rename_i hok
    cases hidna
    simpa using hok
  · cases hidna

theorem sampleTexts_lawful : sampleTexts.Lawful where
  lower_host s hs := by
    change s.map Char.toLower = s
    conv_rhs => rw [← List.map_id s]
    exact List.map_congr_left fun c hc => toLower_hostChar (hs c hc)
  refused_printable c hlow hhigh := by
    simp only [sampleTexts, Bool.or_eq_false_iff, decide_eq_false_iff_not]
    omega
  idna_idem s h hidna := by
    obtain ⟨rfl, -⟩ := sampleTexts_idna hidna
    exact hidna
  idna_chars s h hidna := by
    obtain ⟨rfl, hchars, -⟩ := sampleTexts_idna hidna
    exact hchars
  idna_root h hidna := by
    obtain ⟨-, hchars, hlabel⟩ := sampleTexts_idna hidna
    have hok : (h.all (fun c => Url.isHostChar c && c ≠ ':') && noEmptyLabel h) = true := by
      rw [(noEmptyLabel_concat hlabel).1, Bool.and_true, List.all_eq_true]
      intro c hc
      simpa using hchars c (List.mem_append_left _ hc)
    exact if_pos hok
  idna_label s h hidna := by
    obtain ⟨rfl, -, hlabel⟩ := sampleTexts_idna hidna
    exact (noEmptyLabel_concat hlabel).2

/-- A redirect that sets a cookie, a page that goes back, a page with an alternate, and a redirect from
there to a name with one private address among its answers. -/
def sampleWorld : World where
  lookups k := .answers (some (if k = 11 then ["93.184.216.34".toList, "10.0.0.1".toList]
    else ["93.184.216.34".toList]))
  hops k :=
    { host := if k % 2 = 0 then "example.com".toList else "example.org".toList
      port := 80, localAddress := false, attempts := [.connected []], curl := id, sent := true
      shortAllowance := false
      ending := .response (
        if k = 0 then ⟨302, [("Location".toList, "http://example.org".toList),
          ("Set-Cookie".toList, "a=b".toList)], []⟩
        else if k = 3 then ⟨302, [("Location".toList, "http://intranet.example".toList)], []⟩
        else ⟨200, [], [UInt8.ofNat k]⟩) }
  clock _ := 0
  native := false
  extract body _ _ :=
    if body = [1] then .page ⟨[], none, none, some ("http://example.com".toList, .refresh)⟩
    else .page ⟨"text".toList, none, none, some ("http://example.org/a".toList, .alternate)⟩
  urljoin _ location := some location
  parsedate _ := none
  digest := id

/-- Four hops, the cookie goes back to where it is from, and the last name ends the fetch although a
page was retained. -/
theorem fetch_pinned_sample :
    let s := fetchDocument sampleTexts sampleWorld "http://example.com".toList
    Guarded "http://example.com/".toList none s.trace ∧
    Followed sampleTexts sampleWorld s.trace 4 ∧
    ((requests s.trace).map fun r => (r.1.address.url, r.2)) =
      [("http://example.com/".toList, []), ("http://example.org/".toList, []),
        ("http://example.com/".toList, ["a=b".toList]), ("http://example.org/a".toList, [])] ∧
    s.trace.getLast? = some (.lookup "http://intranet.example".toList (.error blocked)) ∧
    ∃ f, s.result = some (.error f) ∧ f.terminal = true := by
  obtain ⟨-, hguarded, -, hend, hfollowed, -⟩ := fetch_pinned sampleTexts_lawful
    (w := sampleWorld) (fun _ _ _ hip => hip) "http://example.com".toList
  have hrequests : ((requests (fetchDocument sampleTexts sampleWorld
      "http://example.com".toList).trace).map fun r => (r.1.address.url, r.2)) =
      [("http://example.com/".toList, []), ("http://example.org/".toList, []),
        ("http://example.com/".toList, ["a=b".toList]), ("http://example.org/a".toList, [])] := by
    decide +kernel
  have hlast : (fetchDocument sampleTexts sampleWorld "http://example.com".toList).trace.getLast? =
      some (.lookup "http://intranet.example".toList (.error blocked)) := by
    decide +kernel
  have hlength := congrArg List.length hrequests
  rw [List.length_map] at hlength
  rw [hlength] at hfollowed
  exact ⟨hguarded ⟨"http://example.com/".toList, "example.com".toList, 80, "http".toList, false⟩ rfl,
    hfollowed, hrequests, hlast, hend _ blocked (List.mem_of_getLast? hlast) rfl⟩

end Avibe.Fetch
