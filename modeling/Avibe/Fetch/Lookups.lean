import Avibe.Fetch.PolicySafety
import Avibe.Fetch.Worker

/-!
# What a lookup accepts

A refusal is terminal, one refused answer refuses the whole set, and an accepted target has
addresses from the answers of its own lookup only.
-/

namespace Avibe.Fetch

open Ip Checked

variable {t : Texts}

theorem checkedV4_terminal (v : BitVec 32) : Only (·.terminal = true) (checkedV4 v) := by
  unfold checkedV4
  rw [only_bind]
  exact ⟨only_require rfl, fun _ _ => only_require rfl⟩

theorem checkedIp_terminal (value : Text) : Only (·.terminal = true) (checkedIp value) := by
  unfold checkedIp
  rw [only_bind]
  refine ⟨only_require rfl, fun _ _ => ?_⟩
  rw [only_bind]
  refine ⟨only_found rfl, fun a _ => ?_⟩
  rw [only_bind]
  refine ⟨?_, fun _ _ => only_pure⟩
  unfold checkedAddress
  split
  · rw [only_bind]
    exact ⟨checkedV4_terminal _, fun _ _ => only_pure⟩
  · split
    · rw [only_bind]
      exact ⟨checkedV4_terminal _, fun _ _ => only_pure⟩
    · rw [only_bind]
      exact ⟨only_require rfl, fun _ _ => only_pure⟩

theorem canonicalHost_terminal (host : Text) : Only (·.terminal = true) (canonicalHost t host) := by
  unfold canonicalHost
  split
  · rw [only_bind]
    exact ⟨checkedIp_terminal _, fun _ _ => only_pure⟩
  · rw [only_bind]
    refine ⟨?_, fun _ _ => only_pure⟩
    unfold namedHost
    rw [only_bind]
    refine ⟨only_found rfl, fun _ _ => ?_⟩
    rw [only_bind]
    exact ⟨only_require rfl, fun _ _ => only_pure⟩

/-- Every refusal of a URL is terminal. -/
theorem parseUrl_terminal (value : Text) : Only (·.terminal = true) (parseUrl t value) := by
  unfold parseUrl
  rw [only_bind]
  refine ⟨only_require rfl, fun _ _ => ?_⟩
  rw [only_bind]
  refine ⟨only_found rfl, fun _ _ => ?_⟩
  rw [only_bind]
  refine ⟨only_require rfl, fun _ _ => ?_⟩
  rw [only_bind]
  refine ⟨only_found rfl, fun _ _ => ?_⟩
  rw [only_bind]
  refine ⟨only_require rfl, fun _ _ => ?_⟩
  rw [only_bind]
  refine ⟨only_found rfl, fun _ _ => ?_⟩
  rw [only_bind]
  refine ⟨only_require rfl, fun _ _ => ?_⟩
  rw [only_bind]
  refine ⟨only_require rfl, fun _ _ => ?_⟩
  rw [only_bind]
  refine ⟨canonicalHost_terminal _, fun _ _ => ?_⟩
  rw [only_bind]
  exact ⟨only_require rfl, fun _ _ => only_pure⟩

/-- Every refusal of an answer set is terminal. -/
theorem resolveTarget_terminal (value : Text) (answers : Answers) :
    Only (·.terminal = true) (resolveTarget t value answers) := by
  unfold resolveTarget
  rw [only_bind]
  refine ⟨parseUrl_terminal value, fun address _ => ?_⟩
  split
  · rw [only_bind]
    exact ⟨checkedIp_terminal _, fun _ _ => only_pure⟩
  · rw [only_bind]
    refine ⟨only_found rfl, fun _ _ => ?_⟩
    rw [only_bind]
    refine ⟨only_require rfl, fun _ _ => ?_⟩
    rw [only_bind]
    exact ⟨only_mapM' fun ip _ => checkedIp_terminal ip, fun _ _ => only_pure⟩

theorem mem_distinct {ips : List Text} {ip : Text} (h : ip ∈ distinct ips) : ip ∈ ips := by
  induction ips with
  | nil => cases h
  | cons first rest ih =>
      rcases List.mem_cons.mp h with rfl | h
      · exact List.mem_cons_self
      · exact List.mem_cons_of_mem _ (ih (List.mem_of_mem_filter h))

/-- The target has the URL, and each of its addresses was accepted from the answers. -/
structure Vetted (t : Texts) (value : Text) (answers : Answers) (target : CheckedTarget) : Prop where
  address : parseUrl t value = .ok target.address
  accepted : ∀ ip ∈ target.ips, ∃ text, checkedIp text = .ok ip ∧
    (target.address.literal = true ∧ text = target.address.host ∨
      target.address.literal = false ∧ ∃ all, answers = some all ∧ text ∈ all)
  permitted : ∀ ip ∈ target.ips, ∃ a, parse ip = some a ∧ Permitted a

theorem permitted_of_checked {text ip : Text} (h : checkedIp text = .ok ip) :
    ∃ a, parse ip = some a ∧ Permitted a := by
  obtain ⟨-, b, -, -, -, hread, hpermitted, -⟩ := checkedIp_ok h
  exact ⟨b, hread, hpermitted⟩

theorem resolveTarget_ok {value : Text} {answers : Answers} {target : CheckedTarget}
    (h : resolveTarget t value answers = .ok target) : Vetted t value answers target := by
  obtain ⟨address, haddress, h⟩ := bind_ok h
  split at h
  · rename_i hliteral
    obtain ⟨ip, hip, h⟩ := bind_ok h
    obtain rfl := pure_ok h
    refine ⟨haddress, fun ip' hmem => ?_, fun ip' hmem => ?_⟩
    · rw [List.mem_singleton.mp hmem]
      exact ⟨address.host, hip, .inl ⟨hliteral, rfl⟩⟩
    · rw [List.mem_singleton.mp hmem]
      exact permitted_of_checked hip
  · rename_i hliteral
    obtain ⟨all, hall, h⟩ := bind_ok h
    obtain ⟨-, h⟩ := require_bind_ok h
    obtain ⟨ips, hips, h⟩ := bind_ok h
    obtain rfl := pure_ok h
    refine ⟨haddress, fun ip hmem => ?_, fun ip hmem => ?_⟩
    · obtain ⟨text, htext, hip⟩ := mapM'_mem hips (mem_distinct hmem)
      exact ⟨text, hip, .inr ⟨by simpa using hliteral, all, found_ok hall, htext⟩⟩
    · obtain ⟨text, -, hip⟩ := mapM'_mem hips (mem_distinct hmem)
      exact permitted_of_checked hip

/-- One refused answer refuses the set. -/
theorem resolveTarget_refused {value : Text} {all : List Text} {text : Text} {f : Failure}
    {address : FetchURL} (haddress : parseUrl t value = .ok address) (hname : address.literal = false)
    (hmem : text ∈ all) (hrefused : checkedIp text = .error f) :
    ∃ f', resolveTarget t value (some all) = .error f' ∧ f'.terminal = true := by
  cases h : resolveTarget t value (some all) with
  | error f' => exact ⟨f', rfl, resolveTarget_terminal value (some all) f' h⟩
  | ok target =>
      obtain ⟨address', haddress', h⟩ := bind_ok h
      cases haddress.symm.trans haddress'
      rw [hname, if_neg Bool.false_ne_true] at h
      obtain ⟨all', hall, h⟩ := bind_ok h
      cases found_ok hall
      obtain ⟨-, h⟩ := require_bind_ok h
      obtain ⟨ips, hips, -⟩ := bind_ok h
      obtain ⟨ip, hip⟩ := mapM'_ok_iff.mp ⟨ips, hips⟩ text hmem
      rw [hrefused] at hip
      cases hip

/-- A refused address literal refuses its URL. -/
theorem resolveTarget_refusedLiteral {value : Text} {f : Failure} {address : FetchURL}
    {answers : Answers} (haddress : parseUrl t value = .ok address)
    (hliteral : address.literal = true) (hrefused : checkedIp address.host = .error f) :
    ∃ f', resolveTarget t value answers = .error f' ∧ f'.terminal = true := by
  cases h : resolveTarget t value answers with
  | error f' => exact ⟨f', rfl, resolveTarget_terminal value answers f' h⟩
  | ok target =>
      obtain ⟨address', haddress', h⟩ := bind_ok h
      cases haddress.symm.trans haddress'
      rw [hliteral, if_pos rfl] at h
      obtain ⟨ip, hip, -⟩ := bind_ok h
      rw [hrefused] at hip
      cases hip

/-! ## The answers of a fetch -/

/-- The lookup of this value asks the resolver. -/
def asks (t : Texts) (value : Text) : Bool :=
  match parseUrl t value with
  | .ok address => !address.literal
  | .error _ => false

/-- The outcome of looking the value up, where the resolver was asked `k` times before. -/
inductive Answered (t : Texts) (w : World) (k : Nat) (value : Text) :
    Except Failure CheckedTarget → Prop where
  | refused {f : Failure} : parseUrl t value = .error f → Answered t w k value (.error f)
  | literal {address : FetchURL} : parseUrl t value = .ok address → address.literal = true →
      Answered t w k value (resolveTarget t value none)
  | named {address : FetchURL} {answers : Answers} : parseUrl t value = .ok address →
      address.literal = false → w.lookups k = .answers answers →
      Answered t w k value (resolveTarget t value answers)
  | late {address : FetchURL} {short : Bool} {f : Failure} : parseUrl t value = .ok address →
      address.literal = false → w.lookups k = .late short → Answered t w k value (.error f)

/-- The policy forbids the value: its URL, its address literal, or one of the answers for it. -/
inductive Forbidden (t : Texts) (w : World) (k : Nat) (value : Text) : Prop where
  | url {f : Failure} : parseUrl t value = .error f → Forbidden t w k value
  | literal {address : FetchURL} {f : Failure} : parseUrl t value = .ok address →
      address.literal = true → checkedIp address.host = .error f → Forbidden t w k value
  | answer {address : FetchURL} {all : List Text} {text : Text} {f : Failure} :
      parseUrl t value = .ok address → address.literal = false →
      w.lookups k = .answers (some all) → text ∈ all → checkedIp text = .error f →
      Forbidden t w k value

/-- The answers that a lookup accepted its target from are the resolver's own. -/
theorem Answered.vetted {w : World} {k : Nat} {value : Text} {target : CheckedTarget}
    (h : Answered t w k value (.ok target)) : ∃ answers, Vetted t value answers target ∧
      (target.address.literal = false → w.lookups k = .answers answers) := by
  generalize hresult : (Except.ok target : Except Failure CheckedTarget) = result at h
  cases h with
  | refused _ => cases hresult
  | literal haddress hliteral =>
      have hvetted := resolveTarget_ok hresult.symm
      refine ⟨none, hvetted, fun hname => ?_⟩
      rw [← Except.ok.inj (haddress.symm.trans hvetted.address), hliteral] at hname
      cases hname
  | named _ _ hreply => exact ⟨_, resolveTarget_ok hresult.symm, fun _ => hreply⟩
  | late _ _ _ => cases hresult

/-- What the policy forbids is refused for good. -/
theorem Answered.forbidden {w : World} {k : Nat} {value : Text}
    {result : Except Failure CheckedTarget} (h : Answered t w k value result)
    (hforbidden : Forbidden t w k value) : ∃ f, result = .error f ∧ f.terminal = true := by
  cases hforbidden with
  | url hrefused =>
      cases h with
      | refused hf => exact ⟨_, rfl, parseUrl_terminal value _ hf⟩
      | literal haddress _ => cases hrefused.symm.trans haddress
      | named haddress _ _ => cases hrefused.symm.trans haddress
      | late haddress _ _ => cases hrefused.symm.trans haddress
  | literal haddress hliteral hrefused =>
      cases h with
      | refused hf => cases hf.symm.trans haddress
      | literal _ _ => exact resolveTarget_refusedLiteral haddress hliteral hrefused
      | named haddress' hname _ =>
          cases haddress.symm.trans haddress'
          cases hliteral.symm.trans hname
      | late haddress' hname _ =>
          cases haddress.symm.trans haddress'
          cases hliteral.symm.trans hname
  | answer haddress hname hreply hmem hrefused =>
      cases h with
      | refused hf => cases hf.symm.trans haddress
      | literal haddress' hliteral =>
          cases haddress.symm.trans haddress'
          cases hliteral.symm.trans hname
      | named _ _ hreply' =>
          cases hreply.symm.trans hreply'
          exact resolveTarget_refused haddress hname hmem hrefused
      | late _ _ hreply' => cases hreply.symm.trans hreply'

end Avibe.Fetch
