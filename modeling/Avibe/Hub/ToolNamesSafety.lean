import Mathlib.Data.List.Perm.Subperm
import Avibe.Hub.ToolNamesPlaces

/-!
# Aliases are told apart and taken back

A fresh alias folds to no name that is taken, so no two names of a request go out as one, and the response
aliases take back what was renamed.
-/

namespace Avibe.ToolNames

open Avibe.Json

/-! ## Fresh aliases -/

/-- `str.casefold` leaves small ASCII letters, digits and underscores as they are. -/
def FoldsAscii (casefold : PyStr → PyStr) : Prop :=
  ∀ text : PyStr, (∀ c ∈ text, 97 ≤ c ∧ c ≤ 122 ∨ 48 ≤ c ∧ c ≤ 57 ∨ c = 95) → casefold text = text

/-- The name that is tried at a suffix, the plain one before the first. -/
def candidate (preferred : PyStr) (suffix : Nat) : PyStr :=
  if suffix = 1 then preferred else suffixed preferred suffix

theorem suffixed_inj {preferred : PyStr} {m n : Nat} (h : suffixed preferred m = suffixed preferred n) :
    m = n := by
  have hdigits : (Nat.toDigits 10 m).map Char.toNat = (Nat.toDigits 10 n).map Char.toNat :=
    List.append_cancel_left h
  have hinj : Function.Injective Char.toNat := fun a b hab => Char.toNat_inj.mp hab
  have hsame : Nat.toDigits 10 m = Nat.toDigits 10 n := List.map_injective_iff.mpr hinj hdigits
  have hm := Nat.ofDigitChars_toDigits (b := 10) (n := m) (by decide) (by decide)
  have hn := Nat.ofDigitChars_toDigits (b := 10) (n := n) (by decide) (by decide)
  rw [← hm, ← hn, hsame]

theorem candidate_inj {preferred : PyStr} {m n : Nat} (h : candidate preferred m = candidate preferred n) :
    m = n := by
  have hlong : ∀ k, suffixed preferred k ≠ preferred := by
    intro k heq
    have hlen := congrArg List.length heq
    have hone : (py "_").length = 1 := by decide
    simp only [suffixed, List.length_append] at hlen
    omega
  unfold candidate at h
  split at h
  · split at h
    · rename_i hm hn
      exact hm.trans hn.symm
    · exact absurd h.symm (hlong n)
  · split at h
    · exact absurd h (hlong m)
    · exact suffixed_inj h

section Fresh

variable {casefold : PyStr → PyStr} {preferred : PyStr} {occupied : List PyStr}

/-- The loop stops at some suffix, with a name that is free unless every name it tried was taken. -/
theorem freshAlias_spec (fuel suffix : Nat) (hsuffix : 1 ≤ suffix) :
    ∃ last, suffix ≤ last ∧
      freshAlias casefold preferred occupied fuel (suffix + 1) (candidate preferred suffix) =
        candidate preferred last ∧
      (casefold (candidate preferred last) ∈ occupied →
        ∀ k, suffix ≤ k → k < suffix + fuel → casefold (candidate preferred k) ∈ occupied) := by
  induction fuel generalizing suffix with
  | zero =>
      refine ⟨suffix, le_rfl, rfl, fun _ k hk hlt => ?_⟩
      omega
  | succ fuel ih =>
      rw [freshAlias]
      split
      · rename_i htaken
        have hnext : suffixed preferred (suffix + 1) = candidate preferred (suffix + 1) := by
          rw [candidate, if_neg (by omega)]
        rw [hnext]
        obtain ⟨last, hle, heq, hall⟩ := ih (suffix + 1) (by omega)
        refine ⟨last, by omega, heq, fun hmem k hk hlt => ?_⟩
        by_cases hfirst : k = suffix
        · rw [hfirst]
          exact htaken
        · exact hall hmem k (by omega) (by omega)
      · rename_i hfree
        exact ⟨suffix, le_rfl, rfl, fun hmem => absurd hmem hfree⟩

theorem freshAlias_free (hfold : ∀ k, casefold (candidate preferred k) = candidate preferred k) :
    ∃ last, 1 ≤ last ∧
      freshAlias casefold preferred occupied (occupied.length + 1) 2 preferred =
        candidate preferred last ∧
      candidate preferred last ∉ occupied := by
  obtain ⟨last, hle, heq, hall⟩ :=
    freshAlias_spec (occupied.length + 1) 1 le_rfl
  have hfirst : candidate preferred 1 = preferred := rfl
  rw [hfirst] at heq
  refine ⟨last, hle, heq, fun hmem => ?_⟩
  -- as many names as the loop tries do not fit into the list of those that are taken
  have htried := hall (by rwa [hfold])
  have hnodup : ((List.range (occupied.length + 1)).map fun i => candidate preferred (i + 1)).Nodup := by
    apply List.nodup_range.map
    intro i j hij
    have := candidate_inj hij
    omega
  have hsub : ((List.range (occupied.length + 1)).map fun i => candidate preferred (i + 1)) ⊆ occupied := by
    intro text htext
    obtain ⟨i, hi, rfl⟩ := List.mem_map.mp htext
    have := List.mem_range.mp hi
    rw [← hfold]
    exact htried (i + 1) (by omega) (by omega)
  have hlen := (List.subperm_of_subset hnodup hsub).length_le
  rw [List.length_map, List.length_range] at hlen
  omega

end Fresh

theorem candidate_plain {preferred : PyStr}
    (h : ∀ c ∈ preferred, 97 ≤ c ∧ c ≤ 122 ∨ 48 ≤ c ∧ c ≤ 57 ∨ c = 95) (k : Nat) :
    ∀ c ∈ candidate preferred k, 97 ≤ c ∧ c ≤ 122 ∨ 48 ≤ c ∧ c ≤ 57 ∨ c = 95 := by
  intro c hc
  unfold candidate at hc
  split at hc
  · exact h c hc
  · rw [suffixed, List.mem_append, List.mem_append] at hc
    rcases hc with (hc | hc) | hc
    · exact h c hc
    · exact .inr (.inr (List.mem_singleton.mp hc))
    · obtain ⟨d, hd, rfl⟩ := List.mem_map.mp hc
      have hdigit := Nat.isDigit_of_mem_toDigits (by decide) (by decide) hd
      simp only [Char.isDigit, Bool.and_eq_true, decide_eq_true_eq] at hdigit
      exact .inr (.inl ⟨hdigit.1, hdigit.2⟩)

/-! ## The aliases of a request -/

/-- What holds while the names are gone through. -/
structure Naming.Sound (casefold : PyStr → PyStr) (names seen : List PyStr) (s : Naming) : Prop where
  keys : (s.aliases.map Prod.fst).Nodup
  values : (s.aliases.map Prod.snd).Nodup
  occupied : ∀ name ∈ names, casefold name ∈ s.occupied
  taken : ∀ e ∈ s.aliases, e.2 ∈ s.occupied
  folded : ∀ e ∈ s.aliases, casefold e.2 = e.2
  fresh : ∀ e ∈ s.aliases, e.2 ∉ names.map casefold
  allowed : ∀ e ∈ s.aliases, upstreamAliases.lookup e.2 = none
  covered : ∀ name ∈ seen, upstreamAliases.lookup (casefold name) ≠ none → name ∈ s.aliases.map Prod.fst

theorem upstreamAliases_eq_some {name preferred : PyStr} (h : upstreamAliases.lookup name = some preferred) :
    name = py "todowrite" ∧ preferred = py "avibe_todo_write" := by
  rw [upstreamAliases, List.lookup_cons] at h
  cases hname : name == py "todowrite" with
  | true =>
      rw [hname] at h
      exact ⟨eq_of_beq hname, (Option.some.inj h).symm⟩
  | false =>
      rw [hname] at h
      cases h

/-- No candidate is a name that has to be renamed. -/
theorem candidate_allowed (k : Nat) :
    upstreamAliases.lookup (candidate (py "avibe_todo_write") k) = none := by
  cases h : upstreamAliases.lookup (candidate (py "avibe_todo_write") k) with
  | none => rfl
  | some preferred =>
      obtain ⟨hname, -⟩ := upstreamAliases_eq_some h
      have hhead : (candidate (py "avibe_todo_write") k).head? = some 97 := by
        unfold candidate
        split <;> rfl
      rw [hname] at hhead
      cases hhead

theorem Naming.Sound.aliasName {casefold : PyStr → PyStr} (hfold : FoldsAscii casefold)
    {names seen : List PyStr} {s : Naming} (h : s.Sound casefold names seen) (original : PyStr) :
    (aliasName casefold s original).Sound casefold names (seen ++ [original]) := by
  unfold ToolNames.aliasName
  cases hlookup : upstreamAliases.lookup (casefold original) with
  | none =>
      refine { h with covered := fun name hname hneeds => ?_ }
      rcases List.mem_append.mp hname with hseen | hnew
      · exact h.covered name hseen hneeds
      · rw [List.mem_singleton.mp hnew] at hneeds
        exact absurd hlookup hneeds
  | some preferred =>
      by_cases hhas : original ∈ s.aliases.map Prod.fst
      · simp only [hhas, if_true]
        refine { h with covered := fun name hname hneeds => ?_ }
        rcases List.mem_append.mp hname with hseen | hnew
        · exact h.covered name hseen hneeds
        · rw [List.mem_singleton.mp hnew]
          exact hhas
      · simp only [hhas, if_false]
        obtain ⟨-, rfl⟩ := upstreamAliases_eq_some hlookup
        have hplain : ∀ k, casefold (candidate (py "avibe_todo_write") k) =
            candidate (py "avibe_todo_write") k := fun k =>
          hfold _ (candidate_plain (by decide) k)
        obtain ⟨last, -, hfresh, hfree⟩ := freshAlias_free hplain
        rw [hfresh, hplain]
        exact {
          keys := by
            rw [List.map_append, List.nodup_append]
            refine ⟨h.keys, List.nodup_singleton _, ?_⟩
            rintro a ha b hb rfl
            rw [List.mem_singleton.mp hb] at ha
            exact hhas ha
          values := by
            rw [List.map_append, List.nodup_append]
            refine ⟨h.values, List.nodup_singleton _, ?_⟩
            rintro a ha b hb rfl
            obtain ⟨e, he, rfl⟩ := List.mem_map.mp ha
            have htaken := h.taken e he
            rw [List.mem_singleton.mp hb] at htaken
            exact hfree htaken
          occupied := fun name hname => List.mem_cons_of_mem _ (h.occupied name hname)
          taken := by
            intro e he
            rcases List.mem_append.mp he with he | he
            · exact List.mem_cons_of_mem _ (h.taken e he)
            · rw [List.mem_singleton.mp he]
              exact List.mem_cons_self
          folded := by
            intro e he
            rcases List.mem_append.mp he with he | he
            · exact h.folded e he
            · rw [List.mem_singleton.mp he]
              exact hplain last
          fresh := by
            intro e he
            rcases List.mem_append.mp he with he | he
            · exact h.fresh e he
            · rw [List.mem_singleton.mp he]
              intro hmem
              obtain ⟨name, hname, heq⟩ := List.mem_map.mp hmem
              have htaken := h.occupied name hname
              rw [heq] at htaken
              exact hfree htaken
          allowed := by
            intro e he
            rcases List.mem_append.mp he with he | he
            · exact h.allowed e he
            · rw [List.mem_singleton.mp he]
              exact candidate_allowed last
          covered := by
            intro name hname hneeds
            rw [List.map_append, List.mem_append]
            rcases List.mem_append.mp hname with hseen | hnew
            · exact .inl (h.covered name hseen hneeds)
            · rw [List.mem_singleton.mp hnew]
              exact .inr (by simp) }

theorem aliasesOf_sound {casefold : PyStr → PyStr} (hfold : FoldsAscii casefold) (names : List PyStr) :
    (names.foldl (aliasName casefold) ⟨names.map casefold, []⟩).Sound casefold names names := by
  have hrun : ∀ seen : List PyStr, (seen.foldl (aliasName casefold)
      ⟨names.map casefold, []⟩).Sound casefold names seen := by
    intro seen
    induction seen using List.reverseRecOn with
    | nil =>
        exact ⟨List.nodup_nil, List.nodup_nil, fun name hname => List.mem_map_of_mem hname,
          (fun e he => nomatch he), (fun e he => nomatch he), (fun e he => nomatch he),
          (fun e he => nomatch he), (fun name hname => nomatch hname)⟩
    | append_singleton seen original ih =>
        rw [List.foldl_append]
        exact ih.aliasName hfold original
  exact hrun names

section Restoring

variable {aliases : List (PyStr × PyStr)}

theorem renamed_of_mem (h : (aliases.map Prod.fst).Nodup) {e : PyStr × PyStr} (he : e ∈ aliases) :
    renamed aliases e.1 = e.2 := by
  induction aliases with
  | nil => cases he
  | cons first rest ih =>
      rw [List.map_cons, List.nodup_cons] at h
      rw [renamed, List.lookup_cons]
      rcases List.mem_cons.mp he with rfl | hrest
      · simp
      · have hne : (e.1 == first.1) = false := by
          rw [beq_eq_false_iff_ne]
          exact fun heq => h.1 (heq ▸ List.mem_map_of_mem hrest)
        rw [hne]
        exact ih h.2 hrest

theorem renamed_of_not_mem {name : PyStr} (h : name ∉ aliases.map Prod.fst) : renamed aliases name = name := by
  have hnone : aliases.lookup name = none := by
    rw [List.lookup_eq_none_iff]
    intro e he
    rw [bne_iff_ne]
    exact fun heq => h (heq ▸ List.mem_map_of_mem he)
  rw [renamed, hnone]
  rfl

/-- A name that is not an alias is restored from what it was renamed to. -/
theorem restored_renamed (hkeys : (aliases.map Prod.fst).Nodup) (hvalues : (aliases.map Prod.snd).Nodup)
    {name : PyStr} (h : name ∉ aliases.map Prod.snd) :
    renamed (aliases.map Prod.swap) (renamed aliases name) = name := by
  have hswap : (aliases.map Prod.swap).map Prod.fst = aliases.map Prod.snd := by
    rw [List.map_map]
    rfl
  by_cases hmem : name ∈ aliases.map Prod.fst
  · obtain ⟨e, he, rfl⟩ := List.mem_map.mp hmem
    rw [renamed_of_mem hkeys he]
    exact renamed_of_mem (e := e.swap) (by rwa [hswap]) (List.mem_map_of_mem he)
  · rw [renamed_of_not_mem hmem, renamed_of_not_mem (by rwa [hswap])]

end Restoring

theorem swap_swap (aliases : List (PyStr × PyStr)) : (aliases.map Prod.swap).map Prod.swap = aliases := by
  rw [List.map_map]
  exact List.map_id aliases

section Sound

variable {casefold : PyStr → PyStr} {names : List PyStr} {s : Naming}

theorem Naming.Sound.not_alias {seen : List PyStr} (h : s.Sound casefold names seen) {name : PyStr}
    (hname : name ∈ names) : name ∉ s.aliases.map Prod.snd := by
  intro hmem
  obtain ⟨e, he, rfl⟩ := List.mem_map.mp hmem
  exact h.fresh e he (List.mem_map.mpr ⟨e.2, hname, h.folded e he⟩)

theorem Naming.Sound.allowed_renamed (h : s.Sound casefold names names) {name : PyStr}
    (hname : name ∈ names) : upstreamAliases.lookup (casefold (renamed s.aliases name)) = none := by
  by_cases hmem : name ∈ s.aliases.map Prod.fst
  · obtain ⟨e, he, rfl⟩ := List.mem_map.mp hmem
    rw [renamed_of_mem h.keys he, h.folded e he]
    exact h.allowed e he
  · rw [renamed_of_not_mem hmem]
    by_contra hneeds
    exact hmem (h.covered name hname hneeds)

/-- An alias folds to no name that another tool goes out with. -/
theorem Naming.Sound.apart (h : s.Sound casefold names names) {name other : PyStr} (hother : other ∈ names)
    (hrenamed : renamed s.aliases name ≠ name)
    (hfold : casefold (renamed s.aliases name) = casefold (renamed s.aliases other)) :
    renamed s.aliases name = renamed s.aliases other := by
  by_cases hmem : name ∈ s.aliases.map Prod.fst
  · obtain ⟨e, he, rfl⟩ := List.mem_map.mp hmem
    rw [renamed_of_mem h.keys he, h.folded e he] at hfold
    rw [renamed_of_mem h.keys he]
    by_cases hmem' : other ∈ s.aliases.map Prod.fst
    · obtain ⟨f, hf, rfl⟩ := List.mem_map.mp hmem'
      rw [renamed_of_mem h.keys hf, h.folded f hf] at hfold
      rw [renamed_of_mem h.keys hf, hfold]
    · rw [renamed_of_not_mem hmem'] at hfold
      exact absurd (List.mem_map.mpr ⟨other, hother, hfold.symm⟩) (h.fresh e he)
  · exact absurd (renamed_of_not_mem hmem) hrenamed

end Sound

/-- Some name has to be renamed where there are aliases. -/
theorem aliasesOf_ne_nil {casefold : PyStr → PyStr} {names : List PyStr} (hfold : FoldsAscii casefold) :
    aliasesOf casefold names ≠ [] ↔ ∃ name ∈ names, upstreamAliases.lookup (casefold name) ≠ none := by
  have hsound := aliasesOf_sound hfold names
  refine ⟨fun h => ?_, fun ⟨name, hname, hneeds⟩ hnil => ?_⟩
  · by_contra hnone
    simp only [not_exists, not_and, not_not] at hnone
    have hkeep : ∀ (l : List PyStr) (s : Naming), (∀ name ∈ l, upstreamAliases.lookup (casefold name) = none) →
        l.foldl (aliasName casefold) s = s := by
      intro l
      induction l with
      | nil => exact fun _ _ => rfl
      | cons name l ih =>
          intro s hl
          obtain ⟨hname, hl⟩ := List.forall_mem_cons.mp hl
          have hsame : aliasName casefold s name = s := by
            rw [aliasName, hname]
          rw [List.foldl_cons, hsame]
          exact ih s hl
    exact h (congrArg Naming.aliases (hkeep names _ hnone))
  · have hmem := hsound.covered name hname hneeds
    change name ∈ (aliasesOf casefold names).map Prod.fst at hmem
    rw [hnil] at hmem
    cases hmem

/-- Small ASCII letters for capital ones. -/
def asciiFold (text : PyStr) : PyStr := text.map fun c => if 65 ≤ c ∧ c ≤ 90 then c + 32 else c

theorem asciiFold_foldsAscii : FoldsAscii asciiFold := by
  intro text h
  unfold asciiFold
  conv_rhs => rw [← List.map_id text]
  apply List.map_congr_left
  intro c hc
  have := h c hc
  rw [if_neg (by omega)]
  rfl

def definition (name : String) : PyJson :=
  .dict [(py "type", .str (py "function")), (py "function", .dict [(py "name", .str (py name))])]

def call (name : String) : PyJson := .dict [(py "function", .dict [(py "name", .str (py name))])]

/-- The reserved name in two spellings, beside a tool that has the first alias; a message calls the one,
the next answers for the other, and the choice is among them. -/
def todoRequest : Members :=
  [(py "tools", .list [definition "TodoWrite", definition "todowrite", definition "Avibe_todo_write"]),
    (py "messages", .list [
      .dict [(py "role", .str (py "assistant")), (py "tool_calls", .list [call "TodoWrite"])],
      .dict [(py "role", .str (py "tool")), (py "name", .str (py "todowrite"))]]),
    (py "tool_choice", call "Avibe_todo_write")]

/-- The role of its message is a list. -/
def roleRequest : Members :=
  [(py "tools", .list [definition "TodoWrite"]),
    (py "messages", .list [.dict [(py "role", .list [])]])]

end Avibe.ToolNames
