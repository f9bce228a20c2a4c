import Avibe.Hub.ToolNames

/-!
# The places of a request

Where a request names its tools, and what a renaming does there: every definition and every reference is
renamed, and a second renaming that takes the first back gives the request itself.
-/

namespace Avibe.ToolNames

open Avibe.Json
open Avibe.Json.Document (setMember)

/-! ## Renaming there and back -/

theorem getMember_setMember (members : Members) (key : String) (k : PyStr) (value : PyJson) :
    getMember (setMember members k value) key =
      if k = py key then some value else getMember members key := by
  induction members with
  | nil =>
      by_cases hk : k = py key
      · simp [setMember, getMember, hk]
      · simp [setMember, getMember, hk]
  | cons m rest ih =>
      obtain ⟨k', v⟩ := m
      rw [setMember]
      by_cases hk : k' = k
      · subst hk
        by_cases hkey : k' = py key
        · simp [getMember, hkey]
        · simp [getMember, hkey]
      · rw [if_neg hk]
        by_cases hkey : k' = py key
        · have hne : ¬ k = py key := fun h => hk (hkey.trans h.symm)
          simp [getMember, hkey, hne]
        · have hrest : ∀ l : Members, getMember ((k', v) :: l) key = getMember l key := by
            intro l
            simp [getMember, hkey]
          rw [hrest, hrest, ih]

theorem setMember_setMember (members : Members) (k : PyStr) (a b : PyJson) :
    setMember (setMember members k a) k b = setMember members k b := by
  induction members with
  | nil => simp [setMember]
  | cons m rest ih =>
      obtain ⟨k', v⟩ := m
      rw [setMember]
      split
      · rename_i hk
        rw [setMember, if_pos hk, setMember, if_pos hk]
      · rename_i hk
        rw [setMember, if_neg hk, setMember, if_neg hk, ih]

theorem setMember_self {members : Members} {key : String} {value : PyJson}
    (h : getMember members key = some value) : setMember members (py key) value = members := by
  induction members with
  | nil => cases h
  | cons m rest ih =>
      obtain ⟨k', v⟩ := m
      rw [setMember]
      by_cases hk : k' = py key
      · have hv : v = value := by simpa [getMember, hk] using h
        rw [if_pos hk, hv]
      · have hrest : getMember rest key = some value := by simpa [getMember, hk] using h
        rw [if_neg hk, ih hrest]

theorem setMember_comm {members : Members} {j k : PyStr} (a b : PyJson) (hne : j ≠ k)
    (hj : ∃ m ∈ members, m.1 = j) (hk : ∃ m ∈ members, m.1 = k) :
    setMember (setMember members j a) k b = setMember (setMember members k b) j a := by
  induction members with
  | nil =>
      obtain ⟨m, hm, -⟩ := hj
      cases hm
  | cons m rest ih =>
      obtain ⟨k', v⟩ := m
      by_cases h₁ : k' = j
      · simp [setMember, h₁, hne]
      · by_cases h₂ : k' = k
        · simp [setMember, h₂, Ne.symm hne]
        · have hj' : ∃ m ∈ rest, m.1 = j := by
            obtain ⟨m, hm, hkey⟩ := hj
            rcases List.mem_cons.mp hm with rfl | hm
            · exact absurd hkey h₁
            · exact ⟨m, hm, hkey⟩
          have hk' : ∃ m ∈ rest, m.1 = k := by
            obtain ⟨m, hm, hkey⟩ := hk
            rcases List.mem_cons.mp hm with rfl | hm
            · exact absurd hkey h₂
            · exact ⟨m, hm, hkey⟩
          simp [setMember, h₁, h₂, ih hj' hk']

theorem mem_of_getMember {members : Members} {key : String} {value : PyJson}
    (h : getMember members key = some value) : ∃ m ∈ members, m.1 = py key := by
  unfold getMember at h
  obtain ⟨m, hm, -⟩ := Option.map_eq_some_iff.mp h
  have hkey := List.find?_some hm
  exact ⟨m, List.mem_of_find?_eq_some hm, of_decide_eq_true hkey⟩

section Places

variable {key other : String} {f g : PyJson → PyJson}

theorem getMember_rewriteAt_self (members : Members) :
    getMember (rewriteAt key f members) key = (getMember members key).map f := by
  unfold rewriteAt
  cases h : getMember members key with
  | none => exact h
  | some value => simp [getMember_setMember]

theorem getMember_rewriteAt (hne : py key ≠ py other) (members : Members) :
    getMember (rewriteAt key f members) other = getMember members other := by
  unfold rewriteAt
  cases h : getMember members key with
  | none => rfl
  | some value => simp [getMember_setMember, hne]

theorem rewriteAt_comm (hne : py key ≠ py other) (members : Members) :
    rewriteAt other g (rewriteAt key f members) = rewriteAt key f (rewriteAt other g members) := by
  cases hkey : getMember members key with
  | none =>
      have hsame : rewriteAt key f members = members := by simp [rewriteAt, hkey]
      have hnone : getMember (rewriteAt other g members) key = none := by
        rw [getMember_rewriteAt (Ne.symm hne), hkey]
      rw [hsame]
      conv_rhs => rw [rewriteAt, hnone]
  | some v =>
      cases hother : getMember members other with
      | none =>
          have hsame : rewriteAt other g members = members := by simp [rewriteAt, hother]
          have hnone : getMember (rewriteAt key f members) other = none := by
            rw [getMember_rewriteAt hne, hother]
          rw [hsame]
          conv_lhs => rw [rewriteAt, hnone]
      | some w =>
          have hleft : getMember (rewriteAt key f members) other = some w := by
            rw [getMember_rewriteAt hne, hother]
          have hright : getMember (rewriteAt other g members) key = some v := by
            rw [getMember_rewriteAt (Ne.symm hne), hkey]
          conv_lhs => rw [rewriteAt, hleft]
          conv_rhs => rw [rewriteAt, hright]
          simp only [rewriteAt, hkey, hother]
          exact setMember_comm _ _ hne (mem_of_getMember hkey) (mem_of_getMember hother)

/-- What a second rewriting takes back of the first is back in its place. -/
theorem rewriteAt_cancel {members : Members}
    (h : ∀ value, getMember members key = some value → g (f value) = value) :
    rewriteAt key g (rewriteAt key f members) = members := by
  cases hkey : getMember members key with
  | none =>
      have hsame : rewriteAt key f members = members := by simp [rewriteAt, hkey]
      rw [hsame, rewriteAt, hkey]
  | some value =>
      have hself : getMember (rewriteAt key f members) key = (getMember members key).map f :=
        getMember_rewriteAt_self members
      rw [hkey, Option.map_some] at hself
      rw [rewriteAt, hself]
      simp only [rewriteAt, hkey]
      rw [setMember_setMember, h value hkey, setMember_self hkey]

theorem overDict_cancel {f g : Members → Members} {value : PyJson}
    (h : ∀ members, value = .dict members → g (f members) = members) :
    overDict g (overDict f value) = value := by
  cases value with
  | dict members => simp [overDict, h members rfl]
  | _ => rfl

theorem overList_cancel {value : PyJson}
    (h : ∀ items, value = .list items → ∀ item ∈ items, g (f item) = item) :
    overList g (overList f value) = value := by
  cases value with
  | list items =>
      have hmap : (items.map f).map g = items := by
        rw [List.map_map]
        conv_rhs => rw [← List.map_id items]
        exact List.map_congr_left (h items rfl)
      simp only [overList, hmap]
  | _ => rfl

end Places

/-! ## The names of a request -/

def namesAt (key : String) (names : PyJson → List PyStr) (members : Members) : List PyStr :=
  ((getMember members key).map names).getD []

def dictNames (names : Members → List PyStr) : PyJson → List PyStr
  | .dict members => names members
  | _ => []

def listNames (names : PyJson → List PyStr) : PyJson → List PyStr
  | .list items => items.flatMap names
  | _ => []

def textNames : PyJson → List PyStr
  | .str name => [name]
  | _ => []

def ownNames : Members → List PyStr := namesAt "name" textNames

def functionNames : Members → List PyStr := namesAt "function" (dictNames ownNames)

/-- The tools that a message speaks of: the one that it answers for, and those that it calls. -/
def messageNames (message : Members) : List PyStr :=
  (if namesTool message = some true then ownNames message else []) ++
    namesAt "tool_calls" (listNames (dictNames functionNames)) message ++
    namesAt "function_call" (dictNames ownNames) message

/-- The tools that a request refers to, apart from its definitions. -/
def referredNames (request : Members) : List PyStr :=
  namesAt "messages" (listNames (dictNames messageNames)) request ++
    namesAt "tool_choice" (dictNames functionNames) request

section Names

variable {key other : String} {n : PyJson → List PyStr} {f : PyJson → PyJson}

theorem namesAt_of_get {members : Members} {value : PyJson} (h : getMember members key = some value) :
    namesAt key n members = n value := by
  rw [namesAt, h]
  rfl

theorem namesAt_rewriteAt {r : PyStr → PyStr} (h : ∀ value, n (f value) = (n value).map r)
    (members : Members) : namesAt key n (rewriteAt key f members) = (namesAt key n members).map r := by
  rw [namesAt, namesAt, getMember_rewriteAt_self]
  cases getMember members key with
  | none => rfl
  | some value => exact h value

theorem namesAt_other (hne : py other ≠ py key) (members : Members) :
    namesAt key n (rewriteAt other f members) = namesAt key n members := by
  rw [namesAt, namesAt, getMember_rewriteAt hne]

theorem dictNames_overDict {r : PyStr → PyStr} {n : Members → List PyStr} {f : Members → Members}
    (h : ∀ members, n (f members) = (n members).map r) (value : PyJson) :
    dictNames n (overDict f value) = (dictNames n value).map r := by
  cases value with
  | dict members => exact h members
  | _ => rfl

theorem listNames_overList {r : PyStr → PyStr} (h : ∀ value, n (f value) = (n value).map r)
    (value : PyJson) : listNames n (overList f value) = (listNames n value).map r := by
  cases value with
  | list items => simp only [overList, listNames, List.flatMap_map, List.map_flatMap, h]
  | _ => rfl

end Names

/-! ## Messages and requests that have their roles -/

/-- A message renamed at its places. -/
def renameMessage (r : PyStr → PyStr) (message : Members) : Members :=
  rewriteAt "function_call" (overDict (rewriteName r))
    (rewriteAt "tool_calls" (overList (overDict (rewriteNamedFunction r)))
      (rewriteAt "name" (if namesTool message = some true then rename r else id) message))

/-- A request renamed at its places. -/
def renameRequest (r : PyStr → PyStr) (request : Members) : Members :=
  rewriteAt "tool_choice" (overDict (rewriteNamedFunction r))
    (rewriteAt "messages" (overList (overDict (renameMessage r)))
      (rewriteAt "tools" (overList (overDict (rewriteToolDefinition r))) request))

/-- No role of a message is a list or an object. -/
def RolesHash (request : Members) : Prop :=
  ∀ items, getMember request "messages" = some (.list items) →
    ∀ message, .dict message ∈ items → namesTool message ≠ none

theorem rewriteAt_id (key : String) (members : Members) : rewriteAt key id members = members := by
  unfold rewriteAt
  cases h : getMember members key with
  | none => rfl
  | some value => exact setMember_self h

theorem rewriteMessage_eq (r : PyStr → PyStr) (message : Members) :
    rewriteMessage r message = (namesTool message).map fun _ => renameMessage r message := by
  unfold rewriteMessage renameMessage
  cases h : namesTool message with
  | none => rfl
  | some named =>
      cases named with
      | true => rfl
      | false => rw [if_neg (by simp), rewriteAt_id]; rfl

theorem mapM_some {items : List PyJson} {f : PyJson → Option PyJson} {g : PyJson → PyJson}
    (h : ∀ item ∈ items, f item = some (g item)) : items.mapM f = some (items.map g) := by
  induction items with
  | nil => rfl
  | cons item items ih =>
      obtain ⟨hitem, hitems⟩ := List.forall_mem_cons.mp h
      rw [List.mapM_cons, hitem, ih hitems]
      rfl

theorem mapM_none {items : List PyJson} {f : PyJson → Option PyJson} {item : PyJson}
    (hitem : item ∈ items) (h : f item = none) : items.mapM f = none := by
  induction items with
  | nil => cases hitem
  | cons first items ih =>
      rw [List.mapM_cons]
      rcases List.mem_cons.mp hitem with rfl | hitem
      · rw [h]
        rfl
      · rw [ih hitem]
        cases f first <;> rfl

theorem rewriteAt?_some {key : String} {f : PyJson → Option PyJson} {g : PyJson → PyJson}
    {members : Members} (h : ∀ value, getMember members key = some value → f value = some (g value)) :
    rewriteAt? key f members = some (rewriteAt key g members) := by
  unfold rewriteAt? rewriteAt
  cases hvalue : getMember members key with
  | none => rfl
  | some value =>
      dsimp only
      rw [h value hvalue]
      rfl

/-- The messages are renamed where every role has a hash. -/
theorem overList?_messages (r : PyStr → PyStr) (value : PyJson) :
    (∀ items, value = .list items → ∀ message, .dict message ∈ items → namesTool message ≠ none) →
    overList? (overDict? (rewriteMessage r)) value = some (overList (overDict (renameMessage r)) value) := by
  intro h
  cases value with
  | list items =>
      have hitems : items.mapM (overDict? (rewriteMessage r)) =
          some (items.map (overDict (renameMessage r))) := by
        apply mapM_some
        intro item hitem
        cases item with
        | dict message =>
            obtain ⟨named, hnamed⟩ := Option.ne_none_iff_exists'.mp (h items rfl message hitem)
            simp only [overDict?, overDict, rewriteMessage_eq, hnamed, Option.map_some]
        | _ => rfl
      simp only [overList?, overList, hitems, Option.map_some]
  | _ => rfl

theorem rewriteRequest_some {r : PyStr → PyStr} {request : Members} (h : RolesHash request) :
    rewriteRequest r request = some (renameRequest r request) := by
  have hmessages : ∀ value, getMember (rewriteAt "tools" (overList (overDict (rewriteToolDefinition r)))
      request) "messages" = some value → overList? (overDict? (rewriteMessage r)) value =
        some (overList (overDict (renameMessage r)) value) := by
    intro value hvalue
    rw [getMember_rewriteAt (by decide)] at hvalue
    exact overList?_messages r value fun items hitems => h items (hitems ▸ hvalue)
  rw [rewriteRequest, rewriteAt?_some hmessages]
  rfl

theorem rewriteRequest_none {r : PyStr → PyStr} {request : Members} (h : ¬ RolesHash request) :
    rewriteRequest r request = none := by
  simp only [RolesHash, not_forall, not_not] at h
  obtain ⟨items, hvalue, message, hmessage, hrole⟩ := h
  have hitem : overDict? (rewriteMessage r) (.dict message) = none := by
    rw [overDict?, rewriteMessage_eq, hrole]
    rfl
  have hmessages : rewriteAt? "messages" (overList? (overDict? (rewriteMessage r)))
      (rewriteAt "tools" (overList (overDict (rewriteToolDefinition r))) request) = none := by
    rw [rewriteAt?, getMember_rewriteAt (by decide), hvalue]
    dsimp only
    rw [overList?, mapM_none hmessage hitem]
    rfl
  rw [rewriteRequest, hmessages]
  rfl

/-! ## Names after a renaming -/

section Renaming

variable {r back : PyStr → PyStr}

theorem ownNames_rewriteName (members : Members) :
    ownNames (rewriteName r members) = (ownNames members).map r := by
  apply namesAt_rewriteAt
  intro value
  cases value <;> rfl

theorem functionNames_rewrite (members : Members) :
    functionNames (rewriteNamedFunction r members) = (functionNames members).map r :=
  namesAt_rewriteAt (dictNames_overDict ownNames_rewriteName) members

theorem namesTool_renameMessage (message : Members) :
    namesTool (renameMessage r message) = namesTool message := by
  unfold renameMessage namesTool
  rw [getMember_rewriteAt (by decide), getMember_rewriteAt (by decide), getMember_rewriteAt (by decide)]

theorem messageNames_renameMessage (message : Members) :
    messageNames (renameMessage r message) = (messageNames message).map r := by
  rw [messageNames, namesTool_renameMessage, messageNames, List.map_append, List.map_append]
  congr 1
  · congr 1
    · split
      · rename_i hnamed
        rw [ownNames, renameMessage, namesAt_other (by decide), namesAt_other (by decide), if_pos hnamed]
        exact ownNames_rewriteName message
      · rfl
    · rw [renameMessage, namesAt_other (by decide),
        namesAt_rewriteAt (listNames_overList (dictNames_overDict functionNames_rewrite)),
        namesAt_other (by decide)]
  · rw [renameMessage, namesAt_rewriteAt (dictNames_overDict ownNames_rewriteName),
      namesAt_other (by decide), namesAt_other (by decide)]

/-- Every reference is renamed. -/
theorem referredNames_renameRequest (request : Members) :
    referredNames (renameRequest r request) = (referredNames request).map r := by
  rw [referredNames, referredNames, List.map_append]
  congr 1
  · rw [renameRequest, namesAt_other (by decide),
      namesAt_rewriteAt (listNames_overList (dictNames_overDict messageNames_renameMessage)),
      namesAt_other (by decide)]
  · rw [renameRequest, namesAt_rewriteAt (dictNames_overDict functionNames_rewrite),
      namesAt_other (by decide), namesAt_other (by decide)]

theorem nameOf_toList (item : PyJson) : (nameOf item).toList = dictNames functionNames item := by
  cases item with
  | dict members =>
      simp only [nameOf, dictNames, functionNames, namesAt]
      cases getMember members "function" with
      | none => rfl
      | some function =>
          cases function with
          | dict function =>
              simp only [Option.map_some, Option.getD_some, dictNames, ownNames, namesAt]
              cases getMember function "name" with
              | none => rfl
              | some name => cases name <;> rfl
          | _ => rfl
  | _ => rfl

theorem definedNames_eq (request : Members) :
    definedNames request = namesAt "tools" (listNames (dictNames functionNames)) request := by
  rw [definedNames, namesAt]
  cases getMember request "tools" with
  | none => rfl
  | some tools =>
      cases tools with
      | list items =>
          change items.filterMap nameOf = items.flatMap (dictNames functionNames)
          rw [List.filterMap_eq_flatMap_toList]
          exact List.flatMap_congr fun item _ => nameOf_toList item
      | _ => rfl

/-- Every definition is renamed. -/
theorem definedNames_renameRequest (request : Members) :
    definedNames (renameRequest r request) = (definedNames request).map r := by
  rw [definedNames_eq, definedNames_eq, renameRequest, namesAt_other (by decide),
    namesAt_other (by decide)]
  exact namesAt_rewriteAt (listNames_overList (dictNames_overDict functionNames_rewrite)) request

theorem rolesHash_renameRequest {request : Members} (h : RolesHash request) :
    RolesHash (renameRequest r request) := by
  intro items hitems message hmessage
  rw [renameRequest, getMember_rewriteAt (by decide), getMember_rewriteAt_self,
    getMember_rewriteAt (by decide)] at hitems
  cases hvalue : getMember request "messages" with
  | none =>
      rw [hvalue] at hitems
      cases hitems
  | some value =>
      rw [hvalue] at hitems
      cases value with
      | list old =>
          cases hitems
          obtain ⟨item, hitem, heq⟩ := List.mem_map.mp hmessage
          cases item with
          | dict own =>
              cases heq
              rw [namesTool_renameMessage]
              exact h old hvalue own hitem
          | _ => cases heq
      | _ => cases hitems

/-! ## Renaming back -/

theorem rewriteName_cancel (members : Members) (h : ∀ name ∈ ownNames members, back (r name) = name) :
    rewriteName back (rewriteName r members) = members := by
  apply rewriteAt_cancel
  intro value hvalue
  rw [ownNames, namesAt_of_get hvalue] at h
  cases value with
  | str name => exact congrArg PyJson.str (h name (List.mem_singleton_self name))
  | _ => rfl

theorem overDict_rewriteName_cancel (value : PyJson)
    (h : ∀ name ∈ dictNames ownNames value, back (r name) = name) :
    overDict (rewriteName back) (overDict (rewriteName r) value) = value := by
  apply overDict_cancel
  rintro members rfl
  exact rewriteName_cancel members h

theorem rewriteNamedFunction_cancel (members : Members)
    (h : ∀ name ∈ functionNames members, back (r name) = name) :
    rewriteNamedFunction back (rewriteNamedFunction r members) = members := by
  apply rewriteAt_cancel
  intro value hvalue
  rw [functionNames, namesAt_of_get hvalue] at h
  exact overDict_rewriteName_cancel value h

theorem overDict_rewriteNamedFunction_cancel (value : PyJson)
    (h : ∀ name ∈ dictNames functionNames value, back (r name) = name) :
    overDict (rewriteNamedFunction back) (overDict (rewriteNamedFunction r) value) = value := by
  apply overDict_cancel
  rintro members rfl
  exact rewriteNamedFunction_cancel members h

theorem overList_names_cancel {n : PyJson → List PyStr} {f g : PyJson → PyJson}
    (hitem : ∀ item, (∀ name ∈ n item, back (r name) = name) → g (f item) = item) (value : PyJson)
    (h : ∀ name ∈ listNames n value, back (r name) = name) : overList g (overList f value) = value := by
  apply overList_cancel
  rintro items rfl item hmem
  exact hitem item fun name hname => h name (List.mem_flatMap.mpr ⟨item, hmem, hname⟩)

/-- Three rewritings at three keys are taken back one after the other. -/
theorem rewriteAt_triple_cancel {i j k : String} {f g h f' g' h' : PyJson → PyJson}
    (hij : py i ≠ py j) (hik : py i ≠ py k) (hjk : py j ≠ py k) {members : Members}
    (hi : ∀ value, getMember members i = some value → f' (f value) = value)
    (hj : ∀ value, getMember members j = some value → g' (g value) = value)
    (hk : ∀ value, getMember members k = some value → h' (h value) = value) :
    rewriteAt k h' (rewriteAt j g' (rewriteAt i f'
      (rewriteAt k h (rewriteAt j g (rewriteAt i f members))))) = members := by
  rw [rewriteAt_comm (Ne.symm hik), rewriteAt_comm (Ne.symm hij), rewriteAt_cancel hi,
    rewriteAt_comm (Ne.symm hjk), rewriteAt_cancel hj, rewriteAt_cancel hk]

theorem renameMessage_cancel (message : Members)
    (h : ∀ name ∈ messageNames message, back (r name) = name) :
    renameMessage back (renameMessage r message) = message := by
  simp only [messageNames, List.mem_append] at h
  rw [renameMessage, namesTool_renameMessage, renameMessage]
  apply rewriteAt_triple_cancel (by decide) (by decide) (by decide)
  · intro value hvalue
    split
    · rename_i hnamed
      rw [if_pos hnamed, ownNames, namesAt_of_get hvalue] at h
      cases value with
      | str name =>
          exact congrArg PyJson.str (h name (.inl (.inl (List.mem_singleton_self name))))
      | _ => rfl
    · rfl
  · intro value hvalue
    rw [namesAt_of_get hvalue] at h
    exact overList_names_cancel overDict_rewriteNamedFunction_cancel value
      fun name hname => h name (.inl (.inr hname))
  · intro value hvalue
    rw [namesAt_of_get hvalue] at h
    exact overDict_rewriteName_cancel value fun name hname => h name (.inr hname)

/-- A request is back after its names are, in the definitions and in the references. -/
theorem renameRequest_cancel (request : Members)
    (hdefined : ∀ name ∈ definedNames request, back (r name) = name)
    (hreferred : ∀ name ∈ referredNames request, back (r name) = name) :
    renameRequest back (renameRequest r request) = request := by
  rw [definedNames_eq] at hdefined
  simp only [referredNames, List.mem_append] at hreferred
  apply rewriteAt_triple_cancel (by decide) (by decide) (by decide)
  · intro value hvalue
    rw [namesAt_of_get hvalue] at hdefined
    exact overList_names_cancel overDict_rewriteNamedFunction_cancel value hdefined
  · intro value hvalue
    rw [namesAt_of_get hvalue] at hreferred
    refine overList_names_cancel (fun item hitem => ?_) value
      fun name hname => hreferred name (.inl hname)
    apply overDict_cancel
    rintro message rfl
    exact renameMessage_cancel message hitem
  · intro value hvalue
    rw [namesAt_of_get hvalue] at hreferred
    exact overDict_rewriteNamedFunction_cancel value fun name hname => hreferred name (.inr hname)

end Renaming

end Avibe.ToolNames
