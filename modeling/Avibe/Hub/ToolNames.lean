import Mathlib.Data.List.Nodup
import Mathlib.Data.List.Range
import Avibe.Json.Document

/-!
# Tool names of the OpenCode gateway

Some relays refuse a tool name, so a request goes out with an alias in its place, in the definitions and
wherever the request refers to them. Every rewriting is a renaming at some places of a decoded document;
`casefold` is the one of the text type. Aliases are taken back from the bytes of a response, which is not
modelled.
-/

namespace Avibe.ToolNames

open Avibe.Json
open Avibe.Json.Document (setMember)

abbrev Members := List (PyStr × PyJson)

/-! ## Renaming at places of a document -/

def overDict (f : Members → Members) : PyJson → PyJson
  | .dict members => .dict (f members)
  | value => value

def overList (f : PyJson → PyJson) : PyJson → PyJson
  | .list items => .list (items.map f)
  | value => value

/-- The value under a key rewritten in place, where there is one. -/
def rewriteAt (key : String) (f : PyJson → PyJson) (members : Members) : Members :=
  match getMember members key with
  | some value => setMember members (py key) (f value)
  | none => members

/-- The same where the value may have no result. -/
def rewriteAt? (key : String) (f : PyJson → Option PyJson) (members : Members) : Option Members :=
  match getMember members key with
  | some value => (f value).map fun value => setMember members (py key) value
  | none => some members

def overDict? (f : Members → Option Members) : PyJson → Option PyJson
  | .dict members => (f members).map .dict
  | value => some value

def overList? (f : PyJson → Option PyJson) : PyJson → Option PyJson
  | .list items => (items.mapM f).map .list
  | value => some value

def rename (r : PyStr → PyStr) : PyJson → PyJson
  | .str name => .str (r name)
  | value => value

section Rewriting

variable (r : PyStr → PyStr)

def rewriteName : Members → Members := rewriteAt "name" (rename r)

def rewriteNamedFunction : Members → Members := rewriteAt "function" (overDict (rewriteName r))

def rewriteToolDefinition : Members → Members := rewriteAt "function" (overDict (rewriteName r))

/-- Whether the role is that of a tool. None where it is a list or an object, which have no hash to look
up in the set: `TypeError`. -/
def namesTool (message : Members) : Option Bool :=
  match getMember message "role" with
  | some (.str role) => some (role = py "tool" || role = py "function")
  | some (.list _) => none
  | some (.dict _) => none
  | _ => some false

def rewriteMessage (message : Members) : Option Members := do
  let named ← namesTool message
  let message := if named then rewriteName r message else message
  let message := rewriteAt "tool_calls" (overList (overDict (rewriteNamedFunction r))) message
  return rewriteAt "function_call" (overDict (rewriteName r)) message

/-- The request with every definition and every reference renamed; none where it raises. -/
def rewriteRequest (request : Members) : Option Members := do
  let request := rewriteAt "tools" (overList (overDict (rewriteToolDefinition r))) request
  let request ← rewriteAt? "messages" (overList? (overDict? (rewriteMessage r))) request
  return rewriteAt "tool_choice" (overDict (rewriteNamedFunction r)) request

end Rewriting

/-! ## Aliases -/

def upstreamAliases : List (PyStr × PyStr) := [(py "todowrite", py "avibe_todo_write")]

def suffixed (preferred : PyStr) (suffix : Nat) : PyStr :=
  preferred ++ py "_" ++ (Nat.toDigits 10 suffix).map Char.toNat

section Aliases

variable (casefold : PyStr → PyStr)

/-- The `while` loop over the suffixes; it ends within as many turns as names are occupied. -/
def freshAlias (preferred : PyStr) (occupied : List PyStr) : Nat → Nat → PyStr → PyStr
  | 0, _, candidate => candidate
  | fuel + 1, suffix, candidate =>
      if casefold candidate ∈ occupied then
        freshAlias preferred occupied fuel (suffix + 1) (suffixed preferred suffix)
      else candidate

structure Naming where
  occupied : List PyStr
  aliases : List (PyStr × PyStr)

def aliasName (s : Naming) (original : PyStr) : Naming :=
  match upstreamAliases.lookup (casefold original) with
  | none => s
  | some preferred =>
      if original ∈ s.aliases.map Prod.fst then s
      else
        let fresh := freshAlias casefold preferred s.occupied (s.occupied.length + 1) 2 preferred
        ⟨casefold fresh :: s.occupied, s.aliases ++ [(original, fresh)]⟩

def aliasesOf (names : List PyStr) : List (PyStr × PyStr) :=
  (names.foldl (aliasName casefold) ⟨names.map casefold, []⟩).aliases

def nameOf : PyJson → Option PyStr
  | .dict item =>
      match getMember item "function" with
      | some (.dict function) =>
          match getMember function "name" with
          | some (.str name) => some name
          | _ => none
      | _ => none
  | _ => none

/-- The names of the definitions of a request. -/
def definedNames (request : Members) : List PyStr :=
  match getMember request "tools" with
  | some (.list tools) => tools.filterMap nameOf
  | _ => []

def renamed (aliases : List (PyStr × PyStr)) (name : PyStr) : PyStr := (aliases.lookup name).getD name

structure ToolNameTranslation where
  request : Members
  responseAliases : List (PyStr × PyStr)

/-- Alias incompatible definitions and every request-side reference to them. -/
def translateOpencodeToolNames (request : Members) : Option ToolNameTranslation :=
  let aliases := aliasesOf casefold (definedNames request)
  if aliases = [] then some ⟨request, []⟩
  else (rewriteRequest (renamed aliases) request).map fun translated =>
    ⟨translated, aliases.map Prod.swap⟩

end Aliases

end Avibe.ToolNames
