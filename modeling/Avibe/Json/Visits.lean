import Avibe.Json.Loads
import Avibe.Json.SkipStack
import Avibe.Json.Tokens

/-!
# Selected paths and the tokens of a text

The half of `SelectiveJSONParser` that takes tokens. Selected containers are frames
with their path; a value that no selected path reaches is skipped with the packed
stack. The calls of the visitor are kept in order.
-/

namespace Avibe.Json

abbrev Path := List PyStr

abbrev Scope := List Nat

inductive EventKind where
  | replace
  | startMap
  | startArray
  | scalar
  | nonempty
  | elidedString
  | scopeEnd
  deriving DecidableEq, Repr

/-- One call of the visitor. -/
structure Event where
  path : Path
  kind : EventKind
  value : PyValue
  scope : Scope
  deriving DecidableEq, Repr

/-- The component `*`. -/
def star : PyStr := [0x2A]

/-! ## The tree of selected paths -/

structure PathNode where
  selected : Bool
  children : List (PyStr × PathNode)

namespace PathNode

def empty : PathNode := ⟨false, []⟩

def child (node : PathNode) (component : PyStr) : Option PathNode :=
  node.children.lookup component

/-- A child is replaced in place, or put at the end. -/
def setChild (component : PyStr) (node : PathNode) :
    List (PyStr × PathNode) → List (PyStr × PathNode)
  | [] => [(component, node)]
  | (c, n) :: rest =>
      if c = component then (component, node) :: rest else (c, n) :: setChild component node rest

/-- The node with one more selected path below it. -/
def select : Path → PathNode → PathNode
  | [], node => { node with selected := true }
  | component :: path, node =>
      let next := (node.child component).getD empty
      { node with children := setChild component (select path next) node.children }

/-- The visitor hears of the values at this node or below it. -/
def isVisited (node : PathNode) : Bool := node.selected || !node.children.isEmpty

end PathNode

/-- `_path_tree` -/
def pathTree (paths : List Path) : PathNode :=
  paths.foldl (fun root path => PathNode.select path root) .empty

/-! ## Frames -/

inductive FrameState where
  | keyOrEnd
  | key
  | colon
  | value
  | valueOrEnd
  | commaOrEnd
  deriving DecidableEq, Repr

structure Container where
  kind : Kind
  path : Path
  node : PathNode
  state : FrameState
  scope : Scope
  key : Option PyStr
  nonempty : Bool
  nextIndex : Nat
  seenChildren : List PyStr

def Container.new (kind : Kind) (path : Path) (node : PathNode) (state : FrameState)
    (scope : Scope) : Container :=
  { kind, path, node, state, scope, key := none, nonempty := false, nextIndex := 0,
    seenChildren := [] }

inductive RootState where
  | value
  | done
  deriving DecidableEq, Repr

/-- The fields that taking a token reads and writes. -/
structure Visits where
  root : PathNode
  stack : List Container
  rootState : RootState
  skip : SkipStack
  invalid : Bool
  events : List Event

/-- What the lexical half hands over; an elided string was too long to keep. -/
inductive Lexed where
  | string
  | stringElided
  | scalar
  | startMap
  | endMap
  | startArray
  | endArray
  | colon
  | comma
  deriving DecidableEq, Repr

def Lexed.token : Lexed → Token
  | .string | .stringElided => .string
  | .scalar => .scalar
  | .startMap => .startMap
  | .endMap => .endMap
  | .startArray => .startArray
  | .endArray => .endArray
  | .colon => .colon
  | .comma => .comma

def PyValue.str? : PyValue → Option PyStr
  | .str value => some value
  | _ => Option.none

namespace Visits

def fail (v : Visits) : Visits := { v with invalid := true }

def visit (v : Visits) (path : Path) (kind : EventKind) (value : PyValue) (scope : Scope) :
    Visits :=
  { v with events := v.events ++ [⟨path, kind, value, scope⟩] }

/-- The frame on top, as it was changed in place. -/
def setTop (v : Visits) (frame : Container) : Visits :=
  { v with stack := frame :: v.stack.tail }

/-- `_complete_value` -/
def completeValue (v : Visits) : Visits :=
  match v.stack with
  | [] => { v with rootState := .done }
  | parent :: _ =>
      if parent.kind = .array then
        let v :=
          match parent.node.child star with
          | some child =>
              if child.isVisited then
                v.visit (parent.path ++ [star]) .scopeEnd .none (parent.scope ++ [parent.nextIndex])
              else v
          | none => v
        v.setTop { parent with nextIndex := parent.nextIndex + 1, state := .commaOrEnd }
      else v.setTop { parent with state := .commaOrEnd }

/-- `_end_container` -/
def endContainer (v : Visits) (expected : Kind) : Visits :=
  match v.stack with
  | [] => v.fail
  | top :: below =>
      if top.kind ≠ expected then v.fail
      else completeValue { v with stack := below }

/-- `_mark_nonempty` for the frame on top. -/
def markNonempty (v : Visits) (frame : Container) : Visits :=
  if frame.nonempty then v
  else
    let v := v.setTop { frame with nonempty := true }
    if frame.node.selected then v.visit frame.path .nonempty (.bool true) frame.scope else v

/-- `_pop_skip_state` -/
def popSkipState (v : Visits) : Visits :=
  let v := { v with skip := v.skip.pop }
  if v.skip.depth = 0 then v.completeValue else v

def pushSkipState (v : Visits) (state : SkipState) : Visits :=
  { v with skip := v.skip.push state }

def setSkipState (v : Visits) (state : SkipState) : Visits :=
  { v with skip := v.skip.set state }

/-- `_start_value` -/
def startValue (v : Visits) (path : Path) (node : PathNode) (token : Lexed) (value : PyValue)
    (scope : Scope) (replace : Bool) : Visits :=
  let v := if replace && node.isVisited then v.visit path .replace .none scope else v
  match token with
  | .startMap =>
      let v := if node.selected then v.visit path .startMap .none scope else v
      { v with stack := .new .map path node .keyOrEnd scope :: v.stack }
  | .startArray =>
      let v := if node.selected then v.visit path .startArray .none scope else v
      { v with stack := .new .array path node .valueOrEnd scope :: v.stack }
  | .string | .stringElided | .scalar =>
      let v :=
        if node.selected then
          let v :=
            if token = .stringElided then v.visit path .elidedString .none scope else v
          v.visit path .scalar value scope
        else v
      v.completeValue
  | _ => v.fail

/-- `_skip_value` -/
def skipValue (v : Visits) (token : Lexed) : Visits :=
  match token with
  | .startMap => v.pushSkipState .mapKeyOrEnd
  | .startArray => v.pushSkipState .arrayValueOrEnd
  | .string | .stringElided | .scalar => v.completeValue
  | _ => v.fail

/-- `_start_skipped_value` -/
def startSkippedValue (v : Visits) (token : Lexed) (completed : SkipState) : Visits :=
  match token with
  | .string | .stringElided | .scalar => v.setSkipState completed
  | .startMap => (v.setSkipState completed).pushSkipState .mapKeyOrEnd
  | .startArray => (v.setSkipState completed).pushSkipState .arrayValueOrEnd
  | _ => v.fail

/-- `_accept_skipped` -/
def acceptSkipped (v : Visits) (token : Lexed) : Visits :=
  match v.skip.state with
  | .mapKeyOrEnd =>
      if token = .endMap then v.popSkipState
      else if token = .string ∨ token = .stringElided then v.setSkipState .mapColon
      else v.fail
  | .mapKey =>
      if token = .string ∨ token = .stringElided then v.setSkipState .mapColon else v.fail
  | .mapColon => if token = .colon then v.setSkipState .mapValue else v.fail
  | .mapValue => v.startSkippedValue token .mapCommaOrEnd
  | .mapCommaOrEnd =>
      if token = .comma then v.setSkipState .mapKey
      else if token = .endMap then v.popSkipState
      else v.fail
  | .arrayValueOrEnd =>
      if token = .endArray then v.popSkipState else v.startSkippedValue token .arrayCommaOrEnd
  | .arrayValue => v.startSkippedValue token .arrayCommaOrEnd
  | .arrayCommaOrEnd =>
      if token = .comma then v.setSkipState .arrayValue
      else if token = .endArray then v.popSkipState
      else v.fail

/-- `_accept_map` for the frame on top. -/
def acceptMap (v : Visits) (frame : Container) (token : Lexed) (value : PyValue) : Visits :=
  match frame.state with
  | .keyOrEnd | .key =>
      if token = .endMap ∧ frame.state = .keyOrEnd then v.endContainer .map
      else if token = .string ∨ token = .stringElided then
        v.setTop { frame with key := value.str?, state := .colon }
      else v.fail
  | .colon => if token ≠ .colon then v.fail else v.setTop { frame with state := .value }
  | .value =>
      let v := v.markNonempty frame
      match frame.key with
      | none => v.skipValue token
      | some key =>
          match frame.node.child key with
          | none => v.skipValue token
          | some child =>
              let duplicate := frame.seenChildren.contains key
              let v := v.setTop
                { frame with nonempty := true, seenChildren := frame.seenChildren.insert key }
              v.startValue (frame.path ++ [key]) child token value frame.scope duplicate
  | .commaOrEnd =>
      if token = .comma then v.setTop { frame with state := .key, key := none }
      else if token = .endMap then v.endContainer .map
      else v.fail
  | .valueOrEnd => v

/-- `_accept_array` for the frame on top. -/
def acceptArray (v : Visits) (frame : Container) (token : Lexed) (value : PyValue) : Visits :=
  match frame.state with
  | .valueOrEnd | .value =>
      if token = .endArray ∧ frame.state = .valueOrEnd then v.endContainer .array
      else
        let v := v.markNonempty frame
        match frame.node.child star with
        | none => v.skipValue token
        | some child =>
            v.startValue (frame.path ++ [star]) child token value
              (frame.scope ++ [frame.nextIndex]) false
  | .commaOrEnd =>
      if token = .comma then v.setTop { frame with state := .value }
      else if token = .endArray then v.endContainer .array
      else v.fail
  | _ => v

/-- `_accept` -/
def accept (v : Visits) (token : Lexed) (value : PyValue) : Visits :=
  if v.skip.depth ≠ 0 then v.acceptSkipped token
  else
    match v.stack with
    | [] =>
        if v.rootState ≠ .value then v.fail
        else v.startValue [] v.root token value [] false
    | frame :: _ =>
        if frame.kind = .map then v.acceptMap frame token value
        else v.acceptArray frame token value

end Visits

end Avibe.Json
