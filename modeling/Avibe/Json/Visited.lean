import Avibe.Json.Visits

/-!
# Taking tokens follows the grammar automaton

The frames and the states that are skipped are together one stack of the automaton,
whatever the selected paths are.
-/

namespace Avibe.Json

/-- The place of the automaton for a frame on top. -/
def Container.place (frame : Container) : Option Place :=
  match frame.kind, frame.state with
  | .map, .keyOrEnd => some .keyOrEnd
  | .map, .key => some .key
  | .map, .colon => some .colon
  | .map, .value => some .mapValue
  | .map, .commaOrEnd => some .mapCommaOrEnd
  | .array, .valueOrEnd => some .valueOrEnd
  | .array, .value => some .arrayValue
  | .array, .commaOrEnd => some .arrayCommaOrEnd
  | _, _ => none

def SkipState.place : SkipState → Place
  | .mapKeyOrEnd => .keyOrEnd
  | .mapKey => .key
  | .mapColon => .colon
  | .mapValue => .mapValue
  | .mapCommaOrEnd => .mapCommaOrEnd
  | .arrayValueOrEnd => .valueOrEnd
  | .arrayValue => .arrayValue
  | .arrayCommaOrEnd => .arrayCommaOrEnd

/-- The state of a container around the value that is read. -/
def Kind.completed : Kind → SkipState
  | .map => .mapCommaOrEnd
  | .array => .arrayCommaOrEnd

/-- The kinds of the frames, the top first. -/
def Visits.kinds (v : Visits) : List Kind := v.stack.map Container.kind

/-- The configuration that the frames and the skipped states stand for. -/
inductive Visits.At (v : Visits) : Config → Prop where
  | root (hs : v.stack = []) (hr : v.rootState = .value) (hk : v.skip.Packs []) :
      v.At (.at .root [])
  | done (hs : v.stack = []) (hr : v.rootState = .done) (hk : v.skip.Packs []) : v.At .done
  | frame {frame : Container} {below : List Container} {p : Place} (hs : v.stack = frame :: below)
      (hp : frame.place = some p) (hk : v.skip.Packs []) :
      v.At (.at p (below.map Container.kind))
  | skipped {state : SkipState} {inside : List Kind} (hs : v.stack ≠ [])
      (hk : v.skip.Packs (state :: inside.map Kind.completed)) :
      v.At (.at state.place (inside ++ v.kinds))

/-- The outcome of a token: the next configuration, or the text is invalid. -/
def Visits.Next (v : Visits) : Option Config → Prop
  | none => v.invalid = true
  | some c => v.invalid = false ∧ v.At c

namespace Visits

section Fields

variable (v : Visits) (path : Path) (kind : EventKind) (value : PyValue) (scope : Scope)

@[simp] theorem visit_stack : (v.visit path kind value scope).stack = v.stack := rfl

@[simp] theorem visit_skip : (v.visit path kind value scope).skip = v.skip := rfl

@[simp] theorem visit_invalid : (v.visit path kind value scope).invalid = v.invalid := rfl

@[simp] theorem fail_invalid : v.fail.invalid = true := rfl

end Fields

theorem next_fail (v : Visits) : v.fail.Next none := rfl

/-- The same state but for what the visitor heard. -/
structure Same (v w : Visits) : Prop where
  stack : w.stack = v.stack
  skip : w.skip = v.skip
  invalid : w.invalid = v.invalid

theorem same_visit_if (v : Visits) (c : Prop) [Decidable c] (path : Path) (kind : EventKind)
    (value : PyValue) (scope : Scope) : Same v (if c then v.visit path kind value scope else v) := by
  split <;> exact ⟨rfl, rfl, rfl⟩

theorem Same.trans {u v w : Visits} (h : Same u v) (h' : Same v w) : Same u w :=
  ⟨h'.stack.trans h.stack, h'.skip.trans h.skip, h'.invalid.trans h.invalid⟩

/-- The frame around a complete value waits for a comma or its end. -/
theorem completeValue_cons {v : Visits} {parent : Container} {below : List Container}
    (hs : v.stack = parent :: below) :
    ∃ frame, v.completeValue.stack = frame :: below ∧ frame.kind = parent.kind ∧
      frame.state = .commaOrEnd ∧ v.completeValue.skip = v.skip ∧
      v.completeValue.invalid = v.invalid := by
  have htail : v.stack.tail = below := by rw [hs, List.tail_cons]
  unfold completeValue
  simp only [hs]
  by_cases hkind : parent.kind = .array
  · rw [if_pos hkind]
    cases parent.node.child star with
    | none => exact ⟨_, congrArg _ htail, rfl, rfl, rfl, rfl⟩
    | some child =>
        have hsame := same_visit_if v (child.isVisited = true) (parent.path ++ [star]) .scopeEnd
          .none (parent.scope ++ [parent.nextIndex])
        refine ⟨_, congrArg _ (Eq.trans ?_ htail), rfl, rfl, hsame.skip, hsame.invalid⟩
        exact congrArg List.tail hsame.stack
  · rw [if_neg hkind]
    exact ⟨_, congrArg _ htail, rfl, rfl, rfl, rfl⟩

theorem next_completeValue {v : Visits} (hv : v.invalid = false) (hk : v.skip.Packs []) :
    v.completeValue.Next (some (.complete v.kinds)) := by
  cases hs : v.stack with
  | nil =>
      have hdone : v.completeValue = { v with rootState := .done } := by simp [completeValue, hs]
      rw [hdone, kinds, hs]
      exact ⟨hv, .done rfl rfl hk⟩
  | cons parent below =>
      obtain ⟨frame, hstack, hkind, hstate, hskip, hinvalid⟩ := completeValue_cons hs
      rw [kinds, hs, List.map_cons, ← hkind]
      refine ⟨hinvalid.trans hv, ?_⟩
      rw [← hskip] at hk
      cases hframe : frame.kind with
      | map => exact .frame hstack (by simp [Container.place, hframe, hstate]) hk
      | array => exact .frame hstack (by simp [Container.place, hframe, hstate]) hk

theorem next_endContainer {v : Visits} {frame : Container} {below : List Container}
    (hv : v.invalid = false) (hk : v.skip.Packs []) (hs : v.stack = frame :: below) :
    (v.endContainer frame.kind).Next (some (.complete (below.map Container.kind))) := by
  simp only [endContainer, hs, ne_eq, not_true_eq_false, if_false]
  exact next_completeValue (v := { v with stack := below }) hv hk

theorem next_pushSkipState {v : Visits} {state : SkipState} (hv : v.invalid = false)
    (hk : v.skip.Packs []) (hs : v.stack ≠ []) :
    (v.pushSkipState state).Next (some (.at state.place v.kinds)) :=
  ⟨hv, @At.skipped (v.pushSkipState state) state [] hs (hk.push state)⟩

theorem next_skipValue {v : Visits} (hv : v.invalid = false) (hk : v.skip.Packs [])
    (hs : v.stack ≠ []) (token : Lexed) :
    (v.skipValue token).Next (Config.start v.kinds token.token) := by
  cases token with
  | startMap => exact next_pushSkipState hv hk hs
  | startArray => exact next_pushSkipState hv hk hs
  | string => exact next_completeValue hv hk
  | stringElided => exact next_completeValue hv hk
  | scalar => exact next_completeValue hv hk
  | endMap => exact next_fail v
  | endArray => exact next_fail v
  | colon => exact next_fail v
  | comma => exact next_fail v

theorem next_push {v w : Visits} (h : Same v w) (hv : v.invalid = false) (hk : v.skip.Packs [])
    {frame : Container} {p : Place} (hp : frame.place = some p) :
    Next { w with stack := frame :: w.stack } (some (.at p v.kinds)) := by
  rw [kinds, ← h.stack]
  exact ⟨h.invalid.trans hv, .frame rfl hp (h.skip ▸ hk)⟩

theorem next_complete_same {v w : Visits} (h : Same v w) (hv : v.invalid = false)
    (hk : v.skip.Packs []) : w.completeValue.Next (some (.complete v.kinds)) := by
  rw [kinds, ← h.stack]
  exact next_completeValue (h.invalid.trans hv) (h.skip ▸ hk)

theorem next_startValue {v : Visits} (hv : v.invalid = false) (hk : v.skip.Packs []) (path : Path)
    (node : PathNode) (token : Lexed) (value : PyValue) (scope : Scope) (replace : Bool) :
    (v.startValue path node token value scope replace).Next
      (Config.start v.kinds token.token) := by
  have hreplace := same_visit_if v ((replace && node.isVisited) = true) path .replace .none scope
  unfold startValue
  generalize (if replace && node.isVisited then v.visit path .replace .none scope else v) = w
    at hreplace
  have hscalar : ∀ (elided : Prop) [Decidable elided], Next (completeValue
      (if node.selected then
        (if elided then w.visit path .elidedString .none scope else w).visit path .scalar value scope
      else w)) (some (.complete v.kinds)) := by
    intro elided _
    refine next_complete_same (hreplace.trans ?_) hv hk
    have helided := same_visit_if w elided path .elidedString .none scope
    split
    · exact helided.trans ⟨rfl, rfl, rfl⟩
    · exact ⟨rfl, rfl, rfl⟩
  cases token with
  | startMap =>
      exact next_push (hreplace.trans (same_visit_if w (node.selected = true) path .startMap .none scope)) hv
        hk rfl
  | startArray =>
      exact next_push (hreplace.trans (same_visit_if w (node.selected = true) path .startArray .none scope))
        hv hk rfl
  | string => exact hscalar _
  | stringElided => exact hscalar _
  | scalar => exact hscalar _
  | endMap => exact next_fail w
  | endArray => exact next_fail w
  | colon => exact next_fail w
  | comma => exact next_fail w

theorem next_setTop {v : Visits} {frame next : Container} {below : List Container} {p : Place}
    (hv : v.invalid = false) (hk : v.skip.Packs []) (hs : v.stack = frame :: below)
    (hp : next.place = some p) :
    (v.setTop next).Next (some (.at p (below.map Container.kind))) := by
  refine ⟨hv, .frame ?_ hp hk⟩
  rw [setTop, hs, List.tail_cons]

theorem markNonempty_cons {v : Visits} {frame : Container} {below : List Container}
    (hs : v.stack = frame :: below) :
    ∃ next, (v.markNonempty frame).stack = next :: below ∧ next.kind = frame.kind ∧
      (v.markNonempty frame).skip = v.skip ∧ (v.markNonempty frame).invalid = v.invalid := by
  unfold markNonempty
  split
  · exact ⟨frame, hs, rfl, rfl, rfl⟩
  · have hsame := same_visit_if (v.setTop { frame with nonempty := true })
      (frame.node.selected = true) frame.path .nonempty (.bool true) frame.scope
    have htail : v.stack.tail = below := by rw [hs, List.tail_cons]
    exact ⟨_, hsame.stack.trans (congrArg _ htail), rfl, hsame.skip, hsame.invalid⟩

/-- A value inside the frame on top, selected or not. -/
theorem next_inside {v : Visits} {frame : Container} {below : List Container}
    (hv : v.invalid = false) (hk : v.skip.Packs []) (hs : v.stack = frame :: below)
    (token : Lexed) (value : PyValue) (child : Option PathNode) (path : Path) (scope : Scope)
    (replace : Bool) :
    (match child with
      | none => v.skipValue token
      | some node => v.startValue path node token value scope replace).Next
      (Config.start (frame.kind :: below.map Container.kind) token.token) := by
  have hkinds : v.kinds = frame.kind :: below.map Container.kind := by rw [kinds, hs, List.map_cons]
  rw [← hkinds]
  cases child with
  | none => exact next_skipValue hv hk (by simp [hs]) token
  | some node => exact next_startValue hv hk path node token value scope replace

theorem next_acceptMap {v : Visits} {frame : Container} {below : List Container} {p : Place}
    (hv : v.invalid = false) (hk : v.skip.Packs []) (hs : v.stack = frame :: below)
    (hkind : frame.kind = .map) (hp : frame.place = some p) (token : Lexed) (value : PyValue) :
    (v.acceptMap frame token value).Next
      ((Config.at p (below.map Container.kind)).step token.token) := by
  have hend : (v.endContainer .map).Next (some (.complete (below.map Container.kind))) :=
    hkind ▸ next_endContainer hv hk hs
  have hkey : ∀ key, (v.setTop { frame with key := key, state := .colon }).Next
      (some (.at .colon (below.map Container.kind))) := fun key =>
    next_setTop hv hk hs (by simp [Container.place, hkind])
  unfold acceptMap
  cases hstate : frame.state with
  | keyOrEnd =>
      obtain rfl : p = .keyOrEnd := by simpa [Container.place, hkind, hstate] using hp.symm
      cases token <;> simp <;> first | exact hend | exact hkey _ | exact next_fail v
  | key =>
      obtain rfl : p = .key := by simpa [Container.place, hkind, hstate] using hp.symm
      cases token <;> simp <;> first | exact hkey _ | exact next_fail v
  | colon =>
      obtain rfl : p = .colon := by simpa [Container.place, hkind, hstate] using hp.symm
      have hcolon : (v.setTop { frame with state := .value }).Next
          (some (.at .mapValue (below.map Container.kind))) :=
        next_setTop hv hk hs (by simp [Container.place, hkind])
      cases token <;> simp <;> first | exact hcolon | exact next_fail v
  | value =>
      obtain rfl : p = .mapValue := by simpa [Container.place, hkind, hstate] using hp.symm
      obtain ⟨top, hstack, htop, hskip, hinvalid⟩ := markNonempty_cons hs
      have hv' := hinvalid.trans hv
      have hk' : (v.markNonempty frame).skip.Packs [] := hskip ▸ hk
      have hskipped : ((v.markNonempty frame).skipValue token).Next
          (Config.start (.map :: below.map Container.kind) token.token) := by
        have := next_inside hv' hk' hstack token value none [] [] false
        rwa [htop, hkind] at this
      have htail : (v.markNonempty frame).stack.tail = below := by rw [hstack, List.tail_cons]
      have hselected : ∀ (next : Container) (path : Path) (node : PathNode) (scope : Scope)
          (replace : Bool), next.kind = .map →
          (((v.markNonempty frame).setTop next).startValue path node token value scope replace).Next
            (Config.start (.map :: below.map Container.kind) token.token) := by
        intro next path node scope replace hnext
        have := next_inside (v := (v.markNonempty frame).setTop next) hv' hk' (congrArg _ htail)
          token value (some node) path scope replace
        rwa [hnext] at this
      cases frame.key with
      | none => exact hskipped
      | some key =>
          cases hchild : frame.node.child key with
          | none =>
              simp only [hchild]
              exact hskipped
          | some child =>
              simp only [hchild]
              exact hselected _ _ _ _ _ hkind
  | commaOrEnd =>
      obtain rfl : p = .mapCommaOrEnd := by simpa [Container.place, hkind, hstate] using hp.symm
      have hcomma : (v.setTop { frame with state := .key, key := none }).Next
          (some (.at .key (below.map Container.kind))) :=
        next_setTop hv hk hs (by simp [Container.place, hkind])
      cases token <;> simp <;> first | exact hcomma | exact hend | exact next_fail v
  | valueOrEnd => simp [Container.place, hkind, hstate] at hp

theorem next_acceptArray {v : Visits} {frame : Container} {below : List Container} {p : Place}
    (hv : v.invalid = false) (hk : v.skip.Packs []) (hs : v.stack = frame :: below)
    (hkind : frame.kind = .array) (hp : frame.place = some p) (token : Lexed) (value : PyValue) :
    (v.acceptArray frame token value).Next
      ((Config.at p (below.map Container.kind)).step token.token) := by
  have hend : (v.endContainer .array).Next (some (.complete (below.map Container.kind))) :=
    hkind ▸ next_endContainer hv hk hs
  obtain ⟨top, hstack, htop, hskip, hinvalid⟩ := markNonempty_cons hs
  have hinside := next_inside (hinvalid.trans hv) (hskip ▸ hk) hstack token value
    (frame.node.child star) (frame.path ++ [star]) (frame.scope ++ [frame.nextIndex]) false
  rw [htop, hkind] at hinside
  unfold acceptArray
  cases hstate : frame.state with
  | valueOrEnd =>
      obtain rfl : p = .valueOrEnd := by simpa [Container.place, hkind, hstate] using hp.symm
      by_cases ht : token = .endArray
      · subst ht
        exact hend
      · simp only [ht, false_and, if_false]
        have hstep : (Config.at .valueOrEnd (below.map Container.kind)).step token.token =
            Config.start (.array :: below.map Container.kind) token.token := by
          cases token <;> first | rfl | exact absurd rfl ht
        rw [hstep]
        exact hinside
  | value =>
      obtain rfl : p = .arrayValue := by simpa [Container.place, hkind, hstate] using hp.symm
      simp only [reduceCtorEq, and_false, if_false]
      exact hinside
  | commaOrEnd =>
      obtain rfl : p = .arrayCommaOrEnd := by simpa [Container.place, hkind, hstate] using hp.symm
      have hcomma : (v.setTop { frame with state := .value }).Next
          (some (.at .arrayValue (below.map Container.kind))) :=
        next_setTop hv hk hs (by simp [Container.place, hkind])
      cases token <;> simp <;> first | exact hcomma | exact hend | exact next_fail v
  | keyOrEnd => simp [Container.place, hkind, hstate] at hp
  | key => simp [Container.place, hkind, hstate] at hp
  | colon => simp [Container.place, hkind, hstate] at hp

/-! ## Skipped values -/

theorem next_setSkipState {v : Visits} {state : SkipState} {inside : List Kind}
    (next : SkipState) (hv : v.invalid = false) (hs : v.stack ≠ [])
    (hk : v.skip.Packs (state :: inside.map Kind.completed)) :
    (v.setSkipState next).Next (some (.at next.place (inside ++ v.kinds))) :=
  ⟨hv, .skipped (v := v.setSkipState next) hs (hk.set next)⟩

theorem next_popSkipState {v : Visits} {state : SkipState} {inside : List Kind}
    (hv : v.invalid = false) (hs : v.stack ≠ [])
    (hk : v.skip.Packs (state :: inside.map Kind.completed)) :
    v.popSkipState.Next (some (.complete (inside ++ v.kinds))) := by
  have hpop := hk.pop
  unfold popSkipState
  cases inside with
  | nil =>
      rw [if_pos (hpop.depth_eq_zero.mpr rfl)]
      exact next_completeValue (v := { v with skip := v.skip.pop }) hv hpop
  | cons kind inside =>
      rw [if_neg fun h => by cases hpop.depth_eq_zero.mp h]
      have hat := @At.skipped { v with skip := v.skip.pop } kind.completed inside hs hpop
      cases kind <;> exact ⟨hv, hat⟩

theorem next_startSkippedValue {v : Visits} {state : SkipState} {inside : List Kind}
    (hv : v.invalid = false) (hs : v.stack ≠ [])
    (hk : v.skip.Packs (state :: inside.map Kind.completed)) (kind : Kind) (token : Lexed) :
    (v.startSkippedValue token kind.completed).Next
      (Config.start (kind :: (inside ++ v.kinds)) token.token) := by
  have hset := hk.set kind.completed
  have hscalar : (v.setSkipState kind.completed).Next
      (some (.complete (kind :: (inside ++ v.kinds)))) := by
    have := next_setSkipState kind.completed hv hs hk
    cases kind <;> exact this
  have hpush : ∀ next : SkipState, ((v.setSkipState kind.completed).pushSkipState next).Next
      (some (.at next.place (kind :: (inside ++ v.kinds)))) := fun next =>
    ⟨hv, @At.skipped ((v.setSkipState kind.completed).pushSkipState next) next (kind :: inside) hs
      (hset.push next)⟩
  cases token with
  | string => exact hscalar
  | stringElided => exact hscalar
  | scalar => exact hscalar
  | startMap => exact hpush .mapKeyOrEnd
  | startArray => exact hpush .arrayValueOrEnd
  | endMap => exact next_fail v
  | endArray => exact next_fail v
  | colon => exact next_fail v
  | comma => exact next_fail v

theorem next_acceptSkipped {v : Visits} {state : SkipState} {inside : List Kind}
    (hv : v.invalid = false) (hs : v.stack ≠ [])
    (hk : v.skip.Packs (state :: inside.map Kind.completed)) (token : Lexed) :
    (v.acceptSkipped token).Next
      ((Config.at state.place (inside ++ v.kinds)).step token.token) := by
  have hset := fun next : SkipState => next_setSkipState next hv hs hk
  have hpop := next_popSkipState hv hs hk
  have hstart := fun kind : Kind => next_startSkippedValue hv hs hk kind token
  unfold acceptSkipped
  rw [hk.state]
  cases state with
  | mapValue => exact hstart .map
  | arrayValue => exact hstart .array
  | arrayValueOrEnd =>
      by_cases ht : token = .endArray
      · subst ht
        exact hpop
      · have hstep : (Config.at .valueOrEnd (inside ++ v.kinds)).step token.token =
            Config.start (.array :: (inside ++ v.kinds)) token.token := by
          cases token <;> first | rfl | exact absurd rfl ht
        simp only [ht, if_false]
        exact hstep ▸ hstart .array
  | mapKeyOrEnd =>
      cases token <;> first | exact hpop | exact hset .mapColon | exact next_fail v
  | mapKey => cases token <;> first | exact hset .mapColon | exact next_fail v
  | mapColon => cases token <;> first | exact hset .mapValue | exact next_fail v
  | mapCommaOrEnd => cases token <;> first | exact hset .mapKey | exact hpop | exact next_fail v
  | arrayCommaOrEnd =>
      cases token <;> first | exact hset .arrayValue | exact hpop | exact next_fail v

/-- `_accept` takes a token as the automaton does, whatever the paths are. -/
theorem next_accept {v : Visits} {c : Config} (hv : v.invalid = false) (h : v.At c)
    (token : Lexed) (value : PyValue) : (v.accept token value).Next (c.step token.token) := by
  unfold accept
  cases h with
  | root hs hr hk =>
      rw [if_neg (by simp [hk.depth_eq_zero])]
      simp only [hs, hr, ne_eq, not_true_eq_false, if_false]
      have := next_startValue hv hk [] v.root token value [] false
      rw [kinds, hs] at this
      exact this
  | done hs hr hk =>
      rw [if_neg (by simp [hk.depth_eq_zero])]
      simp only [hs, hr]
      exact next_fail v
  | @frame frame below p hs hp hk =>
      rw [if_neg (by simp [hk.depth_eq_zero])]
      simp only [hs]
      cases hkind : frame.kind with
      | map => exact next_acceptMap hv hk hs hkind hp token value
      | array => exact next_acceptArray hv hk hs hkind hp token value
  | skipped hs hk =>
      rw [if_pos (by simp [hk.depth_eq_zero])]
      exact next_acceptSkipped hv hs hk token

end Visits

end Avibe.Json
