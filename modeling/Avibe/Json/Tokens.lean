import Avibe.Json.Grammar

/-!
# Tokens and the grammar automaton

A text is a list of tokens with whitespace between them. The automaton reads the
tokens with a stack of the containers that are open; it accepts exactly the token
lists of the grammar.
-/

namespace Avibe.Json

inductive Token where
  | string
  | scalar
  | startMap
  | endMap
  | startArray
  | endArray
  | colon
  | comma
  deriving DecidableEq, Repr

/-! ## Token lists of the grammar -/

mutual

inductive TValue : List Token → Prop where
  | scalar : TValue [.scalar]
  | string : TValue [.string]
  | emptyMap : TValue [.startMap, .endMap]
  | map {members : List Token} (h : TMembers members) :
      TValue (.startMap :: (members ++ [.endMap]))
  | emptyArray : TValue [.startArray, .endArray]
  | array {elements : List Token} (h : TElements elements) :
      TValue (.startArray :: (elements ++ [.endArray]))

inductive TMembers : List Token → Prop where
  | one {value : List Token} (h : TValue value) : TMembers (.string :: .colon :: value)
  | more {value members : List Token} (h : TValue value) (hm : TMembers members) :
      TMembers (.string :: .colon :: (value ++ .comma :: members))

inductive TElements : List Token → Prop where
  | one {value : List Token} (h : TValue value) : TElements value
  | more {value elements : List Token} (h : TValue value) (he : TElements elements) :
      TElements (value ++ .comma :: elements)

end

/-! ## The automaton -/

inductive Kind where
  | map
  | array
  deriving DecidableEq, Repr

/-- Where the innermost open container stands. -/
inductive Place where
  | root
  | keyOrEnd
  | key
  | colon
  | mapValue
  | mapCommaOrEnd
  | valueOrEnd
  | arrayValue
  | arrayCommaOrEnd
  deriving DecidableEq, Repr

/-- The innermost place, and the kinds of the containers around it. -/
inductive Config where
  | done
  | at (place : Place) (below : List Kind)
  deriving DecidableEq, Repr

/-- A value inside these containers is complete. -/
def Config.complete : List Kind → Config
  | [] => .done
  | .map :: below => .at .mapCommaOrEnd below
  | .array :: below => .at .arrayCommaOrEnd below

/-- A value starts inside these containers. -/
def Config.start (below : List Kind) : Token → Option Config
  | .string | .scalar => some (.complete below)
  | .startMap => some (.at .keyOrEnd below)
  | .startArray => some (.at .valueOrEnd below)
  | _ => none

def Config.step : Config → Token → Option Config
  | .done, _ => none
  | .at .root below, t => Config.start below t
  | .at .keyOrEnd below, .endMap => some (.complete below)
  | .at .keyOrEnd below, .string => some (.at .colon below)
  | .at .keyOrEnd _, _ => none
  | .at .key below, .string => some (.at .colon below)
  | .at .key _, _ => none
  | .at .colon below, .colon => some (.at .mapValue below)
  | .at .colon _, _ => none
  | .at .mapValue below, t => Config.start (.map :: below) t
  | .at .mapCommaOrEnd below, .comma => some (.at .key below)
  | .at .mapCommaOrEnd below, .endMap => some (.complete below)
  | .at .mapCommaOrEnd _, _ => none
  | .at .valueOrEnd below, .endArray => some (.complete below)
  | .at .valueOrEnd below, t => Config.start (.array :: below) t
  | .at .arrayValue below, t => Config.start (.array :: below) t
  | .at .arrayCommaOrEnd below, .comma => some (.at .arrayValue below)
  | .at .arrayCommaOrEnd below, .endArray => some (.complete below)
  | .at .arrayCommaOrEnd _, _ => none

/-- The tokens bring the automaton to its end. -/
def Config.Accepts : Config → List Token → Prop
  | c, [] => c = .done
  | c, t :: ts => ∃ c', c.step t = some c' ∧ c'.Accepts ts

theorem accepts_done {ts : List Token} : Config.done.Accepts ts ↔ ts = [] := by
  cases ts with
  | nil => exact iff_of_true rfl rfl
  | cons t ts => exact ⟨fun ⟨_, h, _⟩ => (by cases h), fun h => (by cases h)⟩

theorem accepts_cons {c c' : Config} {t : Token} {ts : List Token} (h : c.step t = some c') :
    c.Accepts (t :: ts) ↔ c'.Accepts ts := by
  constructor
  · rintro ⟨d, hd, hts⟩
    cases hd.symm.trans h
    exact hts
  · exact fun hts => ⟨c', h, hts⟩

/-- The containers around a value that starts at this place. -/
def Place.around : Place → List Kind → Option (List Kind)
  | .root, below => some below
  | .mapValue, below => some (.map :: below)
  | .valueOrEnd, below => some (.array :: below)
  | .arrayValue, below => some (.array :: below)
  | _, _ => none

theorem step_scalar {p : Place} {below outer : List Kind} {t : Token}
    (h : p.around below = some outer) (ht : t = .scalar ∨ t = .string) :
    (Config.at p below).step t = some (.complete outer) := by
  rcases ht with rfl | rfl <;> cases p <;> cases h <;> rfl

theorem step_startMap {p : Place} {below outer : List Kind} (h : p.around below = some outer) :
    (Config.at p below).step .startMap = some (.at .keyOrEnd outer) := by
  cases p <;> cases h <;> rfl

theorem step_startArray {p : Place} {below outer : List Kind} (h : p.around below = some outer) :
    (Config.at p below).step .startArray = some (.at .valueOrEnd outer) := by
  cases p <;> cases h <;> rfl

/-- What may follow a complete value. -/
theorem step_complete {outer : List Kind} {t : Token} {c : Config}
    (h : (Config.complete outer).step t = some c) : t = .comma ∨ t = .endMap ∨ t = .endArray := by
  rcases outer with _ | ⟨_ | _, below⟩
  · cases h
  all_goals cases t <;> first | cases h; done | simp

/-! ## What the automaton accepts -/

mutual

theorem TValue.accepts {value : List Token} (h : TValue value) {p : Place}
    {below outer : List Kind} (hp : p.around below = some outer) (rest : List Token) :
    (Config.at p below).Accepts (value ++ rest) ↔ (Config.complete outer).Accepts rest := by
  cases h with
  | scalar => exact accepts_cons (step_scalar hp (.inl rfl))
  | string => exact accepts_cons (step_scalar hp (.inr rfl))
  | emptyMap =>
      refine (accepts_cons (step_startMap hp)).trans ?_
      exact accepts_cons rfl
  | map hm =>
      rw [List.cons_append, accepts_cons (step_startMap hp), List.append_assoc,
        hm.accepts (.inl rfl)]
      exact accepts_cons rfl
  | emptyArray =>
      refine (accepts_cons (step_startArray hp)).trans ?_
      exact accepts_cons rfl
  | array he =>
      rw [List.cons_append, accepts_cons (step_startArray hp), List.append_assoc,
        he.accepts (.inl rfl)]
      exact accepts_cons rfl
  termination_by value.length

theorem TMembers.accepts {members : List Token} (h : TMembers members) {p : Place}
    {below : List Kind} (hp : p = .keyOrEnd ∨ p = .key) (rest : List Token) :
    (Config.at p below).Accepts (members ++ rest) ↔
      (Config.at .mapCommaOrEnd below).Accepts rest := by
  have hstep : ∀ ts, (Config.at p below).Accepts (.string :: .colon :: ts) ↔
      (Config.at .mapValue below).Accepts ts := by
    intro ts
    have hs : (Config.at p below).step .string = some (.at .colon below) := by
      rcases hp with rfl | rfl <;> rfl
    exact (accepts_cons hs).trans (accepts_cons rfl)
  have hvalue : Place.mapValue.around below = some (.map :: below) := rfl
  cases h with
  | one hv =>
      refine (hstep _).trans ?_
      exact hv.accepts hvalue rest
  | more hv hm =>
      rw [List.cons_append, List.cons_append, hstep, List.append_assoc, hv.accepts hvalue]
      refine (accepts_cons rfl).trans ?_
      exact hm.accepts (.inr rfl) rest
  termination_by members.length

theorem TElements.accepts {elements : List Token} (h : TElements elements) {p : Place}
    {below : List Kind} (hp : p = .valueOrEnd ∨ p = .arrayValue) (rest : List Token) :
    (Config.at p below).Accepts (elements ++ rest) ↔
      (Config.at .arrayCommaOrEnd below).Accepts rest := by
  have harea : p.around below = some (.array :: below) := by
    rcases hp with rfl | rfl <;> rfl
  cases h with
  | one hv => exact hv.accepts harea rest
  | more hv he =>
      rw [List.append_assoc, hv.accepts harea]
      refine (accepts_cons rfl).trans ?_
      exact he.accepts (.inr rfl) rest
  termination_by elements.length + 1

end

/-- A value that is read to its end is a value of the grammar. -/
def SplitsValue (n : Nat) : Prop :=
  ∀ ts : List Token, ts.length ≤ n → ∀ p below outer, Place.around p below = some outer →
    ts.head? ≠ some .endArray → (Config.at p below).Accepts ts →
    ∃ value rest, ts = value ++ rest ∧ TValue value ∧ (Config.complete outer).Accepts rest

def SplitsMembers (n : Nat) : Prop :=
  ∀ ts : List Token, ts.length ≤ n → ∀ below, (Config.at .key below).Accepts ts →
    ∃ members rest, ts = members ++ .endMap :: rest ∧ TMembers members ∧
      (Config.complete below).Accepts rest

def SplitsElements (n : Nat) : Prop :=
  ∀ ts : List Token, ts.length ≤ n → ∀ p below, (p = .valueOrEnd ∨ p = .arrayValue) →
    ts.head? ≠ some .endArray → (Config.at p below).Accepts ts →
    ∃ elements rest, ts = elements ++ .endArray :: rest ∧ TElements elements ∧
      (Config.complete below).Accepts rest

theorem TValue.length_pos {value : List Token} (h : TValue value) : 0 < value.length := by
  cases h <;> simp

theorem splitsMap {n : Nat} (hm : SplitsMembers n) {ts : List Token} (hlen : ts.length ≤ n)
    {outer : List Kind} (h : (Config.at .keyOrEnd outer).Accepts ts) :
    ∃ value rest, Token.startMap :: ts = value ++ rest ∧ TValue value ∧
      (Config.complete outer).Accepts rest := by
  cases ts with
  | nil => cases h
  | cons t ts =>
      cases t with
      | endMap => exact ⟨[.startMap, .endMap], ts, rfl, .emptyMap, (accepts_cons rfl).mp h⟩
      | string =>
          have hkey : (Config.at .key outer).Accepts (.string :: ts) :=
            (accepts_cons rfl).mpr ((accepts_cons rfl).mp h)
          obtain ⟨members, rest, hts, hmem, hrest⟩ := hm _ hlen outer hkey
          exact ⟨.startMap :: (members ++ [.endMap]), rest, by rw [hts]; simp, .map hmem, hrest⟩
      | _ =>
          obtain ⟨c, hc, -⟩ := h
          cases hc

theorem splitsArray {n : Nat} (he : SplitsElements n) {ts : List Token} (hlen : ts.length ≤ n)
    {outer : List Kind} (h : (Config.at .valueOrEnd outer).Accepts ts) :
    ∃ value rest, Token.startArray :: ts = value ++ rest ∧ TValue value ∧
      (Config.complete outer).Accepts rest := by
  by_cases hend : ts.head? = some .endArray
  · obtain ⟨ts', rfl⟩ := List.head?_eq_some_iff.mp hend
    exact ⟨[.startArray, .endArray], ts', rfl, .emptyArray, (accepts_cons rfl).mp h⟩
  · obtain ⟨elements, rest, rfl, hel, hrest⟩ := he ts hlen _ outer (.inl rfl) hend h
    exact ⟨.startArray :: (elements ++ [.endArray]), rest, by simp, .array hel, hrest⟩

theorem splitsValue_succ {n : Nat} (hm : SplitsMembers n) (he : SplitsElements n) :
    SplitsValue (n + 1) := by
  intro ts hlen p below outer hp hne h
  cases ts with
  | nil => cases h
  | cons t ts =>
      have hshort : ts.length ≤ n := Nat.le_of_succ_le_succ hlen
      have hnone : ∀ {t : Token}, (t = .endMap ∨ t = .colon ∨ t = .comma) →
          (Config.at p below).step t = none := by
        rintro t (rfl | rfl | rfl) <;> cases p <;> cases hp <;> rfl
      cases t with
      | string =>
          exact ⟨[.string], ts, rfl, .string, (accepts_cons (step_scalar hp (.inr rfl))).mp h⟩
      | scalar =>
          exact ⟨[.scalar], ts, rfl, .scalar, (accepts_cons (step_scalar hp (.inl rfl))).mp h⟩
      | startMap => exact splitsMap hm hshort ((accepts_cons (step_startMap hp)).mp h)
      | startArray => exact splitsArray he hshort ((accepts_cons (step_startArray hp)).mp h)
      | endArray => exact absurd rfl hne
      | _ =>
          obtain ⟨c, hc, -⟩ := h
          rw [hnone (by simp)] at hc
          cases hc

theorem splitsMembers_succ {n : Nat} (hv : SplitsValue n) (hm : SplitsMembers n) :
    SplitsMembers (n + 1) := by
  intro ts hlen below h
  match ts with
  | [] => cases h
  | .string :: ts =>
      have h := (accepts_cons rfl).mp h
      match ts with
      | [] => cases h
      | .colon :: ts =>
          have h := (accepts_cons rfl).mp h
          simp only [List.length_cons] at hlen
          have hne : ts.head? ≠ some .endArray := by
            intro hend
            obtain ⟨ts', rfl⟩ := List.head?_eq_some_iff.mp hend
            obtain ⟨c, hc, -⟩ := h
            cases hc
          obtain ⟨value, rest, rfl, hvalue, hrest⟩ := hv ts (by omega) .mapValue below _ rfl hne h
          simp only [List.length_append] at hlen
          match rest with
          | [] => cases hrest
          | .endMap :: rest =>
              exact ⟨.string :: .colon :: value, rest, rfl, .one hvalue,
                (accepts_cons rfl).mp hrest⟩
          | .comma :: rest =>
              simp only [List.length_cons] at hlen
              obtain ⟨members, rest', rfl, hmem, hrest'⟩ :=
                hm rest (by omega) below ((accepts_cons rfl).mp hrest)
              exact ⟨.string :: .colon :: (value ++ .comma :: members), rest', by simp,
                .more hvalue hmem, hrest'⟩
          | .string :: _ | .scalar :: _ | .startMap :: _ | .startArray :: _ | .endArray :: _
          | .colon :: _ =>
              obtain ⟨c, hc, -⟩ := hrest
              cases hc
      | .string :: _ | .scalar :: _ | .startMap :: _ | .startArray :: _ | .endArray :: _
      | .endMap :: _ | .comma :: _ =>
          obtain ⟨c, hc, -⟩ := h
          cases hc
  | .colon :: _ | .scalar :: _ | .startMap :: _ | .startArray :: _ | .endArray :: _
  | .endMap :: _ | .comma :: _ =>
      obtain ⟨c, hc, -⟩ := h
      cases hc

theorem splitsElements_succ {n : Nat} (hv : SplitsValue (n + 1)) (he : SplitsElements n) :
    SplitsElements (n + 1) := by
  intro ts hlen p below hp hne h
  have harea : p.around below = some (.array :: below) := by
    rcases hp with rfl | rfl <;> rfl
  obtain ⟨value, rest, rfl, hvalue, hrest⟩ := hv ts hlen p below _ harea hne h
  have hpos := hvalue.length_pos
  simp only [List.length_append] at hlen
  match rest with
  | [] => cases hrest
  | .endArray :: rest => exact ⟨value, rest, rfl, .one hvalue, (accepts_cons rfl).mp hrest⟩
  | .comma :: rest =>
      simp only [List.length_cons] at hlen
      have hrest := (accepts_cons rfl).mp hrest
      have hne : rest.head? ≠ some .endArray := by
        intro hend
        obtain ⟨ts', rfl⟩ := List.head?_eq_some_iff.mp hend
        obtain ⟨c, hc, -⟩ := hrest
        cases hc
      obtain ⟨elements, rest', rfl, hel, hrest'⟩ :=
        he rest (by omega) .arrayValue below (.inr rfl) hne hrest
      exact ⟨value ++ .comma :: elements, rest', by simp, .more hvalue hel, hrest'⟩
  | .string :: _ | .scalar :: _ | .startMap :: _ | .startArray :: _ | .endMap :: _
  | .colon :: _ =>
      obtain ⟨c, hc, -⟩ := hrest
      cases hc

theorem splits (n : Nat) : SplitsValue n ∧ SplitsMembers n ∧ SplitsElements n := by
  induction n with
  | zero =>
      refine ⟨fun ts hlen p below outer _ _ h => ?_, fun ts hlen below h => ?_,
        fun ts hlen p below _ _ h => ?_⟩
      all_goals
        obtain rfl := List.length_eq_zero_iff.mp (Nat.le_zero.mp hlen)
        cases h
  | succ n ih =>
      obtain ⟨ihv, ihm, ihe⟩ := ih
      have hv := splitsValue_succ ihm ihe
      exact ⟨hv, splitsMembers_succ ihv ihm, splitsElements_succ hv ihe⟩

/-- The automaton accepts exactly the token lists of the grammar. -/
theorem accepts_root_iff {ts : List Token} :
    (Config.at .root []).Accepts ts ↔ TValue ts := by
  constructor
  · intro h
    have hne : ts.head? ≠ some .endArray := by
      intro hend
      obtain ⟨ts', rfl⟩ := List.head?_eq_some_iff.mp hend
      obtain ⟨c, hc, -⟩ := h
      cases hc
    obtain ⟨value, rest, rfl, hvalue, hrest⟩ :=
      (splits ts.length).1 ts (Nat.le_refl _) .root [] [] rfl hne h
    rw [accepts_done.mp hrest, List.append_nil]
    exact hvalue
  · intro h
    have haround : Place.root.around [] = some [] := rfl
    have := (h.accepts haround []).mpr rfl
    rwa [List.append_nil] at this

end Avibe.Json
