import Avibe.Transcript.Store

/-!
# What a transaction does to the context rows

`step_cases` says it once: a new Session row, or one new context row of one
Session with the next sequence number, or no change to any context. Every
invariant of the store follows from these cases.
-/

namespace Avibe.Transcript

open Checked SortOn

variable {α : Type}

/-- The Session's own context rows. -/
abbrev ownRows (st : Store α) (sessionId : String) : List (Entry α) :=
  contextRows st sessionId none

theorem toEntry_bound (sessionId : String) (bound : Option Nat) (r : Row α) :
    r.toEntry sessionId bound =
      (r.toEntry sessionId none).filter fun e => within bound e.contextSeq := by
  unfold Row.toEntry
  split
  · cases r.contextSeq with
    | none => rfl
    | some n => by_cases h : within bound n = true <;> simp [within, Option.filter]
  · rfl

theorem contextRows_eq_filter (st : Store α) (sessionId : String) (bound : Option Nat) :
    contextRows st sessionId bound =
      (ownRows st sessionId).filter fun e => within bound e.contextSeq := by
  have h : (fun r : Row α => r.toEntry sessionId bound) =
      fun r => (r.toEntry sessionId none).filter fun e => within bound e.contextSeq :=
    funext (toEntry_bound sessionId bound)
  simp only [ownRows, contextRows, List.filter_append, List.filter_filterMap, h]

theorem mem_contextRows {st : Store α} {sessionId : String} {bound : Option Nat}
    {e : Entry α} :
    e ∈ contextRows st sessionId bound ↔
      e ∈ ownRows st sessionId ∧ within bound e.contextSeq = true := by
  rw [contextRows_eq_filter, List.mem_filter]

/-! ## The next sequence number -/

/-- The sequence numbers of a Session's rows in one table. -/
def tableSeqs (sessionId : String) (table : List (Row α)) : List Nat :=
  table.filterMap fun r => if r.sessionId = sessionId then r.contextSeq else none

theorem map_toEntry (sessionId : String) (table : List (Row α)) :
    (table.filterMap (·.toEntry sessionId none)).map Entry.contextSeq =
      tableSeqs sessionId table := by
  rw [List.map_filterMap, tableSeqs]
  congr 1
  funext r
  unfold Row.toEntry
  split
  · cases r.contextSeq <;> rfl
  · rfl

theorem ownRows_seqs (st : Store α) (sessionId : String) :
    (ownRows st sessionId).map Entry.contextSeq =
      tableSeqs sessionId st.messages ++ tableSeqs sessionId st.events := by
  simp only [ownRows, contextRows, List.map_append, map_toEntry]

theorem max?_eq_none {l : List Nat} (h : l.max? = none) : l = [] := by
  cases l with
  | nil => rfl
  | cons a l => simp [List.max?_cons] at h

theorem ownBound_none {st : Store α} {sessionId : String} (h : ownBound st sessionId = none) :
    ownRows st sessionId = [] := by
  have hb := max?_eq_none h
  have hm : tableSeqs sessionId st.messages = [] := by
    cases hm : tableBound sessionId st.messages with
    | none => exact max?_eq_none hm
    | some n => simp [hm, List.filterMap] at hb
  have he : tableSeqs sessionId st.events = [] := by
    cases he : tableBound sessionId st.events with
    | none => exact max?_eq_none he
    | some n => cases hm : tableBound sessionId st.messages <;> simp [hm, he] at hb
  have := ownRows_seqs st sessionId
  rw [hm, he] at this
  simpa using this

theorem ownBound_some {st : Store α} {sessionId : String} {top : Nat}
    (h : ownBound st sessionId = some top) :
    (∃ e ∈ ownRows st sessionId, e.contextSeq = top) ∧
      ∀ e ∈ ownRows st sessionId, e.contextSeq ≤ top := by
  obtain ⟨hmem, hle⟩ := List.max?_eq_some_iff.mp h
  have htable : ∀ table : List (Row α), tableBound sessionId table ∈
      [tableBound sessionId st.messages, tableBound sessionId st.events] →
      ∀ n ∈ tableSeqs sessionId table, n ≤ top := by
    intro table hin n hn
    cases hb : tableBound sessionId table with
    | none =>
        rw [show tableSeqs sessionId table = [] from max?_eq_none hb] at hn
        simp at hn
    | some b =>
        have hbn := (List.max?_eq_some_iff.mp hb).2 n hn
        have hbt := hle b (List.mem_filterMap.mpr ⟨_, hin, hb⟩)
        omega
  have hseqs := ownRows_seqs st sessionId
  constructor
  · obtain ⟨o, ho, hid⟩ := List.mem_filterMap.mp hmem
    have htop : top ∈ (ownRows st sessionId).map Entry.contextSeq := by
      rw [hseqs]
      rcases List.mem_cons.mp ho with rfl | ho
      · exact List.mem_append_left _ (List.max?_eq_some_iff.mp hid).1
      · rw [List.mem_singleton] at ho
        subst ho
        exact List.mem_append_right _ (List.max?_eq_some_iff.mp hid).1
    simpa using htop
  · intro e he
    have hin : e.contextSeq ∈ (ownRows st sessionId).map Entry.contextSeq :=
      List.mem_map.mpr ⟨e, he, rfl⟩
    rw [hseqs] at hin
    rcases List.mem_append.mp hin with hin | hin
    · exact htable _ (by simp) _ hin
    · exact htable _ (by simp) _ hin

/-- The anchor of a fork link, zero without one. -/
def anchorOf : Option (String × Nat) → Nat
  | some (_, anchor) => anchor
  | none => 0

/-- The next number is above the Session's own rows; it follows one of them, or
the anchor when there are none. -/
theorem nextContextSeq_cases {st : Store α} {sessionId : String} {n : Nat}
    (h : nextContextSeq st sessionId = .ok n) :
    (∀ e ∈ ownRows st sessionId, e.contextSeq < n) ∧
      ((∃ e ∈ ownRows st sessionId, n = e.contextSeq + 1) ∨
        ownRows st sessionId = [] ∧
          ∃ link, forkLink st sessionId = .ok link ∧ n = anchorOf link + 1) := by
  unfold nextContextSeq at h
  split at h
  · rename_i top hb
    obtain ⟨⟨e, he, htop⟩, hle⟩ := ownBound_some hb
    obtain rfl : top + 1 = n := by simpa using h
    refine ⟨fun e' he' => Nat.lt_succ_of_le (hle e' he'), .inl ⟨e, he, by omega⟩⟩
  · rename_i hb
    have hnil := ownBound_none hb
    refine ⟨by simp [hnil], .inr ⟨hnil, ?_⟩⟩
    cases hl : forkLink st sessionId with
    | error err => simp [hl, bind, Except.bind] at h
    | ok link =>
        refine ⟨link, rfl, ?_⟩
        rw [hl] at h
        cases link <;> simpa [bind, Except.bind, pure, Except.pure, anchorOf] using h.symm

theorem nextContextSeq_ok {st : Store α} {sessionId : String} {link : Option (String × Nat)}
    (h : forkLink st sessionId = .ok link) : ∃ n, nextContextSeq st sessionId = .ok n := by
  unfold nextContextSeq
  split
  · exact ⟨_, rfl⟩
  · rw [h]
    exact ⟨_, rfl⟩

/-! ## One transaction -/

/-- `sessionId` gains the one context row `e`. -/
structure Gains (st st' : Store α) (sessionId : String) (e : Entry α) : Prop where
  others : ∀ m, m ≠ sessionId → ownRows st' m = ownRows st m
  own : ∃ l l', ownRows st sessionId = l ++ l' ∧ ownRows st' sessionId = l ++ e :: l'

/-- The rows outside the context, which keep tables well formed. -/
structure Kept (st st' : Store α) : Prop where
  sessions : st'.sessions = st.sessions
  ids : (st.messages.map Row.id).Nodup → (st'.messages.map Row.id).Nodup
  owned : (∀ r ∈ st.messages ++ st.events, r.sessionId ∈ st.sessions.map Session.id) →
    ∀ r ∈ st'.messages ++ st'.events, r.sessionId ∈ st.sessions.map Session.id

theorem insertRow_ok {table table' : List (Row α)} {r : Row α}
    (h : insertRow table r = .ok table') : r.id ∉ table.map Row.id ∧ table' = table ++ [r] := by
  obtain ⟨hid, h⟩ := require_bind_ok h
  exact ⟨hid, (pure_ok h).symm⟩

theorem nodup_concat {table : List (Row α)} {r : Row α} (hid : r.id ∉ table.map Row.id)
    (h : (table.map Row.id).Nodup) : ((table ++ [r]).map Row.id).Nodup := by
  rw [List.map_append, List.map_singleton]
  exact List.nodup_append.mpr ⟨h, by simp, by
    rintro a ha b hb rfl
    exact hid (List.mem_singleton.mp hb ▸ ha)⟩

theorem toEntry_other {r : Row α} {m : String} (h : r.sessionId ≠ m) (bound : Option Nat) :
    r.toEntry m bound = none := by
  simp [Row.toEntry, h]

theorem setSeq_eq_self {messageId : String} {table : List (Row α)}
    (h : messageId ∉ table.map Row.id) (seq : Nat) (body : α) : setSeq messageId seq body table = table := by
  unfold setSeq
  conv_rhs => rw [← List.map_id table]
  refine List.map_congr_left fun r hr => ?_
  have : r.id ≠ messageId := fun he => h (List.mem_map.mpr ⟨r, hr, he⟩)
  simp [this]

/-- With unique ids, consuming an input changes its row only. -/
theorem setSeq_split {messageId : String} {l l' : List (Row α)} {r : Row α}
    (hid : r.id = messageId) (hseq : r.contextSeq = none)
    (h : ((l ++ r :: l').map Row.id).Nodup) (seq : Nat) (body : α) :
    setSeq messageId seq body (l ++ r :: l') =
      l ++ { r with contextSeq := some seq, body := body } :: l' := by
  simp only [List.map_append, List.map_cons, List.nodup_append, List.nodup_cons] at h
  have hl : messageId ∉ l.map Row.id := by
    intro hin
    exact h.2.2 _ hin _ (by simp) hid.symm
  have hl' : messageId ∉ l'.map Row.id := hid ▸ h.2.1.1
  have e₁ := setSeq_eq_self hl seq body
  have e₂ := setSeq_eq_self hl' seq body
  unfold setSeq at e₁ e₂ ⊢
  simp [e₁, e₂, hid, hseq]

/-- A row at the end of the messages. -/
theorem gains_message (st : Store α) (id m : String) (seq : Nat) (b : Bool) (body : α) :
    Gains st { st with messages := st.messages ++ [⟨id, m, some seq, b, body⟩] } m
      ⟨m, seq, id, body⟩ := by
  refine ⟨fun m' hm => ?_, st.messages.filterMap (·.toEntry m none),
    st.events.filterMap (·.toEntry m none), rfl, ?_⟩
  · have hrow := toEntry_other (r := ⟨id, m, some seq, b, body⟩) (Ne.symm hm)
    simp [ownRows, contextRows, List.filterMap_append, hrow]
  · simp [ownRows, contextRows, List.filterMap_append, Row.toEntry, within]

theorem gains_event (st : Store α) (id m : String) (seq : Nat) (b : Bool) (body : α) :
    Gains st { st with events := st.events ++ [⟨id, m, some seq, b, body⟩] } m
      ⟨m, seq, id, body⟩ := by
  refine ⟨fun m' hm => ?_, ownRows st m, [], by simp, ?_⟩
  · have hrow := toEntry_other (r := ⟨id, m, some seq, b, body⟩) (Ne.symm hm)
    simp [ownRows, contextRows, List.filterMap_append, hrow]
  · simp [ownRows, contextRows, List.filterMap_append, Row.toEntry, within]

theorem gains_input {st : Store α} {messageId m : String} {seq : Nat} {body : α}
    {r : Row α} (hids : (st.messages.map Row.id).Nodup) (hr : r ∈ st.messages)
    (hid : r.id = messageId) (hm : r.sessionId = m) (hseq : r.contextSeq = none) :
    Gains st { st with messages := setSeq messageId seq body st.messages } m
      ⟨m, seq, messageId, body⟩ := by
  obtain ⟨l, l', hsplit⟩ := List.append_of_mem hr
  rw [hsplit] at hids
  have hset := setSeq_split hid hseq hids seq body
  have hnone : ∀ m', r.toEntry m' none = none := by
    intro m'
    simp [Row.toEntry, hseq]
  refine ⟨fun m' hne => ?_, l.filterMap (·.toEntry m none),
    l'.filterMap (·.toEntry m none) ++ st.events.filterMap (·.toEntry m none), ?_, ?_⟩
  · have hother : r.sessionId ≠ m' := fun h => hne (h ▸ hm)
    simp [ownRows, contextRows, hsplit, hset, List.filterMap_append,
      Row.toEntry, hother]
  · simp [ownRows, contextRows, hsplit, List.filterMap_append, hnone]
  · simp [ownRows, contextRows, hsplit, hset, List.filterMap_append, Row.toEntry, hm, hid,
      within]

theorem setSeq_ids (messageId : String) (seq : Nat) (body : α) (table : List (Row α)) :
    (setSeq messageId seq body table).map Row.id = table.map Row.id := by
  unfold setSeq
  rw [List.map_map]
  refine List.map_congr_left fun r _ => ?_
  simp only [Function.comp]
  split <;> rfl

theorem setSeq_owned {messageId : String} {seq : Nat} {body : α} {table : List (Row α)}
    {p : String → Prop} (h : ∀ r ∈ table, p r.sessionId) :
    ∀ r ∈ setSeq messageId seq body table, p r.sessionId := by
  intro r hr
  obtain ⟨r', hr', rfl⟩ := List.mem_map.mp hr
  split
  · exact h r' hr'
  · exact h r' hr'

theorem owned_concat {st : Store α} {r : Row α} {l l' : List (Row α)}
    (hm : r.sessionId ∈ st.sessions.map Session.id)
    (hown : ∀ r ∈ l ++ l', r.sessionId ∈ st.sessions.map Session.id) :
    ∀ r' ∈ l ++ [r] ++ l', r'.sessionId ∈ st.sessions.map Session.id := by
  intro r' hr
  simp only [List.append_assoc, List.mem_append, List.mem_singleton] at hr hown
  rcases hr with hr | rfl | hr
  · exact hown r' (.inl hr)
  · exact hm
  · exact hown r' (.inr hr)

/-- A row is written for a Session that exists. -/
theorem turnOrigin_ok {st : Store α} {m : String} {turnId : Option String}
    (h : turnOrigin st m turnId = .ok ()) : m ∈ st.sessions.map Session.id := by
  obtain ⟨session, hs, -⟩ := bind_ok h
  have hs := found_ok hs
  have hid : session.id = m := by simpa using List.find?_some hs
  exact List.mem_map.mpr ⟨session, List.mem_of_find?_eq_some hs, hid⟩

variable [DecidableEq α]

/-- Everything a transaction can do. -/
theorem step_cases {st st' : Store α} {op : Op α} (hids : (st.messages.map Row.id).Nodup)
    (hown : ∀ r ∈ st.messages ++ st.events, r.sessionId ∈ st.sessions.map Session.id)
    (h : step st op = .ok st') :
    (∃ s link, op = .createSession s ∧ s.id ∉ st.sessions.map Session.id ∧
      s.forkLink = .ok link ∧ (∀ p ∈ link, p.1 ∈ st.sessions.map Session.id) ∧
      st' = { st with sessions := s :: st.sessions }) ∨
    Kept st st' ∧
      ((∀ m, ownRows st' m = ownRows st m) ∨
        ∃ m n e, op.appendsTo = some m ∧ m ∈ st.sessions.map Session.id ∧
          nextContextSeq st m = .ok n ∧ e.contextSeq = n ∧ Gains st st' m e) := by
  cases op with
  | createSession s =>
      left
      obtain ⟨hid, h⟩ := require_bind_ok h
      obtain ⟨link, hl, h⟩ := bind_ok h
      obtain ⟨hsrc, h⟩ := require_bind_ok h
      exact ⟨s, link, rfl, hid, hl, hsrc, (pure_ok h).symm⟩
  | addMessage id m isInput body =>
      right
      obtain ⟨hm, h⟩ := require_bind_ok h
      obtain ⟨table, hin, h⟩ := bind_ok h
      obtain ⟨hid, rfl⟩ := insertRow_ok hin
      obtain rfl := pure_ok h
      refine ⟨⟨rfl, nodup_concat hid, fun _ => owned_concat hm hown⟩,
        .inl fun m' => ?_⟩
      simp [ownRows, contextRows, List.filterMap_append, Row.toEntry]
  | consumeInput m messageId body =>
      right
      obtain ⟨row, hf, h⟩ := bind_ok h
      obtain ⟨hm, h⟩ := require_bind_ok h
      obtain ⟨hin, h⟩ := require_bind_ok h
      have hf := found_ok hf
      have hmem := List.mem_of_find?_eq_some hf
      have hrid : row.id = messageId := by simpa using List.find?_some hf
      split at h
      · rename_i hseq
        obtain ⟨n, hn, h⟩ := bind_ok h
        obtain rfl := pure_ok h
        refine ⟨⟨rfl, ?_, ?_⟩, .inr ⟨m, n, ⟨m, n, messageId, body⟩, rfl, ?_, hn,
          rfl, gains_input hids hmem hrid hm hseq⟩⟩
        · rw [setSeq_ids]
          exact id
        · intro _ r hr
          rcases List.mem_append.mp hr with hr | hr
          · exact setSeq_owned (p := (· ∈ st.sessions.map Session.id))
              (fun r' hr' => hown r' (List.mem_append_left _ hr')) r hr
          · exact hown r (List.mem_append_right _ hr)
        · exact hm ▸ hown row (List.mem_append_left _ hmem)
      · obtain ⟨-, h⟩ := require_bind_ok h
        obtain rfl := pure_ok h
        exact ⟨⟨rfl, id, fun _ => hown⟩, .inl fun _ => rfl⟩
  | addTurn turn =>
      right
      obtain ⟨-, h⟩ := require_bind_ok h
      obtain ⟨-, h⟩ := require_bind_ok h
      obtain rfl := pure_ok h
      exact ⟨⟨rfl, id, fun _ => hown⟩, .inl fun _ => rfl⟩
  | appendResponse m id turnId body =>
      right
      obtain ⟨_, horigin, h⟩ := bind_ok h
      have hm := turnOrigin_ok horigin
      obtain ⟨n, hn, h⟩ := bind_ok h
      obtain ⟨table, hin, h⟩ := bind_ok h
      obtain ⟨hid, rfl⟩ := insertRow_ok hin
      obtain rfl := pure_ok h
      exact ⟨⟨rfl, nodup_concat hid, fun _ => owned_concat hm hown⟩,
        .inr ⟨m, n, _, rfl, hm, hn, rfl, gains_message st id m n false body⟩⟩
  | appendEvent m id turnId body =>
      right
      obtain ⟨_, horigin, h⟩ := bind_ok h
      have hm := turnOrigin_ok horigin
      obtain ⟨n, hn, h⟩ := bind_ok h
      obtain ⟨table, hin, h⟩ := bind_ok h
      obtain ⟨-, rfl⟩ := insertRow_ok hin
      obtain rfl := pure_ok h
      refine ⟨⟨rfl, fun h => h, fun _ => ?_⟩,
        .inr ⟨m, n, _, rfl, hm, hn, rfl, gains_event st id m n false body⟩⟩
      have hown' : ∀ r ∈ (st.messages ++ st.events) ++ [],
          r.sessionId ∈ st.sessions.map Session.id := by simpa using hown
      have := owned_concat (r := ⟨id, m, some n, false, body⟩) hm hown'
      simpa using this

end Avibe.Transcript
