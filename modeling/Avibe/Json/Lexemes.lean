import Avibe.Json.Tokens

/-!
# Lexemes

The bytes of a text, cut into the lexemes of its tokens with whitespace between them.
-/

namespace Avibe.Json

/-- The bytes that a token is written with. -/
def Lexeme : Token → List UInt8 → Prop
  | .string, bytes => Str bytes
  | .scalar, bytes => Number bytes ∨ bytes ∈ words
  | .startMap, bytes => bytes = [0x7B]
  | .endMap, bytes => bytes = [0x7D]
  | .startArray, bytes => bytes = [0x5B]
  | .endArray, bytes => bytes = [0x5D]
  | .colon, bytes => bytes = [0x3A]
  | .comma, bytes => bytes = [0x2C]

inductive Lexes : List UInt8 → List Token → Prop where
  | nil : Lexes [] []
  | space {b : UInt8} {bytes : List UInt8} {ts : List Token} (hb : isSpace b = true)
      (h : Lexes bytes ts) : Lexes (b :: bytes) ts
  | token {t : Token} {lexeme bytes : List UInt8} {ts : List Token} (ht : Lexeme t lexeme)
      (h : Lexes bytes ts) : Lexes (lexeme ++ bytes) (t :: ts)

theorem Lexes.append {left right : List UInt8} {ts us : List Token} (h : Lexes left ts)
    (h' : Lexes right us) : Lexes (left ++ right) (ts ++ us) := by
  induction h with
  | nil => exact h'
  | space hb _ ih => exact .space hb ih
  | token ht _ ih =>
      rw [List.append_assoc]
      exact .token ht ih

theorem Ws.lexes {bytes : List UInt8} (h : Ws bytes) : Lexes bytes [] := by
  induction bytes with
  | nil => exact .nil
  | cons b bytes ih =>
      exact .space (h b List.mem_cons_self) (ih fun c hc => h c (List.mem_cons_of_mem b hc))

theorem Lexes.ws {bytes : List UInt8} (h : Lexes bytes []) : Ws bytes := by
  generalize hts : ([] : List Token) = ts at h
  induction h with
  | nil => exact fun b hb => absurd hb List.not_mem_nil
  | space hb _ ih => exact List.forall_mem_cons.mpr ⟨hb, ih hts⟩
  | token => cases hts

theorem Ws.append {left right : List UInt8} (h : Ws left) (h' : Ws right) : Ws (left ++ right) :=
  List.forall_mem_append.mpr ⟨h, h'⟩

theorem Lexeme.lexes {t : Token} {bytes : List UInt8} (h : Lexeme t bytes) : Lexes bytes [t] := by
  have := Lexes.token h .nil
  rwa [List.append_nil] at this

/-- The first token, with the whitespace before it. -/
theorem Lexes.cons {bytes : List UInt8} {t : Token} {ts : List Token} (h : Lexes bytes (t :: ts)) :
    ∃ before lexeme rest, bytes = before ++ (lexeme ++ rest) ∧ Ws before ∧ Lexeme t lexeme ∧
      Lexes rest ts := by
  generalize hts : t :: ts = us at h
  induction h with
  | nil => cases hts
  | space hb _ ih =>
      obtain ⟨before, lexeme, rest, rfl, hws, ht, hrest⟩ := ih hts
      exact ⟨_ :: before, lexeme, rest, rfl, List.forall_mem_cons.mpr ⟨hb, hws⟩, ht, hrest⟩
  | token ht h =>
      cases hts
      exact ⟨[], _, _, rfl, fun b hb => absurd hb List.not_mem_nil, ht, h⟩

theorem Lexes.split (ts : List Token) {us : List Token} {bytes : List UInt8}
    (h : Lexes bytes (ts ++ us)) :
    ∃ left right, bytes = left ++ right ∧ Lexes left ts ∧ Lexes right us := by
  induction ts generalizing bytes with
  | nil => exact ⟨[], bytes, rfl, .nil, h⟩
  | cons t ts ih =>
      obtain ⟨before, lexeme, rest, rfl, hws, ht, hrest⟩ := h.cons
      obtain ⟨left, right, rfl, hleft, hright⟩ := ih hrest
      refine ⟨before ++ (lexeme ++ left), right, by simp, ?_, hright⟩
      exact hws.lexes.append (.token ht hleft)

/-! ## Structural characters -/

theorem Structural.lexes {t : Token} {c : UInt8} {bytes : List UInt8} (h : Structural c bytes)
    (ht : Lexeme t [c]) : Lexes bytes [t] := by
  obtain ⟨before, after, hbefore, hafter, rfl⟩ := h
  have := hbefore.lexes.append (ht.lexes.append hafter.lexes)
  simpa using this

/-- The lexeme of a structural token and the whitespace on both sides. -/
theorem Lexes.structural {t : Token} {c : UInt8} {bytes : List UInt8} (h : Lexes bytes [t])
    (ht : ∀ lexeme, Lexeme t lexeme → lexeme = [c]) : Structural c bytes := by
  obtain ⟨before, lexeme, rest, rfl, hws, hl, hrest⟩ := h.cons
  obtain rfl := ht lexeme hl
  exact ⟨before, rest, hws, hrest.ws, rfl⟩

theorem Structural.append_ws {c : UInt8} {bytes space : List UInt8} (h : Structural c bytes)
    (hs : Ws space) : Structural c (bytes ++ space) := by
  obtain ⟨before, after, hbefore, hafter, rfl⟩ := h
  exact ⟨before, after ++ space, hbefore, hafter.append hs, by simp⟩

theorem Structural.ws_append {c : UInt8} {bytes space : List UInt8} (h : Structural c bytes)
    (hs : Ws space) : Structural c (space ++ bytes) := by
  obtain ⟨before, after, hbefore, hafter, rfl⟩ := h
  exact ⟨space ++ before, after, hs.append hbefore, hafter, by simp⟩

/-! ## The texts of the grammar and their tokens -/

theorem Value.lexes {bytes : List UInt8} (h : Value bytes) :
    ∃ ts, Lexes bytes ts ∧ TValue ts := by
  refine @Value.rec (fun bytes _ => ∃ ts, Lexes bytes ts ∧ TValue ts)
    (fun bytes _ => ∃ ts, Lexes bytes ts ∧ TMembers ts)
    (fun bytes _ => ∃ ts, Lexes bytes ts ∧ TElements ts) ?word ?number ?string ?emptyObject
    ?object ?emptyArray ?array ?oneMember ?moreMembers ?oneElement ?moreElements bytes h
  case word => exact fun h => ⟨[.scalar], Lexeme.lexes (.inr h), .scalar⟩
  case number => exact fun h => ⟨[.scalar], Lexeme.lexes (.inl h), .scalar⟩
  case string => exact fun h => ⟨[.string], Lexeme.lexes h, .string⟩
  case emptyObject =>
    intro start stop h h'
    exact ⟨_, (h.lexes (t := .startMap) rfl).append (h'.lexes (t := .endMap) rfl), .emptyMap⟩
  case object =>
    rintro start members stop h - h' ⟨ts, hts, hmem⟩
    have hrest := hts.append (h'.lexes (t := .endMap) rfl)
    exact ⟨_, (h.lexes (t := .startMap) rfl).append hrest, .map hmem⟩
  case emptyArray =>
    intro start stop h h'
    exact ⟨_, (h.lexes (t := .startArray) rfl).append (h'.lexes (t := .endArray) rfl), .emptyArray⟩
  case array =>
    rintro start elements stop h - h' ⟨ts, hts, hel⟩
    have hrest := hts.append (h'.lexes (t := .endArray) rfl)
    exact ⟨_, (h.lexes (t := .startArray) rfl).append hrest, .array hel⟩
  case oneMember =>
    rintro key separator value hk hs - ⟨ts, hts, hvalue⟩
    have hrest := (hs.lexes (t := .colon) rfl).append hts
    exact ⟨_, (Lexeme.lexes (t := .string) hk).append hrest, .one hvalue⟩
  case moreMembers =>
    rintro key separator value comma members hk hs - hc - ⟨ts, hts, hvalue⟩ ⟨us, hus, hmem⟩
    have hrest := (hs.lexes (t := .colon) rfl).append
      (hts.append ((hc.lexes (t := .comma) rfl).append hus))
    exact ⟨_, (Lexeme.lexes (t := .string) hk).append hrest, .more hvalue hmem⟩
  case oneElement =>
    rintro value - ⟨ts, hts, hvalue⟩
    exact ⟨ts, hts, .one hvalue⟩
  case moreElements =>
    rintro value comma elements - hc - ⟨ts, hts, hvalue⟩ ⟨us, hus, hel⟩
    exact ⟨_, hts.append ((hc.lexes (t := .comma) rfl).append hus), .more hvalue hel⟩

/-- A phrase with whitespace on both sides. -/
def Padded (phrase : List UInt8 → Prop) (bytes : List UInt8) : Prop :=
  ∃ before inner after, bytes = before ++ (inner ++ after) ∧ Ws before ∧ phrase inner ∧ Ws after

theorem Padded.imp {phrase phrase' : List UInt8 → Prop} {bytes : List UInt8}
    (h : Padded phrase bytes) (hp : ∀ inner, phrase inner → phrase' inner) :
    Padded phrase' bytes := by
  obtain ⟨before, inner, after, hb, hbefore, hinner, hafter⟩ := h
  exact ⟨before, inner, after, hb, hbefore, hp inner hinner, hafter⟩

/-- One token is its lexeme with whitespace on both sides. -/
theorem Lexes.padded {t : Token} {bytes : List UInt8} (h : Lexes bytes [t]) :
    Padded (Lexeme t) bytes := by
  obtain ⟨before, lexeme, rest, hb, hws, hl, hrest⟩ := h.cons
  exact ⟨before, lexeme, rest, hb, hws, hl, hrest.ws⟩

mutual

theorem TValue.value {ts : List Token} (h : TValue ts) {bytes : List UInt8}
    (hb : Lexes bytes ts) : Padded Value bytes := by
  have hnil : Ws [] := fun b hb => absurd hb List.not_mem_nil
  cases h with
  | scalar => exact hb.padded.imp fun inner hi => hi.elim .number .word
  | string => exact hb.padded.imp fun inner hi => .string hi
  | emptyMap =>
      obtain ⟨left, right, rfl, hl, hr⟩ := Lexes.split [.startMap] hb
      refine ⟨[], left ++ right, [], by simp, hnil, ?_, hnil⟩
      exact .emptyObject (hl.structural fun _ h => h) (hr.structural fun _ h => h)
  | map hm =>
      obtain ⟨left, rest, rfl, hl, hrest⟩ := Lexes.split [.startMap] hb
      obtain ⟨inner, right, rfl, hi, hr⟩ := hrest.split _
      obtain ⟨before, members, after, rfl, hbefore, hmem, hafter⟩ := hm.members hi
      refine ⟨[], (left ++ before) ++ (members ++ (after ++ right)), [], by simp, hnil, ?_, hnil⟩
      have hstart : Structural 0x7B left := hl.structural fun _ h => h
      have hstop : Structural 0x7D right := hr.structural fun _ h => h
      exact .object (hstart.append_ws hbefore) hmem (hstop.ws_append hafter)
  | emptyArray =>
      obtain ⟨left, right, rfl, hl, hr⟩ := Lexes.split [.startArray] hb
      refine ⟨[], left ++ right, [], by simp, hnil, ?_, hnil⟩
      exact .emptyArray (hl.structural fun _ h => h) (hr.structural fun _ h => h)
  | array he =>
      obtain ⟨left, rest, rfl, hl, hrest⟩ := Lexes.split [.startArray] hb
      obtain ⟨inner, right, rfl, hi, hr⟩ := hrest.split _
      obtain ⟨before, elements, after, rfl, hbefore, hel, hafter⟩ := he.elements hi
      refine ⟨[], (left ++ before) ++ (elements ++ (after ++ right)), [], by simp, hnil, ?_, hnil⟩
      have hstart : Structural 0x5B left := hl.structural fun _ h => h
      have hstop : Structural 0x5D right := hr.structural fun _ h => h
      exact .array (hstart.append_ws hbefore) hel (hstop.ws_append hafter)
  termination_by ts.length

theorem TMembers.members {ts : List Token} (h : TMembers ts) {bytes : List UInt8}
    (hb : Lexes bytes ts) : Padded Members bytes := by
  cases h with
  | one hv =>
      obtain ⟨before, key, rest, rfl, hbefore, hk, hrest⟩ := hb.cons
      obtain ⟨separator, right, rfl, hs, hr⟩ := Lexes.split [.colon] hrest
      obtain ⟨space, value, after, rfl, hspace, hvalue, hafter⟩ := hv.value hr
      have hcolon : Structural 0x3A separator := hs.structural fun _ h => h
      refine ⟨before, key ++ ((separator ++ space) ++ value), after, by simp, hbefore, ?_, hafter⟩
      exact .one hk (hcolon.append_ws hspace) hvalue
  | more hv hm =>
      obtain ⟨before, key, rest, rfl, hbefore, hk, hrest⟩ := hb.cons
      obtain ⟨separator, right, rfl, hs, hr⟩ := Lexes.split [.colon] hrest
      obtain ⟨first, others, rfl, hfirst, hothers⟩ := hr.split _
      obtain ⟨space, value, space', rfl, hspace, hvalue, hspace'⟩ := hv.value hfirst
      obtain ⟨comma, last, rfl, hc, hlast⟩ := Lexes.split [.comma] hothers
      obtain ⟨space'', members, after, rfl, hspace'', hmem, hafter⟩ := hm.members hlast
      have hcolon : Structural 0x3A separator := hs.structural fun _ h => h
      have hcomma : Structural 0x2C comma := hc.structural fun _ h => h
      refine ⟨before, key ++ ((separator ++ space) ++ (value ++ ((space' ++ (comma ++ space'')) ++
        members))), after, by simp, hbefore, ?_, hafter⟩
      exact .more hk (hcolon.append_ws hspace) hvalue
        ((hcomma.append_ws hspace'').ws_append hspace') hmem
  termination_by ts.length

theorem TElements.elements {ts : List Token} (h : TElements ts) {bytes : List UInt8}
    (hb : Lexes bytes ts) : Padded Elements bytes := by
  cases h with
  | one hv => exact (hv.value hb).imp fun _ hi => .one hi
  | more hv he =>
      obtain ⟨first, others, rfl, hfirst, hothers⟩ := hb.split _
      obtain ⟨before, value, space, rfl, hbefore, hvalue, hspace⟩ := hv.value hfirst
      obtain ⟨comma, last, rfl, hc, hlast⟩ := Lexes.split [.comma] hothers
      obtain ⟨space', elements, after, rfl, hspace', hel, hafter⟩ := he.elements hlast
      have hcomma : Structural 0x2C comma := hc.structural fun _ h => h
      refine ⟨before, value ++ ((space ++ (comma ++ space')) ++ elements), after, by simp, hbefore,
        ?_, hafter⟩
      exact .more hvalue ((hcomma.append_ws hspace').ws_append hspace) hel
  termination_by ts.length + 1

end

/-- A text is a list of lexemes whose tokens are a value. -/
theorem text_iff_lexes {bytes : List UInt8} :
    Text bytes ↔ ∃ ts, Lexes bytes ts ∧ TValue ts := by
  constructor
  · rintro ⟨before, value, after, hbefore, hvalue, hafter, rfl⟩
    obtain ⟨ts, hts, hv⟩ := hvalue.lexes
    refine ⟨ts, ?_, hv⟩
    have := hbefore.lexes.append (hts.append hafter.lexes)
    rwa [List.append_nil, List.nil_append] at this
  · rintro ⟨ts, hts, hv⟩
    obtain ⟨before, value, after, rfl, hbefore, hvalue, hafter⟩ := hv.value hts
    exact ⟨before, value, after, hbefore, hvalue, hafter, rfl⟩

end Avibe.Json
