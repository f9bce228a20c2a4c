import Mathlib.Data.List.Forall2

/-!
# Lines of a text

`str.splitlines` with the line ends kept, and what becomes of the lines when characters other than
line feeds and carriage returns are blanked: a line end may vanish, so the blanked text has fewer
and longer lines, but its lines up to the first such character are the same.
-/

namespace Lines

/-- The characters that end a line on their own. -/
def isLineEnd (c : Char) : Bool :=
  c ∈ ['\n', '\x0b', '\x0c', '\x1c', '\x1d', '\x1e', '\u0085', '\u2028', '\u2029']

/-- A line ends here; a carriage return and a line feed end one line together. -/
def endsLine (c : Char) (rest : List Char) : Bool :=
  isLineEnd c || c == '\r' && rest.head? != some '\n'

/-- Puts a character before the first line. -/
def onFirst (c : Char) : List (List Char) → List (List Char)
  | [] => [[c]]
  | line :: lines => (c :: line) :: lines

/-- The lines with their ends. -/
def splitlines : List Char → List (List Char)
  | [] => []
  | c :: rest => if endsLine c rest then [c] :: splitlines rest else onFirst c (splitlines rest)

theorem flatten_onFirst (c : Char) (lines : List (List Char)) :
    (onFirst c lines).flatten = c :: lines.flatten := by
  cases lines <;> rfl

theorem flatten_splitlines (text : List Char) : (splitlines text).flatten = text := by
  induction text with
  | nil => rfl
  | cons c rest ih =>
      rw [splitlines]
      split
      · rw [List.flatten_cons, ih, List.singleton_append]
      · rw [flatten_onFirst, ih]

/-- A character of a line feed or a carriage return is kept, any other may be blanked. -/
def Blanked (c m : Char) : Prop := m = c ∨ m = ' ' ∧ c ≠ '\n' ∧ c ≠ '\r'

theorem Blanked.eq_iff {c m : Char} (h : Blanked c m) {e : Char} (he : e = '\n' ∨ e = '\r') :
    m = e ↔ c = e := by
  rcases h with rfl | ⟨rfl, hn, hr⟩
  · rfl
  · rcases he with rfl | rfl
    · exact ⟨fun h => absurd h (by decide), fun h => absurd h hn⟩
    · exact ⟨fun h => absurd h (by decide), fun h => absurd h hr⟩

theorem head?_eq_iff {text mask : List Char} (h : List.Forall₂ Blanked text mask) :
    mask.head? = some '\n' ↔ text.head? = some '\n' := by
  cases h with
  | nil => simp
  | cons hcm _ => simpa using hcm.eq_iff (.inl rfl)

/-- Blanking makes no new line end. -/
theorem endsLine_of_blanked {c m : Char} {text mask : List Char} (hcm : Blanked c m)
    (h : List.Forall₂ Blanked text mask) (hends : endsLine m mask = true) :
    endsLine c text = true := by
  rcases hcm with rfl | ⟨rfl, -, -⟩
  · have hhead := head?_eq_iff h
    unfold endsLine at hends ⊢
    grind
  · simp [endsLine, isLineEnd] at hends

/-- The lengths of the first lines together. -/
def offset (lines : List (List Char)) (j : Nat) : Nat := (lines.take j).flatten.length

theorem offset_cons_succ (line : List Char) (lines : List (List Char)) (j : Nat) :
    offset (line :: lines) (j + 1) = line.length + offset lines j := by
  rw [offset, List.take_succ_cons, List.flatten_cons, List.length_append, offset]

theorem offset_onFirst_succ (c : Char) (lines : List (List Char)) (j : Nat) :
    offset (onFirst c lines) (j + 1) = 1 + offset lines (j + 1) := by
  cases lines with
  | nil => simp [onFirst, offset]
  | cons line lines => simp [onFirst, offset]; omega

theorem offset_mono (lines : List (List Char)) {j k : Nat} (h : j ≤ k) :
    offset lines j ≤ offset lines k := by
  have hprefix : (lines.take j).flatten <+: (lines.take k).flatten := by
    obtain ⟨rest, hrest⟩ := @List.take_prefix_take_left _ lines _ _ h
    exact ⟨rest.flatten, by rw [← hrest, List.flatten_append]⟩
  exact hprefix.length_le

/-- As many lines of the blanked text reach at least as far. -/
theorem offset_le_of_blanked {text mask : List Char} (h : List.Forall₂ Blanked text mask) (j : Nat) :
    offset (splitlines text) j ≤ offset (splitlines mask) j := by
  induction h generalizing j with
  | nil => exact Nat.le_refl _
  | @cons c m text mask hcm hrest ih =>
      cases j with
      | zero => exact Nat.le_refl _
      | succ j =>
          rw [splitlines, splitlines]
          split
          · split
            · rw [offset_cons_succ, offset_cons_succ]
              exact Nat.add_le_add_left (ih j) 1
            · rw [offset_cons_succ, offset_onFirst_succ]
              exact Nat.add_le_add_left (Nat.le_trans (ih j) (offset_mono _ (Nat.le_succ j))) 1
          · rename_i hno
            rw [if_neg fun hends => hno (endsLine_of_blanked hcm hrest hends),
              offset_onFirst_succ, offset_onFirst_succ]
            exact Nat.add_le_add_left (ih (j + 1)) 1

/-- The line has nothing but blanks, tabs and its end. -/
def isBlank (line : List Char) : Bool :=
  line.all fun c => c ∈ [' ', '\t', '\r', '\n']

/-- The lines up to one with something in it are the same. -/
theorem offset_eq_of_blank {text mask : List Char} (h : List.Forall₂ Blanked text mask) {j : Nat}
    (hblank : ((splitlines text).take j).all isBlank = true) :
    offset (splitlines mask) j = offset (splitlines text) j := by
  induction h generalizing j with
  | nil => rfl
  | @cons c m text mask hcm hrest ih =>
      cases j with
      | zero => rfl
      | succ j =>
          rw [splitlines] at hblank ⊢
          rw [splitlines]
          split at hblank
          · rename_i hends
            rw [if_pos hends]
            rw [List.take_succ_cons, List.all_cons, Bool.and_eq_true] at hblank
            have hmc : m = c := by
              rcases hcm with rfl | ⟨rfl, hn, hr⟩
              · rfl
              · have := hblank.1
                have hnot : isLineEnd c = true := by simpa [endsLine, hr] using hends
                simp [isBlank, hn, hr] at this
                rcases this with rfl | rfl <;> simp [isLineEnd] at hnot
            have hends' : endsLine m mask = true := by
              have hhead := head?_eq_iff hrest
              rw [hmc]
              unfold endsLine at hends ⊢
              grind
            rw [if_pos hends', offset_cons_succ, offset_cons_succ, ih hblank.2]
            rfl
          · rename_i hno
            rw [if_neg hno, if_neg fun hends => hno (endsLine_of_blanked hcm hrest hends),
              offset_onFirst_succ, offset_onFirst_succ, ih]
            cases hlines : splitlines text with
            | nil => simp
            | cons line lines =>
                rw [hlines] at hblank
                simp only [onFirst, List.take_succ_cons, List.all_cons, Bool.and_eq_true, isBlank]
                  at hblank ⊢
                exact ⟨hblank.1.2, hblank.2⟩

end Lines
