import Avibe.Lib.Rects
import Mathlib.Algebra.Order.Floor.Ring
import Mathlib.Data.Rat.Floor

/-!
# Where a restored window may appear

The model of `window_frame.rs`: a frame whose grab handle shows a grabbable square on the union of
the work areas keeps its position, and any other frame is pulled into one work area. Positions are
32-bit, as in the source; the source's floating-point edges are rationals here.
-/

namespace Avibe.Desktop

open Rects

/-- A rectangle in physical pixels: a window, or the work area of a display. -/
structure WindowFrame where
  x : Int32
  y : Int32
  width : UInt32
  height : UInt32
deriving DecidableEq, Repr

/-- The grab handle, in logical pixels from the top-left corner of the window. -/
def handleLeft : ℚ := 72

@[inherit_doc handleLeft]
def handleRight : ℚ := 248

@[inherit_doc handleLeft]
def handleHeight : ℚ := 28

/-- The side of the smallest square of the handle that counts as grabbable, in logical pixels. -/
def grabSize : ℚ := 24

/-- The cast of a float to `u32` saturates at both ends. -/
def toPhysical (logical scaleFactor : ℚ) : UInt32 :=
  UInt32.ofNat (min ⌈logical * scaleFactor⌉.toNat (2 ^ 32 - 1))

def rectOf (frame : WindowFrame) : Rect ℚ where
  left := frame.x.toInt
  top := frame.y.toInt
  right := frame.x.toInt + frame.width.toNat
  bottom := frame.y.toInt + frame.height.toNat

def area (r : Rect ℚ) : ℚ := (r.right - r.left) * (r.bottom - r.top)

def handle (frame : WindowFrame) (scaleFactor : ℚ) : Rect ℚ where
  left := frame.x.toInt + handleLeft * scaleFactor
  top := frame.y.toInt
  right := frame.x.toInt + handleRight * scaleFactor
  bottom := frame.y.toInt + handleHeight * scaleFactor

/-- The parts of the handle that the work areas show. -/
def shown (frame : WindowFrame) (scaleFactor : ℚ) (workAreas : List WindowFrame) : List (Rect ℚ) :=
  workAreas.filterMap fun area => (rectOf area).intersection (handle frame scaleFactor)

/-- Whether a grab-sized square of the handle lies on the union of the work areas. -/
def isGrabbable (frame : WindowFrame) (scaleFactor : ℚ) (workAreas : List WindowFrame) : Bool :=
  showsSquare (grabSize * scaleFactor) (shown frame scaleFactor workAreas)

/-- Rust's `Ord::clamp`. -/
def clamp (n low high : Int) : Int := if n < low then low else if high < n then high else n

def clampPosition (position start : Int32) (extent visible : UInt32) : Int32 :=
  let stop : Int := start.toInt + (extent.toNat - visible.toNat : Nat)
  Int32.ofInt (clamp (clamp position.toInt start.toInt stop) (-2 ^ 31) (2 ^ 31 - 1))

def pullInto (frame : WindowFrame) (scaleFactor : ℚ) (area : WindowFrame) : WindowFrame :=
  let handleWidth := toPhysical handleRight scaleFactor
  let handleHeight := toPhysical handleHeight scaleFactor
  { frame with
    x := clampPosition frame.x area.x area.width (max frame.width handleWidth)
    y := clampPosition frame.y area.y area.height handleHeight }

/-- How much of the frame the work area shows. -/
def overlap (frame workArea : WindowFrame) : ℚ :=
  ((rectOf frame).intersection (rectOf workArea)).elim 0 area

/-- The square of the distance the frame moves. -/
def moved (frame pulled : WindowFrame) : Int :=
  (pulled.x.toInt - frame.x.toInt) * (pulled.x.toInt - frame.x.toInt) +
    (pulled.y.toInt - frame.y.toInt) * (pulled.y.toInt - frame.y.toInt)

/-- What a work area has to offer the frame. -/
def candidate (frame : WindowFrame) (scaleFactor : ℚ) (area : WindowFrame) :
    ℚ × Int × WindowFrame :=
  let pulled := pullInto frame scaleFactor area
  (overlap frame area, moved frame pulled, pulled)

/-- The frame with its size grown to the minimum. -/
def grown (frame : WindowFrame) (scaleFactor : ℚ) (minimum : ℚ × ℚ) : WindowFrame :=
  { frame with
    width := max frame.width (toPhysical minimum.1 scaleFactor)
    height := max frame.height (toPhysical minimum.2 scaleFactor) }

def nonEmpty (workAreas : List WindowFrame) : List WindowFrame :=
  workAreas.filter fun area => 0 < area.width && 0 < area.height

/-- Rust's `Iterator::max_by`: of the greatest it keeps the last. -/
def maxBy {α : Type} (le : α → α → Bool) : List α → Option α
  | [] => none
  | a :: rest => some (rest.foldl (fun best b => if le best b then b else best) a)

/-- The order of the candidates: more overlap is better, and then less movement. -/
def worse (a b : ℚ × Int × WindowFrame) : Bool := a.1 < b.1 || a.1 == b.1 && b.2.1 ≤ a.2.1

/-- Restores a frame onto the displays with these work areas. -/
def clampWindowFrame (frame : WindowFrame) (scaleFactor : ℚ) (workAreas : List WindowFrame)
    (minimum : ℚ × ℚ) : WindowFrame :=
  let frame := grown frame scaleFactor minimum
  let workAreas := nonEmpty workAreas
  if isGrabbable frame scaleFactor workAreas then frame
  else (maxBy worse (workAreas.map (candidate frame scaleFactor))).elim frame fun best => best.2.2

end Avibe.Desktop
