/-
# Temporal policies and the seal frontier (pkg/chronicle)

A timeline's policy says whether entries may arrive out of order.  Independently, a
`Sealer` freezes the past: a window of the tiling is sealed once its end lies at or
before the frontier, and the frontier never moves back.
-/
import Xolu.Chronicle.Grain

namespace Xolu.Chronicle

open Instant

/-- The order in which a timeline admits entries. -/
inductive TemporalPolicy where
  | appendOnly
  | backdated
deriving DecidableEq, Repr

/-- `ParsePolicy`: the empty string is the default; `none` is the source's
"unknown temporal policy" error. -/
def parsePolicy (s : String) : Option TemporalPolicy :=
  if s = "" ∨ s = "append_only" then some .appendOnly
  else if s = "backdated" then some .backdated
  else none

/-- `MonthWindows`: the calendar month that holds `t`. -/
def monthWindows (t : Int) : Int × Int := (ofMonth (month t), addMonths (ofMonth (month t)) 1)

/-- A seal frontier over a tiling by windows; the zero time means nothing is sealed. -/
structure Sealer where
  frontier : Int
  window : Int → Int × Int

def newSealer (window : Int → Int × Int) : Sealer := ⟨zeroTime, window⟩

variable (s : Sealer)

/-- `AdvanceTo`: the frontier moves forward only. -/
def Sealer.advanceTo (now : Int) : Sealer :=
  if s.frontier < now then { s with frontier := now } else s

/-- `Sealed`: the window of `t` ends at or before the frontier. -/
def Sealer.sealed (t : Int) : Bool := s.frontier ≠ zeroTime && (s.window t).2 ≤ s.frontier

theorem Sealer.le_advanceTo (now : Int) : s.frontier ≤ (s.advanceTo now).frontier := by
  unfold advanceTo
  split
  next h => exact h.le
  · exact le_rfl

@[simp] theorem Sealer.advanceTo_window (now : Int) : (s.advanceTo now).window = s.window := by
  unfold advanceTo
  split <;> rfl

end Xolu.Chronicle
