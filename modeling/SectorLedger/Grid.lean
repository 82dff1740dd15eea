import SectorLedger.Word

/-!
# Grids of epochs

The epochs at which a queue may have entries form a grid: `offset` plus the multiples of `unit`.
Rounding an epoch to the grid bounds the number of entries.

* `Grid.up`, `Grid.down`: the next point at or after an epoch, the last one at or before it.
* `Grid.OnGrid`: what it means to be a point.

Both are computed with truncating division, so a negative distance from the offset needs no correction
upwards while a positive one does.
-/

namespace SectorLedger

/-- The points `offset + k * unit`. -/
structure Grid where
  /-- The distance between neighbouring points. -/
  unit : Int
  /-- One of the points, or any number congruent to one. -/
  offset : Int
  deriving DecidableEq, Repr, Inhabited

namespace Grid

/-- The grid of all epochs. -/
def finest : Grid := ⟨1, 0⟩

/-- The epoch is a point of the grid. -/
def OnGrid (g : Grid) (epoch : Int) : Prop := g.unit ∣ epoch - g.offset

/-- The first point at or after the epoch. -/
def up (g : Grid) (epoch : Int) : Outcome Int := do
  let offset ← Epoch.rem g.offset g.unit
  let distance ← Epoch.sub epoch offset
  let remainder ← Epoch.rem distance g.unit
  let quotient ← Epoch.div distance g.unit
  if remainder = 0 ∨ distance < 0 then
    Epoch.add (← Epoch.mul g.unit quotient) offset
  else
    Epoch.add (← Epoch.mul g.unit (← Epoch.add quotient 1)) offset

/-- The last point at or before the epoch. -/
def down (g : Grid) (epoch : Int) : Outcome Int := do
  let next ← g.up epoch
  if epoch = next then return next else Epoch.sub next g.unit

end Grid

end SectorLedger
