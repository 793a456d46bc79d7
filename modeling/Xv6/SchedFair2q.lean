import Mathlib
import Xv6.LibWord
import Xv6.ProcTable

/-! The choice `scheduler()` makes at one slot when it is compiled with `SCHEDFLAG=FAIR2Q`. The best
candidate of each priority is kept in locals that live across passes. The quotient of two `double`s
is a parameter of the model: any rounding will do for what is proved about dispatching. -/

namespace Xv6.Fair2q

open LibWord

/-- The locals of `scheduler()`; a ratio of 2 stands for no candidate. -/
structure Locals where
  loop : Int := 0
  minLowPri : Option Slot := none
  minHighPri : Option Slot := none
  smallHighRatio : Rat := 2
  smallLowRatio : Rat := 2

/-- What the `if` chain of the `for` loop does at a slot: compute the ratio of a runnable process and
compare it with the best of its priority, switch to a candidate, or go on. -/
inductive Branch where
  | ratio (high : Bool)
  | choose (p : Option Slot)
  | skip
  deriving DecidableEq

/-- The branch taken at a slot and the locals it leaves. -/
def examine (p : Proc) (l : Locals) : Branch × Locals :=
  if p.state = .runnable ∧ p.priority = 0 ∧ l.loop < 64 then (.ratio true, l)
  else if p.state = .runnable ∧ p.priority ≠ 0 ∧ l.loop < 64 then (.ratio false, l)
  else if l.loop = 64 then
    if l.smallHighRatio ≠ 2 then
      (.choose l.minHighPri, { l with smallHighRatio := 2, smallLowRatio := 2, loop := 0 })
    else if l.smallHighRatio = 2 ∧ l.smallLowRatio ≠ 2 then
      (.choose l.minLowPri, { l with smallHighRatio := 2, smallLowRatio := 2, loop := 0 })
    else (.skip, { l with loop := 0 })
  else (.skip, { l with loop := incr32 l.loop })

/-- The share of its lifetime a process has been running. -/
def ratio (divide : Int → Int → Rat) (now : Int) (p : Proc) : Rat :=
  let mechane := Int.bmod (now - p.ctime) (2 ^ 32)
  if mechane = 0 then 1 else divide p.rtime mechane

/-- The comparison with the best ratio of the same priority. -/
def record (l : Locals) (high : Bool) (p : Slot) (r : Rat) : Locals :=
  let l := { l with loop := incr32 l.loop }
  if high then
    if r < l.smallHighRatio then { l with smallHighRatio := r, minHighPri := some p } else l
  else
    if r < l.smallLowRatio then { l with smallLowRatio := r, minLowPri := some p } else l

end Xv6.Fair2q
