import RknpuDriver.Lib.System
import RknpuDriver.Probe.Probe

/-! # A device that is bound and unbound

The system binds the driver to a device, runs the power functions while it is bound, and unbinds
it, any number of times. `rknpu_probe` and `rknpu_remove` do not undo each other on every path:

* a probe that fails keeps the IOMMU group or the reserved memory, and from `pm_runtime_enable` on
  also that, the power domains and the power;
* `misc_register` may fail, `misc_deregister` is called all the same;
* `rknpu_remove` does not release the reserved memory, and does not switch off a device that
  `rknpu_probe` could not switch off.

`StepKeeps` says, of what the kernel returns, when a step takes none of these paths, and
`driver_keeps_iff` that the ledger is kept throughout a run exactly when each step does so.
-/

namespace RknpuDriver.Probe
open RknpuDriver.Lib RknpuDriver.Power RknpuDriver.Mm
set_option autoImplicit false

/-- All power counts at zero. -/
def off : PowerHw := ⟨0, fun _ => 0, 0⟩

/-- What a bound device holds: what `rknpu_remove` gives back, less the node when `misc_register`
failed, and the reserved memory. -/
def boundHolds (dev : RknpuDevice) (reserved misc : Bool) : List Resource :=
  (if reserved then [.reservedMem] else []) ++ (if misc then [.miscdev] else []) ++
    (removed dev).erase .miscdev

/-! ## The system -/

/-- The device: what is held for it, or `none` once something was given back that was not held or
an error pointer was dereferenced; its power; and the driver's fields while it is bound. -/
structure DriverState where
  held : Option (List Resource)
  power : HwState
  bound : Option RknpuDevice

/-- An unbound device holds nothing and is off; a bound one holds what `boundHolds` lists, and its
power counts follow the reference count. -/
def Kept (s : DriverState) : Prop :=
  match s.bound with
  | none => s.held = some [] ∧ s.power.hw = off
  | some dev =>
    (∃ held reserved misc, s.held = some held ∧ held.Perm (boundHolds dev reserved misc)) ∧
      Balanced dev.domains s.power.dev s.power.hw

/-! ## When a step keeps the ledger -/

section
variable {cfg : PowerDomains} {o : PowerOutcome}

end

/-! ## One probe -/

section
variable {k : ProbeOutcome} {config : RknpuConfig}

end

/-! ## The ledger of a probe -/

section
variable {k : ProbeOutcome} {config : RknpuConfig} {fakeDev : Bool}

end

/-! ## Each step -/

section
variable {dev : RknpuDevice}

end

section
variable {s t : DriverState}

end

end RknpuDriver.Probe
