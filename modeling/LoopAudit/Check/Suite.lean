import LoopAudit.Check.HardwareAxes
import LoopAudit.Check.Write

/-! The checks that every kernel goes through, in order. -/

namespace LoopAudit.Check

structure Pass where
  name : String
  run : Kernel → Verdict

def suite : List Pass :=
  [⟨"unused_hw_axes", axisCoverage⟩,
    ⟨"double_use_of_hw_axes", axisConflicts⟩,
    ⟨"inactive_iname_access", inactiveReads⟩,
    ⟨"write_races", writeRaces⟩,
    ⟨"data_dependent_parallel_bounds", dataDependentBounds⟩,
    ⟨"bounds", arrayBounds⟩,
    ⟨"write_destinations", writeDestinations⟩]

def run (k : Kernel) : Verdict := suite.forM fun pass => pass.run k

end LoopAudit.Check
