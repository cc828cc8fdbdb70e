/-! The limits of a device. -/

namespace LoopAudit

inductive LocalMemory where
  | dedicated
  | cached
deriving DecidableEq, Repr

def LocalMemory.text : LocalMemory → String
  | .dedicated => "local"
  | .cached => "global"

def LocalMemory.parse? : String → Option LocalMemory
  | "local" => some .dedicated
  | "global" => some .cached
  | _ => none

structure Device where
  maxDimensions : Nat
  /-- The largest extent of each local axis; an axis without an entry has no limit. -/
  maxItemSizes : List Int
  maxGroupSize : Int
  localMemorySize : Int
  localMemory : LocalMemory
  maxConstantArgs : Nat
deriving DecidableEq, Repr

end LoopAudit
