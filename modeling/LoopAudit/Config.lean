import LoopAudit.Advisory
import LoopAudit.Toml.Reader

/-! The configuration file: a policy, values of parameters, and a device. -/

namespace LoopAudit

structure Config where
  policy : Policy
  parameters : Assignment
  device : Option Device
deriving DecidableEq, Repr

namespace Config

open Toml (Value)

def standard : Config := ⟨.standard, [], none⟩

def fileName : String := "polyguard.toml"

def code : String := "polyguard::config"

def integer : Value → Option Int
  | .integer n => some n
  | _ => none

def level : Value → Option Nat
  | .integer n => if 0 ≤ n ∧ n < 256 then some n.toNat else none
  | _ => none

def count : Value → Option Nat
  | .integer n => if 0 ≤ n then some n.toNat else none
  | _ => none

def integers : Value → Option (List Int)
  | .array vs => vs.mapM integer
  | _ => none

def isBlank : Value → Bool
  | .array vs => vs.isEmpty
  | .table _ entries => entries.isEmpty
  | .tables elements => elements.isEmpty
  | _ => false

/-- The name of a kind of memory, or a table with nothing but an empty entry of that name. -/
def localMemory : Value → Option LocalMemory
  | .text s => LocalMemory.parse? s
  | .table _ [(name, v)] => if isBlank v then LocalMemory.parse? name else none
  | _ => none

/-- The parts of a record, which come by name from a table or by position from an array; what is
there beside them does not matter. -/
def parts (names : List String) : Value → Option (List (Option Value))
  | .table _ entries => some (names.map fun name => entries.lookup name)
  | .array vs => some ((List.range names.length).map fun i => vs[i]?)
  | .date => some (names.map fun _ => none)
  | _ => none

def policyOf (v : Value) : Option Policy := do
  match ← parts ["kill_level_min", "warn_level_min"] v with
  | [kill, warn] =>
    some ⟨← kill.elim (some Policy.standard.killLevel) level,
      ← warn.elim (some Policy.standard.warnLevel) level⟩
  | _ => none

def deviceOf (v : Value) : Option Device := do
  match ← parts ["max_work_item_dimensions", "max_work_item_sizes", "max_work_group_size",
    "local_mem_size", "local_mem_type", "max_constant_args"] v with
  | [some dimensions, some sizes, some group, some size, some memory, some args] =>
    some ⟨← count dimensions, ← integers sizes, ← integer group, ← integer size,
      ← localMemory memory, ← count args⟩
  | _ => none

def values : Value → Option Assignment
  | .table _ entries => entries.mapM fun (name, v) => (integer v).map fun n => (name, n)
  | _ => none

def entry (config : Config) (name : String) (v : Value) : Option Config :=
  match name with
  | "advisory" => (policyOf v).map fun p => { config with policy := p }
  | "parameters" => (values v).map fun vs => { config with parameters := vs }
  | "device" => (deviceOf v).map fun d => { config with device := some d }
  | _ => none

def parse (src : String) : Option Config := do
  let document ← Toml.parse src
  document.entries.foldlM (fun config (name, v) => config.entry name v) standard

def load : Option String → Option Config
  | none => some standard
  | some src => parse src

def withValues (config : Config) (values : List (String × Int)) : Config :=
  { config with
    parameters := values.foldl (fun table v => Table.insert v.1 v.2 table) config.parameters }

end Config

end LoopAudit
