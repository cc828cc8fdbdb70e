/-! Types of array elements. -/

namespace LoopAudit

inductive ScalarType where
  | int8
  | int16
  | int32
  | int64
  | uint8
  | uint16
  | uint32
  | uint64
  | float16
  | float32
  | float64
  | complex64
  | complex128
deriving DecidableEq, Repr

namespace ScalarType

def sizeInBytes : ScalarType → Nat
  | int8 => 1
  | uint8 => 1
  | int16 => 2
  | uint16 => 2
  | float16 => 2
  | int32 => 4
  | uint32 => 4
  | float32 => 4
  | int64 => 8
  | uint64 => 8
  | float64 => 8
  | complex64 => 8
  | complex128 => 16

def text : ScalarType → String
  | int8 => "int8"
  | int16 => "int16"
  | int32 => "int32"
  | int64 => "int64"
  | uint8 => "uint8"
  | uint16 => "uint16"
  | uint32 => "uint32"
  | uint64 => "uint64"
  | float16 => "float16"
  | float32 => "float32"
  | float64 => "float64"
  | complex64 => "complex64"
  | complex128 => "complex128"

def parse? : String → Option ScalarType
  | "int8" => some int8
  | "char" => some int8
  | "int16" => some int16
  | "short" => some int16
  | "int32" => some int32
  | "int" => some int32
  | "int64" => some int64
  | "long" => some int64
  | "uint8" => some uint8
  | "uint16" => some uint16
  | "uint32" => some uint32
  | "uint64" => some uint64
  | "float16" => some float16
  | "half" => some float16
  | "float32" => some float32
  | "float" => some float32
  | "float64" => some float64
  | "double" => some float64
  | "complex64" => some complex64
  | "complex128" => some complex128
  | _ => none

theorem parse?_text (t : ScalarType) : parse? t.text = some t := by
  cases t <;> rfl

end ScalarType

end LoopAudit
