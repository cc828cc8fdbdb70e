import LoopAudit.IntegerSet.Reader
import LoopAudit.JsonText.Decoder
import LoopAudit.Table

/-! Records of the loop nests that a code generator emitted, and their JSON text. -/

namespace LoopAudit.Implementation

abbrev Record := List (String × List IntegerSet)

inductive RecordError where
  | json (fault : JsonText.Fault)
  | piece (insn : String) (index : Nat) (error : SyntaxError)
deriving DecidableEq, Repr

namespace RecordError

def message : RecordError → String
  | json _ => "malformed implemented-domain record"
  | piece insn index _ =>
    "implemented domain piece " ++ Decimal.text index ++ " of instruction '" ++ insn ++
      "' does not parse"

def code : RecordError → String
  | json _ => "polyguard::verify::json"
  | piece .. => "polyguard::verify::piece"

end RecordError

namespace Record

def readPiece (insn : String) (index : Nat) (src : String) : Except RecordError IntegerSet :=
  (IntegerSet.parse src).mapError (RecordError.piece insn index)

def readPieces (insn : String) (srcs : List String) : Except RecordError (List IntegerSet) :=
  srcs.zipIdx.mapM fun (src, index) => readPiece insn index src

/-- Reads an object of lists of set texts. All of it is read before the first text is parsed; of
a repeated id the last list counts. -/
def read (src : String) : Except RecordError Record := do
  let texts ← (JsonText.whole (JsonText.entries JsonText.stringTail
    (JsonText.array JsonText.string)) src).mapError RecordError.json
  (Table.ofList texts).mapM fun (insn, srcs) => do .ok (insn, ← readPieces insn srcs)

end Record

end LoopAudit.Implementation
