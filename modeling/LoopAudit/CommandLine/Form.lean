import LoopAudit.Parameter

/-! The commands, what each of them accepts, and the help about them. -/

namespace LoopAudit.CommandLine

structure Operand where
  name : String
  about : String
  several : Bool

structure Setting where
  name : String
  valueName : String
  about : String
  repeatable : Bool
  accepts : String → Bool

structure Form where
  name : String
  about : String
  operands : List Operand
  settings : List Setting

def isPath (s : String) : Bool := !s.isEmpty

def checkForm : Form where
  name := "check"
  about := "Validate kernel snapshots and run the full check suite on each"
  operands := [⟨"KERNELS", "Kernel snapshot(s) in JSON", true⟩]
  settings := []

def orphansForm : Form where
  name := "orphans"
  about := "Check that every requested local axis has an iname bound to it"
  operands := [⟨"KERNEL", "", false⟩]
  settings := []

def verifyForm : Form where
  name := "verify-domains"
  about := "Compare the domains generated code iterates against the desired ones"
  operands := [⟨"KERNEL", "", false⟩,
    ⟨"IMPLEMENTED", "JSON object mapping instruction ids to lists of domain pieces", false⟩]
  settings := [⟨"code", "CODE", "Generated code, shown alongside a mismatch", false, isPath⟩]

def adviseForm : Form where
  name := "advise"
  about := "Judge whether kernel variants fit the configured device"
  operands := [⟨"KERNELS", "", true⟩]
  settings := [
    ⟨"config", "CONFIG", "Config file (default: ./polyguard.toml if present)", false, isPath⟩,
    ⟨"param", "PARAMS", "Parameter value, overriding `[parameters]` (repeatable)", true,
      fun s => (Parameter.parse s).isOk⟩]

def forms : List Form := [checkForm, orphansForm, verifyForm, adviseForm]

def programName : String := "polyguard"

def versionText : String := programName ++ " 0.1.0\n"

def columns (rows : List (String × String)) : String :=
  let width := (rows.map fun r => r.1.length).foldl max 0
  String.join (rows.map fun r => "  " ++ r.1.pushn ' ' (width + 2 - r.1.length) ++ r.2 ++ "\n")

namespace Form

def operandText (o : Operand) : String := "<" ++ o.name ++ ">" ++ if o.several then "..." else ""

def usage (f : Form) : String :=
  " ".intercalate (["Usage:", programName, f.name] ++
    (if f.settings.isEmpty then [] else ["[OPTIONS]"]) ++ f.operands.map operandText)

def help (f : Form) : String :=
  let settings := f.settings.map fun s =>
    ("    --" ++ s.name ++ " <" ++ s.valueName ++ ">", s.about)
  f.about ++ "\n\n" ++ f.usage ++ "\n\nArguments:\n" ++
    columns (f.operands.map fun o => (operandText o, o.about)) ++ "\nOptions:\n" ++
    columns (settings ++ [("-h, --help", "Print help")])

end Form

def helpAbout : String := "Print this message or the help of the given subcommand(s)"

def overview : String :=
  "Static checks for generated accelerator kernels\n\nUsage: " ++ programName ++
    " <COMMAND>\n\nCommands:\n" ++
    columns ((forms.map fun f => (f.name, f.about)) ++ [("help", helpAbout)]) ++ "\nOptions:\n" ++
    columns [("-h, --help", "Print help"), ("-V, --version", "Print version")]

def helpOnHelp : String :=
  helpAbout ++ "\n\nUsage: " ++ programName ++ " help [COMMAND]...\n\nArguments:\n" ++
    columns [("[COMMAND]...", "Print help for the subcommand(s)")]

end LoopAudit.CommandLine
