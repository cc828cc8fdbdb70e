import LoopAudit.CommandLine.Form
import LoopAudit.Config

/-! What the arguments of the program ask for. -/

namespace LoopAudit.CommandLine

inductive Stop where
  | info (text : String)
  | misuse (reason : String)
deriving DecidableEq, Repr

structure Found where
  operands : List String
  settings : List (String × String)
deriving DecidableEq, Repr

namespace Form

def hasRoom (f : Form) (taken : Nat) : Bool :=
  f.operands.any (fun o => o.several) || taken < f.operands.length

def addOperand (f : Form) (found : Found) (arg : String) : Except Stop Found :=
  if !f.hasRoom found.operands.length then .error (.misuse ("unexpected argument '" ++ arg ++ "'"))
  else if !isPath arg then .error (.misuse "an argument is empty")
  else .ok { found with operands := found.operands ++ [arg] }

def addSetting (found : Found) (s : Setting) (value : String) : Except Stop Found :=
  if !s.repeatable && (found.settings.lookup s.name).isSome then
    .error (.misuse ("'--" ++ s.name ++ "' cannot be used multiple times"))
  else if !s.accepts value then
    .error (.misuse ("invalid value '" ++ value ++ "' for '--" ++ s.name ++ "'"))
  else .ok { found with settings := found.settings ++ [(s.name, value)] }

def isFlag (arg : String) : Bool := arg.startsWith "-" && arg != "-"

def longParts (arg : String) : String × Option String :=
  let body := arg.toList.drop 2
  match Text.splitAt? '=' body with
  | some (name, value) => (String.ofList name, some (String.ofList value))
  | none => (String.ofList body, none)

/-- Reads arguments from left to right up to the first that is wrong or asks for help. After `--`
all are operands. -/
def collect (f : Form) (literal : Bool) (found : Found) : List String → Except Stop Found
  | [] => .ok found
  | arg :: rest =>
    if literal || !isFlag arg then do
      collect f literal (← f.addOperand found arg) rest
    else if arg = "--" then collect f true found rest
    else if arg = "--help" then .error (.info f.help)
    else if arg.startsWith "--" then
      let (name, attached) := longParts arg
      match f.settings.find? fun s => s.name == name, attached with
      | none, _ => .error (.misuse ("unexpected argument '" ++ arg ++ "'"))
      | some s, some value => do collect f literal (← addSetting found s value) rest
      | some s, none =>
        match rest with
        | [] => .error (.misuse ("a value is required for '--" ++ s.name ++ "'"))
        | value :: rest =>
          if isFlag value then .error (.misuse ("a value is required for '--" ++ s.name ++ "'"))
          else do collect f literal (← addSetting found s value) rest
    else if arg.startsWith "-h" then .error (.info f.help)
    else .error (.misuse ("unexpected argument '" ++ arg ++ "'"))

def read (f : Form) (args : List String) : Except Stop Found := do
  let found ← f.collect false ⟨[], []⟩ args
  if found.operands.length < f.operands.length then
    .error (.misuse "required arguments were not provided")
  else .ok found

end Form

inductive Request where
  | check (kernels : List String)
  | orphans (kernel : String)
  | verify (kernel implemented : String) (code : Option String)
  | advise (kernels : List String) (config : Option String) (values : List (String × Int))
deriving DecidableEq, Repr

namespace Request

def help : List String → Stop
  | [] => .info overview
  | ["help"] => .info helpOnHelp
  | [name] =>
    match forms.find? fun f => f.name == name with
    | some f => .info f.help
    | none => .misuse ("unrecognized subcommand '" ++ name ++ "'")
  | _ => .misuse "unrecognized subcommand"

def ofVerify (found : Found) : Except Stop Request :=
  match found.operands with
  | [kernel, implemented] => .ok (.verify kernel implemented (found.settings.lookup "code"))
  | _ => .error (.misuse "required arguments were not provided")

def ofOrphans (found : Found) : Except Stop Request :=
  match found.operands with
  | [kernel] => .ok (.orphans kernel)
  | _ => .error (.misuse "required arguments were not provided")

def ofAdvise (found : Found) : Except Stop Request :=
  let values := (found.settings.filter fun s => s.1 == "param").filterMap fun s =>
    (Parameter.parse s.2).toOption
  .ok (.advise found.operands (found.settings.lookup "config") values)

def read : List String → Except Stop Request
  | [] => .error (.misuse "a subcommand is required")
  | "check" :: args => do .ok (.check (← checkForm.read args).operands)
  | "orphans" :: args => do ofOrphans (← orphansForm.read args)
  | "verify-domains" :: args => do ofVerify (← verifyForm.read args)
  | "advise" :: args => do ofAdvise (← adviseForm.read args)
  | "help" :: names => .error (help names)
  | "--help" :: _ => .error (.info overview)
  | "--version" :: _ => .error (.info versionText)
  | arg :: _ =>
    if arg.startsWith "-h" then .error (.info overview)
    else if arg.startsWith "-V" then .error (.info versionText)
    else .error (.misuse ("unrecognized subcommand '" ++ arg ++ "'"))

def paths : Request → List String
  | check kernels => kernels
  | orphans kernel => [kernel]
  | verify kernel implemented code => [kernel, implemented] ++ code.toList
  | advise kernels config _ => kernels ++ [config.getD Config.fileName]

end Request

end LoopAudit.CommandLine
