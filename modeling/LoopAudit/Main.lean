import LoopAudit.CommandLine.Outcome

/-! The program: reads the files that a request names, and prints its outcome. -/

open LoopAudit.CommandLine

def contents (path : String) : IO (Option String) := do
  try
    let text ← IO.FS.readFile path
    return some text
  catch _ => return none

def main (args : List String) : IO UInt32 := do
  let paths := match Request.read args with
    | .ok request => request.paths
    | .error _ => []
  let table ← paths.mapM fun path => do return (path, ← contents path)
  let outcome := run (fun path => (table.lookup path).join) args
  IO.print outcome.output
  for line in outcome.diagnostics do
    IO.eprintln line
  return outcome.exitCode.toUInt32
