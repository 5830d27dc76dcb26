import ArchivalQuery.CommandLine.Run

/-! # The program

Files, standard input and the environment for a run of the command line.
-/
open ArchivalQuery ArchivalQuery.CommandLine

def readText (read : IO ByteArray) : IO (Except ReadError String) := do
  try
    match String.fromUTF8? (← read) with
    | some text => return .ok text
    | none => return .error (.other "stream did not contain valid UTF-8")
  catch e =>
    match e with
    | .noFileOrDirectory .. => return .error .missing
    | .permissionDenied .. => return .error (.other "Permission denied (os error 13)")
    | .inappropriateType .. => return .error (.other "Is a directory (os error 21)")
    | e => return .error (.other e.toString)

def variableNames : List String := ["XDG_CONFIG_HOME", "HOME"] ++ Limit.all.map Limit.envName

def main (args : List String) : IO UInt32 := do
  let values ← variableNames.filterMapM fun name => do
    return (← IO.getEnv name).map fun value => (name, value)
  let o ← run {
      environment := fun name => values.lookup name
      file := fun path => readText (IO.FS.readBinFile path)
      standardInput := do readText (← IO.getStdin).readBinToEnd } args
  (← IO.getStdout).putStr o.out
  (← IO.getStderr).putStr o.err
  return o.code.toUInt32
