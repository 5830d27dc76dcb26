import ArchivalQuery.CommandLine.Stages
import ArchivalQuery.Settings.File

/-! # Reports of failure

A failed run is reported by what failed and, where that has one, by its cause.
-/
namespace ArchivalQuery.CommandLine

structure Report where
  failure : String
  cause : Option String := none
deriving DecidableEq, Repr

namespace Report

/-- A text whose lines after the first are indented as far as the first. -/
def indented (text : String) : String :=
  "    " ++ String.ofList (text.toList.flatMap fun c =>
    if c = '\n' then ['\n', ' ', ' ', ' ', ' '] else [c])

def lines (r : Report) : String :=
  match r.cause with
  | none => "Error: " ++ r.failure ++ "\n"
  | some cause => "Error: " ++ r.failure ++ "\n\nCaused by:\n" ++ indented cause ++ "\n"

def line (r : Report) : String :=
  match r.cause with
  | none => r.failure
  | some cause => r.failure ++ ": " ++ cause

def ofStage (e : StageError) : Report := ⟨e.stage.failure, some e.error.message⟩

def ofLoad : Settings.LoadError → Report
  | .unreadable path reason => ⟨"Failed to read config file: " ++ path, some reason⟩
  | .invalidToml path => ⟨"Failed to parse config file: " ++ path, some "TOML parse error"⟩
  | .invalid e => ⟨e.message, none⟩

end Report
end ArchivalQuery.CommandLine
