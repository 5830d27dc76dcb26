import ArchivalQuery.Json.Record
import ArchivalQuery.Json.Writer
import ArchivalQuery.Settings.Basic
import ArchivalQuery.Toml.Quoted

/-! # Settings in text

Settings as JSON and as a TOML document of two tables.
-/
namespace ArchivalQuery

def Limits.toJson (l : Limits) : Json :=
  .obj (Limit.all.map fun k => (k.label, .ofUInt64 (l.get k)))

def Ancestry.toJson (a : Ancestry) : Json :=
  .obj (Role.all.map fun r => (r.label, .str (a.name r)))

namespace Settings

def toJson (s : Settings) : Json :=
  .obj [("limits", s.limits.toJson), ("ancestry", s.ancestry.toJson)]

def line (key : String) (value : List Char) : String :=
  key ++ " = " ++ String.ofList value ++ "\n"

def toToml (s : Settings) : String :=
  "[limits]\n" ++
    String.join (Limit.all.map fun k => line k.label (Decimal.digits (s.limits.get k).toNat)) ++
    "\n[ancestry]\n" ++
    String.join (Role.all.map fun r => line r.label (Toml.quoted (s.ancestry.name r)))

end Settings
end ArchivalQuery
