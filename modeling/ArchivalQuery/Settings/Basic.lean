import ArchivalQuery.Decimal.Unsigned
import ArchivalQuery.Settings.Ancestry
import ArchivalQuery.Settings.Limits
import ArchivalQuery.Text.Blank

/-! # Settings

The settings of a configuration, their validation, and what the environment changes in them.  The
first fault in a fixed order is the one reported.
-/
namespace ArchivalQuery

structure Settings where
  limits : Limits := {}
  ancestry : Ancestry := {}
deriving DecidableEq, Repr

inductive SettingsError
  | zeroLimit (limit : Limit)
  | emptyField (role : Role)
  | duplicateField (first second : Role) (name : String)
  | invalidVariable (limit : Limit) (value : String)
deriving DecidableEq, Repr

def SettingsError.message : SettingsError → String
  | zeroLimit limit => "Limit '" ++ limit.label ++ "' must be greater than zero"
  | emptyField role => "Ancestry field '" ++ role.label ++ "' must not be empty"
  | duplicateField first second name =>
    "Ancestry fields '" ++ first.label ++ "' and '" ++ second.label ++ "' both map to '" ++ name ++
      "'"
  | invalidVariable limit value => "Invalid value for " ++ limit.envName ++ ": '" ++ value ++ "'"

def Limits.check (l : Limits) : Except SettingsError Unit :=
  match Limit.all.find? fun k => l.get k == 0 with
  | some k => .error (.zeroLimit k)
  | none => .ok ()

/-- The first pair of roles, in order, that share a name. -/
def Ancestry.sharedRoles? (a : Ancestry) : List Role → Option (Role × Role)
  | [] => none
  | r :: rs =>
    match rs.find? fun s => a.name s == a.name r with
    | some s => some (r, s)
    | none => a.sharedRoles? rs

def Ancestry.check (a : Ancestry) : Except SettingsError Unit :=
  match Role.all.find? fun r => Text.allBlank (a.name r) with
  | some r => .error (.emptyField r)
  | none =>
    match a.sharedRoles? Role.all with
    | some (r, s) => .error (.duplicateField r s (a.name r))
    | none => .ok ()

abbrev Environment := String → Option String

namespace Settings

def check (s : Settings) : Except SettingsError Unit := do
  s.limits.check
  s.ancestry.check

/-- The limit that a variable gives: an unsigned 64-bit decimal between blanks. -/
def variableValue? (value : String) : Option UInt64 :=
  (Decimal.unsigned? UInt64.size (Text.trim value)).map UInt64.ofNat

/-- The limits with the value of one variable, if it is set. -/
def applyVariable (env : Environment) (l : Limits) (k : Limit) : Except SettingsError Limits :=
  match env k.envName with
  | none => .ok l
  | some value =>
    match variableValue? value with
    | some n => .ok (l.set k n)
    | none => .error (.invalidVariable k value)

def resolve (env : Environment) (s : Settings) : Except SettingsError Settings := do
  let limits ← Limit.all.foldlM (applyVariable env) s.limits
  let merged := { s with limits }
  merged.check
  return merged

end Settings
end ArchivalQuery
