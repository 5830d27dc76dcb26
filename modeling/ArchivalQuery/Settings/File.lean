import ArchivalQuery.Settings.Basic
import ArchivalQuery.Toml.Reader

/-! # Configuration files

Settings from a TOML document.  What a document leaves out keeps its default, and keys that the
settings do not know are passed over.
-/
namespace ArchivalQuery
open Toml (Value)

namespace Toml.Value

/-- The values of the named fields of a record: a table by name, or an array by place.  A table has
a value in each of its parts, of an array nothing after the last field is read, and a moment has
no fields. -/
def fields? (names : List String) : Value → Option (List (Option Value))
  | table ms => if Toml.membersSound ms then some (names.map fun n => ms.lookup n) else none
  | array vs => some (names.zipIdx.map fun p => vs[p.2]?)
  | moment _ => some (names.map fun _ => none)
  | _ => none

def word? : Value → Option UInt64
  | integer n => if 0 ≤ n ∧ n < 0x10000000000000000 then some (UInt64.ofNat n.toNat) else none
  | _ => none

def string? : Value → Option String
  | string s => some s
  | _ => none

def orDefault? {α : Type} (read : Value → Option α) (default : α) : Option Value → Option α
  | none => some default
  | some v => read v

end Toml.Value
open Toml.Value (orDefault?)

def Limits.ofToml? (v : Value) : Option Limits := do
  let d : Limits := {}
  match ← v.fields? (Limit.all.map Limit.label) with
  | [size, depth, results] =>
    return ⟨← orDefault? Toml.Value.word? d.maxRequestSize size,
      ← orDefault? Toml.Value.word? d.maxNestingDepth depth,
      ← orDefault? Toml.Value.word? d.defaultLimit results⟩
  | _ => none

def Ancestry.ofToml? (v : Value) : Option Ancestry := do
  let d : Ancestry := {}
  match ← v.fields? (Role.all.map Role.label) with
  | [id, parents, ancestors, minDepth, maxDepth] =>
    return ⟨← orDefault? Toml.Value.string? d.id id,
      ← orDefault? Toml.Value.string? d.parents parents,
      ← orDefault? Toml.Value.string? d.ancestors ancestors,
      ← orDefault? Toml.Value.string? d.minDepth minDepth,
      ← orDefault? Toml.Value.string? d.maxDepth maxDepth⟩
  | _ => none

namespace Settings

/-- The settings of a document.  Its other members have a value in each of their parts. -/
def ofText? (text : String) : Option Settings := do
  let ms ← Toml.read? text
  if !Toml.membersSound (ms.filter fun m => m.1 != "limits" && m.1 != "ancestry") then none
  return ⟨← orDefault? Limits.ofToml? {} (ms.lookup "limits"),
    ← orDefault? Ancestry.ofToml? {} (ms.lookup "ancestry")⟩

/-- A configuration file: its path, and its text or why it cannot be read. -/
structure File where
  path : String
  text : Except String String

inductive LoadError
  | unreadable (path reason : String)
  | invalidToml (path : String)
  | invalid (error : SettingsError)

/-- The settings of a file, or the defaults where there is none, under an environment. -/
def load (file : Option File) (env : Environment) : Except LoadError Settings := do
  let base ← match file with
    | none => .ok {}
    | some f =>
      match f.text with
      | .error reason => .error (.unreadable f.path reason)
      | .ok text =>
        match ofText? text with
        | some s => .ok s
        | none => .error (.invalidToml f.path)
  (base.resolve env).mapError .invalid

end Settings
end ArchivalQuery
