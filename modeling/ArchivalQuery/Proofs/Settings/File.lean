import ArchivalQuery.Proofs.Settings.Order
import ArchivalQuery.Settings.File
import Mathlib.Tactic.Common

/-! # What a configuration file states

The settings that are decoded from a file are the ones that it states, in the records of its
document, and the defaults where it states none.
-/
namespace ArchivalQuery

namespace Toml.Value

/-- A part of a record: of a table the part under a name, of an array the part in a place. -/
def part? (name : String) (place : Nat) : Value → Option Value
  | table ms => ms.lookup name
  | array vs => vs[place]?
  | _ => none

theorem fields?_eq {names : List String} {v : Value} {fields : List (Option Value)}
    (h : v.fields? names = some fields) :
    fields = names.zipIdx.map fun p => v.part? p.1 p.2 := by
  -- Only an array looks at the places.
  have hnames (f : String → Option Value) : names.map f = names.zipIdx.map fun p => f p.1 := by
    conv_lhs => rw [← List.zipIdx_map_fst 0 names, List.map_map]
    rfl
  unfold fields? at h
  split at h
  · split at h
    · obtain rfl := Option.some.inj h
      exact hnames _
    · cases h
  · exact (Option.some.inj h).symm
  · obtain rfl := Option.some.inj h
    exact hnames _
  · cases h

theorem word?_eq_some_iff {v : Value} {n : UInt64} : v.word? = some n ↔ v = .integer n.toNat := by
  cases v with
  | integer m =>
    have hlt := n.toNat_lt
    rw [word?, integer.injEq]
    split
    · rename_i hm
      have hsize : m.toNat < 0x10000000000000000 := by omega
      rw [Option.some.injEq, ← UInt64.toNat_inj, UInt64.toNat_ofNat_of_lt' hsize]
      omega
    · simp only [reduceCtorEq, false_iff]
      omega
  | _ => simp [word?]

theorem string?_eq_some_iff {v : Value} {s : String} : v.string? = some s ↔ v = .string s := by
  cases v <;> simp [string?]

theorem orDefault?_eq_some_iff {α : Type} {read : Value → Option α} {form : α → Value}
    (h : ∀ {v x}, read v = some x ↔ v = form x) {default x : α} {v : Option Value} :
    orDefault? read default v = some x ↔ v = some (form x) ∨ v = none ∧ x = default := by
  cases v <;> simp [orDefault?, h, eq_comm]

theorem orDefault?_word?_eq_some_iff {default n : UInt64} {v : Option Value} :
    orDefault? word? default v = some n ↔
      v = some (.integer n.toNat) ∨ v = none ∧ n = default :=
  orDefault?_eq_some_iff word?_eq_some_iff

theorem orDefault?_string?_eq_some_iff {default s : String} {v : Option Value} :
    orDefault? string? default v = some s ↔ v = some (.string s) ∨ v = none ∧ s = default :=
  orDefault?_eq_some_iff string?_eq_some_iff

end Toml.Value
open Toml (Value)
open Toml.Value (orDefault?)

theorem Limits.orDefault?_of_ofToml? {v : Value} {l : Limits} (h : ofToml? v = some l) (k : Limit) :
    orDefault? Value.word? (Limits.get {} k) (v.part? k.label k.place) = some (l.get k) := by
  simp only [ofToml?, Option.bind_eq_bind, Option.bind_eq_some_iff] at h
  obtain ⟨fields, hfields, h⟩ := h
  obtain rfl := Value.fields?_eq hfields
  simp only [Limit.all, List.map_cons, List.map_nil, List.zipIdx_cons, List.zipIdx_nil,
    Option.bind_eq_some_iff, Option.pure_def, Option.some.injEq] at h
  obtain ⟨size, hsize, depth, hdepth, results, hresults, rfl⟩ := h
  cases k <;> assumption

theorem Ancestry.orDefault?_of_ofToml? {v : Value} {a : Ancestry} (h : ofToml? v = some a)
    (r : Role) :
    orDefault? Value.string? (Ancestry.name {} r) (v.part? r.label r.place) = some (a.name r) := by
  simp only [ofToml?, Option.bind_eq_bind, Option.bind_eq_some_iff] at h
  obtain ⟨fields, hfields, h⟩ := h
  obtain rfl := Value.fields?_eq hfields
  simp only [Role.all, List.map_cons, List.map_nil, List.zipIdx_cons, List.zipIdx_nil,
    Option.bind_eq_some_iff, Option.pure_def, Option.some.injEq] at h
  obtain ⟨id, hid, parents, hparents, ancestors, hancestors, min, hmin, max, hmax, rfl⟩ := h
  cases r <;> assumption

namespace Settings

def File.document? (file : Option File) : Option (List (String × Value)) :=
  file.bind fun f => f.text.toOption.bind Toml.read?

/-- What a file states, in one of its records, for a part with a name and a place. -/
def File.stated? (file : Option File) (record name : String) (place : Nat) : Option Value :=
  (document? file).bind fun ms => (ms.lookup record).bind (Value.part? name place)

/-- The settings that are decoded from a file; without a file, the defaults. -/
inductive Decoded : Option File → Settings → Prop
  | defaults : Decoded none {}
  | file {path text : String} {s : Settings} (decodes : ofText? text = some s) :
    Decoded (some ⟨path, .ok text⟩) s

/-- Whether each setting is what a file states for it, or its default if the file states nothing. -/
structure Follows (s : Settings) (file : Option File) : Prop where
  limits (k : Limit) :
    File.stated? file "limits" k.label k.place = some (.integer (s.limits.get k).toNat) ∨
      File.stated? file "limits" k.label k.place = none ∧ s.limits.get k = Limits.get {} k
  names (r : Role) :
    File.stated? file "ancestry" r.label r.place = some (.string (s.ancestry.name r)) ∨
      File.stated? file "ancestry" r.label r.place = none ∧ s.ancestry.name r = Ancestry.name {} r

/-- What is decoded from a record that may be left out has the parts that are stated. -/
theorem orDefault?_stated {α β : Type} {ofToml? : Value → Option α} {read : Value → Option β}
    {default x : α} {name : String} {place : Nat} (part : α → β)
    (h : ∀ {v x}, ofToml? v = some x →
      orDefault? read (part default) (v.part? name place) = some (part x))
    {v : Option Value} (hx : orDefault? ofToml? default v = some x) :
    orDefault? read (part default) (v.bind (Value.part? name place)) = some (part x) := by
  cases v with
  | none =>
    obtain rfl := Option.some.inj hx
    rfl
  | some v => exact h hx

theorem exists_records_of_ofText? {text : String} {s : Settings} (h : ofText? text = some s) :
    ∃ ms, Toml.read? text = some ms ∧
      orDefault? Limits.ofToml? {} (ms.lookup "limits") = some s.limits ∧
      orDefault? Ancestry.ofToml? {} (ms.lookup "ancestry") = some s.ancestry := by
  simp only [ofText?, Option.bind_eq_bind, Option.bind_eq_some_iff] at h
  obtain ⟨ms, hread, h⟩ := h
  split at h
  · cases h
  · simp only [Option.bind_eq_some_iff, Option.pure_def, Option.some.injEq] at h
    obtain ⟨limits, hlimits, ancestry, hancestry, rfl⟩ := h
    exact ⟨ms, hread, hlimits, hancestry⟩

theorem Decoded.follows {file : Option File} {base : Settings} (h : Decoded file base) :
    base.Follows file := by
  cases h with
  | defaults => exact ⟨fun k => .inr ⟨rfl, rfl⟩, fun r => .inr ⟨rfl, rfl⟩⟩
  | @file path text _ decodes =>
    obtain ⟨ms, hread, hlimits, hancestry⟩ := exists_records_of_ofText? decodes
    have hstated (record name : String) (place : Nat) :
        File.stated? (some ⟨path, .ok text⟩) record name place =
          (ms.lookup record).bind (Value.part? name place) := by
      rw [File.stated?, File.document?, Option.bind_some, Except.toOption, Option.bind_some, hread,
        Option.bind_some]
    constructor
    · intro k
      rw [hstated, ← Value.orDefault?_word?_eq_some_iff]
      exact orDefault?_stated (Limits.get · k) (Limits.orDefault?_of_ofToml? · k) hlimits
    · intro r
      rw [hstated, ← Value.orDefault?_string?_eq_some_iff]
      exact orDefault?_stated (Ancestry.name · r) (Ancestry.orDefault?_of_ofToml? · r) hancestry

end Settings
end ArchivalQuery
