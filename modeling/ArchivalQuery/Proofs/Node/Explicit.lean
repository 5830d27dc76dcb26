import ArchivalQuery.Proofs.Node.Writable

/-! # Explicit conjunctions

An object of several operators is short for the conjunction of objects with one operator each.
Written out in full, an expression and a step give what their short forms give: the same tree and
depth, or the same refusal.
-/
namespace ArchivalQuery
open Grammar (modifiers connectives)

namespace Expression

/-- Several operators of an object as one conjunction, after the modifiers of a step. -/
def joined (ms : List (String × Json)) : List (String × Json) :=
  let operators := ms.filter (·.1 ∉ modifiers)
  if 2 ≤ operators.length then
    ms.filter (·.1 ∈ modifiers) ++ [("$and", .arr (operators.map fun m => .single m.1 m.2))]
  else ms

mutual
/-- An expression with its conjunctions written out.  An object with a modifier is no expression, so
its operators are not joined. -/
def explicit : Json → Json
  | .obj ms =>
    if ms.any (·.1 ∈ modifiers) then .obj (explicitOperators ms)
    else .obj (joined (explicitOperators ms))
  | v => v
def explicitOperators : List (String × Json) → List (String × Json)
  | [] => []
  | (token, v) :: ms => (token, explicitOperand token v) :: explicitOperators ms
def explicitOperand (token : String) : Json → Json
  | .arr vs => if token ∈ connectives then .arr (explicitItems vs) else .arr vs
  | v => v
def explicitItems : List Json → List Json
  | [] => []
  | v :: vs => explicit v :: explicitItems vs
end

end Expression

/-- A step with its conjunctions written out; its modifiers stay where they are. -/
def Step.explicit : Json → Json
  | .obj ms => .obj (Expression.joined (Expression.explicitOperators ms))
  | v => v

namespace Expression

theorem readOperators_singleton (token : String) (v : Json) :
    readOperators [(token, v)] >>= conjunction = readOperator token v := by
  have hread : readOperators [(token, v)] = readOperator token v >>= fun n => pure [n] := rfl
  rw [hread, bind_assoc]
  exact bind_pure (readOperator token v)

theorem read_single {token : String} (htoken : token ∉ modifiers) (v : Json) :
    read (.single token v) = readOperator token v := by
  have hkeys : checkKeys [(token, v)] = .ok () :=
    checkKeys_eq_ok_iff.mpr ⟨List.cons_ne_nil _ _, List.forall_mem_singleton.mpr htoken⟩
  rw [Json.single, read, hkeys]
  exact readOperators_singleton token v

theorem readChildren_map_single {ms : List (String × Json)} (hms : ∀ m ∈ ms, m.1 ∉ modifiers) :
    readChildren (ms.map fun m => .single m.1 m.2) = readOperators ms := by
  induction ms with
  | nil => rfl
  | cons m ms ih =>
    rw [List.forall_mem_cons] at hms
    rw [List.map_cons, readChildren, readOperators, read_single hms.1, ih hms.2]

theorem length_of_readOperators {ms : List (String × Json)} {ns : List Node}
    (h : readOperators ms = .ok ns) : ns.length = ms.length := by
  rw [readOperators_eq_mapM, Checked.mapM_eq_ok_iff] at h
  exact h.length_eq.symm

theorem conjunction_of_two_le {ns : List Node} (h : 2 ≤ ns.length) :
    conjunction ns = Build.boolean .and ns := by
  match ns with
  | [] | [_] => simp at h
  | _ :: _ :: _ => rfl

/-- The written conjunction of some operators gives what the operators give. -/
theorem readOperator_and {ms : List (String × Json)} (hms : ∀ m ∈ ms, m.1 ∉ modifiers)
    (h : 2 ≤ ms.length) :
    readOperator "$and" (.arr (ms.map fun m => .single m.1 m.2)) =
      readOperators ms >>= conjunction := by
  have hand : readOperator "$and" (.arr (ms.map fun m => .single m.1 m.2)) =
      readOperators ms >>= Build.boolean .and := by
    rw [← readChildren_map_single hms]
    exact readOperator_connective .and _
  rw [hand]
  apply Checked.bind_congr_of_ok
  intro ns hns
  rw [← length_of_readOperators hns] at h
  exact (conjunction_of_two_le h).symm

section Joined
variable {ms : List (String × Json)}

theorem joined_of_lt (h : ¬2 ≤ (ms.filter (·.1 ∉ modifiers)).length) : joined ms = ms := if_neg h

theorem operators_joined (h : 2 ≤ (ms.filter (·.1 ∉ modifiers)).length) :
    (joined ms).filter (·.1 ∉ modifiers) =
      [("$and", .arr ((ms.filter (·.1 ∉ modifiers)).map fun m => .single m.1 m.2))] := by
  have hmodifiers : (ms.filter (·.1 ∈ modifiers)).filter (·.1 ∉ modifiers) = [] := by
    rw [List.filter_filter, List.filter_eq_nil_iff]
    simp
  rw [joined, if_pos h, List.filter_append, hmodifiers]
  rfl

theorem operators_joined_eq_nil_iff :
    (joined ms).filter (·.1 ∉ modifiers) = [] ↔ ms.filter (·.1 ∉ modifiers) = [] := by
  by_cases h : 2 ≤ (ms.filter (·.1 ∉ modifiers)).length
  · rw [operators_joined h]
    apply iff_of_false (List.cons_ne_nil _ _)
    intro hnil
    rw [hnil] at h
    exact absurd h (by decide)
  · rw [joined_of_lt h]

theorem readOperators_joined :
    readOperators ((joined ms).filter (·.1 ∉ modifiers)) >>= conjunction =
      readOperators (ms.filter (·.1 ∉ modifiers)) >>= conjunction := by
  by_cases h : 2 ≤ (ms.filter (·.1 ∉ modifiers)).length
  · rw [operators_joined h, readOperators_singleton]
    apply readOperator_and _ h
    intro m hm
    exact of_decide_eq_true (List.mem_filter.mp hm).2
  · rw [joined_of_lt h]

theorem lookup_joined {key : String} (hkey : key ∈ modifiers) :
    (joined ms).lookup key = ms.lookup key := by
  by_cases h : 2 ≤ (ms.filter (·.1 ∉ modifiers)).length
  · have hand : key ≠ "$and" := by
      rintro rfl
      exact absurd hkey (by decide)
    rw [joined, if_pos h, List.lookup_append,
      Json.lookup_filter (· ∈ modifiers) (decide_eq_true hkey), Json.lookup_cons_of_ne hand,
      List.lookup_nil, Option.or_none]
  · rw [joined_of_lt h]

theorem read_joined (hms : ∀ m ∈ ms, m.1 ∉ modifiers) :
    read (.obj (joined ms)) = read (.obj ms) := by
  have hall : ms.filter (·.1 ∉ modifiers) = ms :=
    List.filter_eq_self.mpr fun m hm => decide_eq_true (hms m hm)
  by_cases h : 2 ≤ ms.length
  · have hne : ms ≠ [] := by
      rintro rfl
      exact absurd h (by decide)
    have hkeys := checkKeys_eq_ok_iff.mpr ⟨hne, hms⟩
    have hnone : ms.filter (·.1 ∈ modifiers) = [] :=
      List.filter_eq_nil_iff.mpr fun m hm => by simpa using hms m hm
    have hjoined : joined ms = [("$and", .arr (ms.map fun m => .single m.1 m.2))] := by
      rw [joined, hall, if_pos h, hnone, List.nil_append]
    calc read (.obj (joined ms))
        = readOperator "$and" (.arr (ms.map fun m => .single m.1 m.2)) := by
          rw [hjoined]
          exact read_single (by decide) _
      _ = readOperators ms >>= conjunction := readOperator_and hms h
      _ = read (.obj ms) := by
          rw [read, hkeys]
          rfl
  · rw [joined_of_lt (by rwa [hall])]

end Joined

theorem explicitOperators_eq_map (ms : List (String × Json)) :
    explicitOperators ms = ms.map fun m => (m.1, explicitOperand m.1 m.2) := by
  induction ms with
  | nil => rfl
  | cons m ms ih => rw [explicitOperators, ih, List.map_cons]

theorem filter_explicitOperators (q : String → Bool) (ms : List (String × Json)) :
    (explicitOperators ms).filter (fun m => q m.1) =
      explicitOperators (ms.filter fun m => q m.1) := by
  rw [explicitOperators_eq_map, explicitOperators_eq_map, List.filter_map]
  rfl

theorem keys_explicitOperators (ms : List (String × Json)) :
    (explicitOperators ms).map Prod.fst = ms.map Prod.fst := by
  rw [explicitOperators_eq_map, List.map_map]
  rfl

theorem explicitOperand_of_notMem {token : String} (h : token ∉ connectives) :
    explicitOperand token = id := by
  funext v
  cases v with
  | arr vs => rw [explicitOperand, if_neg h, id]
  | _ => rfl

theorem lookup_explicitOperators {ms : List (String × Json)} {key : String}
    (hkey : key ∈ modifiers) : (explicitOperators ms).lookup key = ms.lookup key := by
  have hnone : ∀ m ∈ modifiers, m ∉ connectives := by decide
  rw [explicitOperators_eq_map, Json.lookup_map, explicitOperand_of_notMem (hnone key hkey),
    Option.map_id, id]

mutual
/-- An expression and its explicit form give the same tree or the same refusal. -/
theorem read_explicit : ∀ v, read (explicit v) = read v
  | .obj ms => by
    have hms : read (.obj (explicitOperators ms)) = read (.obj ms) := by
      rw [read, read, checkKeys_congr (keys_explicitOperators ms), readOperators_explicitOperators]
    by_cases h : ms.any (·.1 ∈ modifiers)
    · rw [explicit, if_pos h, hms]
    · rw [explicit, if_neg h, read_joined, hms]
      intro m hm
      rw [explicitOperators_eq_map] at hm
      rcases List.mem_map.mp hm with ⟨m', hm', rfl⟩
      simp only [List.any_eq_true, decide_eq_true_eq, not_exists, not_and] at h
      exact h m' hm'
  | .null | .bool _ | .num _ | .str _ | .arr _ => rfl
theorem readOperators_explicitOperators :
    ∀ ms, readOperators (explicitOperators ms) = readOperators ms
  | [] => rfl
  | (token, v) :: ms => by
    rw [explicitOperators, readOperators, readOperators, readOperator_explicitOperand,
      readOperators_explicitOperators]
theorem readOperator_explicitOperand (token : String) :
    ∀ v, readOperator token (explicitOperand token v) = readOperator token v
  | .arr vs => by
    by_cases h : token ∈ connectives
    · rw [explicitOperand, if_pos h]
      rcases mem_connectives_iff.mp h with ⟨c, rfl⟩
      rw [readOperator_connective, readOperator_connective, readChildren_explicitItems]
    · rw [explicitOperand_of_notMem h, id]
  | .null | .bool _ | .num _ | .str _ | .obj _ => rfl
theorem readChildren_explicitItems : ∀ vs, readChildren (explicitItems vs) = readChildren vs
  | [] => rfl
  | v :: vs => by
    rw [explicitItems, readChildren, readChildren, read_explicit, readChildren_explicitItems]
end

end Expression

namespace Step

/-- A step and its explicit form give the same tree and depth or the same refusal. -/
theorem read_explicit (index : Nat) (v : Json) : read index (explicit v) = read index v := by
  cases v with
  | obj ms =>
    have hdepth : readModifiers index (Expression.joined (Expression.explicitOperators ms)) =
        readModifiers index ms := by
      apply readModifiers_congr
      intro key hkey
      rw [Expression.lookup_joined hkey, Expression.lookup_explicitOperators hkey]
    have hoperators := Expression.filter_explicitOperators (· ∉ modifiers) ms
    have hempty : Expression.explicitOperators (ms.filter (·.1 ∉ modifiers)) = [] ↔
        ms.filter (·.1 ∉ modifiers) = [] := by
      rw [Expression.explicitOperators_eq_map, List.map_eq_nil_iff]
    rw [explicit, read_obj, read_obj, hdepth]
    simp only [Expression.operators_joined_eq_nil_iff, Expression.readOperators_joined,
      hoperators, hempty, Expression.readOperators_explicitOperators]
  | _ => rfl

end Step
end ArchivalQuery
