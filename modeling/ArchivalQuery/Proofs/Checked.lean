import ArchivalQuery.QueryError
import Mathlib.Data.List.Forall2

/-! # Accepting and refusing outcomes

When a computation that may refuse a request accepts it, and what it refuses it with.  A sequence of
steps accepts if each step does, in turn, and refuses with the first refusal; a guard accepts if its
condition does not hold.
-/
namespace ArchivalQuery.Checked

variable {α β : Type}

@[simp] theorem pure_eq_ok {a b : α} : (pure a : Checked α) = .ok b ↔ a = b := by
  simp [pure, Except.pure]

@[simp] theorem bind_eq_ok {x : Checked α} {f : α → Checked β} {b : β} :
    x >>= f = .ok b ↔ ∃ a, x = .ok a ∧ f a = .ok b := by
  cases x with
  | error e => simp [bind, Except.bind]
  | ok a => simp [bind, Except.bind]

theorem bind_eq_error {x : Checked α} {f : α → Checked β} {e : QueryError} :
    x >>= f = .error e ↔ x = .error e ∨ ∃ a, x = .ok a ∧ f a = .error e := by
  cases x with
  | error e' => simp [bind, Except.bind]
  | ok a => simp [bind, Except.bind]

/-- A refusal that the first outcome does not give. -/
theorem bind_eq_error_of_ne {x : Checked α} {f : α → Checked β} {e : QueryError}
    (h : x ≠ .error e) : x >>= f = .error e ↔ ∃ a, x = .ok a ∧ f a = .error e := by
  rw [bind_eq_error, or_iff_right h]

/-- A refusal that nothing but the first outcome gives. -/
theorem bind_eq_error_iff_left {x : Checked α} {f : α → Checked β} {e : QueryError}
    (h : ∀ a, f a ≠ .error e) : x >>= f = .error e ↔ x = .error e := by
  rw [bind_eq_error, or_iff_left]
  rintro ⟨a, -, ha⟩
  exact h a ha

theorem bind_unit_eq_ok {x : Checked Unit} {f : Unit → Checked β} {b : β} :
    x >>= f = .ok b ↔ x = .ok () ∧ f () = .ok b := by
  rw [bind_eq_ok]
  exact ⟨fun ⟨⟨⟩, h⟩ => h, fun h => ⟨(), h⟩⟩

/-- What follows an accepted outcome matters only there. -/
theorem bind_congr_of_ok {x : Checked α} {f g : α → Checked β} (h : ∀ a, x = .ok a → f a = g a) :
    x >>= f = x >>= g := by
  cases x with
  | error e => rfl
  | ok a => exact h a rfl

@[simp] theorem exists_unit_eq_ok {x : Checked Unit} : (∃ u, x = .ok u) ↔ x = .ok () :=
  ⟨fun ⟨⟨⟩, h⟩ => h, fun h => ⟨(), h⟩⟩

@[simp] theorem map_eq_ok {x : Checked α} {f : α → β} {b : β} :
    f <$> x = .ok b ↔ ∃ a, x = .ok a ∧ f a = b := by
  cases x with
  | error e => simp [Functor.map, Except.map]
  | ok a => simp [Functor.map, Except.map]

theorem map_eq_error {x : Checked α} {f : α → β} {e : QueryError} :
    f <$> x = .error e ↔ x = .error e := by
  cases x with
  | error e' => simp [Functor.map, Except.map]
  | ok a => simp [Functor.map, Except.map]

theorem pure_ne_error {a : α} {e : QueryError} : (pure a : Checked α) ≠ .error e := nofun

@[simp] theorem malformed_ne_ok {fault : Fault} {a : α} :
    (malformed fault : Checked α) ≠ .ok a := by
  simp [malformed]

@[simp] theorem malformed_bind {fault : Fault} {f : α → Checked β} :
    malformed fault >>= f = malformed fault := rfl

/-- A guard refuses, so what comes after it is reached with its condition false. -/
@[simp] theorem guard_eq_ok {c : Prop} [Decidable c] {fault : Fault} {x : Checked α} {a : α} :
    (if c then malformed fault else x) = .ok a ↔ ¬c ∧ x = .ok a := by
  by_cases h : c
  · simp [h]
  · simp [h]

theorem guard_eq_error {c : Prop} [Decidable c] {fault : Fault} {x : Checked α} {e : QueryError} :
    (if c then malformed fault else x) = .error e ↔
      c ∧ .malformed fault = e ∨ ¬c ∧ x = .error e := by
  by_cases h : c
  · simp [h, malformed]
  · simp [h]

theorem forM_eq_ok_iff {f : α → Checked Unit} {xs : List α} :
    forM xs f = .ok () ↔ ∀ x ∈ xs, f x = .ok () := by
  induction xs with
  | nil => simp
  | cons x xs ih =>
    rw [List.forM_cons, bind_unit_eq_ok, ih, List.forall_mem_cons]

theorem mapM_eq_ok_iff {f : α → Checked β} {xs : List α} {ys : List β} :
    xs.mapM f = .ok ys ↔ List.Forall₂ (fun x y => f x = .ok y) xs ys := by
  induction xs generalizing ys with
  | nil => rw [List.mapM_nil, pure_eq_ok, List.forall₂_nil_left_iff, eq_comm]
  | cons x xs ih =>
    simp only [List.mapM_cons, bind_eq_ok, pure_eq_ok, List.forall₂_cons_left_iff, ih]
    constructor
    · intro h
      rcases h with ⟨y, hy, zs, hzs, rfl⟩
      exact ⟨y, zs, hy, hzs, rfl⟩
    · intro h
      rcases h with ⟨y, zs, hy, hzs, rfl⟩
      exact ⟨y, hy, zs, hzs, rfl⟩

theorem exists_of_mem_mapM {f : α → Checked β} {xs : List α} {ys : List β} (h : xs.mapM f = .ok ys)
    {y : β} (hy : y ∈ ys) : ∃ x ∈ xs, f x = .ok y := by
  rw [mapM_eq_ok_iff] at h
  induction h with
  | nil => exact absurd hy List.not_mem_nil
  | @cons x z xs zs hx _ ih =>
    rcases List.mem_cons.mp hy with rfl | hy
    · exact ⟨x, List.mem_cons_self, hx⟩
    · rcases ih hy with ⟨w, hw, hwy⟩
      exact ⟨w, List.mem_cons_of_mem x hw, hwy⟩

/-- A map is refused for the first item that is. -/
theorem mapM_eq_error_iff {f : α → Checked β} {xs : List α} {e : QueryError} :
    xs.mapM f = .error e ↔ ∃ (i : Nat) (x : α), xs[i]? = some x ∧ f x = .error e ∧
      ∀ j < i, ∃ y z, xs[j]? = some y ∧ f y = .ok z := by
  induction xs with
  | nil => simp [pure_ne_error]
  | cons x xs ih =>
    have hcons : (x :: xs).mapM f = .error e ↔
        f x = .error e ∨ (∃ z, f x = .ok z) ∧ xs.mapM f = .error e := by
      simp [List.mapM_cons, bind_eq_error, map_eq_error]
    rw [hcons, ih]
    constructor
    · rintro (hx | ⟨⟨z, hz⟩, i, y, hy, hfy, hbefore⟩)
      · exact ⟨0, x, rfl, hx, nofun⟩
      · refine ⟨i + 1, y, hy, hfy, fun j hj => ?_⟩
        cases j with
        | zero => exact ⟨x, z, rfl, hz⟩
        | succ j => exact hbefore j (Nat.lt_of_succ_lt_succ hj)
    · rintro ⟨i, y, hy, hfy, hbefore⟩
      cases i with
      | zero => exact .inl (Option.some.inj hy ▸ hfy)
      | succ i =>
        obtain ⟨w, z, hw, hz⟩ := hbefore 0 (Nat.succ_pos i)
        obtain rfl := Option.some.inj hw
        exact .inr ⟨⟨z, hz⟩, i, y, hy, hfy, fun j hj => hbefore (j + 1) (Nat.succ_lt_succ hj)⟩

/-- Items that are checked one by one and then rewritten. -/
theorem mapM_eq_ok_iff_map {f : α → Checked β} {P : α → Prop} {g : α → β}
    (hf : ∀ x y, f x = .ok y ↔ P x ∧ y = g x) {xs : List α} {ys : List β} :
    xs.mapM f = .ok ys ↔ (∀ x ∈ xs, P x) ∧ ys = xs.map g := by
  rw [mapM_eq_ok_iff]
  simp only [hf]
  rw [List.forall₂_and_left, eq_comm, ← List.forall₂_eq_eq_eq, List.forall₂_map_left_iff]
  simp only [eq_comm]

/-- A map over rewritten items rewrites its results, if it does so item by item. -/
theorem mapM_map {γ δ : Type} {f : α → Checked γ} {f' : β → Checked δ} {h : α → β} {k : γ → δ}
    {xs : List α} (hk : ∀ x ∈ xs, f' (h x) = k <$> f x) :
    (xs.map h).mapM f' = List.map k <$> xs.mapM f := by
  induction xs with
  | nil => rfl
  | cons x xs ih =>
    rw [List.forall_mem_cons] at hk
    rw [List.map_cons, List.mapM_cons, List.mapM_cons, hk.1, ih hk.2]
    cases f x with
    | error e => rfl
    | ok y => cases xs.mapM f <;> rfl

/-- Notes on a rewritten state rewrite the notes, if they do so one by one. -/
theorem foldlM_hom {γ : Type} {f : β → α → Checked β} {g : γ → α → Checked γ} (h : β → γ)
    (hg : ∀ b x, g (h b) x = h <$> f b x) (xs : List α) (b : β) :
    xs.foldlM g (h b) = h <$> xs.foldlM f b := by
  induction xs generalizing b with
  | nil => rfl
  | cons x xs ih =>
    rw [List.foldlM_cons, List.foldlM_cons, hg, map_bind, bind_map_left]
    exact congrArg (f b x >>= ·) (funext ih)

/-- Notes that are accepted in any state are accepted one after the other. -/
theorem exists_foldlM_eq_ok {f : β → α → Checked β} {xs : List α}
    (h : ∀ x ∈ xs, ∀ b, ∃ b', f b x = .ok b') (b : β) : ∃ b', xs.foldlM f b = .ok b' := by
  induction xs generalizing b with
  | nil => exact ⟨b, rfl⟩
  | cons x xs ih =>
    rcases h x List.mem_cons_self b with ⟨b₁, h₁⟩
    rcases ih (fun y hy => h y (List.mem_cons_of_mem x hy)) b₁ with ⟨b₂, h₂⟩
    refine ⟨b₂, ?_⟩
    rw [List.foldlM_cons, h₁]
    exact h₂

/-- Every note of an accepted sequence is accepted in some state. -/
theorem exists_eq_ok_of_foldlM {f : β → α → Checked β} {xs : List α} {b b' : β}
    (h : xs.foldlM f b = .ok b') {x : α} (hx : x ∈ xs) : ∃ c c', f c x = .ok c' := by
  induction xs generalizing b with
  | nil => exact absurd hx List.not_mem_nil
  | cons y ys ih =>
    rw [List.foldlM_cons, bind_eq_ok] at h
    rcases h with ⟨c, hc, hcs⟩
    rcases List.mem_cons.mp hx with rfl | hx
    · exact ⟨b, c, hc⟩
    · exact ih hcs hx

/-- What each accepted note of a sequence keeps holds after the sequence is accepted. -/
theorem invariant_of_foldlM_mem {P : β → Prop} {f : β → α → Checked β} {xs : List α}
    (hf : ∀ x ∈ xs, ∀ b b', P b → f b x = .ok b' → P b') {b b' : β} (hb : P b)
    (h : xs.foldlM f b = .ok b') : P b' := by
  induction xs generalizing b with
  | nil => exact Checked.pure_eq_ok.mp h ▸ hb
  | cons x xs ih =>
    rw [List.foldlM_cons, bind_eq_ok] at h
    obtain ⟨c, hc, hcs⟩ := h
    exact ih (fun y hy => hf y (List.mem_cons_of_mem x hy)) (hf x List.mem_cons_self b c hb hc) hcs

theorem invariant_of_foldlM {P : β → Prop} {f : β → α → Checked β}
    (hf : ∀ x b b', P b → f b x = .ok b' → P b') {xs : List α} {b b' : β} (hb : P b)
    (h : xs.foldlM f b = .ok b') : P b' :=
  invariant_of_foldlM_mem (fun x _ => hf x) hb h

/-- Whether two outcomes are the same as soon as one is accepted; their refusals may differ. -/
def AcceptsAs (x y : Checked α) : Prop := ∀ a, x = .ok a ↔ y = .ok a

namespace AcceptsAs

theorem refl (x : Checked α) : AcceptsAs x x := fun _ => Iff.rfl

theorem of_malformed {fault fault' : Fault} :
    AcceptsAs (malformed fault : Checked α) (malformed fault') :=
  fun _ => iff_of_false malformed_ne_ok malformed_ne_ok

/-- Outcomes with one and the same specification. -/
theorem of_iff {x y : Checked α} {P Q : α → Prop} (hx : ∀ a, x = .ok a ↔ P a)
    (hy : ∀ a, y = .ok a ↔ Q a) (h : ∀ a, P a ↔ Q a) : AcceptsAs x y := by
  intro a
  rw [hx, hy, h]

theorem bind {x y : Checked α} {f g : α → Checked β} (h : AcceptsAs x y)
    (hfg : ∀ a, AcceptsAs (f a) (g a)) : AcceptsAs (x >>= f) (y >>= g) := by
  intro b
  rw [bind_eq_ok, bind_eq_ok]
  exact exists_congr fun a => and_congr (h a) (hfg a b)

theorem bind_right (x : Checked α) {f g : α → Checked β} (hfg : ∀ a, AcceptsAs (f a) (g a)) :
    AcceptsAs (x >>= f) (x >>= g) :=
  (refl x).bind hfg

theorem bind_left {x y : Checked α} (h : AcceptsAs x y) (f : α → Checked β) :
    AcceptsAs (x >>= f) (y >>= f) :=
  h.bind fun a => refl (f a)

theorem ite {c : Prop} [Decidable c] {x y x' y' : Checked α} (hx : AcceptsAs x x')
    (hy : AcceptsAs y y') : AcceptsAs (if c then x else y) (if c then x' else y') := by
  split
  exacts [hx, hy]

end AcceptsAs

def error? : Checked α → Option QueryError
  | .error e => some e
  | .ok _ => none

@[simp] theorem error?_ok (a : α) : error? (.ok a) = none := rfl

@[simp] theorem error?_error (e : QueryError) : error? (.error e : Checked α) = some e := rfl

@[simp] theorem error?_pure (a : α) : error? (pure a) = none := rfl

@[simp] theorem error?_malformed (fault : Fault) :
    error? (malformed fault : Checked α) = some (.malformed fault) := rfl

theorem error?_eq_some_iff {x : Checked α} {e : QueryError} :
    x.error? = some e ↔ x = .error e := by
  cases x with
  | error e' => simp
  | ok a => simp

theorem error?_eq_none_iff {x : Checked α} : x.error? = none ↔ ∃ a, x = .ok a := by
  cases x with
  | error e => simp
  | ok a => simp

/-- A step after an accepted one refuses what it would refuse on its own. -/
theorem error?_bind {x : Checked α} {f : α → Checked β} {o : Option QueryError}
    (h : ∀ a, x = .ok a → (f a).error? = o) : (x >>= f).error? = x.error?.or o := by
  cases x with
  | error e => rfl
  | ok a => exact h a rfl

@[simp] theorem error?_map {x : Checked α} {f : α → β} : (f <$> x).error? = x.error? := by
  cases x with
  | error e => rfl
  | ok a => rfl

/-- A map is refused for the first item that is. -/
theorem error?_mapM {f : α → Checked β} {xs : List α} :
    (xs.mapM f).error? = xs.findSome? fun x => (f x).error? := by
  induction xs with
  | nil => rfl
  | cons x xs ih =>
    have rest (y : β) : (xs.mapM f >>= fun ys => pure (y :: ys)).error? =
        xs.findSome? fun x => (f x).error? := by
      rw [error?_bind fun _ _ => error?_pure _, ih, Option.or_none]
    rw [List.mapM_cons, error?_bind fun y _ => rest y, List.findSome?_cons]
    cases (f x).error? with
    | none => rfl
    | some e => rfl

/-- Whether an outcome, if it is a refusal, has one of the given reasons. -/
structure RefusesOnly (P : QueryError → Prop) (x : Checked α) : Prop where
  reason : ∀ e, x = .error e → P e

namespace RefusesOnly
variable {P : QueryError → Prop}

theorem ok (a : α) : RefusesOnly P (.ok a) := ⟨nofun⟩

theorem pure (a : α) : RefusesOnly P (Pure.pure a) := ⟨nofun⟩

theorem error {e : QueryError} (h : P e) : RefusesOnly P (.error e : Checked α) := by
  refine ⟨fun e' he => ?_⟩
  obtain rfl := Except.error.inj he
  exact h

theorem malformed {fault : Fault} (h : P (.malformed fault)) :
    RefusesOnly P (ArchivalQuery.malformed fault : Checked α) := error h

theorem mono {Q : QueryError → Prop} {x : Checked α} (hx : x.RefusesOnly P)
    (h : ∀ e, P e → Q e) : x.RefusesOnly Q :=
  ⟨fun e he => h e (hx.reason e he)⟩

/-- What follows is reached with an accepted outcome. -/
theorem bind_of_ok {x : Checked α} {f : α → Checked β} (hx : x.RefusesOnly P)
    (hf : ∀ a, x = .ok a → (f a).RefusesOnly P) : (x >>= f).RefusesOnly P := by
  cases x with
  | error e => exact error (hx.reason e rfl)
  | ok a => exact hf a rfl

theorem bind {x : Checked α} {f : α → Checked β} (hx : x.RefusesOnly P)
    (hf : ∀ a, (f a).RefusesOnly P) : (x >>= f).RefusesOnly P :=
  hx.bind_of_ok fun a _ => hf a

theorem map {x : Checked α} {f : α → β} (hx : x.RefusesOnly P) : (f <$> x).RefusesOnly P := by
  cases x with
  | error e => exact error (hx.reason e rfl)
  | ok a => exact ok (f a)

theorem ite {c : Prop} [Decidable c] {x y : Checked α} (hx : x.RefusesOnly P)
    (hy : y.RefusesOnly P) : (if c then x else y).RefusesOnly P := by
  split
  exacts [hx, hy]

theorem mapM {f : α → Checked β} {xs : List α} (h : ∀ x ∈ xs, (f x).RefusesOnly P) :
    (xs.mapM f).RefusesOnly P := by
  induction xs with
  | nil => exact pure []
  | cons x xs ih =>
    rw [List.forall_mem_cons] at h
    rw [List.mapM_cons]
    exact h.1.bind fun y => (ih h.2).bind fun ys => pure (y :: ys)

theorem forM {f : α → Checked Unit} {xs : List α} (h : ∀ x ∈ xs, (f x).RefusesOnly P) :
    (ForM.forM xs f).RefusesOnly P := by
  induction xs with
  | nil => exact pure ()
  | cons x xs ih =>
    rw [List.forall_mem_cons] at h
    rw [List.forM_cons]
    exact h.1.bind fun _ => ih h.2

theorem foldlM {f : β → α → Checked β} {xs : List α} (h : ∀ x ∈ xs, ∀ b, (f b x).RefusesOnly P)
    (b : β) : (xs.foldlM f b).RefusesOnly P := by
  induction xs generalizing b with
  | nil => exact pure b
  | cons x xs ih =>
    rw [List.forall_mem_cons] at h
    rw [List.foldlM_cons]
    exact (h.1 b).bind (ih h.2)

end RefusesOnly

end ArchivalQuery.Checked
