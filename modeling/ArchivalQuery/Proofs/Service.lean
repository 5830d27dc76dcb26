import ArchivalQuery.Proofs.Plan.Refusal
import ArchivalQuery.Proofs.Request.Refusals
import ArchivalQuery.Proofs.Request.Entry
import ArchivalQuery.Service

/-! # Calls of the service

A call is carried out as a whole or not at all.  It passes its stages in order; the store is given
the plan once if all of them are passed, and otherwise nothing.
-/
namespace ArchivalQuery

theorem QueryError.OfReader.category {e : QueryError} (h : e.OfReader) :
    e.category = .badRequest := by
  cases e with
  | tooLarge => exact h.elim
  | _ => rfl

namespace Call
variable {s : Service} {c : Call} {v : Json} {r : Request} {p : Plan} {e : QueryError}

/-- What a call brings: a text, or a value that is decoded already. -/
def body : Call → String ⊕ Json
  | selectUnits text | selectUnitsById text _ | selectObjectGroupById text _
  | updateUnitById text _ => .inl text
  | insertUnit v | insertObjectGroup v => .inr v

def Blank (c : Call) : Prop := ∃ text, c.body = .inl text ∧ Text.allBlank text = true

def gated (c : Call) : String := c.body.elim id Json.text

def value? (c : Call) : Option Json := c.body.elim Json.ofText? some

/-- What the entry points are for: the kind of request that each reads, the collection that it
addresses and the identifier that its caller gives, if it takes one. -/
inductive Serves : Call → RequestKind → Collection → Option String → Prop
  | selectUnits (text : String) : Serves (.selectUnits text) .select .units none
  | selectUnitsById (text id : String) :
      Serves (.selectUnitsById text id) .select .units (some id)
  | selectObjectGroupById (text id : String) :
      Serves (.selectObjectGroupById text id) .select .objectGroups (some id)
  | updateUnitById (text id : String) : Serves (.updateUnitById text id) .update .units (some id)
  | insertUnit (v : Json) : Serves (.insertUnit v) .insert .units none
  | insertObjectGroup (v : Json) : Serves (.insertObjectGroup v) .insert .objectGroups none

/-- The roots of a plan: the identifier that the caller gives, unless it is empty, and otherwise the
roots that the request asks for. -/
def rootsUnder (given : Option String) (asked : List String) : List String :=
  match given with
  | none => asked
  | some id => if id = "" then asked else [id]

/-- Whether a call passes all stages, with the plan that comes of it. -/
structure Accepted (s : Service) (c : Call) (p : Plan) : Prop where
  not_blank : ¬c.Blank
  gate : Gate.check s.limits c.gated = .ok ()
  plan : ∃ kind collection given v r q, c.Serves kind collection given ∧ c.value? = some v ∧
    Request.read kind s.limits v = .ok r ∧ r.compile s.ancestry collection = .ok q ∧
    p = { q with roots := rootsUnder given q.roots, context := v }

/-- Why the first stage that a call does not pass refuses it. -/
inductive Refused (s : Service) (c : Call) : QueryError → Prop
  | blank (hblank : c.Blank) : Refused s c (.malformed .empty)
  | gate {e : QueryError} (hblank : ¬c.Blank) (hgate : Gate.check s.limits c.gated = .error e) :
      Refused s c e
  | decoding (hblank : ¬c.Blank) (hgate : Gate.check s.limits c.gated = .ok ())
      (hvalue : c.value? = none) : Refused s c (.malformed .invalidJson)
  | reading {kind : RequestKind} {collection : Collection} {given : Option String} {v : Json}
      {e : QueryError} (hblank : ¬c.Blank) (hgate : Gate.check s.limits c.gated = .ok ())
      (hserves : c.Serves kind collection given) (hvalue : c.value? = some v)
      (hread : Request.read kind s.limits v = .error e) : Refused s c e
  | compiling {kind : RequestKind} {collection : Collection} {given : Option String} {v : Json}
      {r : Request} {e : QueryError} (hblank : ¬c.Blank)
      (hgate : Gate.check s.limits c.gated = .ok ()) (hserves : c.Serves kind collection given)
      (hvalue : c.value? = some v) (hread : Request.read kind s.limits v = .ok r)
      (hcompile : r.compile s.ancestry collection = .error e) : Refused s c e

def Barred (s : Service) (c : Call) : Prop :=
  ¬c.Blank ∧ ∃ e, Gate.check s.limits c.gated = .error e

/-- The value of a call that passes the first three stages. -/
def received (limits : Limits) (c : Call) : Checked Json :=
  match c.body with
  | .inl text => Request.decode limits text
  | .inr v => do
    Gate.checkValue limits v
    return v

theorem request_eq (limits : Limits) (c : Call) : c.request limits = (do
    let v ← c.received limits
    return (v, ← Request.read c.kind limits v)) := by
  cases c with
  | insertUnit v | insertObjectGroup v =>
    unfold request received Request.ofValue
    simp only [body, bind_assoc, pure_bind]
  | selectUnits | selectUnitsById | selectObjectGroupById | updateUnitById => rfl

theorem received_eq_ok_iff {limits : Limits} : c.received limits = .ok v ↔
    ¬c.Blank ∧ Gate.check limits c.gated = .ok () ∧ c.value? = some v := by
  unfold received Blank gated value?
  cases c.body with
  | inl text => simp [Request.decode_eq_ok_iff]
  | inr w => simp [Gate.checkValue]

theorem received_eq_error_iff {limits : Limits} : c.received limits = .error e ↔
    c.Blank ∧ .malformed .empty = e ∨
    ¬c.Blank ∧ (Gate.check limits c.gated = .error e ∨
      Gate.check limits c.gated = .ok () ∧ c.value? = none ∧ .malformed .invalidJson = e) := by
  unfold received Blank gated value?
  cases c.body with
  | inl text => simp [Request.decode_eq_error_iff]
  | inr w => simp [Gate.checkValue, Checked.bind_eq_error, pure, Except.pure]

theorem not_blank_of_body {text : String} (hbody : c.body = .inl text)
    (htext : Text.allBlank text = false) : ¬c.Blank := by
  rintro ⟨text', hbody', hblank⟩
  rw [Sum.inl.inj (hbody.symm.trans hbody'), hblank] at htext
  cases htext

theorem serves (c : Call) : c.Serves c.kind c.collection c.id? := by
  cases c <;> constructor

theorem Serves.eq {kind : RequestKind} {collection : Collection} {given : Option String}
    (h : c.Serves kind collection given) :
    kind = c.kind ∧ collection = c.collection ∧ given = c.id? := by
  cases h <;> exact ⟨rfl, rfl, rfl⟩

/-- Pinning a request changes nothing but the roots of its plan. -/
theorem compile_pin (a : Ancestry) (collection : Collection) (r : Request)
    (given : Option String) :
    (r.pin given).compile a collection =
      (fun q : Plan => { q with roots := rootsUnder given q.roots }) <$>
        r.compile a collection := by
  have hpin : r.pin given = r.resetRoots (rootsUnder given r.roots) := by
    unfold rootsUnder Request.pin
    cases given with
    | none => rfl
    | some id => by_cases hid : id = "" <;> simp [hid, Request.resetRoots]
  rw [hpin]
  unfold Request.compile Request.resetRoots
  dsimp only
  cases r.steps.zipIdx.mapM fun q : Step × Nat => q.1.compile a q.2 <;> rfl

theorem plan_eq_ok_iff : c.plan s.limits s.ancestry = .ok p ↔ c.Accepted s p := by
  unfold plan
  simp only [request_eq, compile_pin, Checked.bind_eq_ok, Checked.map_eq_ok, Checked.pure_eq_ok,
    received_eq_ok_iff]
  constructor
  · intro h
    rcases h with ⟨_, ⟨v, ⟨hblank, hgate, hv⟩, r, hr, rfl⟩, _, ⟨q, hq, rfl⟩, rfl⟩
    exact ⟨hblank, hgate, _, _, _, v, r, q, c.serves, hv, hr, hq, rfl⟩
  · intro h
    rcases h with ⟨hblank, hgate, _, _, _, v, r, q, hserves, hv, hr, hq, rfl⟩
    obtain ⟨rfl, rfl, rfl⟩ := hserves.eq
    exact ⟨(v, r), ⟨v, ⟨hblank, hgate, hv⟩, r, hr, rfl⟩, _, ⟨q, hq, rfl⟩, rfl⟩

theorem plan_eq_error_iff : c.plan s.limits s.ancestry = .error e ↔ c.Refused s e := by
  unfold plan
  simp only [request_eq, compile_pin, Checked.bind_eq_ok, Checked.bind_eq_error,
    Checked.map_eq_error, Checked.pure_eq_ok, Checked.pure_ne_error, received_eq_ok_iff,
    received_eq_error_iff, and_false, exists_false, or_false]
  constructor
  · intro h
    rcases h with (hreceived | ⟨v, ⟨hblank, hgate, hv⟩, hr⟩) |
      ⟨_, ⟨v, ⟨hblank, hgate, hv⟩, r, hr, rfl⟩, hcompile⟩
    · rcases hreceived with ⟨hblank, rfl⟩ | ⟨hblank, hgate | ⟨hgate, hv, rfl⟩⟩
      · exact .blank hblank
      · exact .gate hblank hgate
      · exact .decoding hblank hgate hv
    · exact .reading hblank hgate c.serves hv hr
    · exact .compiling hblank hgate c.serves hv hr hcompile
  · intro h
    cases h with
    | blank hblank => exact .inl (.inl (.inl ⟨hblank, rfl⟩))
    | gate hblank hgate => exact .inl (.inl (.inr ⟨hblank, .inl hgate⟩))
    | decoding hblank hgate hv => exact .inl (.inl (.inr ⟨hblank, .inr ⟨hgate, hv, rfl⟩⟩))
    | reading hblank hgate hserves hv hr =>
      obtain ⟨rfl, -, -⟩ := hserves.eq
      exact .inl (.inr ⟨_, ⟨hblank, hgate, hv⟩, hr⟩)
    | compiling hblank hgate hserves hv hr hcompile =>
      obtain ⟨rfl, rfl, -⟩ := hserves.eq
      exact .inr ⟨_, ⟨_, ⟨hblank, hgate, hv⟩, _, hr, rfl⟩, hcompile⟩

/-- Only the gate makes a request too large: the other stages refuse what it asks for. -/
theorem Refused.category (h : c.Refused s e) :
    c.Barred s ∧ e.category = .payloadTooLarge ∨ ¬c.Barred s ∧ e.category = .badRequest := by
  have passed (hgate : Gate.check s.limits c.gated = .ok ()) : ¬c.Barred s := by
    rintro ⟨-, e, he⟩
    rw [hgate] at he
    cases he
  cases h with
  | blank hblank => exact .inr ⟨fun h => h.1 hblank, rfl⟩
  | gate hblank hgate => exact .inl ⟨⟨hblank, _, hgate⟩, Gate.category_of_check hgate⟩
  | decoding _ hgate _ => exact .inr ⟨passed hgate, rfl⟩
  | reading _ hgate _ _ hr =>
    exact .inr ⟨passed hgate, ((Request.refuses_read ..).reason _ hr).category⟩
  | compiling _ hgate _ _ _ hcompile =>
    exact .inr ⟨passed hgate, (Request.refuses_compile ..).reason _ hcompile⟩

end Call

def Outcome.category? (o : Outcome) : Option Category :=
  match o.result with
  | .error e => some e.category
  | .ok _ => none

/-- Whether an outcome is what a service has to make of a call: the store is given the plan of the
call if there is one, and its answer is that of the service; otherwise the first stage that is not
passed tells why. -/
structure Service.Handles (s : Service) (store : Store) (c : Call) (o : Outcome) : Prop where
  given (p : Plan) : o.plan = some p ↔ c.Accepted s p
  withheld : o.plan = none ↔ ∃ e, c.Refused s e
  answered (p : Plan) : o.plan = some p → o.result = (store p).mapError .failed
  refused (e : QueryError) : o.result = .error (.refused e) ↔ c.Refused s e
  tooLarge : o.category? = some .payloadTooLarge ↔ c.Barred s
  internal : o.category? = some .internal ↔ ∃ p e, o.plan = some p ∧ store p = .error e
  badRequest : o.category? = some .badRequest ↔ o.plan = none ∧ ¬c.Barred s

namespace Service
variable {s : Service} {c : Call}

theorem serve_of_ok {m : Type → Type} [Monad m] {p : Plan} (h : c.plan s.limits s.ancestry = .ok p)
    (store : Plan → m (Except StoreError Envelope)) :
    s.serve store c = do return (← store p).mapError .failed := by
  unfold serve
  rw [h]

theorem serve_of_error {m : Type → Type} [Monad m] {e : QueryError}
    (h : c.plan s.limits s.ancestry = .error e) (store : Plan → m (Except StoreError Envelope)) :
    s.serve store c = return .error (.refused e) := by
  unfold serve
  rw [h]

theorem run_of_ok {p : Plan} (h : c.plan s.limits s.ancestry = .ok p) (store : Store) :
    s.run store c = ⟨some p, (store p).mapError .failed⟩ := by
  rw [run, serve_of_ok h]
  rfl

theorem run_of_error {e : QueryError} (h : c.plan s.limits s.ancestry = .error e) (store : Store) :
    s.run store c = ⟨none, .error (.refused e)⟩ := by
  rw [run, serve_of_error h]
  rfl

/-- One call gives its plan to a store that notes plans, or leaves it as it is. -/
theorem serve_recording (s : Service) (answer : List Plan → Store) (c : Call) (given : List Plan) :
    (s.serve (recording answer) c).run given =
      ((s.run (answer given) c).result, given ++ (s.run (answer given) c).plan.toList) := by
  cases hp : c.plan s.limits s.ancestry with
  | error e =>
    rw [serve_of_error hp, run_of_error hp, Option.toList_none, List.append_nil]
    rfl
  | ok p =>
    rw [serve_of_ok hp, run_of_ok hp]
    rfl

theorem handles_of_refused {e : QueryError} (he : c.Refused s e) (store : Store) :
    s.Handles store c ⟨none, .error (.refused e)⟩ := by
  have hplan := Call.plan_eq_error_iff.mpr he
  constructor
  case given =>
    intro p
    rw [← Call.plan_eq_ok_iff, hplan]
    exact iff_of_false nofun nofun
  case withheld => exact iff_of_true rfl ⟨e, he⟩
  case answered => exact nofun
  case refused =>
    intro e'
    rw [← Call.plan_eq_error_iff, hplan]
    simp
  all_goals
    simp only [Outcome.category?, ServiceError.category]
    rcases he.category with ⟨hbarred, hcategory⟩ | ⟨hbarred, hcategory⟩ <;>
      simp [hbarred, hcategory]

theorem handles_of_accepted {p : Plan} (hp : c.Accepted s p) (store : Store) :
    s.Handles store c ⟨some p, (store p).mapError .failed⟩ := by
  have hplan := Call.plan_eq_ok_iff.mpr hp
  have hbarred : ¬c.Barred s := by
    rintro ⟨-, e, he⟩
    rw [hp.gate] at he
    cases he
  have hrefused (e : QueryError) : ¬c.Refused s e := by
    rw [← Call.plan_eq_error_iff, hplan]
    exact nofun
  constructor
  case given =>
    intro q
    rw [← Call.plan_eq_ok_iff, hplan]
    simp
  case withheld => exact iff_of_false nofun fun ⟨e, he⟩ => hrefused e he
  case answered =>
    intro q hq
    rw [Option.some.inj hq]
  all_goals
    simp only [Outcome.category?]
    cases hstore : store p <;>
      simp [hstore, hbarred, hrefused, Except.mapError, ServiceError.category]

theorem handles_run (s : Service) (store : Store) (c : Call) :
    s.Handles store c (s.run store c) := by
  cases hp : c.plan s.limits s.ancestry with
  | error e =>
    rw [run_of_error hp]
    exact handles_of_refused (Call.plan_eq_error_iff.mp hp) store
  | ok p =>
    rw [run_of_ok hp]
    exact handles_of_accepted (Call.plan_eq_ok_iff.mp hp) store

/-- Whether calls come out as they have to, one after the other, if the store was given some plans
before. -/
inductive Session (s : Service) (answer : List Plan → Store) :
    List Plan → List Call → List Outcome → Prop
  | done (given : List Plan) : Session s answer given [] []
  | call {given : List Plan} {c : Call} {o : Outcome} {cs : List Call} {os : List Outcome}
      (ho : s.Handles (answer given) c o)
      (hos : Session s answer (given ++ o.plan.toList) cs os) :
      Session s answer given (c :: cs) (o :: os)

theorem mapM_serve_recording (s : Service) (answer : List Plan → Store) (calls : List Call)
    (given : List Plan) :
    ∃ os : List Outcome, (calls.mapM (s.serve (recording answer))).run given =
        (os.map Outcome.result, given ++ os.filterMap Outcome.plan) ∧
      Session s answer given calls os := by
  induction calls generalizing given with
  | nil => exact ⟨[], by simp; rfl, .done given⟩
  | cons c cs ih =>
    have ho := s.handles_run (answer given) c
    have hrun := s.serve_recording answer c given
    generalize s.run (answer given) c = o at ho hrun
    rcases ih (given ++ o.plan.toList) with ⟨os, hos, hsession⟩
    refine ⟨o :: os, ?_, .call ho hsession⟩
    have hlog : given ++ (o :: os).filterMap Outcome.plan =
        given ++ o.plan.toList ++ os.filterMap Outcome.plan := by
      rw [List.filterMap_cons]
      cases o.plan <;> simp
    rw [List.mapM_cons, StateT.run_bind, hrun, hlog]
    change StateT.run (do
      let rs ← cs.mapM (s.serve (recording answer))
      pure (o.result :: rs)) (given ++ o.plan.toList) = _
    rw [StateT.run_bind, hos]
    rfl

/-- Whatever a store does, a call that passes all stages hands its plan over once and answers what
the store does; a call that does not hands over nothing.  In every sequence of calls the store is
given the plans of those that pass, in order, and each call comes out as it has to. -/
theorem all_or_nothing (s : Service) :
    (∀ (m : Type → Type) [Monad m] (store : Plan → m (Except StoreError Envelope)) (c : Call),
      (∀ p, c.Accepted s p → s.serve store c = do return (← store p).mapError .failed) ∧
      ∀ e, c.Refused s e → s.serve store c = return .error (.refused e)) ∧
    ∀ (answer : List Plan → Store) (calls : List Call), ∃ os : List Outcome,
      (calls.mapM (s.serve (recording answer))).run [] =
        (os.map Outcome.result, os.filterMap Outcome.plan) ∧
      Session s answer [] calls os := by
  refine ⟨fun m _ store c => ⟨fun p hp => ?_, fun e he => ?_⟩, fun answer calls => ?_⟩
  · exact serve_of_ok (Call.plan_eq_ok_iff.mpr hp) store
  · exact serve_of_error (Call.plan_eq_error_iff.mpr he) store
  · simpa using s.mapM_serve_recording answer calls []

/-- Of five calls the first has a blank text and the second one that is too long.  The others run,
for object groups under the identifier that is given, and where it is empty under the roots of the
request. -/
theorem all_or_nothing_three_of_five :
    let s : Service := ⟨{ maxRequestSize := 30 }, {}⟩
    let answer : List Plan → Store := fun _ _ => .error (.backend "offline")
    let blank : Call := .selectUnitsById " " "u1"
    let long : Call := .selectUnits "\x7b\"$query\":[\x7b\"$exists\":\"Title\"\x7d]\x7d"
    let groups : Call := .selectObjectGroupById "\x7b\"$roots\":[\"u1\"]\x7d" "g7"
    let update : Call := .updateUnitById "\x7b\"$roots\":[\"u1\"],\"$data\":\x7b\x7d\x7d" ""
    let insertion : Call := .insertObjectGroup (.obj [("$data", .obj [("Title", .str "Charter")])])
    let calls := [blank, long, groups, update, insertion]
    ∃ p q t os, blank.Refused s (.malformed .empty) ∧
      long.Refused s (.tooLarge (.bytes 32 30)) ∧
      (groups.Accepted s p ∧ (p.kind, p.collection, p.roots, p.hints, p.context) =
        (.select, .objectGroups, ["g7"], [.objectGroups], .obj [("$roots", .ofStrings ["u1"])])) ∧
      (update.Accepted s q ∧ (q.kind, q.collection, q.roots) = (.update, .units, ["u1"])) ∧
      (insertion.Accepted s t ∧ (t.kind, t.collection, t.roots) = (.insert, .objectGroups, [])) ∧
      s.serve (recording answer) blank = (return .error (.refused (.malformed .empty))) ∧
      s.serve (recording answer) groups = (do return (← recording answer p).mapError .failed) ∧
      (calls.mapM (s.serve (recording answer))).run [] =
        (os.map Outcome.result, os.filterMap Outcome.plan) ∧
      Session s answer [] calls os := by
  intro s answer blank long groups update insertion calls
  have hblank : blank.Refused s (.malformed .empty) := .blank ⟨" ", rfl, by decide⟩
  have hlong : long.Refused s (.tooLarge (.bytes 32 30)) := by
    have hbytes : long.gated.utf8ByteSize = 32 := by decide +kernel
    have hgate : Gate.check s.limits long.gated = .error (.tooLarge (.bytes 32 30)) :=
      hbytes ▸ Gate.check_of_lt (by decide +kernel)
    exact .gate (Call.not_blank_of_body rfl (by decide)) hgate
  obtain ⟨p, hp⟩ : ∃ p, groups.Accepted s p ∧
      (p.kind, p.collection, p.roots, p.hints, p.context) =
        (.select, .objectGroups, ["g7"], [.objectGroups],
          .obj [("$roots", .ofStrings ["u1"])]) := by
    have hvalue : groups.value? = some (.obj [("$roots", .ofStrings ["u1"])]) := by
      decide +kernel
    have hgate : Gate.check s.limits groups.gated = .ok () :=
      Gate.check_eq_ok_iff.mpr (by decide +kernel)
    exact ⟨_, ⟨Call.not_blank_of_body rfl (by decide), hgate, _, _, _, _, _, _,
      .selectObjectGroupById _ _, hvalue, rfl, rfl, rfl⟩, rfl⟩
  obtain ⟨q, hq⟩ : ∃ q, update.Accepted s q ∧
      (q.kind, q.collection, q.roots) = (.update, .units, ["u1"]) := by
    have hvalue : update.value? =
        some (.obj [("$roots", .ofStrings ["u1"]), ("$data", .obj [])]) := by decide +kernel
    have hgate : Gate.check s.limits update.gated = .ok () :=
      Gate.check_eq_ok_iff.mpr (by decide +kernel)
    exact ⟨_, ⟨Call.not_blank_of_body rfl (by decide), hgate, _, _, _, _, _, _,
      .updateUnitById _ _, hvalue, rfl, rfl, rfl⟩, rfl⟩
  obtain ⟨t, ht⟩ : ∃ t, insertion.Accepted s t ∧
      (t.kind, t.collection, t.roots) = (.insert, .objectGroups, []) := by
    have hgate : Gate.check s.limits insertion.gated = .ok () :=
      Gate.check_eq_ok_iff.mpr (by decide +kernel)
    refine ⟨_, ⟨?_, hgate, _, _, _, _, _, _, .insertObjectGroup _, rfl, rfl, rfl, rfl⟩, rfl⟩
    rintro ⟨_, ⟨⟩, _⟩
  have h := all_or_nothing s
  rcases h.2 answer calls with ⟨os, hos, hsession⟩
  have hserve := h.1 (StateM (List Plan)) (recording answer)
  exact ⟨p, q, t, os, hblank, hlong, hp, hq, ht, (hserve blank).2 _ hblank,
    (hserve groups).1 p hp.1, hos, hsession⟩

end Service
end ArchivalQuery
