import ArchivalQuery.Proofs.Node.Documents
import ArchivalQuery.Proofs.Node.Strings
import ArchivalQuery.Proofs.Plan.Refusal
import ArchivalQuery.Proofs.Plan.Scope

/-! # Commands of a plan

Every command of the plan of a request that is read is a filter document over names that look
neither like operators nor like reserved names.  Identifiers and operands keep their places in it,
whatever characters they hold.
-/
namespace ArchivalQuery
open ArchivalQuery.Filter (Document)

section Documents
variable {a : Ancestry} {Key : String → Prop} (hnames : ∀ role, Key (a.name role))
include hnames

theorem Scope.document_restriction (scope : Scope) (ids : List String) :
    ∀ f ∈ (scope.binding a).restriction? ids, Document Key f := by
  have member {key : String} (hkey : Key key) : ∀ f ∈ Filter.memberOf? key ids, Document Key f :=
    fun _ hf => Filter.document_of_memberOf? hkey hf
  cases scope with
  | children => exact member (hnames .parents)
  | descendants hops => exact member (hnames .parents)
  | ancestors hops => exact member (hnames .id)
  | exact depth =>
    intro f hf
    obtain rfl := Option.some.inj hf
    exact Filter.document_within (member (hnames .ancestors)) (hnames .minDepth) (hnames .maxDepth)

theorem Step.document_command {s : Step} (hs : s.node.Writable)
    (hfields : ∀ name ∈ s.node.fields, Key (Field.stored a name)) {index : Nat} {p : PlanStep}
    (hp : s.compile a index = .ok p) {ids : List String} {f : Json} (hf : p.command? ids = some f) :
    Document Key f := by
  rcases compile_eq_ok_iff.mp hp with ⟨-, query, hquery, rfl⟩
  have hdocument : Document Key query := hs.document (hnames .id) hfields hquery
  unfold PlanStep.command? at hf
  split at hf
  · cases hf
  · obtain rfl := Option.some.inj hf
    exact Filter.document_restrict hdocument (s.depth.scope.document_restriction hnames ids)

theorem Plan.document_lookupCommand {p : Plan} (hp : p.idField = a.id) :
    Document Key p.lookupCommand ∨ p.roots = [] ∧ p.lookupCommand = .obj [] := by
  unfold lookupCommand
  rw [hp]
  cases h : Filter.memberOf? a.id p.roots with
  | none => exact .inr ⟨Filter.memberOf?_eq_none_iff.mp h, rfl⟩
  | some f => exact .inl (Filter.document_of_memberOf? (hnames .id) h)

end Documents

/-- The names that the filters of a request have for fields: names of the configuration, and the
stored names of fields that the request tests.  None of them looks like an operator or a reserved
name. -/
structure Request.FieldKey (a : Ancestry) (r : Request) (key : String) : Prop where
  origin : (∃ role, key = a.name role) ∨
    ∃ s ∈ r.steps, ∃ name ∈ s.node.fields, Field.storedName? a name = some key
  unmarked : Field.Unmarked key

theorem Request.fieldKey_name {a : Ancestry} (ha : a.Unmarked) (r : Request) (role : Role) :
    r.FieldKey a (a.name role) :=
  ⟨.inl ⟨role, rfl⟩, ha role⟩

theorem Request.fieldKey_stored {a : Ancestry} (ha : a.Unmarked) {r : Request} {s : Step}
    (hs : s ∈ r.steps) (hnode : s.node.Writable) {name : String} (hname : name ∈ s.node.fields) :
    r.FieldKey a (Field.stored a name) :=
  ⟨.inr ⟨s, hs, name, hname, Field.storedName?_eq_some_stored (hnode.admitted hname)⟩,
    Field.unmarked_stored ha (hnode.admitted hname)⟩

section Strings
variable (g : String → String)

def Step.mapStrings (s : Step) : Step := { s with node := s.node.mapStrings g }

/-- A request with each root replaced, and each string of its trees. -/
def Request.mapStrings (r : Request) : Request :=
  { r with roots := r.roots.map g, steps := r.steps.map (Step.mapStrings g) }

def PlanStep.mapStrings (s : PlanStep) : PlanStep := { s with query := s.query.mapStrings g }

def Plan.mapStrings (p : Plan) : Plan :=
  { p with roots := p.roots.map g, steps := p.steps.map (PlanStep.mapStrings g) }

variable {g} (hg : g "" = "")

include hg in
theorem Step.compile_mapStrings {a : Ancestry} (s : Step) (index : Nat) :
    (s.mapStrings g).compile a index = PlanStep.mapStrings g <$> s.compile a index := by
  unfold compile
  rw [mapStrings, Node.filter_mapStrings hg]
  cases s.depth.resolve with
  | error e => rfl
  | ok scope => cases s.node.filter a <;> rfl

include hg in
/-- The plan of a request with other strings is its plan with the other strings. -/
theorem Request.compile_mapStrings {a : Ancestry} (c : Collection) (r : Request) :
    (r.mapStrings g).compile a c = Plan.mapStrings g <$> r.compile a c := by
  have hsteps : (r.steps.map (Step.mapStrings g)).zipIdx.mapM
        (fun p : Step × Nat => p.1.compile a p.2) =
      List.map (PlanStep.mapStrings g) <$>
        r.steps.zipIdx.mapM fun p : Step × Nat => p.1.compile a p.2 := by
    rw [List.zipIdx_map]
    exact Checked.mapM_map fun p _ => p.1.compile_mapStrings hg p.2
  unfold compile
  rw [mapStrings, hsteps]
  cases r.steps.zipIdx.mapM fun p : Step × Nat => p.1.compile a p.2 <;> rfl

theorem Binding.restriction?_map (b : Binding) (ids : List String) :
    b.restriction? (ids.map g) = (b.restriction? ids).map (Json.mapStrings g) := by
  unfold restriction?
  rw [Filter.memberOf?_map]
  cases b.window with
  | none => rfl
  | some w =>
    cases Filter.memberOf? b.field ids <;> simp [Filter.within, Json.ofUInt32]

theorem Filter.restrict_mapStrings (query : Json) (restriction : Option Json) :
    restrict (query.mapStrings g) (restriction.map (Json.mapStrings g)) =
      (restrict query restriction).mapStrings g := by
  cases restriction with
  | none => rfl
  | some f => simp [restrict]

theorem PlanStep.command?_map (s : PlanStep) (ids : List String) :
    (s.mapStrings g).command? (ids.map g) = (s.command? ids).map (Json.mapStrings g) := by
  unfold command?
  simp only [mapStrings, List.isEmpty_map, Binding.restriction?_map, Filter.restrict_mapStrings]
  rw [apply_ite (Option.map (Json.mapStrings g))]
  rfl

theorem Plan.firstCommand?_mapStrings (p : Plan) :
    (p.mapStrings g).firstCommand? = p.firstCommand?.map (Json.mapStrings g) := by
  unfold firstCommand? mapStrings
  cases p.steps with
  | nil => rfl
  | cons s ss =>
    simp only [List.map_cons, PlanStep.command?_map]
    rw [apply_ite (Option.map (Json.mapStrings g))]
    rfl

theorem Plan.lookupCommand_mapStrings (p : Plan) :
    (p.mapStrings g).lookupCommand = p.lookupCommand.mapStrings g := by
  unfold lookupCommand mapStrings
  rw [Filter.memberOf?_map]
  cases Filter.memberOf? p.idField p.roots <;> simp

end Strings

/-- Every command of a plan, for every working set, is a document over the field keys of the
request, except that a look-up without roots is empty.  With other strings for the roots, the
operands and the working set, the plan and its commands have the other strings and the same form;
the empty text stands for itself, as the store is given it for the options of a pattern. -/
theorem Request.commands_are_documents {a : Ancestry} (ha : a.Unmarked) {kind : RequestKind}
    {limits : Limits} {v : Json} {r : Request} (hr : Request.read kind limits v = .ok r)
    (id : Option String) {c : Collection} {p : Plan} (hp : (r.pin id).compile a c = .ok p) :
    (∀ s ∈ p.steps, ∀ ids f, s.command? ids = some f → Document (r.FieldKey a) f) ∧
    (∀ f, p.firstCommand? = some f → Document (r.FieldKey a) f) ∧
    (Document (r.FieldKey a) p.lookupCommand ∨ p.roots = [] ∧ p.lookupCommand = .obj []) ∧
    ∀ g : String → String, g "" = "" →
      ((r.pin id).mapStrings g).compile a c = .ok (p.mapStrings g) ∧
      (∀ s ∈ p.steps, ∀ ids, (s.mapStrings g).command? (ids.map g) =
        (s.command? ids).map (Json.mapStrings g)) ∧
      (p.mapStrings g).firstCommand? = p.firstCommand?.map (Json.mapStrings g) ∧
      (p.mapStrings g).lookupCommand = p.lookupCommand.mapStrings g := by
  have hnames : ∀ role, r.FieldKey a (a.name role) := r.fieldKey_name ha
  have command : ∀ s ∈ p.steps, ∀ ids f, s.command? ids = some f → Document (r.FieldKey a) f := by
    intro ps hps ids f hf
    rcases exists_compile_of_mem_steps hp hps with ⟨s, hs, index, hcompile⟩
    rw [steps_pin] at hs
    rcases exists_read_of_mem_steps hr hs with ⟨place, w, hw⟩
    have hnode := Step.read_writable hw
    exact Step.document_command hnames hnode (fun _ hname => fieldKey_stored ha hs hnode hname)
      hcompile hf
  have hid : p.idField = a.id := by
    simp only [compile, Checked.bind_eq_ok, Checked.pure_eq_ok] at hp
    rcases hp with ⟨steps, -, rfl⟩
    rfl
  refine ⟨command, fun f hf => ?_, Plan.document_lookupCommand hnames hid, fun g hg => ?_⟩
  · unfold Plan.firstCommand? at hf
    split at hf
    · cases hf
    · rename_i s ss hsteps
      split at hf
      · exact command s (hsteps ▸ List.mem_cons_self) p.roots f hf
      · cases hf
  · refine ⟨?_, fun s _ => s.command?_map, p.firstCommand?_mapStrings, p.lookupCommand_mapStrings⟩
    rw [compile_mapStrings hg, hp]
    rfl

/-- A root and an operand that look like operators. -/
theorem Request.commands_are_documents_operator_like :
    Ancestry.Unmarked {} ∧ ∃ r p, Request.read .select {} (.obj [("$roots", .ofStrings ["$or"]),
        ("$query", .obj [("$eq", .obj [("Title", .str "$where")])])]) = .ok r ∧
      (r.pin none).compile {} .units = .ok p ∧
      p.firstCommand? = some (.single "$and" (.arr
        [.single "Title" (.str "$where"), .single "_up" (.str "$or")])) ∧
      Document (r.FieldKey {}) (.single "$and" (.arr
        [.single "Title" (.str "$where"), .single "_up" (.str "$or")])) := by
  have ha : Ancestry.Unmarked {} := by
    intro role
    unfold Field.Unmarked
    cases role <;> decide
  refine ⟨ha, _, _, rfl, rfl, rfl, ?_⟩
  exact (@Request.commands_are_documents {} ha .select {} (.obj [("$roots", .ofStrings ["$or"]),
    ("$query", .obj [("$eq", .obj [("Title", .str "$where")])])]) _ rfl none .units _ rfl).2.1 _ rfl

end ArchivalQuery
