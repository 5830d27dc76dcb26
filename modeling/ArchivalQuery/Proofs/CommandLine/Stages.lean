import ArchivalQuery.CommandLine.Run
import ArchivalQuery.Proofs.Json.WrittenBack
import ArchivalQuery.Proofs.Plan.Refusal
import ArchivalQuery.Proofs.Request.Entry
import ArchivalQuery.Proofs.Request.Refusals
import ArchivalQuery.Service

/-! # Passing the gate twice

The plan that the program shows is made of a decoded value, which passes the gate again as compact
text; the check and the service read the value as it was decoded.  Both ways agree exactly where the
compact text is not too long, and a value without floats never gets longer.
-/
namespace ArchivalQuery

theorem Stage.mapError_note {α : Type} (stage : Stage) (x : Checked α) :
    (stage.note x).mapError StageError.error = x := by
  cases x <;> rfl

theorem mapError_bind {α β ε ε' : Type} (x : Except ε α) (f : α → Except ε β) (g : ε → ε') :
    (x >>= f).mapError g = x.mapError g >>= fun a => (f a).mapError g := by
  cases x <;> rfl

namespace Request
variable {limits : Limits} {text : String} {v : Json}

/-- A decoded value without floats passes the gate again. -/
theorem fits_of_integral (h : decode limits text = .ok v) (hv : v.Integral) :
    v.text.utf8ByteSize ≤ limits.maxRequestSize.toNat := by
  rcases decode_eq_ok_iff.mp h with ⟨-, hgate, htext⟩
  exact Nat.le_trans (Json.utf8ByteSize_text_le htext hv) (Gate.check_eq_ok_iff.mp hgate).1

end Request

namespace Plan
variable {s : Settings} {kind : RequestKind} {c : Collection} {id : Option String} {text : String}

/-- The plan of a text that passes the gate once. -/
def ofTextOnce (s : Settings) (kind : RequestKind) (c : Collection) (id : Option String)
    (text : String) : Checked Plan := do
  let r ← Request.ofText kind s.limits text
  (r.pin id).compile s.ancestry c

def ofDecoded (s : Settings) (kind : RequestKind) (c : Collection) (id : Option String) (v : Json) :
    Checked Plan := do
  let r ← Request.read kind s.limits v
  (r.pin id).compile s.ancestry c

theorem ofTextOnce_eq :
    ofTextOnce s kind c id text = Request.decode s.limits text >>= ofDecoded s kind c id :=
  bind_assoc ..

theorem mapError_ofText : (ofText s kind c id text).mapError StageError.error =
    Request.decode s.limits text >>= fun v =>
      Gate.checkValue s.limits v >>= fun _ => ofDecoded s kind c id v := by
  simp only [ofText, mapError_bind, Stage.mapError_note, Request.ofValue, bind_assoc, ofDecoded]

/-- Neither the reader nor the compiler finds a request too large. -/
theorem refuses_ofDecoded (v : Json) :
    (ofDecoded s kind c id v).RefusesOnly (·.category = .badRequest) := by
  refine .bind ⟨fun e he => ?_⟩ fun r => Request.refuses_compile ..
  have hreader := (Request.refuses_read kind s.limits v).reason e he
  cases e with
  | tooLarge excess => exact hreader.elim
  | _ => rfl

/-- A decoded value whose compact text is too long is refused for its length. -/
theorem ofText_of_lt {v : Json} (h : Request.decode s.limits text = .ok v)
    (hlong : s.limits.maxRequestSize.toNat < v.text.utf8ByteSize) :
    ofText s kind c id text = .error ⟨.read, .tooLarge
      (.bytes v.text.utf8ByteSize s.limits.maxRequestSize.toNat)⟩ := by
  have hread : Request.ofValue kind s.limits v = .error (.tooLarge
      (.bytes v.text.utf8ByteSize s.limits.maxRequestSize.toNat)) := Request.ofValue_of_lt hlong
  rw [ofText, h]
  show (Stage.read.note (Request.ofValue kind s.limits v) >>= _) = _
  rw [hread]
  rfl

/-- Both ways give the same plan, or the same refusal, unless the compact text is too long. -/
theorem ofText_agrees_iff : (ofText s kind c id text).mapError StageError.error =
      ofTextOnce s kind c id text ↔
    ∀ v, Request.decode s.limits text = .ok v →
      v.text.utf8ByteSize ≤ s.limits.maxRequestSize.toNat := by
  rw [mapError_ofText, ofTextOnce_eq]
  cases hv : Request.decode s.limits text with
  | error e => exact iff_of_true rfl nofun
  | ok v =>
    have hagree : (Gate.checkValue s.limits v >>= fun _ => ofDecoded s kind c id v) =
        ofDecoded s kind c id v ↔ v.text.utf8ByteSize ≤ s.limits.maxRequestSize.toNat := by
      constructor
      · intro heq
        by_contra hlong
        rw [Nat.not_le] at hlong
        rw [Gate.checkValue, Gate.check_of_lt hlong] at heq
        have hcategory := (refuses_ofDecoded v).reason _ heq.symm
        cases hcategory
      · intro hfit
        rw [(Request.checkValue_eq_ok_iff_of_decode hv).mpr hfit]
        rfl
    refine hagree.trans ⟨fun hfit w hw => ?_, fun h => h v rfl⟩
    obtain rfl := Except.ok.inj hw
    exact hfit

end Plan

/-- The check succeeds where there is a plan, whatever the request is pinned to. -/
theorem CommandLine.code_checkRequest_eq_zero_iff {s : Settings} {kind : RequestKind}
    {c : Collection} {id : Option String} {text : String} :
    (checkRequest s kind c text).code = 0 ↔ ∃ p, Plan.ofTextOnce s kind c id text = .ok p := by
  have hone : (1 : UInt8) ≠ 0 := by decide
  unfold checkRequest Plan.ofTextOnce
  cases Request.ofText kind s.limits text with
  | error e => exact iff_of_false hone nofun
  | ok r =>
    refine Iff.trans ?_ (r.exists_compile_pin_iff id c).symm
    cases hp : r.compile s.ancestry c with
    | error e =>
      simp [hp, bind, Except.bind, Output.failed]
    | ok p =>
      simp [hp, bind, Except.bind, Output.line, pure, Except.pure]

def Call.text? : Call → Option String
  | selectUnits text | selectUnitsById text _ | selectObjectGroupById text _
  | updateUnitById text _ => some text
  | insertUnit _ | insertObjectGroup _ => none

def Plan.withoutContext (p : Plan) : Plan := { p with context := .null }

theorem Request.withoutContext_compile (a : Ancestry) (c : Collection) (r : Request) :
    Plan.withoutContext <$> r.compile a c = r.compile a c := by
  unfold compile
  cases r.steps.zipIdx.mapM fun p : Step × Nat => p.1.compile a p.2 <;> rfl

/-- A call makes the plan of its text and adds the request as it came. -/
theorem Call.withoutContext_plan (s : Settings) {call : Call} {text : String}
    (h : call.text? = some text) : Plan.withoutContext <$> call.plan s.limits s.ancestry =
      Plan.ofTextOnce s call.kind call.collection call.id? text := by
  have hrequest : call.request s.limits = (do
      let v ← Request.decode s.limits text
      return (v, ← Request.read call.kind s.limits v)) := by
    cases call <;> cases h <;> rfl
  have hcontext (v : Json) (x : Checked Plan) :
      (Plan.withoutContext <$> do
        let p ← x
        return { p with context := v }) = Plan.withoutContext <$> x := by
    cases x <;> rfl
  rw [plan, hrequest, Plan.ofTextOnce_eq]
  simp only [bind_assoc, pure_bind, map_bind]
  refine bind_congr fun v => bind_congr fun r => ?_
  have hplan := (hcontext v _).trans
    (Request.withoutContext_compile s.ancestry call.collection (r.pin call.id?))
  rwa [map_bind] at hplan

/-- The plan that the program shows, or its refusal, is that of the check and the service exactly if
the decoded value is not too long as compact text.  A value without floats never is; one that is too
long is refused for its length. -/
theorem Plan.agrees_iff_fits (s : Settings) (kind : RequestKind) (c : Collection)
    (id : Option String) (text : String) :
    ((ofText s kind c id text).mapError StageError.error = ofTextOnce s kind c id text ↔
      ∀ v, Request.decode s.limits text = .ok v →
        v.text.utf8ByteSize ≤ s.limits.maxRequestSize.toNat) ∧
    (∀ v, Request.decode s.limits text = .ok v →
      (v.Integral → v.text.utf8ByteSize ≤ s.limits.maxRequestSize.toNat) ∧
      (s.limits.maxRequestSize.toNat < v.text.utf8ByteSize → ofText s kind c id text =
        .error ⟨.read, .tooLarge (.bytes v.text.utf8ByteSize s.limits.maxRequestSize.toNat)⟩)) ∧
    ((CommandLine.checkRequest s kind c text).code = 0 ↔
      ∃ p, ofTextOnce s kind c id text = .ok p) ∧
    ∀ call : Call, call.text? = some text → call.kind = kind → call.collection = c →
      call.id? = id →
      withoutContext <$> call.plan s.limits s.ancestry = ofTextOnce s kind c id text := by
  refine ⟨ofText_agrees_iff, fun v hv => ⟨Request.fits_of_integral hv, ofText_of_lt hv⟩,
    CommandLine.code_checkRequest_eq_zero_iff, ?_⟩
  rintro call htext rfl rfl rfl
  exact call.withoutContext_plan s htext

namespace Samples

/-- A request for a number that takes more places without an exponent. -/
def exponentText : String := "\x7b\"$query\":\x7b\"$eq\":\x7b\"Size\":1e9\x7d\x7d\x7d"

def settings : Settings := { limits := { maxRequestSize := 31 } }

theorem exists_decode_exponent : ∃ v, Request.decode settings.limits exponentText = .ok v ∧
    v.text.utf8ByteSize = 40 := by
  have hread : (Json.ofText? exponentText).map (·.text.utf8ByteSize) = some 40 := by decide +kernel
  rcases Option.map_eq_some_iff.mp hread with ⟨v, hv, hsize⟩
  have hblank : Text.allBlank exponentText = false := by decide +kernel
  have hgate : exponentText.utf8ByteSize ≤ settings.limits.maxRequestSize.toNat ∧
      Gate.nesting exponentText ≤ settings.limits.maxNestingDepth.toNat := by decide +kernel
  exact ⟨v, Request.decode_eq_ok_iff.mpr ⟨hblank, Gate.check_eq_ok_iff.mpr hgate, hv⟩, hsize⟩

def rootsText : String := "\x7b\"$roots\":[\"unit-1\"]\x7d"

theorem decode_roots : Request.decode settings.limits rootsText =
    .ok (.obj [("$roots", .arr [.str "unit-1"])]) := by
  have hread : Json.ofText? rootsText = some (.obj [("$roots", .arr [.str "unit-1"])]) := by
    decide +kernel
  have hblank : Text.allBlank rootsText = false := by decide +kernel
  have hgate : rootsText.utf8ByteSize ≤ settings.limits.maxRequestSize.toNat ∧
      Gate.nesting rootsText ≤ settings.limits.maxNestingDepth.toNat := by decide +kernel
  exact Request.decode_eq_ok_iff.mpr ⟨hblank, Gate.check_eq_ok_iff.mpr hgate, hread⟩

end Samples

open Samples

theorem Plan.agrees_iff_fits_samples :
    (∃ v, Request.decode settings.limits exponentText = .ok v ∧ 31 < v.text.utf8ByteSize ∧
      ofText settings .select .units none exponentText =
        .error ⟨.read, .tooLarge (.bytes v.text.utf8ByteSize 31)⟩) ∧
    (∃ v, Request.decode settings.limits rootsText = .ok v ∧ v.Integral ∧
      v.text.utf8ByteSize ≤ settings.limits.maxRequestSize.toNat) ∧
    (Call.selectUnits rootsText).text? = some rootsText ∧
    withoutContext <$> (Call.selectUnits rootsText).plan settings.limits settings.ancestry =
      ofTextOnce settings .select .units none rootsText := by
  rcases exists_decode_exponent with ⟨v, hv, hsize⟩
  have hlong : 31 < v.text.utf8ByteSize := by omega
  have hintegral : (Json.obj [("$roots", .arr [.str "unit-1"])]).Integral := by
    simp [Json.Integral, Json.ItemsIntegral, Json.MembersIntegral]
  have hexponent := agrees_iff_fits settings .select .units none exponentText
  have hroots := agrees_iff_fits settings .select .units none rootsText
  have hfits := (hroots.2.1 _ decode_roots).1 hintegral
  exact ⟨⟨v, hv, hlong, (hexponent.2.1 v hv).2 hlong⟩, ⟨_, decode_roots, hintegral, hfits⟩, rfl,
    hroots.2.2.2 (.selectUnits rootsText) rfl rfl rfl rfl⟩

/-- The check accepts a text that has a plan, and the program shows none for it. -/
theorem Plan.exponent_checked_not_shown :
    (CommandLine.checkRequest settings .select .units exponentText).code = 0 ∧
    (∃ p, ofTextOnce settings .select .units none exponentText = .ok p) ∧
    ofText settings .select .units none exponentText = .error ⟨.read, .tooLarge (.bytes 40 31)⟩ := by
  have hcode : (CommandLine.checkRequest settings .select .units exponentText).code = 0 := by
    decide +kernel
  rcases exists_decode_exponent with ⟨v, hv, hsize⟩
  have hlong : 31 < v.text.utf8ByteSize := by omega
  refine ⟨hcode, CommandLine.code_checkRequest_eq_zero_iff.mp hcode, ?_⟩
  rw [← hsize]
  exact ofText_of_lt hv hlong

end ArchivalQuery
