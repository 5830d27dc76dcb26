import ArchivalQuery.Json.Reader
import ArchivalQuery.Proofs.Json.Nesting

/-! # The scan of a text that is read

The scan of brackets follows the reader: at every character it has the reader's stack for its open
brackets, and the deepest part read so far for its deepest bracket.  So long as nothing has failed
and no part is a fault, the two are in step, and the text is nested as deeply as its draft.
-/
namespace ArchivalQuery.Json.Reader
open Gate (Scan)
open Decimal (Numeral)

def Frame.drafts : Frame → List Draft
  | array ds => ds
  | object ms => ms.map Prod.snd
  | member ms _ => ms.map Prod.snd

/-- Whether no draft in the open containers has a fault. -/
def SoundStack (stack : List Frame) : Prop := ∀ f ∈ stack, ∀ d ∈ f.drafts, d.sound

/-- How deep the open containers and the drafts in them are. -/
def stackDepth : List Frame → Nat
  | [] => 0
  | f :: fs => max (fs.length + 1 + Draft.itemsDepth f.drafts) (stackDepth fs)

/-- The scan between two tokens, with a part of some depth in the innermost container. -/
def outside (stack : List Frame) (n : Nat) : Scan where
  depth := stack.length
  deepest := max (stackDepth stack) (stack.length + n)

/-- Whether an escape waits for the character after its backslash. -/
def Escape.isOpen : Escape → Bool
  | backslash | partnerLetter _ => true
  | _ => false

def inside (stack : List Frame) (escape : Escape) : Scan :=
  { outside stack 0 with quoted := true, escaped := escape.isOpen }

def State.scan (s : State) : Scan :=
  match s.mode with
  | .finished d => { deepest := d.depth }
  | .word _ d => outside s.stack d.depth
  | .quoted _ escape => inside s.stack escape
  | _ => outside s.stack 0

/-- Whether nothing has failed and no draft has a fault. -/
def State.Sound (s : State) : Prop :=
  match s.mode with
  | .failed => False
  | .finished d => d.sound
  | .word _ d => SoundStack s.stack ∧ d.sound
  | _ => SoundStack s.stack

theorem not_sound_failure : ¬State.failure.Sound := id

theorem not_sound_fault : ¬Draft.fault.sound = true := by
  simp [Draft.sound, Draft.value?]

theorem itemsDepth_reverse (ds : List Draft) :
    Draft.itemsDepth ds.reverse = Draft.itemsDepth ds := by
  have h (n : Nat) : Draft.itemsDepth ds.reverse ≤ n ↔ Draft.itemsDepth ds ≤ n := by
    simp only [Draft.itemsDepth_le_iff, List.mem_reverse]
  exact Nat.le_antisymm ((h _).mpr (Nat.le_refl _)) ((h _).mp (Nat.le_refl _))

theorem membersDepth_eq (ms : List (String × Draft)) :
    Draft.membersDepth ms = Draft.itemsDepth (ms.map Prod.snd) := by
  induction ms with
  | nil => rfl
  | cons m ms ih => rw [Draft.membersDepth, ih, List.map_cons, Draft.itemsDepth]

/-- The members of an object whose names all have values. -/
theorem eq_map_of_named {ms : List (Option String × Draft)} {named : List (String × Draft)}
    (h : ms.mapM (fun m => m.1.map (·, m.2)) = some named) :
    ms = named.map fun m => (some m.1, m.2) := by
  induction ms generalizing named with
  | nil =>
    obtain rfl := Option.some.inj h
    rfl
  | cons m ms ih =>
    rcases mapM_cons_eq_some_iff.mp h with ⟨_, rest, hm, hrest, rfl⟩
    rcases Option.map_eq_some_iff.mp hm with ⟨name, hname, rfl⟩
    rw [List.map_cons, ← ih hrest, ← hname]

theorem soundStack_cons {f : Frame} {stack : List Frame} :
    SoundStack (f :: stack) ↔ (∀ d ∈ f.drafts, d.sound) ∧ SoundStack stack :=
  List.forall_mem_cons

/-- An object without faults has the drafts of its members, so it is as deep as they are. -/
theorem object_sound {ms : List (Option String × Draft)} (h : (object ms).sound) :
    (∀ d ∈ ms.map Prod.snd, d.sound) ∧
      (object ms).depth = Draft.itemsDepth (ms.map Prod.snd) + 1 := by
  unfold object at h ⊢
  split at h
  · rename_i named hnamed
    have hsnd : named.map Prod.snd = (ms.map Prod.snd).reverse := by
      rw [← List.map_reverse, eq_map_of_named hnamed, List.map_map]
      rfl
    constructor
    · intro d hd
      rw [← List.mem_reverse, ← hsnd, List.mem_map] at hd
      rcases hd with ⟨m, hm, rfl⟩
      exact Draft.sound_obj_iff.mp h m hm
    · rw [Draft.depth, membersDepth_eq, hsnd, itemsDepth_reverse]
  · exact absurd h not_sound_fault

section Settling
variable {stack : List Frame} {d : Draft}

theorem settle_sound (h : (settle d stack).Sound) :
    d.sound ∧ SoundStack stack ∧ (settle d stack).scan = outside stack d.depth := by
  unfold settle at h ⊢
  split at h
  · exact ⟨h, by simp [SoundStack], by simp [State.scan, outside, stackDepth]⟩
  · rename_i ds stack
    rcases soundStack_cons.mp h with ⟨hd, hstack⟩
    rcases List.forall_mem_cons.mp hd with ⟨hd, hds⟩
    refine ⟨hd, soundStack_cons.mpr ⟨hds, hstack⟩, ?_⟩
    simp only [State.scan, outside, stackDepth, Frame.drafts, Draft.itemsDepth, List.length_cons,
      Scan.mk.injEq, and_true, true_and]
    omega
  · rename_i ms k stack
    rcases soundStack_cons.mp h with ⟨hd, hstack⟩
    rcases List.forall_mem_cons.mp hd with ⟨hd, hds⟩
    refine ⟨hd, soundStack_cons.mpr ⟨hds, hstack⟩, ?_⟩
    simp only [State.scan, outside, stackDepth, Frame.drafts, Draft.itemsDepth, List.length_cons,
      List.map_cons, Scan.mk.injEq, and_true, true_and]
    omega
  · exact h.elim

theorem close_sound (h : (close d stack).Sound) :
    d.sound ∧ SoundStack stack ∧ (close d stack).scan = outside stack d.depth := by
  unfold close at h ⊢
  split at h
  · rename_i hfew
    rw [if_pos hfew]
    exact settle_sound h
  · exact absurd (settle_sound h).1 not_sound_fault

end Settling

section Steps
variable {stack : List Frame} {c : Char}

theorem outside_step_plain (n : Nat) (hc : Scan.Plain c) :
    (outside stack n).step c = outside stack n :=
  Scan.step_plain rfl hc

theorem outside_step_open (hc : c = '[' ∨ c = '\x7b') {f : Frame} (hf : f.drafts = []) :
    (outside stack 0).step c = outside (f :: stack) 0 := by
  have hstep : (outside stack 0).step c = (outside stack 0).opened := by
    rcases hc with rfl | rfl <;> rfl
  rw [hstep]
  simp only [Scan.opened, outside, stackDepth, hf, Draft.itemsDepth, List.length_cons,
    Scan.mk.injEq, and_true, true_and]
  omega

theorem outside_step_close (hc : c = ']' ∨ c = '\x7d') (f : Frame) :
    (outside (f :: stack) 0).step c = outside stack (Draft.itemsDepth f.drafts + 1) := by
  have hstep : (outside (f :: stack) 0).step c = (outside (f :: stack) 0).closed := by
    rcases hc with rfl | rfl <;> rfl
  rw [hstep]
  simp only [Scan.closed, outside, stackDepth, List.length_cons, Nat.add_sub_cancel,
    Scan.mk.injEq, and_true, true_and]
  omega

theorem plain_comma : Scan.Plain ',' := by
  unfold Scan.Plain
  decide

theorem plain_of_isSpace (h : isSpace c = true) : Scan.Plain c := by
  simp only [isSpace, Bool.or_eq_true, beq_iff_eq] at h
  unfold Scan.Plain
  rcases h with ((rfl | rfl) | rfl) | rfl <;> decide

theorem afterValue_sound (h : (afterValue stack c).Sound) :
    SoundStack stack ∧ (afterValue stack c).scan = (outside stack 0).step c := by
  match stack with
  | .array ds :: stack =>
    rw [afterValue] at h ⊢
    split_ifs at h ⊢ with hcomma hclose
    · subst hcomma
      exact ⟨h, (outside_step_plain 0 plain_comma).symm⟩
    · rcases close_sound h with ⟨hd, hstack, hscan⟩
      have hds : ∀ d ∈ ds, d.sound := by simpa using Draft.sound_arr_iff.mp hd
      refine ⟨soundStack_cons.mpr ⟨hds, hstack⟩, ?_⟩
      rw [hscan, outside_step_close (.inl hclose), Draft.depth, itemsDepth_reverse, Frame.drafts]
    · exact absurd h not_sound_failure
  | .object ms :: stack =>
    rw [afterValue] at h ⊢
    split_ifs at h ⊢ with hcomma hclose
    · subst hcomma
      exact ⟨h, (outside_step_plain 0 plain_comma).symm⟩
    · rcases close_sound h with ⟨hd, hstack, hscan⟩
      rcases object_sound hd with ⟨hds, hdepth⟩
      refine ⟨soundStack_cons.mpr ⟨hds, hstack⟩, ?_⟩
      rw [hscan, outside_step_close (.inr hclose), hdepth, Frame.drafts]
    · exact absurd h not_sound_failure
  | [] => exact absurd h not_sound_failure
  | .member _ _ :: _ => exact absurd h not_sound_failure

theorem startValue_sound (h : (startValue stack c).Sound) :
    SoundStack stack ∧ (startValue stack c).scan = (outside stack 0).step c := by
  unfold startValue at h ⊢
  split_ifs at h ⊢ with hquote harray hobject hnull htrue hfalse hpart
  · subst hquote
    exact ⟨h, rfl⟩
  · exact ⟨(soundStack_cons.mp h).2, (outside_step_open (.inl harray) rfl).symm⟩
  · exact ⟨(soundStack_cons.mp h).2, (outside_step_open (.inr hobject) rfl).symm⟩
  · subst hnull
    exact ⟨h.1, rfl⟩
  · subst htrue
    exact ⟨h.1, rfl⟩
  · subst hfalse
    exact ⟨h.1, rfl⟩
  · exact ⟨h, (outside_step_plain 0 (Scan.plain_of_isPart hpart)).symm⟩
  · exact absurd h not_sound_failure

theorem closeQuote_sound {q : Quote} (h : (closeQuote stack q).Sound) :
    SoundStack stack ∧ (closeQuote stack q).scan = outside stack 0 := by
  unfold closeQuote at h ⊢
  split_ifs at h ⊢
  · exact ⟨h, rfl⟩
  · rcases settle_sound h with ⟨-, hstack, hscan⟩
    refine ⟨hstack, hscan.trans ?_⟩
    cases q.text? <;> rfl

theorem inside_step (hquote : c ≠ '"') (hback : c ≠ '\\') :
    (inside stack .none).step c = inside stack .none :=
  Scan.Inside.step ⟨rfl, rfl⟩ hquote hback

theorem inQuotes_sound {q : Quote} (h : (inQuotes stack q c).Sound) :
    SoundStack stack ∧ (inQuotes stack q c).scan = (inside stack .none).step c := by
  unfold inQuotes at h ⊢
  split_ifs at h ⊢ with hquote hback hcontrol
  · subst hquote
    exact closeQuote_sound h
  · subst hback
    exact ⟨h, rfl⟩
  · exact absurd h not_sound_failure
  · exact ⟨h, (inside_step hquote hback).symm⟩

/-- Whatever follows a backslash, the escape is over for the scan. -/
theorem inside_step_open {escape : Escape} (hescape : escape.isOpen = true) (c : Char) :
    (inside stack escape).step c = inside stack .none := by
  have hnone : Escape.none.isOpen = false := rfl
  simp [Scan.step, inside, hescape, hnone]

theorem afterBackslash_sound {q : Quote} (h : (afterBackslash stack q c).Sound) :
    SoundStack stack ∧ (afterBackslash stack q c).scan = inside stack .none := by
  unfold afterBackslash at h ⊢
  split_ifs at h ⊢
  · exact ⟨h, rfl⟩
  · cases hd : unescape? c with
    | none =>
      rw [hd] at h
      exact absurd h not_sound_failure
    | some d =>
      rw [hd] at h
      exact ⟨h, rfl⟩

theorem finishUnit_sound {q : Quote} {n : Nat} {high : Option Nat}
    (h : (finishUnit stack q n high).Sound) :
    SoundStack stack ∧ (finishUnit stack q n high).scan = inside stack .none := by
  cases high with
  | none =>
    unfold finishUnit at h ⊢
    dsimp only at h ⊢
    split_ifs at h ⊢ <;> exact ⟨h, rfl⟩
  | some high =>
    unfold finishUnit at h ⊢
    dsimp only at h ⊢
    split_ifs at h ⊢ <;> exact ⟨h, rfl⟩

theorem ne_of_hexValue? {d : Nat} (h : hexValue? c = some d) : c ≠ '"' ∧ c ≠ '\\' := by
  constructor
  · rintro rfl
    simp [hexValue?] at h
  · rintro rfl
    simp [hexValue?] at h

theorem stepQuoted_sound {q : Quote} {escape : Escape} (h : (stepQuoted stack q c escape).Sound) :
    SoundStack stack ∧ (stepQuoted stack q c escape).scan = (inside stack escape).step c := by
  cases escape with
  | none => exact inQuotes_sound h
  | backslash =>
    rw [inside_step_open rfl]
    exact afterBackslash_sound h
  | unit left value high =>
    unfold stepQuoted at h ⊢
    dsimp only at h ⊢
    cases hd : hexValue? c with
    | none =>
      rw [hd] at h
      exact absurd h not_sound_failure
    | some d =>
      rw [hd] at h
      have hstep : (inside stack (.unit left value high)).step c = inside stack .none :=
        inside_step (ne_of_hexValue? hd).1 (ne_of_hexValue? hd).2
      dsimp only at h ⊢
      rw [hstep]
      split_ifs at h ⊢
      · exact finishUnit_sound h
      · exact ⟨h, rfl⟩
  | partnerBackslash high =>
    unfold stepQuoted at h ⊢
    dsimp only at h ⊢
    split_ifs at h ⊢ with hback
    · subst hback
      exact ⟨h, rfl⟩
    · exact inQuotes_sound h
  | partnerLetter high =>
    rw [inside_step_open rfl]
    unfold stepQuoted at h ⊢
    dsimp only at h ⊢
    split_ifs at h ⊢
    · exact ⟨h, rfl⟩
    · exact afterBackslash_sound h

theorem closeNumber_sound {read : List Char} (h : (closeNumber stack read).Sound) :
    SoundStack stack ∧ (closeNumber stack read).scan = outside stack 0 := by
  unfold closeNumber at h ⊢
  cases hn : Numeral.ofChars? read.reverse with
  | none =>
    rw [hn] at h
    exact absurd h not_sound_failure
  | some n =>
    rw [hn] at h
    rcases settle_sound h with ⟨-, hstack, hscan⟩
    refine ⟨hstack, hscan.trans ?_⟩
    cases Number.ofNumeral? n <;> rfl

/-- After a value that no container takes, nothing can follow. -/
theorem settle_next_or_nil (d : Draft) (stack : List Frame) :
    (settle d stack).mode = .next ∨ (settle d stack).stack = [] := by
  unfold settle
  split
  · exact .inr rfl
  · exact .inl rfl
  · exact .inl rfl
  · exact .inr rfl

theorem closeNumber_next_or_nil (stack : List Frame) (read : List Char) :
    (closeNumber stack read).mode = .next ∨ (closeNumber stack read).stack = [] := by
  unfold closeNumber
  split
  · exact .inr rfl
  · exact settle_next_or_nil _ _

/-- A number is closed by the character after it, which follows it as it would any value. -/
theorem afterNumber_sound {read : List Char}
    (h : (afterValue (closeNumber stack read).stack c).Sound) :
    (closeNumber stack read).Sound ∧ (afterValue (closeNumber stack read).stack c).scan =
      (closeNumber stack read).scan.step c := by
  have hopen : (closeNumber stack read).stack ≠ [] := by
    intro hnil
    rw [hnil] at h
    exact absurd h not_sound_failure
  have hmode := (closeNumber_next_or_nil stack read).resolve_right hopen
  rcases afterValue_sound h with ⟨hstack, hscan⟩
  constructor
  · rw [State.Sound, hmode]
    exact hstack
  · rw [hscan, State.scan, hmode]

theorem step_number_sound {read : List Char} (hc : Numeral.isPart c = false)
    (h : (step ⟨stack, .number read⟩ c).Sound) :
    SoundStack stack ∧ (step ⟨stack, .number read⟩ c).scan = (outside stack 0).step c := by
  unfold step at h ⊢
  dsimp only at h ⊢
  rw [hc, if_neg Bool.false_ne_true] at h ⊢
  split at h
  · rename_i hfailed
    rw [State.Sound, hfailed] at h
    exact h.elim
  · split_ifs at h ⊢ with hspace
    · rcases closeNumber_sound h with ⟨hstack, hscan⟩
      rw [hscan, outside_step_plain 0 (plain_of_isSpace hspace)]
      exact ⟨hstack, rfl⟩
    · rcases afterNumber_sound h with ⟨hdone, hscan⟩
      rcases closeNumber_sound hdone with ⟨hstack, hclosed⟩
      rw [hscan, hclosed]
      exact ⟨hstack, rfl⟩

/-- Between two tokens a blank changes nothing. -/
theorem between_sound {mode : Mode} {after : State}
    (hscan : State.scan ⟨stack, mode⟩ = outside stack 0)
    (hsound : SoundStack stack → State.Sound ⟨stack, mode⟩)
    (hafter : after.Sound → SoundStack stack ∧ after.scan = (outside stack 0).step c)
    (h : (if isSpace c then ⟨stack, mode⟩ else after).Sound) :
    State.Sound ⟨stack, mode⟩ ∧ (if isSpace c then ⟨stack, mode⟩ else after).scan =
      (State.scan ⟨stack, mode⟩).step c := by
  split_ifs at h ⊢ with hspace
  · refine ⟨h, ?_⟩
    rw [hscan, outside_step_plain 0 (plain_of_isSpace hspace)]
  · rw [hscan]
    exact ⟨hsound (hafter h).1, (hafter h).2⟩

/-- A colon after the name of a member. -/
theorem step_colon_sound {name : Option String} (h : (step ⟨stack, .colon name⟩ c).Sound) :
    State.Sound ⟨stack, .colon name⟩ ∧ (step ⟨stack, .colon name⟩ c).scan =
      (outside stack 0).step c := by
  match stack with
  | .object ms :: stack =>
    refine between_sound rfl id (fun hafter => ?_) h
    split_ifs at hafter ⊢ with hcolon
    · subst hcolon
      have hmember : SoundStack (.member ms name :: stack) := hafter
      rcases soundStack_cons.mp hmember with ⟨hms, hstack⟩
      exact ⟨soundStack_cons.mpr ⟨hms, hstack⟩, rfl⟩
    · exact absurd hafter not_sound_failure
  | [] | .array _ :: _ | .member _ _ :: _ =>
    exact between_sound rfl id (fun hafter => absurd hafter not_sound_failure) h

theorem step_word {x : Char} (left : List Char) (d : Draft) :
    step ⟨stack, .word (x :: left) d⟩ c =
      if c = x then match left with
        | [] => settle d stack
        | _ => ⟨stack, .word left d⟩
      else .failure :=
  rfl

theorem step_word_sound {x : Char} (hx : Scan.Plain x) {left : List Char} {d : Draft}
    (h : (step ⟨stack, .word (x :: left) d⟩ c).Sound) :
    State.Sound ⟨stack, .word (x :: left) d⟩ ∧ (step ⟨stack, .word (x :: left) d⟩ c).scan =
      (outside stack d.depth).step c := by
  rw [step_word] at h ⊢
  split_ifs at h ⊢ with hc
  · subst hc
    rw [outside_step_plain _ hx]
    match left with
    | [] => exact ⟨⟨(settle_sound h).2.1, (settle_sound h).1⟩, (settle_sound h).2.2⟩
    | y :: left => exact ⟨h, rfl⟩
  · exact absurd h not_sound_failure

end Steps

/-- Whether the letters that a word still lacks are no brackets and no quotes. -/
def State.Spelled (s : State) : Prop :=
  match s.mode with
  | .word left _ => ∀ c ∈ left, Scan.Plain c
  | _ => True

/-- One character: the scan stays in step, and what is sound now was sound before. -/
theorem step_sound {s : State} {c : Char} (hs : s.Spelled) (h : (step s c).Sound) :
    s.Sound ∧ (step s c).scan = s.scan.step c := by
  rcases s with ⟨stack, mode⟩
  cases mode with
  | quoted q escape => exact stepQuoted_sound h
  | failed => exact h.elim
  | number read =>
    by_cases hpart : Numeral.isPart c = true
    · have hstep : step ⟨stack, .number read⟩ c = ⟨stack, .number (c :: read)⟩ := if_pos hpart
      rw [hstep] at h ⊢
      exact ⟨h, (outside_step_plain 0 (Scan.plain_of_isPart hpart)).symm⟩
    · exact step_number_sound (Bool.eq_false_iff.mpr hpart) h
  | word left d =>
    match left with
    | [] => exact absurd h not_sound_failure
    | x :: left =>
      have hx : Scan.Plain x := hs x List.mem_cons_self
      exact step_word_sound hx h
  | finished d =>
    have hstep : step ⟨stack, .finished d⟩ c = if isSpace c then ⟨stack, .finished d⟩
      else .failure := rfl
    rw [hstep] at h ⊢
    split_ifs at h ⊢ with hspace
    · exact ⟨h, (Scan.step_plain rfl (plain_of_isSpace hspace)).symm⟩
    · exact absurd h not_sound_failure
  | value => exact between_sound rfl id startValue_sound h
  | itemOrEnd =>
    refine between_sound rfl id (fun h => ?_) h
    split_ifs at h ⊢
    · exact afterValue_sound h
    · exact startValue_sound h
  | nameOrEnd =>
    refine between_sound rfl id (fun h => ?_) h
    split_ifs at h ⊢ with hclose hquote
    · exact afterValue_sound h
    · subst hquote
      exact ⟨h, rfl⟩
    · exact absurd h not_sound_failure
  | name =>
    refine between_sound rfl id (fun h => ?_) h
    split_ifs at h ⊢ with hquote
    · subst hquote
      exact ⟨h, rfl⟩
    · exact absurd h not_sound_failure
  | colon k => exact step_colon_sound h
  | next => exact between_sound rfl id afterValue_sound h

section Spelled
variable (stack : List Frame) (q : Quote) (c : Char)

theorem spelled_settle (d : Draft) : (settle d stack).Spelled := by
  unfold settle
  split <;> trivial

theorem spelled_afterValue : (afterValue stack c).Spelled := by
  unfold afterValue
  split
  · split_ifs
    exacts [trivial, spelled_settle _ _, trivial]
  · split_ifs
    exacts [trivial, spelled_settle _ _, trivial]
  · trivial

theorem spelled_startValue : (startValue stack c).Spelled := by
  unfold startValue
  split_ifs
  exacts [trivial, trivial, trivial, Scan.plain_word rfl, Scan.plain_word rfl,
    Scan.plain_word rfl, trivial, trivial]

theorem spelled_inQuotes : (inQuotes stack q c).Spelled := by
  unfold inQuotes closeQuote
  split_ifs
  exacts [trivial, spelled_settle _ _, trivial, trivial, trivial]

theorem spelled_afterBackslash : (afterBackslash stack q c).Spelled := by
  unfold afterBackslash
  split_ifs
  · trivial
  · split <;> trivial

theorem spelled_finishUnit (n : Nat) (high : Option Nat) :
    (finishUnit stack q n high).Spelled := by
  unfold finishUnit
  split
  · split_ifs <;> trivial
  · split_ifs <;> trivial

theorem spelled_stepQuoted (escape : Escape) : (stepQuoted stack q c escape).Spelled := by
  cases escape with
  | none => exact spelled_inQuotes ..
  | backslash => exact spelled_afterBackslash ..
  | unit left value high =>
    unfold stepQuoted
    dsimp only
    split
    · trivial
    · split_ifs
      exacts [spelled_finishUnit .., trivial]
  | partnerBackslash high =>
    unfold stepQuoted
    dsimp only
    split_ifs
    exacts [trivial, spelled_inQuotes ..]
  | partnerLetter high =>
    unfold stepQuoted
    dsimp only
    split_ifs
    exacts [trivial, spelled_afterBackslash ..]

theorem spelled_closeNumber (read : List Char) : (closeNumber stack read).Spelled := by
  unfold closeNumber
  split
  exacts [trivial, spelled_settle ..]

end Spelled

theorem spelled_step {s : State} (hs : s.Spelled) (c : Char) : (step s c).Spelled := by
  rcases s with ⟨stack, mode⟩
  cases mode with
  | quoted q escape => exact spelled_stepQuoted ..
  | failed => trivial
  | number read =>
    unfold step
    dsimp only
    split_ifs
    · trivial
    · split
      · exact spelled_closeNumber ..
      · exact spelled_closeNumber ..
    · split
      · exact spelled_closeNumber ..
      · exact spelled_afterValue ..
  | word left d =>
    match left with
    | [] => trivial
    | x :: left =>
      rw [step_word]
      split_ifs
      · match left with
        | [] => exact spelled_settle ..
        | y :: left => exact fun c hc => hs c (List.mem_cons_of_mem _ hc)
      · trivial
  | finished d =>
    unfold step
    dsimp only
    split_ifs <;> trivial
  | value =>
    unfold step
    dsimp only
    split_ifs
    exacts [hs, spelled_startValue ..]
  | itemOrEnd =>
    unfold step
    dsimp only
    split_ifs
    exacts [hs, spelled_afterValue .., spelled_startValue ..]
  | nameOrEnd =>
    unfold step
    dsimp only
    split_ifs
    exacts [hs, spelled_afterValue .., trivial, trivial]
  | name =>
    unfold step
    dsimp only
    split_ifs <;> trivial
  | colon k =>
    unfold step
    dsimp only
    split
    · trivial
    · match stack with
      | .object ms :: stack =>
        dsimp only
        split_ifs <;> trivial
      | [] | .array _ :: _ | .member _ _ :: _ => trivial
  | next =>
    unfold step
    dsimp only
    split_ifs
    exacts [hs, spelled_afterValue ..]

theorem foldl_step_sound {cs : List Char} {s : State} (hs : s.Spelled)
    (h : (cs.foldl step s).Sound) :
    s.Sound ∧ (cs.foldl step s).scan = cs.foldl Scan.step s.scan := by
  induction cs generalizing s with
  | nil => exact ⟨h, rfl⟩
  | cons c cs ih =>
    rcases ih (spelled_step hs c) h with ⟨hstep, hscan⟩
    rcases step_sound hs hstep with ⟨hsound, hc⟩
    rw [List.foldl_cons, hscan, hc, List.foldl_cons]
    exact ⟨hsound, rfl⟩

/-- A value finishes the text only where no container is open. -/
theorem settle_finished {d e : Draft} {stack : List Frame}
    (h : (settle d stack).mode = .finished e) : stack = [] ∧ d = e := by
  unfold settle at h
  split at h
  · exact ⟨rfl, Mode.finished.inj h⟩
  all_goals cases h

theorem closeNumber_finished {stack : List Frame} {read : List Char} {d : Draft}
    (h : (closeNumber stack read).mode = .finished d) : stack = [] ∧ d.depth = 0 := by
  unfold closeNumber at h
  split at h
  · cases h
  · rcases settle_finished h with ⟨hstack, rfl⟩
    refine ⟨hstack, ?_⟩
    split <;> rfl

/-- A text that is over has closed all its containers. -/
theorem result_sound {s : State} {d : Draft} (h : s.result = some d) (hd : d.sound) :
    s.Sound ∧ s.scan.deepest = d.depth := by
  rcases s with ⟨stack, mode⟩
  cases mode with
  | finished e =>
    obtain rfl := Option.some.inj h
    exact ⟨hd, rfl⟩
  | number read =>
    unfold State.result at h
    dsimp only at h
    split at h
    · rename_i e hmode
      obtain rfl := Option.some.inj h
      rcases closeNumber_finished hmode with ⟨rfl, hdepth⟩
      exact ⟨fun _ hf => absurd hf List.not_mem_nil, hdepth.symm⟩
    · cases h
  | _ => cases h

end ArchivalQuery.Json.Reader

namespace ArchivalQuery

/-- A text is nested as deeply as its draft, if no part of it is a fault. -/
theorem Gate.nesting_eq_depth {text : String} {d : Json.Draft}
    (h : Json.Draft.ofText? text = some d) (hd : d.sound) : nesting text = d.depth := by
  rcases Json.Reader.result_sound h hd with ⟨hsound, hdepth⟩
  rw [← hdepth, (Json.Reader.foldl_step_sound (s := {}) trivial hsound).2]
  rfl

/-- The value of a text is nested no deeper than the text. -/
theorem Gate.depth_le_nesting {text : String} {v : Json} (h : Json.ofText? text = some v) :
    v.depth ≤ nesting text := by
  rcases Option.bind_eq_some_iff.mp h with ⟨d, hd, hv⟩
  have hsound : d.sound := by rw [Json.Draft.sound, hv, Option.isSome_some]
  rw [nesting_eq_depth hd hsound]
  exact Json.Draft.depth_value?_le hv

end ArchivalQuery
