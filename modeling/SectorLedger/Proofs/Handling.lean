import SectorLedger.Handling
import Mathlib.Tactic.Basic

/-!
# Exit codes survive

Callers hand a failure on in one of three forms, which box each other to any depth. Whatever they do to it, short of
classifying it anew, the refusal at its bottom can be found again, with the words that were added on the way.

* `Failure.Carries`: a refusal stands at the bottom. `carries_iff_unwrap`: then it is found.
* `Failure.unwrap_box`: a box does not hide it, and does not make one up.
* `Handling.Chain`: what callers may do one after the other.
* `Chain.applyAll`, `applyAll_of_unwrap_other`: what a whole chain of callers leaves to be found.
* `exit_codes_survive`: the last caller finds the code of the refusal, or uses its own if there was none.
-/

namespace SectorLedger

namespace Failure

variable {f : Failure} {r : Refusal} {kind : Container}

/-- A refusal stands at the bottom of the failure, below layers of words and boxes. -/
inductive Carries : Failure → Prop where
  /-- The refusal itself. -/
  | refused (r : Refusal) : Carries (refused r)
  /-- In a box. -/
  | boxed {kind : Container} {f : Failure} : Carries f → Carries (boxed kind f)
  /-- Below words. -/
  | layered {text : String} {f : Failure} : Carries f → Carries (layered text f)

/-- The failure is, below layers of words, one of a container of the given kind. -/
def OfKind (kind : Container) (f : Failure) : Prop :=
  (∃ text, f.core = container kind text) ∨ ∃ inner, f.core = boxed kind inner

/-- Layers of words do not matter for the search, unless there are only words. -/
theorem unwrap_eq_core (f : Failure) (h : ∀ text, f.core ≠ plain text) : f.unwrap = f.core.unwrap := by
  induction f with
  | layered text inner ih =>
    have hinner : (layered text inner).unwrap = inner.unwrap := by
      rw [unwrap]
      split
      · next words hplain => exact absurd hplain (h words)
      · rfl
    rw [hinner]
    exact ih h
  | _ => rfl

/-- Words alone carry no refusal. -/
theorem not_carries_of_core {text : String} (h : f.core = plain text) : ¬f.Carries := by
  intro hcarries
  induction hcarries with
  | refused _ => cases h
  | boxed _ _ => cases h
  | layered _ ih => exact ih h

/-- A box carries what is in it. -/
theorem carries_boxed {inner : Failure} : (boxed kind inner).Carries ↔ inner.Carries := by
  constructor
  · intro h
    cases h with
    | boxed h => exact h
  · exact .boxed

/-- Words carry what is below them. -/
theorem carries_layered {text : String} {inner : Failure} : (layered text inner).Carries ↔ inner.Carries := by
  constructor
  · intro h
    cases h with
    | layered h => exact h
  · exact .layered

/-- Either there is more than words at the bottom, or nothing is carried and the search gives the whole failure back. -/
theorem core_ne_plain_or (f : Failure) : (∀ text, f.core ≠ plain text) ∨ ¬f.Carries ∧ f.unwrap = .inr f := by
  by_cases hplain : ∃ text, f.core = plain text
  · obtain ⟨text, htext⟩ := hplain
    exact .inr ⟨not_carries_of_core htext, by cases f <;> simp_all [unwrap, core]⟩
  · exact .inl fun text h => hplain ⟨text, h⟩

/-- A refusal at the bottom is found, and no other. -/
theorem carries_iff_unwrap : f.Carries ↔ ∃ r, f.unwrap = .inl r := by
  induction f with
  | refused r => exact iff_of_true (.refused r) ⟨r, rfl⟩
  | plain text => simp [not_carries_of_core (f := plain text) rfl, unwrap]
  | container kind text =>
    have hnone : ¬(container kind text).Carries := by
      intro h
      cases h
    simp [hnone, unwrap]
  | boxed kind inner ih => exact carries_boxed.trans ih
  | layered text inner ih =>
    obtain hcore | ⟨hnone, hsame⟩ := core_ne_plain_or (layered text inner)
    · have hunwrap : (layered text inner).unwrap = inner.unwrap :=
        (unwrap_eq_core (layered text inner) hcore).trans (unwrap_eq_core inner hcore).symm
      rw [hunwrap]
      exact carries_layered.trans ih
    · simp [hnone, hsame]

theorem box_of_ofKind (h : f.OfKind kind) : f.box kind = f.core := by
  unfold box
  obtain ⟨text, hcore⟩ | ⟨inner, hcore⟩ := h <;> simp [hcore]

theorem box_of_not_ofKind (h : ¬f.OfKind kind) : f.box kind = boxed kind f := by
  unfold box
  split
  · next k text hcore => exact if_neg fun hk : k = kind => h (.inl ⟨text, hk ▸ hcore⟩)
  · next k inner hcore => exact if_neg fun hk : k = kind => h (.inr ⟨inner, hk ▸ hcore⟩)
  · rfl

/-- Carrying a failure out of a container changes nothing about what is found in it. -/
theorem unwrap_box (f : Failure) (kind : Container) : (f.box kind).unwrap = f.unwrap := by
  by_cases h : f.OfKind kind
  · rw [box_of_ofKind h]
    refine (unwrap_eq_core f fun text hplain => ?_).symm
    obtain ⟨_, hcore⟩ | ⟨_, hcore⟩ := h <;> cases hplain.symm.trans hcore
  · rw [box_of_not_ofKind h]
    rfl

end Failure

namespace Handling

/-- The words that a caller adds. -/
def words : Handling → List String
  | wrap w | annotate w | refuse _ w => [w]
  | generalize | carryOut _ => []
  | classify _ w => w.toList

/-- The handling applies to a failure in any form, and settles on no code. -/
def Soft : Handling → Prop
  | annotate _ | generalize | carryOut _ => True
  | wrap _ | refuse _ _ | classify _ _ => False

/-- What callers do one after the other, none of whom classifies the failure anew. The first argument tells whether it
has the form of a refusal at the start, since only then it may be wrapped. -/
inductive Chain : Bool → List Handling → Prop where
  /-- Nothing is done. -/
  | nil {direct : Bool} : Chain direct []
  /-- A refusal is wrapped, and stays one. -/
  | wrap {w : String} {hs : List Handling} : Chain true hs → Chain true (wrap w :: hs)
  /-- The failure is brought into general form. -/
  | generalize {direct : Bool} {hs : List Handling} : Chain false hs → Chain direct (generalize :: hs)
  /-- It is carried out of a container. -/
  | carryOut {direct : Bool} {kind : Container} {hs : List Handling} :
    Chain false hs → Chain direct (carryOut kind :: hs)
  /-- It gets words, and general form. -/
  | annotate {direct : Bool} {w : String} {hs : List Handling} : Chain false hs → Chain direct (annotate w :: hs)
  /-- A refusal is made of it. -/
  | refuse {direct : Bool} {code : ExitCode} {w : String} {hs : List Handling} :
    Chain true hs → Chain direct (refuse code w :: hs)

/-- A text with the words that were added to it, the last ones first. -/
def told (ws : List String) (text : String) : String := String.intercalate ": " (ws.reverse ++ [text])

theorem told_cons (w : String) (ws : List String) (text : String) : told ws s!"{w}: {text}" = told (w :: ws) text := by
  have hjoin : ∀ ts : List String, String.intercalate ": " (ts ++ [s!"{w}: {text}"]) =
      String.intercalate ": " (ts ++ [w, text]) := by
    intro ts
    induction ts with
    | nil => rfl
    | cons t ts ih =>
      cases ts with
      | nil =>
        simp only [List.cons_append, List.nil_append, String.intercalate_cons_cons, String.intercalate_singleton]
        rfl
      | cons t' ts =>
        simp only [List.cons_append, String.intercalate_cons_cons] at ih ⊢
        rw [ih]
  simp only [told, List.reverse_cons, List.append_assoc, List.cons_append, List.nil_append]
  exact hjoin _

variable {c : Carried} {code : ExitCode} {text : String} {hs : List Handling}

/-- **A chain of callers keeps the refusal.** It can be carried out, and the refusal that was found at the start is
found at the end, with the words of the callers. -/
theorem Chain.applyAll {direct : Bool} (h : Chain direct hs) (hfound : c.failure.unwrap = .inl ⟨code, text⟩)
    (hdirect : direct = true → c = .refusal ⟨code, text⟩) :
    ∃ c', Handling.applyAll c hs = some c' ∧
      c'.failure.unwrap = .inl ⟨code, told (hs.flatMap words) text⟩ := by
  induction h generalizing c text with
  | nil => exact ⟨c, rfl, hfound⟩
  | @wrap w hs _ ih =>
    obtain rfl := hdirect rfl
    obtain ⟨c', hrest, hfound'⟩ := @ih (.refusal ⟨code, s!"{w}: {text}"⟩) s!"{w}: {text}" rfl fun _ => rfl
    rw [told_cons] at hfound'
    exact ⟨c', hrest, hfound'⟩
  | generalize _ ih => exact @ih (.general c.failure) text hfound nofun
  | @carryOut _ kind _ _ ih =>
    exact @ih (.contained kind (c.failure.box kind)) text ((Failure.unwrap_box c.failure kind).trans hfound) nofun
  | @annotate _ w hs _ ih =>
    obtain ⟨c', hrest, hfound'⟩ := @ih (.general (c.failure.annotate w)) s!"{w}: {text}"
      (Failure.unwrap_annotate_of_refusal w hfound) nofun
    rw [told_cons] at hfound'
    exact ⟨c', hrest, hfound'⟩
  | @refuse _ dflt w hs _ ih =>
    have hrefuse : c.failure.refuse dflt w = ⟨code, s!"{w}: {text}"⟩ := by
      rw [Failure.refuse, hfound]
      rfl
    obtain ⟨c', hrest, hfound'⟩ := @ih (.refusal (c.failure.refuse dflt w)) s!"{w}: {text}"
      (by rw [hrefuse]; rfl) fun _ => by rw [hrefuse]
    rw [told_cons] at hfound'
    exact ⟨c', hrest, hfound'⟩

/-- Where there is no refusal, soft handling adds none. What is left to show gets the words of the callers. -/
theorem applyAll_of_unwrap_other {g : Failure} (hsoft : ∀ h ∈ hs, h.Soft) (hnone : c.failure.unwrap = .inr g) :
    ∃ c' g', applyAll c hs = some c' ∧ c'.failure.unwrap = .inr g' ∧
      g'.outermost = told (hs.flatMap words) g.outermost := by
  induction hs generalizing c g with
  | nil => exact ⟨c, g, rfl, hnone, rfl⟩
  | cons h hs ih =>
    obtain ⟨hhead, hrest⟩ := List.forall_mem_cons.1 hsoft
    cases h with
    | generalize => exact @ih (.general c.failure) g hrest hnone
    | carryOut kind =>
      exact @ih (.contained kind (c.failure.box kind)) g hrest ((Failure.unwrap_box c.failure kind).trans hnone)
    | annotate w =>
      obtain ⟨c', g', hall, hnone', htext⟩ := @ih (.general (c.failure.annotate w))
        (.plain s!"{w}: {g.outermost}") hrest (Failure.unwrap_annotate_of_other w hnone)
      exact ⟨c', g', hall, hnone', htext.trans (told_cons _ _ _)⟩
    | wrap w => exact hhead.elim
    | refuse code w => exact hhead.elim
    | classify code w => exact hhead.elim

/-- The last caller makes a refusal. -/
theorem applyAll_concat_refuse {c' : Carried} (h : applyAll c hs = some c') (code : ExitCode) (w : String) :
    applyAll c (hs ++ [.refuse code w]) = some (.refusal (c'.failure.refuse code w)) := by
  rw [applyAll, List.foldlM_append]
  exact congrArg (Option.bind · fun c => applyAll c [.refuse code w]) h

/-- The words of the last caller come first. -/
theorem append_told (w : String) (ws : List String) (text : String) :
    s!"{w}: {told ws text}" = String.intercalate ": " (w :: (ws.reverse ++ [text])) := by
  obtain ⟨t, ts, hts⟩ := List.exists_cons_of_ne_nil (List.append_ne_nil_of_right_ne_nil ws.reverse
    (List.cons_ne_nil text []))
  rw [told, hts, String.intercalate_cons_cons]
  rfl

/-- **Exit codes survive.** Carrying a failure out of a container puts it in a box, unless it is one of such a container
already. Whatever chain of callers a refusal goes through, a caller that makes a refusal of the result, with a code of
its own at hand, finds the first code, and all words, the last ones first. A failure without a refusal at any depth ends
with the last caller's code. -/
theorem exit_codes_survive :
    (∀ (f : Failure) (kind : Container), (f.OfKind kind → f.box kind = f.core) ∧
      (¬f.OfKind kind → f.box kind = .boxed kind f)) ∧
    (∀ (code : ExitCode) (text : String) (hs : List Handling) (dflt : ExitCode) (w : String), Chain true hs →
      applyAll (.refusal ⟨code, text⟩) (hs ++ [.refuse dflt w]) =
        some (.refusal ⟨code, String.intercalate ": " (w :: ((hs.flatMap words).reverse ++ [text]))⟩)) ∧
    ∀ (c : Carried) (hs : List Handling) (dflt : ExitCode) (w : String), ¬c.failure.Carries → (∀ h ∈ hs, h.Soft) →
      ∃ text, applyAll c (hs ++ [.refuse dflt w]) = some (.refusal ⟨dflt, text⟩) := by
  refine ⟨fun f kind => ⟨Failure.box_of_ofKind, Failure.box_of_not_ofKind⟩, fun code text hs dflt w hchain => ?_,
    fun c hs dflt w hnone hsoft => ?_⟩
  · obtain ⟨c', hall, hfound⟩ := hchain.applyAll (c := .refusal ⟨code, text⟩) rfl fun _ => rfl
    rw [applyAll_concat_refuse hall, Failure.refuse, hfound, ← append_told]
    rfl
  · cases hunwrap : c.failure.unwrap with
    | inl r => exact absurd (Failure.carries_iff_unwrap.2 ⟨r, hunwrap⟩) hnone
    | inr g =>
      obtain ⟨c', g', hall, hnone', -⟩ := applyAll_of_unwrap_other hsoft hunwrap
      rw [applyAll_concat_refuse hall, Failure.refuse, hnone']
      exact ⟨_, rfl⟩

/-- A refusal goes through boxes in boxes, through two callers with codes of their own, and through words at each
stage. -/
def nestedBoxes : List Handling := [
  .wrap "look up", .carryOut .array, .carryOut .map, .generalize, .carryOut .array, .annotate "walk",
  .carryOut .map, .refuse .illegalState "load", .wrap "settle", .carryOut .array]

/-- A refusal comes out of nested boxes with its code, and a lost block with the code of the last caller. -/
theorem exit_codes_survive_boxes :
    Chain true nestedBoxes ∧
    applyAll (.refusal ⟨.notFound, "no sector 4"⟩) (nestedBoxes ++ [.refuse .assertionFailed "call"]) =
      some (.refusal ⟨.notFound, "call: settle: load: walk: look up: no sector 4"⟩) ∧
    ¬(Failure.boxed .map (.plain "block missing")).Carries ∧
    ∃ text, applyAll (.contained .map (.boxed .map (.plain "block missing")))
      [.carryOut .array, .annotate "walk", .carryOut .map, .refuse .illegalState "load"] =
        some (.refusal ⟨.illegalState, text⟩) := by
  obtain ⟨-, hkept, hnone⟩ := exit_codes_survive
  have hchain : Chain true nestedBoxes :=
    .wrap (.carryOut (.carryOut (.generalize (.carryOut (.annotate (.carryOut (.refuse (.wrap (.carryOut .nil)))))))))
  have hlost : ¬(Failure.boxed .map (.plain "block missing")).Carries := by
    rw [Failure.carries_iff_unwrap]
    exact nofun
  have hsoft : ∀ h ∈ [carryOut .array, annotate "walk", carryOut .map], h.Soft := by
    simp [Soft]
  refine ⟨hchain, ?_, hlost, hnone (.contained .map (.boxed .map (.plain "block missing"))) _ .illegalState "load" hlost
    hsoft⟩
  rw [hkept .notFound "no sector 4" nestedBoxes .assertionFailed "call" hchain]
  decide +kernel

end Handling

end SectorLedger
