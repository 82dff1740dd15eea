import SectorLedger.Stored
import SectorLedger.Word
import Mathlib.Data.List.Forall2
import Mathlib.Tactic.Basic

/-!
# Operations that succeed

An operation that is put together from others succeeds only if each of them does. The lemmas on one
construct at a time are tagged for `simp`, which then takes a successful operation apart into the
successes of its parts; the words that callers add to failures disappear on the way.

* `bind_eq_ok`, `noting_eq_ok` and their like: one construct each.
* `Epoch.add_eq_ok`, `Count.sub_eq_ok` and their like: one operation of the machine each.
* `foldOutcome_invariant`: what every step keeps, a walk through a list keeps.
* `foldOutcome_forall`: what every step asks of its element, all elements meet.
* `foldOutcome_total`: if every step succeeds and keeps it, the walk succeeds and keeps it.
* `Wordless`: an operation that only a fault can stop.
* `Faultless`: an operation that no fault can stop.
-/

namespace SectorLedger

variable {α β γ : Type}

/-! ### One construct at a time -/

@[simp] theorem bind_eq_ok {x : Outcome α} {f : α → Outcome β} {b : β} :
    (x >>= f) = .ok b ↔ ∃ a, x = .ok a ∧ f a = .ok b := by
  cases x <;> simp [bind, Except.bind]

theorem ok_bind {a : α} {f : α → Outcome β} : (Except.ok a >>= f) = f a := rfl

@[simp] theorem map_eq_ok {x : Outcome α} {f : α → β} {b : β} :
    (f <$> x) = .ok b ↔ ∃ a, x = .ok a ∧ f a = b := by
  cases x <;> simp [Functor.map, Except.map]

@[simp] theorem pure_eq_ok {a b : α} : (pure a : Outcome α) = .ok b ↔ a = b := by
  simp [pure, Except.pure]

@[simp] theorem refused_bind {c : ExitCode} {text : String} {f : α → Outcome β} :
    (refused c text >>= f) = refused c text := rfl

@[simp] theorem failed_bind {text : String} {f : α → Outcome β} : (failed text >>= f) = failed text := rfl

@[simp] theorem refused_ne_ok {c : ExitCode} {text : String} {a : α} : (refused c text : Outcome α) ≠ .ok a := by
  simp [refused]

@[simp] theorem failed_ne_ok {text : String} {a : α} : (failed text : Outcome α) ≠ .ok a := by
  simp [failed]

/-- A guard in front of an operation. -/
@[simp] theorem ite_refused_eq_ok {p : Prop} [Decidable p] {c : ExitCode} {text : String} {x : Outcome α} {a : α} :
    (if p then refused c text else x) = .ok a ↔ ¬p ∧ x = .ok a := by
  by_cases h : p <;> simp [h]

@[simp] theorem ite_failed_eq_ok {p : Prop} [Decidable p] {text : String} {x : Outcome α} {a : α} :
    (if p then failed text else x) = .ok a ↔ ¬p ∧ x = .ok a := by
  by_cases h : p <;> simp [h]

/-- A choice in the middle of an operation, which goes on in the same way after both branches. -/
@[simp] theorem ite_bind_eq_ok {p : Prop} [Decidable p] {x y : Outcome α} {f : α → Outcome β} {b : β} :
    (if p then x >>= f else y >>= f) = .ok b ↔ ∃ a, (if p then x else y) = .ok a ∧ f a = .ok b := by
  by_cases h : p <;> simp [h]

theorem onFailure_eq_ok {g : Failure → Failure} {x : Outcome α} {a : α} : onFailure g x = .ok a ↔ x = .ok a := by
  unfold onFailure
  split <;> simp_all

@[simp] theorem noting_eq_ok {msg : String} {x : Outcome α} {a : α} : noting msg x = .ok a ↔ x = .ok a :=
  onFailure_eq_ok

@[simp] theorem refusing_eq_ok {c : ExitCode} {msg : String} {x : Outcome α} {a : α} :
    refusing c msg x = .ok a ↔ x = .ok a := onFailure_eq_ok

@[simp] theorem layering_eq_ok {msg : String} {x : Outcome α} {a : α} : layering msg x = .ok a ↔ x = .ok a :=
  onFailure_eq_ok

@[simp] theorem within_eq_ok {kind : Container} {x : Outcome α} {a : α} : within kind x = .ok a ↔ x = .ok a :=
  onFailure_eq_ok

theorem require_refused_eq_ok {b : Bool} {c : ExitCode} {text : String} {u : Unit} :
    require b (refused c text) = .ok u ↔ b = true := by
  cases b <;> simp [require]

theorem require_failed_eq_ok {b : Bool} {text : String} {u : Unit} :
    require b (failed text) = .ok u ↔ b = true := by
  cases b <;> simp [require]

attribute [simp] require_refused_eq_ok require_failed_eq_ok

@[simp] theorem Stored.load_eq_ok {kind : Container} {x : Stored α} {a : α} : x.load kind = .ok a ↔ x = .held a := by
  cases x <;> simp [Stored.load]

@[simp] theorem Stored.fetch_eq_ok {what : String} {x : Stored α} {a : α} : x.fetch what = .ok a ↔ x = .held a := by
  cases x <;> simp [Stored.fetch]

/-! ### Checked arithmetic -/

@[simp] theorem Epoch.checked_eq_ok {n m : Int} : Epoch.checked n = .ok m ↔ Epoch.InRange n ∧ m = n :=
  Epoch.checked_eq_ok_iff

@[simp] theorem Epoch.add_eq_ok {a b c : Int} : Epoch.add a b = .ok c ↔ Epoch.InRange (a + b) ∧ c = a + b :=
  Epoch.checked_eq_ok_iff

@[simp] theorem Epoch.sub_eq_ok {a b c : Int} : Epoch.sub a b = .ok c ↔ Epoch.InRange (a - b) ∧ c = a - b :=
  Epoch.checked_eq_ok_iff

@[simp] theorem Epoch.mul_eq_ok {a b c : Int} : Epoch.mul a b = .ok c ↔ Epoch.InRange (a * b) ∧ c = a * b :=
  Epoch.checked_eq_ok_iff

@[simp] theorem Epoch.asCount_eq_ok {n : Int} {k : Nat} : Epoch.asCount n = .ok k ↔ n = k := by
  unfold Epoch.asCount
  split
  · simp only [Except.ok.injEq]
    omega
  · simp only [failed_ne_ok, false_iff]
    omega

@[simp] theorem Count.asEpoch_eq_ok {k : Nat} {n : Int} :
    Count.asEpoch k = .ok n ↔ k < 0x8000000000000000 ∧ n = k := by
  unfold Count.asEpoch
  split
  · simp only [Except.ok.injEq]
    omega
  · simp only [failed_ne_ok, false_iff]
    omega

theorem Count.toEpoch_of_lt {k : Nat} (h : k < 0x8000000000000000) : Count.toEpoch k = k := by
  simp [Count.toEpoch, h]

@[simp] theorem Count.add_eq_ok {a b c : Nat} : Count.add a b = .ok c ↔ a + b < Count.bound ∧ c = a + b :=
  Count.checked_eq_ok_iff

@[simp] theorem Count.sub_eq_ok {a b c : Nat} : Count.sub a b = .ok c ↔ b ≤ a ∧ c = a - b := Count.sub_eq_ok_iff

/-! ### Walks through a list -/

variable {f : β → α → Outcome β} {b b' : β} {a : α} {as bs : List α}

@[simp] theorem foldOutcome_nil : foldOutcome f b [] = .ok b := rfl

theorem foldOutcome_cons : foldOutcome f b (a :: as) = f b a >>= fun b' => foldOutcome f b' as := by
  cases h : f b a <;> simp [foldOutcome, h, bind, Except.bind]

/-- A walk through two lists is one walk after the other. -/
theorem foldOutcome_append (f : β → α → Outcome β) (b : β) (as bs : List α) :
    foldOutcome f b (as ++ bs) = foldOutcome f b as >>= fun b' => foldOutcome f b' bs := by
  induction as generalizing b with
  | nil => rfl
  | cons a as ih =>
    rw [List.cons_append, foldOutcome_cons, foldOutcome_cons, bind_assoc]
    exact bind_congr fun b' => ih b'

/-- A walk that ends keeps what each of its steps keeps. The invariant may speak of the elements gone
through. -/
theorem foldOutcome_invariant {I : List α → β → Prop} (h : foldOutcome f b as = .ok b') (start : I [] b)
    (step : ∀ done a rest b b', as = done ++ a :: rest → I done b → f b a = .ok b' → I (done ++ [a]) b') :
    I as b' := by
  have run : ∀ rest done b, as = done ++ rest → I done b → foldOutcome f b rest = .ok b' → I as b' := by
    intro rest
    induction rest with
    | nil =>
      intro done b hs hI hb
      obtain rfl : b = b' := by simpa using hb
      rwa [hs, List.append_nil]
    | cons a rest ih =>
      intro done b hs hI hb
      rw [foldOutcome_cons, bind_eq_ok] at hb
      obtain ⟨b₁, h₁, h₂⟩ := hb
      exact ih (done ++ [a]) b₁ (by simp [hs]) (step done a rest b b₁ hs hI h₁) h₂
  exact run as [] b rfl start h

/-- A walk that ends has gone through each of its elements, so what a step asks of its element holds of all. -/
theorem foldOutcome_forall {P : α → Prop} (h : foldOutcome f b as = .ok b')
    (step : ∀ a b b', f b a = .ok b' → P a) : ∀ a ∈ as, P a := by
  refine foldOutcome_invariant (I := fun done _ => ∀ a ∈ done, P a) h (fun a ha => absurd ha List.not_mem_nil) ?_
  intro done a rest b b' _ hI hstep
  exact List.forall_mem_append.2 ⟨hI, List.forall_mem_singleton.2 (step a b b' hstep)⟩

/-- A walk in which each step succeeds as long as the invariant holds, and keeps it, ends with it. -/
theorem foldOutcome_total {I : List α → β → Prop} (start : I [] b)
    (step : ∀ done a rest b, as = done ++ a :: rest → I done b → ∃ b', f b a = .ok b' ∧ I (done ++ [a]) b') :
    ∃ b', foldOutcome f b as = .ok b' ∧ I as b' := by
  have run : ∀ rest done b, as = done ++ rest → I done b → ∃ b', foldOutcome f b rest = .ok b' ∧ I as b' := by
    intro rest
    induction rest with
    | nil => exact fun done b hs hI => ⟨b, rfl, by rwa [hs, List.append_nil]⟩
    | cons a rest ih =>
      intro done b hs hI
      obtain ⟨b₁, h₁, hI₁⟩ := step done a rest b hs hI
      obtain ⟨b₂, h₂, hI₂⟩ := ih (done ++ [a]) b₁ (by simp [hs]) hI₁
      exact ⟨b₂, by rw [foldOutcome_cons]; exact bind_eq_ok.2 ⟨b₁, h₁, h₂⟩, hI₂⟩
  exact run as [] b rfl start

/-- Two walks whose steps do the same, on states of which one is read off the other, end alike. -/
theorem foldOutcome_map {g : γ → α → Outcome γ} (φ : β → γ) (h : foldOutcome f b as = .ok b')
    (step : ∀ a ∈ as, ∀ b b', f b a = .ok b' → g (φ b) a = .ok (φ b')) : foldOutcome g (φ b) as = .ok (φ b') := by
  induction as generalizing b with
  | nil =>
    obtain rfl : b = b' := by simpa using h
    rfl
  | cons a as ih =>
    obtain ⟨hstep, hsteps⟩ := List.forall_mem_cons.1 step
    rw [foldOutcome_cons, bind_eq_ok] at h
    obtain ⟨b₁, h₁, h₂⟩ := h
    rw [foldOutcome_cons, hstep b b₁ h₁]
    exact ih h₂ hsteps

/-- Two walks whose steps agree, on states of which one is read off the other, agree also in how they fail. -/
theorem foldOutcome_map_eq {g : γ → α → Outcome γ} (φ : β → γ) (step : ∀ a b, g (φ b) a = φ <$> f b a) (b : β)
    (as : List α) : foldOutcome g (φ b) as = φ <$> foldOutcome f b as := by
  induction as generalizing b with
  | nil => rfl
  | cons a as ih =>
    rw [foldOutcome_cons, foldOutcome_cons, step, bind_map_left, map_bind]
    exact bind_congr fun b' => ih b'

/-- A step that may change places with each step of a walk may be done before or after it. -/
theorem foldOutcome_comm {x : α}
    (h : ∀ a ∈ as, ∀ b b', (f b x >>= fun b₁ => f b₁ a) = .ok b' ↔ (f b a >>= fun b₁ => f b₁ x) = .ok b') :
    (f b x >>= fun b₁ => foldOutcome f b₁ as) = .ok b' ↔ (foldOutcome f b as >>= fun b₁ => f b₁ x) = .ok b' := by
  induction as generalizing b with
  | nil => simp only [foldOutcome_nil, bind_eq_ok, ok_bind, Except.ok.injEq, exists_eq_right]
  | cons a as ih =>
    obtain ⟨hswap, hrest⟩ := List.forall_mem_cons.1 h
    calc (f b x >>= fun b₁ => foldOutcome f b₁ (a :: as)) = .ok b'
        ↔ ((f b x >>= fun b₁ => f b₁ a) >>= fun b₁ => foldOutcome f b₁ as) = .ok b' := by
          simp only [foldOutcome_cons, bind_assoc]
      _ ↔ ((f b a >>= fun b₁ => f b₁ x) >>= fun b₁ => foldOutcome f b₁ as) = .ok b' := by
          rw [bind_eq_ok, bind_eq_ok]
          exact exists_congr fun b₁ => and_congr_left fun _ => hswap b b₁
      _ ↔ (f b a >>= fun b₁ => foldOutcome f b₁ as >>= fun b₂ => f b₂ x) = .ok b' := by
          rw [bind_assoc, bind_eq_ok, bind_eq_ok]
          exact exists_congr fun b₁ => and_congr_right fun _ => ih hrest
      _ ↔ (foldOutcome f b (a :: as) >>= fun b₁ => f b₁ x) = .ok b' := by
          simp only [foldOutcome_cons, bind_assoc]

/-- Two walks with the same steps are the same. -/
theorem foldOutcome_congr {g : β → α → Outcome β} (h : ∀ a ∈ as, ∀ b, f b a = g b a) :
    foldOutcome f b as = foldOutcome g b as := by
  induction as generalizing b with
  | nil => rfl
  | cons a as ih =>
    obtain ⟨hstep, hsteps⟩ := List.forall_mem_cons.1 h
    rw [foldOutcome_cons, foldOutcome_cons, hstep b]
    exact congrArg _ (funext fun b' => ih hsteps)

/-- A walk whose steps do nothing for some elements, and for the others the same as for what becomes of them, is the
walk through what becomes of them. -/
theorem foldOutcome_filterMap {I : List α → β → Prop} {g : α → Option α} (start : I [] b)
    (step : ∀ done a rest b, as = done ++ a :: rest → I done b → f b a = (g a).elim (.ok b) (f b))
    (kept : ∀ done a rest b b', as = done ++ a :: rest → I done b → f b a = .ok b' → I (done ++ [a]) b') :
    foldOutcome f b as = foldOutcome f b (as.filterMap g) := by
  have run : ∀ rest done b, as = done ++ rest → I done b →
      foldOutcome f b rest = foldOutcome f b (rest.filterMap g) := by
    intro rest
    induction rest with
    | nil => exact fun done b hs hI => rfl
    | cons a rest ih =>
      intro done b hs hI
      have hnext : ∀ b', f b a = .ok b' → foldOutcome f b' rest = foldOutcome f b' (rest.filterMap g) := fun b' h =>
        ih (done ++ [a]) b' (by simp [hs]) (kept done a rest b b' hs hI h)
      have hstep := step done a rest b hs hI
      rw [foldOutcome_cons, List.filterMap_cons]
      cases hg : g a with
      | none =>
        rw [hg] at hstep
        rw [hstep]
        exact hnext b hstep
      | some a' =>
        rw [hg] at hstep
        dsimp only [Option.elim] at hstep ⊢
        rw [foldOutcome_cons, ← hstep]
        cases h : f b a with
        | error e => rfl
        | ok b' => exact hnext b' h
  exact run as [] b rfl start

section Range

variable {g : β → Nat → Outcome β} {n : Nat} {I : Nat → β → Prop}

theorem eq_length_of_range {done rest : List Nat} {i : Nat} (h : List.range n = done ++ i :: rest) :
    i = done.length ∧ i < n := by
  have hi : (List.range n)[done.length]? = some i := by simp [h]
  obtain ⟨hlt, rfl⟩ := List.getElem?_eq_some_iff.1 hi
  rw [List.length_range] at hlt
  exact ⟨List.getElem_range _, by rwa [List.getElem_range]⟩

/-- A walk through the first numbers, with an invariant that speaks of how many have been gone through. -/
theorem foldOutcome_range_invariant (h : foldOutcome g b (List.range n) = .ok b') (start : I 0 b)
    (step : ∀ i b b', I i b → g b i = .ok b' → I (i + 1) b') : I n b' := by
  suffices hI : I (List.range n).length b' by rwa [List.length_range] at hI
  refine foldOutcome_invariant (I := fun done b => I done.length b) h start ?_
  intro done i rest b b' hs hI hb
  obtain ⟨rfl, -⟩ := eq_length_of_range hs
  rw [List.length_append]
  exact step _ _ _ hI hb

/-- Such a walk ends if each of its steps succeeds. -/
theorem foldOutcome_range_total (start : I 0 b) (step : ∀ i < n, ∀ b, I i b → ∃ b', g b i = .ok b' ∧ I (i + 1) b') :
    ∃ b', foldOutcome g b (List.range n) = .ok b' ∧ I n b' := by
  suffices hI : ∃ b', foldOutcome g b (List.range n) = .ok b' ∧ I (List.range n).length b' by
    rwa [List.length_range] at hI
  refine foldOutcome_total (I := fun done b => I done.length b) start ?_
  intro done i rest b hs hI
  obtain ⟨rfl, hlt⟩ := eq_length_of_range hs
  rw [List.length_append]
  exact step _ hlt b hI

end Range

/-! ### Results for the elements of a list -/

theorem exists_of_mem_right {R : α → β → Prop} {bs : List β} {b : β} (h : List.Forall₂ R as bs) (hb : b ∈ bs) :
    ∃ a ∈ as, R a b := by
  induction h with
  | nil => cases hb
  | cons hab _ ih =>
    rcases List.mem_cons.1 hb with rfl | hb
    · exact ⟨_, List.mem_cons_self, hab⟩
    · obtain ⟨a, ha, hab⟩ := ih hb
      exact ⟨a, List.mem_cons_of_mem _ ha, hab⟩

theorem exists_of_mem_left {R : α → β → Prop} {bs : List β} (h : List.Forall₂ R as bs) (ha : a ∈ as) :
    ∃ b ∈ bs, R a b := exists_of_mem_right h.flip ha

/-- The results for a list are the results for its elements. -/
theorem mapM_eq_ok {f : α → Outcome β} {bs : List β} :
    as.mapM f = .ok bs ↔ List.Forall₂ (fun a b => f a = .ok b) as bs := by
  induction as generalizing bs with
  | nil =>
    rw [List.mapM_nil, pure_eq_ok, List.forall₂_nil_left_iff]
    exact eq_comm
  | cons a as ih =>
    simp only [List.mapM_cons, bind_eq_ok, pure_eq_ok, List.forall₂_cons_left_iff, ih]
    grind

/-- A walk through the results for a list is a walk through the list. -/
theorem foldOutcome_mapM_eq_ok {g : γ → Outcome α} {cs : List γ} :
    (cs.mapM g >>= foldOutcome f b) = .ok b' ↔ foldOutcome (fun b c => g c >>= f b) b cs = .ok b' := by
  induction cs generalizing b with
  | nil => rw [List.mapM_nil, pure_bind, foldOutcome_nil, foldOutcome_nil]
  | cons c cs ih =>
    simp only [List.mapM_cons, foldOutcome_cons, bind_eq_ok, pure_eq_ok] at ih ⊢
    constructor
    · rintro ⟨_, ⟨a, ha, as, has, rfl⟩, hfold⟩
      rw [foldOutcome_cons, bind_eq_ok] at hfold
      obtain ⟨b₁, hb₁, hfold⟩ := hfold
      exact ⟨b₁, ⟨a, ha, hb₁⟩, ih.1 ⟨as, has, hfold⟩⟩
    · rintro ⟨b₁, ⟨a, ha, hb₁⟩, hfold⟩
      obtain ⟨as, has, hfold⟩ := ih.2 hfold
      exact ⟨a :: as, ⟨a, ha, as, has, rfl⟩, by rw [foldOutcome_cons]; exact bind_eq_ok.2 ⟨b₁, hb₁, hfold⟩⟩

/-- There are results for a list if there are for its elements. -/
theorem mapM_total {f : α → Outcome β} (h : ∀ a ∈ as, ∃ b, f a = .ok b) : ∃ bs, as.mapM f = .ok bs := by
  induction as with
  | nil => exact ⟨[], rfl⟩
  | cons a as ih =>
    obtain ⟨⟨b, hb⟩, has⟩ := List.forall_mem_cons.1 h
    obtain ⟨bs, hbs⟩ := ih has
    exact ⟨b :: bs, by rw [List.mapM_cons, hb, hbs]; rfl⟩

/-! ### Faults -/

/-- If the operation is stopped, it is by a fault. -/
def Wordless (x : Outcome α) : Prop := ∀ stop, x = .error stop → stop = .fault

namespace Wordless

theorem ok (a : α) : Wordless (.ok a) := fun _ h => nomatch h

theorem fault : Wordless (.error .fault : Outcome α) := fun _ h => (Except.error.inj h).symm

/-- One operation after another. -/
theorem bind {x : Outcome α} {f : α → Outcome β} (hx : Wordless x) (hf : ∀ a, Wordless (f a)) :
    Wordless (x >>= f) := by
  cases x with
  | error stop =>
    obtain rfl := hx stop rfl
    exact fault
  | ok a => exact hf a

theorem ite {p : Prop} [Decidable p] {x y : Outcome α} (hx : Wordless x) (hy : Wordless y) :
    Wordless (if p then x else y) := by
  split
  · exact hx
  · exact hy

theorem epoch (n : Int) : Wordless (Epoch.checked n) := ite (ok n) fault

theorem count (n : Nat) : Wordless (Count.checked n) := ite (ok n) fault

end Wordless

/-- If the operation is stopped, it is not by a fault. -/
def Faultless (x : Outcome α) : Prop := x ≠ .error .fault

namespace Faultless

variable {x y : Outcome α}

theorem ok (a : α) : Faultless (.ok a) := nofun

theorem of_ok (h : ∃ a, x = .ok a) : Faultless x := by
  obtain ⟨a, rfl⟩ := h
  exact ok a

theorem failed (text : String) : Faultless (failed text : Outcome α) := nofun

/-- Such an operation ends in a value or in a failure. -/
theorem exists_failure (h : Faultless x) (hno : ¬∃ a, x = .ok a) : ∃ f, x = .error (.failure f) := by
  cases x with
  | ok a => exact absurd ⟨a, rfl⟩ hno
  | error stop =>
    cases stop with
    | fault => exact absurd rfl h
    | failure f => exact ⟨f, rfl⟩

/-- One operation after another, which need only be looked at where the first one ends. -/
theorem bind {f : α → Outcome β} (hx : Faultless x) (hf : ∀ a, x = .ok a → Faultless (f a)) : Faultless (x >>= f) := by
  cases x with
  | error stop => exact fun h => hx (congrArg Except.error (Except.error.inj h))
  | ok a => exact hf a rfl

theorem ite {p : Prop} [Decidable p] (hx : Faultless x) (hy : Faultless y) : Faultless (if p then x else y) := by
  split
  · exact hx
  · exact hy

/-- Words of a caller make no difference. -/
theorem onFailure (g : Failure → Failure) (hx : Faultless x) : Faultless (onFailure g x) := by
  unfold SectorLedger.onFailure
  split
  · exact nofun
  · exact hx

/-- A walk. -/
theorem foldOutcome {f : β → α → Outcome β} {as : List α} (h : ∀ a ∈ as, ∀ b, Faultless (f b a)) (b : β) :
    Faultless (foldOutcome f b as) := by
  induction as generalizing b with
  | nil => exact ok b
  | cons a as ih =>
    obtain ⟨ha, has⟩ := List.forall_mem_cons.1 h
    rw [foldOutcome_cons]
    exact bind (ha b) fun b' _ => ih has b'

end Faultless

end SectorLedger
