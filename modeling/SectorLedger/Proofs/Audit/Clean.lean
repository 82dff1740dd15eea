import SectorLedger.Audit.Findings
import SectorLedger.Proofs.NumberSet

/-!
# Audits without findings

An audit that ends without findings has looked at everything and found every condition met. The lemmas on one construct
at a time are tagged for `simp`, which then takes such an audit apart into the conditions that it checks.

* `Audit.Clean`: no findings.
* `clean_bind`, `clean_expect`, `clean_attempt` and their like: one construct each.
* `clean_foldlM`: what every step keeps, a walk through a list keeps.
* `seen_of_clean`, `sum_of_clean`: a walk through the members of a set that have not been seen before.
-/

namespace SectorLedger.Audit

variable {α β : Type} {x : Audit α} {a b : α}

/-- The audit ends with the value, and finds nothing. -/
def Clean (x : Audit α) (a : α) : Prop := x.run = .ok ([], a)

/-! ### One construct at a time -/

@[simp] theorem clean_pure : Clean (pure a) b ↔ a = b := by
  show (Except.ok ([], a) : Outcome (List String × α)) = .ok ([], b) ↔ _
  simp

@[simp] theorem clean_bind {f : α → Audit β} {c : β} : Clean (x >>= f) c ↔ ∃ a, Clean x a ∧ Clean (f a) c :=
  bind_eq_clean_iff

@[simp] theorem clean_liftM {x : Outcome α} : Clean (liftM x) a ↔ x = .ok a := by
  show (Audit.lift x).run = _ ↔ _
  unfold Audit.lift
  split
  · exact iff_of_false nofun nofun
  · show (Except.ok ([], _) : Outcome (List String × α)) = .ok ([], a) ↔ _
    simp

@[simp] theorem not_clean_note {finding : String} {u : Unit} : ¬Clean (note finding) u := nofun

@[simp] theorem clean_expect {condition : Bool} {finding : String} {u : Unit} :
    Clean (expect condition finding) u ↔ condition = true := expect_eq_clean_iff

@[simp] theorem clean_under {words : String} : Clean (under words x) a ↔ Clean x a := by
  unfold Clean under
  generalize x.run = result
  rcases result with stop | ⟨found, b⟩
  · exact iff_of_false nofun nofun
  · show (Except.ok (found.map (words ++ ·), b) : Outcome (List String × α)) = .ok ([], a) ↔ _
    simp

@[simp] theorem clean_attempt {words : String} {fallback : α} {y : Outcome β} {k : β → Audit α} :
    Clean (attempt words fallback y k) a ↔ ∃ b, y = .ok b ∧ Clean (k b) a := by
  unfold attempt
  split
  · simp
  · simp
  · exact iff_of_false nofun nofun

@[simp] theorem clean_expectContainsAll {s t : NumberSet} {words : String} {u : Unit} :
    Clean (expectContainsAll s t words) u ↔ ∀ n ∈ t, n ∈ s := by
  rw [expectContainsAll, clean_expect, NumberSet.containsAll_iff]

@[simp] theorem clean_expectDisjoint {s t : NumberSet} {words : String} {u : Unit} :
    Clean (expectDisjoint s t words) u ↔ ∀ n ∈ t, n ∉ s := by
  rw [expectDisjoint, clean_expect, Bool.not_eq_true', ← Bool.not_eq_true, NumberSet.containsAny_iff]
  push Not
  rfl

@[simp] theorem clean_expectEqual {s t : NumberSet} {words : String} {u : Unit} :
    Clean (expectEqual s t words) u ↔ s = t := by
  rw [expectEqual, clean_bind]
  constructor
  · rintro ⟨_, hts, hst⟩
    rw [clean_expectContainsAll] at hts
    rw [if_pos (NumberSet.containsAll_iff.2 hts), clean_expectContainsAll] at hst
    exact NumberSet.ext fun n => ⟨hst n, hts n⟩
  · rintro rfl
    have hself : s.containsAll s = true := NumberSet.containsAll_iff.2 fun _ => id
    rw [if_pos hself]
    exact ⟨(), clean_expectContainsAll.2 fun _ => id, clean_expectContainsAll.2 fun _ => id⟩

/-! ### Walks -/

variable {as : List α}

/-- A walk without findings keeps what each of its steps keeps. The invariant may speak of the elements gone
through. -/
theorem clean_foldlM {f : β → α → Audit β} {c c' : β} {I : List α → β → Prop} (h : Clean (as.foldlM f c) c')
    (start : I [] c)
    (step : ∀ done a rest c c', as = done ++ a :: rest → I done c → Clean (f c a) c' → I (done ++ [a]) c') :
    I as c' := by
  have run : ∀ rest done c, as = done ++ rest → I done c → Clean (rest.foldlM f c) c' → I as c' := by
    intro rest
    induction rest with
    | nil =>
      intro done c hs hI hc
      obtain rfl : c = c' := clean_pure.1 hc
      rwa [hs, List.append_nil]
    | cons a rest ih =>
      intro done c hs hI hc
      rw [List.foldlM_cons, clean_bind] at hc
      obtain ⟨c₁, h₁, h₂⟩ := hc
      exact ih (done ++ [a]) c₁ (by simp [hs]) (step done a rest c c₁ hs hI h₁) h₂
  exact run as [] c rfl start h

@[simp] theorem clean_forM {f : α → Audit Unit} {u : Unit} : Clean (as.forM f) u ↔ ∀ a ∈ as, Clean (f a) () := by
  induction as with
  | nil => exact iff_of_true rfl fun a ha => absurd ha List.not_mem_nil
  | cons a as ih =>
    show Clean (f a >>= fun _ => as.forM f) u ↔ _
    rw [clean_bind, List.forall_mem_cons, ← ih]
    exact ⟨fun ⟨_, ha, has⟩ => ⟨ha, has⟩, fun ⟨ha, has⟩ => ⟨(), ha, has⟩⟩

variable {s : NumberSet} {f : β → Nat → Audit β} {c c' : β}

/-- Each member of a set is new, and is seen then. -/
theorem seen_of_clean (seen : β → NumberSet) {P : Nat → Prop} (h : Clean (s.elements.foldlM f c) c')
    (hstep : ∀ c n c', Clean (f c n) c' → n ∉ seen c ∧ P n ∧ seen c' = seen c ∪ NumberSet.singleton n) :
    (∀ n ∈ s, n ∉ seen c ∧ P n) ∧ seen c' = seen c ∪ s := by
  have hall := clean_foldlM (I := fun done c₁ => (∀ n ∈ done, n ∉ seen c ∧ P n) ∧ ∀ n, n ∈ seen c₁ ↔
    n ∈ seen c ∨ n ∈ done) h ⟨fun n hn => absurd hn List.not_mem_nil, fun n => by simp⟩ ?_
  · obtain ⟨hnew, hseen⟩ := hall
    refine ⟨fun n hn => hnew n (NumberSet.mem_elements.2 hn), NumberSet.ext fun n => ?_⟩
    rw [hseen, NumberSet.mem_union, NumberSet.mem_elements]
  · rintro done n rest c₁ c₂ - ⟨hnew, hseen⟩ hclean
    obtain ⟨hfresh, hn, hseen'⟩ := hstep c₁ n c₂ hclean
    rw [hseen, not_or] at hfresh
    refine ⟨fun m hm => ?_, fun m => ?_⟩
    · rcases List.mem_append.1 hm with hm | hm
      · exact hnew m hm
      · obtain rfl := List.mem_singleton.1 hm
        exact ⟨hfresh.1, hn⟩
    · rw [hseen', NumberSet.mem_union, hseen, NumberSet.mem_singleton, List.mem_append, List.mem_singleton, or_assoc]

/-- What each member adds, the set adds in all. -/
theorem sum_of_clean {M : Type} [AddCommGroup M] (sum : β → M) {v : Nat → M} (h : Clean (s.elements.foldlM f c) c')
    (hstep : ∀ c n c', Clean (f c n) c' → sum c' = sum c + v n) : sum c' = sum c + s.total v := by
  have hall := clean_foldlM (I := fun done c₁ => sum c₁ = sum c + (done.map v).sum) h (by simp) ?_
  · rw [hall, NumberSet.sum_map_eq_total v s.nodup_elements]
    refine congrArg (sum c + ·) (NumberSet.total_congr_set v fun n => ?_)
    rw [NumberSet.mem_ofList, NumberSet.mem_elements]
  · rintro done n rest c₁ c₂ - hsum hclean
    rw [hstep c₁ n c₂ hclean, hsum, List.map_append, List.sum_append, List.map_singleton, List.sum_singleton, add_assoc]

end SectorLedger.Audit
