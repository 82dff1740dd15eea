import SectorLedger.Proofs.Expiration.Faulting
import SectorLedger.Proofs.Expiration.Removing

/-!
# Queues that pass the check

Whatever stores an entry checks it, so a queue that comes about by operations has no negative total, even where the
powers and pledges of single sectors are negative.

* `Valid`: every entry passes the check.
* `Valid.addActive`, `Valid.reschedule` and their like: the operations keep it.
-/

namespace SectorLedger.ExpirationQueue

variable {grid : Grid} {size : SectorSize} {faults ms : NumberSet} {ss : List Sector} {q q' : ExpirationQueue} {k : Nat}
  {e : ExpirationSet} {epoch : Int} {lot : Lot}

/-- Every entry passes the check. -/
def Valid (q : ExpirationQueue) : Prop := ∀ k e, q.get? k = some e → e.validate = .ok ()

theorem valid_empty : Valid ∅ := fun k e h => by simp at h

namespace Valid

theorem entry (h : q.Valid) (k : Nat) : (q.entry k).validate = .ok () := by
  unfold ExpirationQueue.entry
  cases hk : q.get? k with
  | none => rfl
  | some e => exact h k e hk

theorem insert (h : q.Valid) (he : e.validate = .ok ()) : Valid (SparseArray.insert q k e) := by
  intro j e' hj
  obtain ⟨-, rfl⟩ | ⟨-, hj⟩ := SparseArray.get?_insert_eq_some.1 hj
  · exact he
  · exact h j e' hj

theorem erase (h : q.Valid) : Valid (SparseArray.erase q k) := fun j e' hj =>
  h j e' (SparseArray.get?_erase_eq_some.1 hj).2

theorem eraseAll (h : q.Valid) (ks : List Nat) : Valid (SparseArray.eraseAll q ks) := fun j e' hj =>
  h j e' (SparseArray.get?_eraseAll_eq_some.1 hj).2

theorem store (h : q.Valid) (he : e.validate = .ok ()) : (q.store k e).Valid := by
  unfold ExpirationQueue.store
  split
  · exact h.erase
  · exact h.insert he

theorem addAt {added : ExpirationSet} (h : q.Valid) (hadd : addAt grid q epoch added = .ok q') : q'.Valid := by
  obtain ⟨k, -, -, hvalid, rfl⟩ := addAt_eq_ok.1 hadd
  exact h.insert hvalid

theorem removeAt {removed : ExpirationSet} (h : q.Valid) (hrem : removeAt grid q epoch removed = .ok q') :
    q'.Valid := by
  obtain ⟨k, -, -, -, rest, hrest, rfl⟩ := removeAt_eq_ok.1 hrem
  exact h.store (ExpirationSet.remove_eq_ok.1 hrest).2.2.1

theorem putOrDrop (h : q.Valid) (he : e.validate = .ok ()) (hput : q.putOrDrop epoch e = .ok q') : q'.Valid := by
  obtain ⟨k, -, -, rfl⟩ := putOrDrop_eq_ok.1 hput
  exact h.store he

theorem enter {r r' : ExpirationQueue × Lot} {c : Cohort} (hr : r.1.Valid) (h : enter grid r c = .ok r') :
    r'.1.Valid := by
  obtain ⟨-, k, -, hvalid, rfl⟩ := enter_eq_ok.1 h
  exact hr.insert hvalid

theorem addActive (h : q.Valid) (hadd : addActive grid size q ss = .ok (q', lot)) : q'.Valid := by
  obtain ⟨groups, cohorts, -, -, hfold⟩ := addActive_eq_ok.1 hadd
  refine foldOutcome_invariant (I := fun _ (r : ExpirationQueue × Lot) => r.1.Valid) hfold h ?_
  rintro done c rest r r' - hr hstep
  exact hr.enter hstep

theorem removeActive (h : q.Valid) (hrem : removeActive grid size q ss = .ok (q', lot)) : q'.Valid := by
  simp only [ExpirationQueue.removeActive, bind_eq_ok, pure_eq_ok, Prod.mk.injEq] at hrem
  obtain ⟨cohorts, -, r, hfold, set, -, rfl, -⟩ := hrem
  refine foldOutcome_invariant (I := fun _ (r : ExpirationQueue × List Nat × Power × Int) => r.1.Valid) hfold h ?_
  rintro done c rest r r' - hr hstep
  simp only [bind_eq_ok, pure_eq_ok] at hstep
  obtain ⟨set, -, q₁, hrem, rfl⟩ := hstep
  exact hr.removeAt hrem

theorem reschedule (h : q.Valid) (hresch : reschedule grid size q epoch ss = .ok q') : q'.Valid := by
  unfold ExpirationQueue.reschedule at hresch
  split at hresch
  · exact pure_eq_ok.1 hresch ▸ h
  · simp only [bind_eq_ok, noting_eq_ok] at hresch
    obtain ⟨⟨q₁, lot⟩, hrem, hadd⟩ := hresch
    exact (h.removeActive hrem).addAt hadd

theorem popUntil {upTo : Int} {popped : ExpirationSet} (h : q.Valid) (hpop : q.popUntil upTo = (q', popped)) :
    q'.Valid := by
  obtain ⟨rfl, -⟩ := Prod.mk.inj hpop
  exact h.eraseAll _

/-! ### Faults -/

theorem rescheduleAsFaults {w : Power} (h : q.Valid) (hfault : rescheduleAsFaults grid size q epoch ss = .ok (q', w)) :
    q'.Valid := by
  simp only [ExpirationQueue.rescheduleAsFaults, bind_eq_ok] at hfault
  obtain ⟨cohorts, -, ⟨q₁, moved, movedPower, stayingPower⟩, hfold, hend⟩ := hfault
  have hq₁ : q₁.Valid := by
    refine foldOutcome_invariant (I := fun _ (r : ExpirationQueue × List Nat × Power × Power) => r.1.Valid) hfold h ?_
    rintro done c rest r r' - hr hstep
    simp only [bind_eq_ok] at hstep
    obtain ⟨limit, -, hstep⟩ := hstep
    split at hstep <;> simp only [bind_eq_ok, pure_eq_ok] at hstep
    · obtain ⟨q₂, hput, _, hvalid, rfl⟩ := hstep
      exact hr.putOrDrop hvalid hput
    · obtain ⟨set, -, q₂, hput, _, hvalid, rfl⟩ := hstep
      exact hr.putOrDrop hvalid hput
  split at hend
  · exact (Prod.mk.inj (pure_eq_ok.1 hend)).1 ▸ hq₁
  · simp only [bind_eq_ok, pure_eq_ok, Prod.mk.injEq] at hend
    obtain ⟨early, -, q₂, hadd, rfl, -⟩ := hend
    exact hq₁.addAt hadd

theorem rescheduleAllAsFaults (h : q.Valid) (hfault : rescheduleAllAsFaults grid q epoch = .ok q') : q'.Valid := by
  simp only [ExpirationQueue.rescheduleAllAsFaults, bind_eq_ok, within_eq_ok] at hfault
  obtain ⟨limit, -, c, hfold, hend⟩ := hfault
  have hc : c.queue.Valid := by
    refine foldOutcome_invariant (I := fun _ (c : Collapsed) => c.queue.Valid) hfold h ?_
    rintro done e rest c c' - hc hstep
    obtain ⟨-, hstep⟩ := collapseEntry_eq_ok.1 hstep
    split at hstep
    · obtain ⟨hvalid, rfl⟩ := hstep
      exact hc.insert hvalid
    · obtain ⟨-, -, rfl⟩ := hstep
      exact hc
  split at hend
  · exact pure_eq_ok.1 hend ▸ hc
  · simp only [bind_eq_ok, pure_eq_ok] at hend
    obtain ⟨q₁, hadd, rfl⟩ := hend
    exact (hc.addAt hadd).eraseAll c.keys

/-! ### Walks -/

/-- A walk that checks what it stores. -/
theorem walk {σ : Type} {f : σ → ExpirationSet → Outcome (σ × ExpirationSet × Bool)}
    (hf : ∀ s e s' e' more, f s e = .ok (s', e', more) → e'.validate = .ok ()) {es : List (Nat × ExpirationSet)}
    {s s' : σ} (h : q.Valid) (hwalk : walk f es s q = .ok (s', q')) : q'.Valid := by
  induction es generalizing s q with
  | nil => exact (Prod.mk.inj (Except.ok.inj hwalk)).2 ▸ h
  | cons c es ih =>
    simp only [ExpirationQueue.walk, bind_eq_ok] at hwalk
    obtain ⟨_, -, ⟨s₁, e, more⟩, hstep, hrest⟩ := hwalk
    have hq : (q.store c.1 e).Valid := h.store (hf _ _ _ _ _ hstep)
    split at hrest
    · exact ih hq hrest
    · exact (Prod.mk.inj (pure_eq_ok.1 hrest)).2 ▸ hq

theorem rescheduleRecovered {w : Power} (h : q.Valid) (hrec : rescheduleRecovered grid size q ss = .ok (q', w)) :
    q'.Valid := by
  simp only [ExpirationQueue.rescheduleRecovered, notFound, failed_bind, bind_eq_ok, within_eq_ok, ite_failed_eq_ok,
    pure_eq_ok, Prod.mk.injEq] at hrec
  obtain ⟨⟨all, q₁⟩, hwalk, -, ⟨q₂, lot⟩, hadd, rfl, -⟩ := hrec
  refine addActive (walk (fun s e s' e' more hstep => ?_) h hwalk) hadd
  simp only [recoverEntry, bind_eq_ok, pure_eq_ok, Prod.mk.injEq] at hstep
  obtain ⟨r, -, _, hvalid, -, rfl, -⟩ := hstep
  exact hvalid

theorem removeSectors {maxSectors : Nat} {removed : ExpirationSet} {recovering : Power} (h : q.Valid)
    (hrem : removeSectors grid size maxSectors q ss faults ms = .ok (q', removed, recovering)) : q'.Valid := by
  obtain ⟨-, -, q₁, lot, all, hactive, hwalk, -⟩ := removeSectors_eq_ok.1 hrem
  refine walk (fun s e s' e' more hstep => ?_) (h.removeActive hactive) hwalk
  simp only [removeFromEntry, bind_eq_ok, pure_eq_ok, Prod.mk.injEq] at hstep
  obtain ⟨r, -, _, hvalid, -, rfl, -⟩ := hstep
  exact hvalid

end Valid

end SectorLedger.ExpirationQueue
