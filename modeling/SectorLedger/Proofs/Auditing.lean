import SectorLedger.Audit.Miner
import SectorLedger.Proofs.Grid
import SectorLedger.Proofs.Vesting.Table

/-!
# What audits find

An audit is taken apart into its parts: the findings of one are put in front of those of the next.

* `Audit.run_bind_of_ok`, `run_expect_bind`, `run_lift_bind`: the parts.
* `Audit.run_vestingEntries`: the entries of a vesting table that lie on the grid.
* `Audit.run_balances`: the whole audit of the money, if the table adds up.
-/

namespace SectorLedger.Audit

variable {α β : Type}

theorem run_bind_of_ok {x : Audit α} {found : List String} {a : α} (h : x.run = .ok (found, a)) (f : α → Audit β) :
    (x >>= f).run = (fun r => (found ++ r.1, r.2)) <$> (f a).run := by
  show (Audit.bind x f).run = _
  unfold Audit.bind
  rw [h]
  rfl

theorem run_bind_of_error {x : Audit α} {stop : Stop} (h : x.run = .error stop) (f : α → Audit β) :
    (x >>= f).run = .error stop := by
  show (Audit.bind x f).run = _
  unfold Audit.bind
  rw [h]
  rfl

theorem run_expect (condition : Bool) (finding : String) :
    (expect condition finding).run = .ok (if condition then [] else [finding], ()) := by
  cases condition <;> rfl

variable {grid : Grid} {e : Instalment} {t : VestingTable}

/-- What is written down about an entry of the vesting table without an amount. -/
def emptyEntry (e : Instalment) : String := s!"non-positive amount in miner vesting table entry {e.shown}"

/-- The entry can be checked: its distance from the offset of the grid is in range. -/
def Checkable (grid : Grid) (e : Instalment) : Prop := Epoch.InRange (e.epoch - grid.offset.tmod grid.unit)

instance (grid : Grid) (e : Instalment) : Decidable (Checkable grid e) :=
  inferInstanceAs (Decidable (Epoch.InRange _))

/-- An entry on the grid is written down only if it has no amount. -/
theorem run_vestingEntry (hu : 0 < grid.unit) (hon : grid.OnGrid e.epoch) (he : Epoch.InRange e.epoch)
    (hcheck : Checkable grid e) :
    (vestingEntry grid e).run = .ok (if 0 < e.amount then [] else [emptyEntry e], ()) := by
  have hup : (liftM (grid.up e.epoch) : Audit Int).run = .ok ([], e.epoch) := by
    rw [Grid.up_self hu hon he hcheck]
    rfl
  rw [vestingEntry, run_bind_of_ok (run_expect _ _), run_bind_of_ok hup, run_expect, beq_self_eq_true]
  by_cases hpos : 0 < e.amount
  · rw [if_pos hpos, decide_eq_true hpos]
    rfl
  · rw [if_neg hpos, decide_eq_false hpos]
    rfl

/-- An entry that cannot be checked stops the audit. -/
theorem run_vestingEntry_of_fault (hu : 0 < grid.unit) (hcheck : ¬Checkable grid e) :
    (vestingEntry grid e).run = .error .fault := by
  have hup : (liftM (grid.up e.epoch) : Audit Int).run = .error .fault := by
    have hsub : Epoch.sub e.epoch (grid.offset.tmod grid.unit) = .error .fault := if_neg hcheck
    rw [Grid.up, (Grid.rem_eq_ok hu).2 rfl, ok_bind, hsub]
    rfl
  rw [vestingEntry, run_bind_of_ok (run_expect _ _), run_bind_of_error hup]
  rfl

/-- The entries on the grid that have no amount are written down, and nothing else. -/
theorem run_vestingEntries (hu : 0 < grid.unit) (hon : ∀ e ∈ t, grid.OnGrid e.epoch)
    (hrange : ∀ e ∈ t, Epoch.InRange e.epoch) : (t.forM (vestingEntry grid)).run =
      if ∀ e ∈ t, Checkable grid e then .ok ((t.filter fun e => ¬0 < e.amount).map emptyEntry, ())
      else .error .fault := by
  induction t with
  | nil => rfl
  | cons e t ih =>
    have hrest := ih (fun e he => hon e (List.mem_cons_of_mem _ he)) fun e he => hrange e (List.mem_cons_of_mem _ he)
    show (vestingEntry grid e >>= fun _ => t.forM (vestingEntry grid)).run = _
    simp only [List.forall_mem_cons]
    by_cases hcheck : Checkable grid e
    · rw [run_bind_of_ok (run_vestingEntry hu (hon e List.mem_cons_self) (hrange e List.mem_cons_self) hcheck), hrest]
      by_cases hall : ∀ e ∈ t, Checkable grid e
      · rw [if_pos hall, if_pos (And.intro hcheck hall), List.filter_cons]
        by_cases hpos : 0 < e.amount
        · rw [if_pos hpos, if_neg (by simpa using hpos)]
          rfl
        · rw [if_neg hpos, if_pos (by simpa using hpos)]
          rfl
      · have hnone : ¬(Checkable grid e ∧ ∀ e ∈ t, Checkable grid e) := fun h => hall h.2
        rw [if_neg hall, if_neg hnone]
        rfl
    · rw [run_bind_of_error (run_vestingEntry_of_fault hu hcheck), if_neg fun h => hcheck h.1]

/-- The totals can always be checked. -/
theorem exists_run_totals (m : MinerState) (balance : Int) : ∃ found, (totals m balance).run = .ok (found, ()) := by
  rw [totals, run_bind_of_ok (run_expect _ _), run_bind_of_ok (run_expect _ _), run_bind_of_ok (run_expect _ _),
    run_bind_of_ok (run_expect _ _), run_bind_of_ok (run_expect _ _), run_expect]
  exact ⟨_, rfl⟩

/-- A vesting table on the grid that adds up is found to have the entries without an amount. -/
theorem run_balances {policy : Policy} {m : MinerState} (hu : 0 < policy.window) (held : m.vesting = .held t)
    (hon : ∀ e ∈ t, (m.everyDeadlineGrid policy).OnGrid e.epoch) (hrange : ∀ e ∈ t, Epoch.InRange e.epoch)
    (hsum : t.total = m.lockedFunds) {balance : Int} {found : List String}
    (htotals : (totals m balance).run = .ok (found, ())) : (balances policy m balance).run =
      if ∀ e ∈ t, Checkable (m.everyDeadlineGrid policy) e then
        .ok (found ++ (t.filter fun e => ¬0 < e.amount).map emptyEntry, ())
      else .error .fault := by
  have hload : m.loadVesting = .ok t := Stored.fetch_eq_ok.2 held
  have hentries := run_vestingEntries hu hon hrange
  rw [balances, run_bind_of_ok htotals, vestingTable, hload, attempt]
  by_cases hall : ∀ e ∈ t, Checkable (m.everyDeadlineGrid policy) e
  · rw [if_pos hall] at hentries ⊢
    have hchecked : (do
        t.forM (vestingEntry (m.everyDeadlineGrid policy))
        return VestingTable.total t : Audit Int).run =
        .ok ((t.filter fun e => ¬0 < e.amount).map emptyEntry, m.lockedFunds) := by
      rw [run_bind_of_ok hentries, hsum]
      show Except.ok (_ ++ [], m.lockedFunds) = _
      rw [List.append_nil]
    rw [run_bind_of_ok hchecked, run_expect, beq_self_eq_true]
    show Except.ok (found ++ (_ ++ []), ()) = _
    rw [List.append_nil]
  · rw [if_neg hall] at hentries ⊢
    have hfault : (do
        t.forM (vestingEntry (m.everyDeadlineGrid policy))
        return VestingTable.total t : Audit Int).run = .error .fault := run_bind_of_error hentries _
    rw [run_bind_of_error hfault]
    rfl

end SectorLedger.Audit
