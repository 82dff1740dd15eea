import SectorLedger.Proofs.Deadline.Posting
import SectorLedger.Proofs.Miner.Conservation
import SectorLedger.Proofs.Window

/-!
# The record of proven partitions when a window closes

A closing window clears the deadline's record of proven partitions, so in the next window all have to be proven again.
There is one exception: a deadline whose sectors have all ended is left as it is, with its record. When it gets new
sectors, the partitions in the record count as proven though nobody has proven them.

* `advanceDeadline_current`: the closing of a window changes the current deadline only, and how.
* `posted_of_advanceDeadline`: the record afterwards, and what follows for the next window.
-/

namespace SectorLedger

namespace MinerState

open Deadline

variable {policy : Policy} {m m' : MinerState} {now : Int} {a : Advance}

/-- A window that closes after the period has started changes the current deadline only. If the deadline has live
sectors, missed proofs are counted and what is due ends; otherwise nothing happens to it. -/
theorem advanceDeadline_current (h : m.advanceDeadline policy now = .ok (m', a)) (hnow : m.periodStart ≤ now) :
    ∃ d d', m.allDeadlines[m.currentDeadline]? = some (.held d) ∧
      m'.allDeadlines = m.allDeadlines.set m.currentDeadline (.held d') ∧
      ((d.live = 0 ∧ d' = d) ∨ (d.live ≠ 0 ∧ ∃ grid epoch d₁ ended upTo expired,
        d.processEnd grid epoch = .ok (d₁, ended) ∧ d₁.popExpired upTo = .ok (d', expired))) := by
  obtain ⟨m₁, vested, w, hvest, hw, h⟩ := advanceDeadline_spec h
  obtain ⟨hdeadlines, hstart, hcurrent⟩ : m₁.deadlines = m.deadlines ∧ m₁.periodStart = m.periodStart ∧
      m₁.currentDeadline = m.currentDeadline := by
    rcases unlockVested_spec hvest with ⟨-, rfl, -⟩ | ⟨_, -, -, -, rfl⟩ <;> exact ⟨rfl, rfl, rfl⟩
  obtain ⟨hperiod, hindex, hseen, -⟩ := Window.make_spec hw
  rcases h with ⟨hwaiting, -⟩ | ⟨m₂, ds, d, -, hnext, hds, hload, h⟩
  · have hstarted : w.periodStarted = true := by
      rw [Window.periodStarted, hperiod, hseen, hstart]
      exact decide_eq_true hnow
    exact absurd (hwaiting.symm.trans hstarted) Bool.false_ne_true
  obtain ⟨next, start, rfl, -⟩ := nextDeadline_spec hnext
  have hds' : m.allDeadlines = ds := by rw [allDeadlines, ← hdeadlines, show m₁.deadlines = .held ds from hds]
  rw [hindex, hcurrent] at hload
  obtain ⟨hlt, hd⟩ := Deadlines.load_eq_ok.1 hload
  rw [hds']
  rcases h with ⟨hlive, rfl, -⟩ | ⟨hlive, hclose⟩
  · refine ⟨d, d, hd, ?_, .inl ⟨hlive, rfl⟩⟩
    obtain ⟨hi, hget⟩ := List.getElem?_eq_some_iff.1 hd
    rw [← hget, List.set_getElem_self hi, allDeadlines, show m₁.deadlines = .held ds from hds]
  · obtain ⟨last, faultExpiration, d₁, ended, d', expired, ds', -, -, hend, hpop, -, hput, ⟨early, rfl⟩, -⟩ :=
      closeDeadline_spec hclose
    obtain ⟨-, -, -, rfl⟩ := Deadlines.put_eq_ok.1 hput
    refine ⟨d, d', hd, ?_, .inr ⟨hlive, _, _, d₁, ended, last, expired, hend, hpop⟩⟩
    rw [allDeadlines, hindex, hcurrent]

/-- **A closed window leaves no record of proofs, if its deadline has live sectors.** Otherwise the deadline stays as
it was, with its record. Whatever is done to it then, a partition that is not in that record and that nobody proves is
treated as not proven. -/
theorem posted_of_advanceDeadline (h : m.advanceDeadline policy now = .ok (m', a)) (hnow : m.periodStart ≤ now) :
    ∃ d d', m.allDeadlines[m.currentDeadline]? = some (.held d) ∧
      m'.allDeadlines = m.allDeadlines.set m.currentDeadline (.held d') ∧
      (d.live ≠ 0 → d'.posted = ∅) ∧ (d.live = 0 → d' = d) ∧
      ∀ os d'', Course d' os d'' → ∀ i, (∀ o ∈ os, i ∉ o.proven) → (d.live = 0 → i ∉ d.posted) →
        i ∉ d''.posted ∧ d''.Outstanding i := by
  obtain ⟨d, d', hd, hdeadlines, hclosed⟩ := advanceDeadline_current h hnow
  have hcleared : d.live ≠ 0 → d'.posted = ∅ := fun hlive => by
    rcases hclosed with ⟨hzero, -⟩ | ⟨-, _, _, d₁, _, _, _, hend, hpop⟩
    · exact absurd hzero hlive
    · have hempty := (lost_of_processEnd hend).1
      obtain ⟨_, _, _, _, -, -, ⟨-, rfl, -⟩ | ⟨_, _, _, -, -, -, -, -, -, rfl⟩⟩ := popExpired_spec hpop <;> exact hempty
  have hkept : d.live = 0 → d' = d := fun hzero => hclosed.elim And.right fun hlive => absurd hzero hlive.1
  refine ⟨d, d', hd, hdeadlines, hcleared, hkept, fun os d'' hcourse i hno hrecord => ?_⟩
  have hout : i ∉ d''.posted := fun hi => by
    rcases hcourse.of_mem_posted hi with hi | ⟨o, ho, hi⟩
    · by_cases hlive : d.live = 0
      · exact hrecord hlive (hkept hlive ▸ hi)
      · exact NumberSet.not_mem_empty i (hcleared hlive ▸ hi)
    · exact hno o ho hi
  exact ⟨hout, outstanding_of_not_mem hout⟩

/-- A sector comes to an empty deadline, is proven, and is terminated. -/
def endedOperations : List Deadline.Operation :=
  [.addSectors 2 true (Partition.sample.take 1), .recordProven 20 [⟨0, ∅⟩],
    .terminateSectors 10 12 (PartitionSectors.ofList [(0, .ofList [1])])]

/-- The window closes, but the record of the proof stays. In the next window another sector comes to the partition.
Nobody proves it, and it does not become faulty. -/
theorem posted_of_endedOperations : ∃ d w m' a d' d'' d₃ w' r p,
    Deadline.Run ⟨5, 4⟩ .kib2 (.ofList Partition.sample) (fun _ _ => True) endedOperations d w ∧
    (sampleMiner d).advanceDeadline samplePolicy 14 = .ok (m', a) ∧ d.live = 0 ∧ m'.allDeadlines = [.held d'] ∧
    d'.posted = .ofList [0] ∧
    d'.addSectors ⟨5, 4⟩ .kib2 2 true (Partition.sample.drop 1) = .ok (d'', w') ∧
    d''.processEnd ⟨5, 4⟩ 24 = .ok (d₃, r) ∧ d₃.parts.get? 0 = some p ∧ p.liveSectors = .ofList [2] ∧ p.faults = ∅ := by
  have hrun : ((Deadline.follow ⟨5, 4⟩ .kib2 (.ofList Partition.sample) (fun _ _ => True) endedOperations ({}, 0)).map
      fun s => (s.1.live, s.1.posted, (do
        let _ ← (sampleMiner s.1).advanceDeadline samplePolicy 14
        let r ← s.1.addSectors ⟨5, 4⟩ .kib2 2 true (Partition.sample.drop 1)
        let r ← r.1.processEnd ⟨5, 4⟩ 24
        return (r.1.parts.get? 0).map fun p => (p.liveSectors, p.faults) :
          Outcome (Option (NumberSet × NumberSet))))) =
      some (0, .ofList [0], .ok (some (.ofList [2], ∅))) := by decide +kernel
  obtain ⟨⟨d, w⟩, hfollow, heq⟩ := Option.map_eq_some_iff.1 hrun
  simp only [Prod.mk.injEq, bind_eq_ok, pure_eq_ok] at heq
  obtain ⟨hlive, hposted, ⟨m', a⟩, hadvance, ⟨d'', w'⟩, hadd, ⟨d₃, r⟩, hend, hp⟩ := heq
  obtain ⟨p, hp, heq⟩ := Option.map_eq_some_iff.1 hp
  obtain ⟨hlivep, hfaults⟩ := Prod.mk.inj heq
  obtain ⟨d₀, d', hd₀, hdeadlines, -, hkept, -⟩ := posted_of_advanceDeadline hadvance (by decide : (10 : Int) ≤ 14)
  obtain rfl : d = d₀ := by simpa [sampleMiner, allDeadlines] using hd₀
  obtain rfl := hkept hlive
  exact ⟨d', w, m', a, d', d'', d₃, w', r, p, Deadline.Run.of_follow .start hfollow, hadvance, hlive, hdeadlines,
    hposted, hadd, hend, hp, hlivep, hfaults⟩

end MinerState

end SectorLedger
