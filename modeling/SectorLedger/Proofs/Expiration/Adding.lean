import SectorLedger.Proofs.Expiration.Valid

/-!
# Sectors enter the queue in any batches

New sectors are filed into cohorts, and a cohort enters with its totals. Where no total is negative, neither in the
queue nor among the new sectors, the checks on the way refuse nothing, so the sectors may as well enter one by one.

* `enter_comm`, `enter_join`: two cohorts enter, at different epochs or at the same one.
* `addActive_eq_enterEach`: the sectors enter one by one.
* `addActive_append`: two lists of sectors enter as one does.
-/

namespace SectorLedger

open NumberSet

variable {grid : Grid} {size : SectorSize} {s : Sector} {ss ts : List Sector} {epoch : Int}

/-- The pledge is not negative, nor is the power if there is one. -/
def Sector.Nonneg (size : SectorSize) (s : Sector) : Prop :=
  0 ≤ s.pledge ∧ ∀ w, Power.ofSector size s = .ok w → w.Nonneg

instance : Decidable (s.Nonneg size) :=
  match h : Power.ofSector size s with
  | .ok w => decidable_of_iff (0 ≤ s.pledge ∧ w.Nonneg) (by simp [Sector.Nonneg, h])
  | .error e => decidable_of_iff (0 ≤ s.pledge) (by simp [Sector.Nonneg, h])

namespace ExpirationSet

variable {e e' : ExpirationSet}

theorem merge_assoc (e e' e'' : ExpirationSet) : (e.merge e').merge e'' = e.merge (e'.merge e'') := by
  simp only [merge, union_assoc, add_assoc]

theorem validate_merge (h : e.validate = .ok ()) (h' : e'.validate = .ok ()) : (e.merge e').validate = .ok () := by
  obtain ⟨hp, ha, hf⟩ := validate_eq_ok.1 h
  obtain ⟨hp', ha', hf'⟩ := validate_eq_ok.1 h'
  exact validate_eq_ok.2 ⟨add_nonneg hp hp', ha.add ha', hf.add hf'⟩

end ExpirationSet

/-! ### Lots and cohorts -/

namespace Lot

@[simp] theorem join_empty (l : Lot) : l.join {} = l := by simp [join]

theorem join_assoc (l l' l'' : Lot) : (l.join l').join l'' = l.join (l'.join l'') := by
  simp only [join, union_assoc, add_assoc]

theorem join_right_comm (l l' l'' : Lot) : (l.join l').join l'' = (l.join l'').join l' := by
  simp only [join, union_assoc, union_comm l'.numbers, add_right_comm]

end Lot

namespace Cohort

variable {c c' : Cohort}

/-- The sectors of two cohorts, at the epoch of the first. -/
def join (c c' : Cohort) : Cohort := ⟨c.epoch, c.numbers ++ c'.numbers, c.power + c'.power, c.pledge + c'.pledge⟩

theorem ofList_append (ns ms : List Nat) : ofList (ns ++ ms) = ofList ns ∪ ofList ms := NumberSet.ext fun n => by simp

theorem lot_join (c c' : Cohort) : (c.join c').lot = c.lot.join c'.lot := by
  simp only [lot, join, Lot.join, ofList_append]

theorem entry_join (c c' : Cohort) : (c.join c').entry = c.entry.merge c'.entry := by
  simp only [entry, join, ExpirationSet.merge, ofList_append, union_empty, add_zero]

theorem ofSectors_concat : ofSectors size epoch (ss ++ [s]) = .ok c ↔
    ∃ a b, ofSectors size epoch ss = .ok a ∧ ofSectors size epoch [s] = .ok b ∧ c = a.join b := by
  simp only [ofSectors, foldOutcome_append, bind_eq_ok, foldOutcome_cons, foldOutcome_nil, pure_eq_ok,
    Except.ok.injEq]
  constructor
  · rintro ⟨a, ha, c', ⟨w, hw, rfl⟩, rfl⟩
    exact ⟨a, _, ha, ⟨_, ⟨w, hw, rfl⟩, rfl⟩, by simp [join]⟩
  · rintro ⟨a, b, ha, ⟨_, ⟨w, hw, rfl⟩, rfl⟩, rfl⟩
    exact ⟨a, ha, _, ⟨w, hw, rfl⟩, by simp [join]⟩

/-- The cohort of sectors whose powers and pledges are not negative. -/
theorem validate_ofSectors (hn : ∀ s ∈ ss, s.Nonneg size) (h : ofSectors size epoch ss = .ok c) :
    c.entry.validate = .ok () := by
  have hc := foldOutcome_invariant (I := fun _ (c : Cohort) => c.power.Nonneg ∧ 0 ≤ c.pledge) h
    ⟨Power.nonneg_zero, le_rfl⟩ ?_
  · exact ExpirationSet.validate_eq_ok.2 ⟨hc.2, hc.1, Power.nonneg_zero⟩
  · rintro done s rest c c' hs ⟨hpower, hpledge⟩ hstep
    simp only [bind_eq_ok, pure_eq_ok] at hstep
    obtain ⟨w, hw, rfl⟩ := hstep
    obtain ⟨hs₁, hs₂⟩ := hn s (by rw [hs]; simp)
    exact ⟨hpower.add (hs₂ w hw), add_nonneg hpledge hs₁⟩

end Cohort

namespace ExpirationQueue

variable {q q' : ExpirationQueue} {r r' : ExpirationQueue × Lot} {c c' : Cohort} {groups : List (Int × List Sector)}
  {g : Int × List Sector}

/-! ### One cohort -/

/-- Cohorts at different epochs enter in any order. -/
theorem enter_comm (hne : grid.up c.epoch ≠ grid.up c'.epoch)
    (h : (enter grid r c >>= fun r => enter grid r c') = .ok r') :
    (enter grid r c' >>= fun r => enter grid r c) = .ok r' := by
  simp only [bind_eq_ok, enter_eq_ok] at h ⊢
  obtain ⟨_, ⟨hn, k, hup, hvalid, rfl⟩, hn', k', hup', hvalid', rfl⟩ := h
  have hkk : k ≠ k' := fun he => hne (by rw [hup, hup', he])
  rw [entry_insert, if_neg (Ne.symm hkk)] at hvalid' ⊢
  refine ⟨_, ⟨hn', k', hup', hvalid', rfl⟩, hn, k, hup, ?_⟩
  rw [entry_insert, if_neg hkk]
  refine ⟨hvalid, Prod.ext (SparseArray.ext fun j => ?_) (Lot.join_right_comm _ _ _)⟩
  simp only [SparseArray.get?_insert]
  grind

/-- Cohorts at one epoch enter together. -/
theorem enter_join (hr : r.1.Valid) (he : c'.epoch = c.epoch) (hc : c.entry.validate = .ok ())
    (hc' : c'.entry.validate = .ok ()) :
    enter grid r (c.join c') = .ok r' ↔ (enter grid r c >>= fun r => enter grid r c') = .ok r' := by
  have hvalid := fun k => ExpirationSet.validate_merge (hr.entry k) hc
  have htwice : ∀ k, ((r.1.insert k ((r.1.entry k).merge c.entry)).insert k
      ((entry (r.1.insert k ((r.1.entry k).merge c.entry)) k).merge c'.entry), (r.2.join c.lot).join c'.lot) =
      (r.1.insert k ((r.1.entry k).merge (c.join c').entry), r.2.join (c.join c').lot) := by
    intro k
    rw [SparseArray.insert_insert, entry_insert, if_pos rfl, ExpirationSet.merge_assoc, Cohort.entry_join,
      Cohort.lot_join, Lot.join_assoc]
  simp only [bind_eq_ok, enter_eq_ok, he, Cohort.join, List.forall_mem_append]
  constructor
  · rintro ⟨⟨hn, hn'⟩, k, hup, -, rfl⟩
    refine ⟨_, ⟨hn, k, hup, hvalid k, rfl⟩, hn', k, hup, ?_, (htwice k).symm⟩
    rw [entry_insert, if_pos rfl]
    exact ExpirationSet.validate_merge (hvalid k) hc'
  · rintro ⟨_, ⟨hn, k, hup, -, rfl⟩, hn', k', hup', hvalid', rfl⟩
    obtain rfl : k = k' := Int.ofNat.inj (Except.ok.inj (hup.symm.trans hup'))
    refine ⟨⟨hn, hn'⟩, k, hup, ?_, htwice k⟩
    rw [entry_insert, if_pos rfl, ExpirationSet.merge_assoc, ← Cohort.entry_join] at hvalid'
    exact hvalid'

/-! ### One group -/

/-- The sectors of a group enter, as a cohort. -/
def enterGroup (grid : Grid) (size : SectorSize) (r : ExpirationQueue × Lot) (g : Int × List Sector) :
    Outcome (ExpirationQueue × Lot) :=
  Cohort.ofSectors size g.1 g.2 >>= enter grid r

theorem valid_of_enterGroup (hr : r.1.Valid) (h : enterGroup grid size r g = .ok r') : r'.1.Valid := by
  obtain ⟨c, -, henter⟩ := bind_eq_ok.1 h
  exact hr.enter henter

theorem enterGroup_comm {g' : Int × List Sector} (hne : grid.up g.1 ≠ grid.up g'.1)
    (h : (enterGroup grid size r g >>= fun r => enterGroup grid size r g') = .ok r') :
    (enterGroup grid size r g' >>= fun r => enterGroup grid size r g) = .ok r' := by
  simp only [enterGroup, bind_eq_ok] at h ⊢
  obtain ⟨r₁, ⟨c, hc, hr₁⟩, c', hc', hr'⟩ := h
  have hne' : grid.up c.epoch ≠ grid.up c'.epoch := by
    rwa [(Cohort.shape_of_ofSectors hc).1, (Cohort.shape_of_ofSectors hc').1]
  obtain ⟨r₂, hr₂, hr'⟩ := bind_eq_ok.1 (enter_comm hne' (bind_eq_ok.2 ⟨r₁, hr₁, hr'⟩))
  exact ⟨r₂, ⟨c', hc', hr₂⟩, c, hc, hr'⟩

/-- One more sector of a group may enter after the others. -/
theorem enterGroup_concat (hr : r.1.Valid) (hss : ∀ s ∈ ss, s.Nonneg size) (hs : s.Nonneg size) :
    enterGroup grid size r (epoch, ss ++ [s]) = .ok r' ↔
      (enterGroup grid size r (epoch, ss) >>= fun r => enterGroup grid size r (epoch, [s])) = .ok r' := by
  have hjoin : ∀ c c', Cohort.ofSectors size epoch ss = .ok c → Cohort.ofSectors size epoch [s] = .ok c' →
      (enter grid r (c.join c') = .ok r' ↔ (enter grid r c >>= fun r => enter grid r c') = .ok r') :=
    fun c c' hc hc' => enter_join hr
      ((Cohort.shape_of_ofSectors hc').1.trans (Cohort.shape_of_ofSectors hc).1.symm)
      (Cohort.validate_ofSectors hss hc) (Cohort.validate_ofSectors (List.forall_mem_singleton.2 hs) hc')
  simp only [enterGroup, bind_eq_ok, Cohort.ofSectors_concat] at hjoin ⊢
  constructor
  · rintro ⟨_, ⟨c, c', hc, hc', rfl⟩, henter⟩
    obtain ⟨r₁, hr₁, hr'⟩ := (hjoin c c' hc hc').1 henter
    exact ⟨r₁, ⟨c, hc, hr₁⟩, c', hc', hr'⟩
  · rintro ⟨r₁, ⟨c, hc, hr₁⟩, c', hc', hr'⟩
    exact ⟨_, ⟨c, c', hc, hc', rfl⟩, (hjoin c c' hc hc').2 ⟨r₁, hr₁, hr'⟩⟩

/-- A sector that is filed into its group may enter after all groups. -/
theorem enterGroups_fileByEpoch (hsorted : groups.Pairwise (·.1 < ·.1)) (hup : ∀ g ∈ groups, grid.up g.1 = .ok g.1)
    (he : grid.up epoch = .ok epoch) (hgroups : ∀ g ∈ groups, ∀ s ∈ g.2, s.Nonneg size) (hs : s.Nonneg size)
    (hr : r.1.Valid) :
    foldOutcome (enterGroup grid size) r (fileByEpoch epoch s groups) = .ok r' ↔
      (foldOutcome (enterGroup grid size) r groups >>= fun r => enterGroup grid size r (epoch, [s])) = .ok r' := by
  -- The sector changes places with the groups at later epochs.
  have hswap : ∀ {gs : List (Int × List Sector)} {r : ExpirationQueue × Lot}, (∀ g ∈ gs, epoch < g.1) →
      (∀ g ∈ gs, grid.up g.1 = .ok g.1) →
      ((enterGroup grid size r (epoch, [s]) >>= fun r => foldOutcome (enterGroup grid size) r gs) = .ok r' ↔
        (foldOutcome (enterGroup grid size) r gs >>= fun r => enterGroup grid size r (epoch, [s])) = .ok r') := by
    intro gs r hlater hup
    refine foldOutcome_comm fun g hg r r' => ?_
    have hne : grid.up epoch ≠ grid.up g.1 := by
      rw [he, hup g hg]
      exact fun heq => (hlater g hg).ne (Except.ok.inj heq)
    exact ⟨enterGroup_comm hne, enterGroup_comm hne.symm⟩
  fun_induction fileByEpoch epoch s groups generalizing r with
  | case1 => simp only [foldOutcome_cons, foldOutcome_nil, ok_bind, bind_eq_ok, Except.ok.injEq, exists_eq_right]
  | case2 e as rest hlt =>
    rw [foldOutcome_cons]
    refine hswap (List.forall_mem_cons.2 ⟨hlt, fun g hg => ?_⟩) hup
    exact hlt.trans ((List.pairwise_cons.1 hsorted).1 g hg)
  | case3 as rest hlt =>
    obtain ⟨hhead, hrest⟩ := List.forall_mem_cons.1 hgroups
    calc foldOutcome (enterGroup grid size) r ((epoch, as ++ [s]) :: rest) = .ok r'
        ↔ ((enterGroup grid size r (epoch, as) >>= fun r => enterGroup grid size r (epoch, [s])) >>=
            fun r => foldOutcome (enterGroup grid size) r rest) = .ok r' := by
          rw [foldOutcome_cons, bind_eq_ok, bind_eq_ok]
          exact exists_congr fun r₁ => and_congr_left fun _ => enterGroup_concat hr hhead hs
      _ ↔ (foldOutcome (enterGroup grid size) r ((epoch, as) :: rest) >>=
            fun r => enterGroup grid size r (epoch, [s])) = .ok r' := by
          rw [foldOutcome_cons, bind_assoc, bind_assoc, bind_eq_ok, bind_eq_ok]
          exact exists_congr fun r₁ => and_congr_right fun _ =>
            hswap (List.pairwise_cons.1 hsorted).1 (List.forall_mem_cons.1 hup).2
  | case4 e as rest hlt hne ih =>
    rw [foldOutcome_cons, foldOutcome_cons, bind_assoc, bind_eq_ok, bind_eq_ok]
    refine exists_congr fun r₁ => and_congr_right fun hr₁ => ?_
    exact ih hsorted.of_cons (List.forall_mem_cons.1 hup).2 (List.forall_mem_cons.1 hgroups).2
      (valid_of_enterGroup hr hr₁)

/-! ### One sector after the other -/

/-- A sector enters at its own expiration. -/
def enterSector (grid : Grid) (size : SectorSize) (r : ExpirationQueue × Lot) (s : Sector) :
    Outcome (ExpirationQueue × Lot) := do
  enterGroup grid size r (← grid.up s.expiration, [s])

theorem addActive_eq_foldOutcome : addActive grid size q ss = .ok r ↔ ∃ groups, groupByExpiration grid ss = .ok groups ∧
    foldOutcome (enterGroup grid size) (q, {}) groups = .ok r := by
  simp only [addActive, bind_eq_ok]
  exact exists_congr fun groups => and_congr_right fun _ => bind_eq_ok.symm.trans foldOutcome_mapM_eq_ok

/-- One more sector may enter after the others. -/
theorem addActive_concat (hq : q.Valid) (hss : ∀ s ∈ ss, s.Nonneg size) (hs : s.Nonneg size) :
    addActive grid size q (ss ++ [s]) = .ok r ↔
      (addActive grid size q ss >>= fun r => enterSector grid size r s) = .ok r := by
  have hgroup : ∀ {groups e}, groupByExpiration grid ss = .ok groups → grid.up s.expiration = .ok e →
      (foldOutcome (enterGroup grid size) (q, {}) (fileByEpoch e s groups) = .ok r ↔
        (foldOutcome (enterGroup grid size) (q, {}) groups >>= fun r => enterGroup grid size r (e, [s])) = .ok r) := by
    intro groups e hgroups he
    have hg := grouped_of_groupByExpiration hgroups
    refine enterGroups_fileByEpoch hg.sorted (fun g hmem => ?_) (Grid.up_of_up he) (fun g hmem t ht => ?_) hs hq
    · obtain ⟨t, ht⟩ := List.exists_mem_of_ne_nil _ (hg.nonempty g hmem)
      exact Grid.up_of_up (hg.up_eq g hmem t ht)
    · exact hss t (hg.perm.subset (List.mem_flatMap.2 ⟨g, hmem, ht⟩))
  simp only [addActive_eq_foldOutcome, groupByExpiration, foldOutcome_append, foldOutcome_cons, foldOutcome_nil,
    enterSector, bind_eq_ok, pure_eq_ok, Except.ok.injEq] at hgroup ⊢
  constructor
  · rintro ⟨_, ⟨groups, hgroups, _, ⟨e, he, rfl⟩, rfl⟩, hfold⟩
    obtain ⟨r₁, hr₁, hr⟩ := (hgroup hgroups he).1 hfold
    exact ⟨r₁, ⟨groups, hgroups, hr₁⟩, e, he, hr⟩
  · rintro ⟨r₁, ⟨groups, hgroups, hr₁⟩, e, he, hr⟩
    exact ⟨_, ⟨groups, hgroups, _, ⟨e, he, rfl⟩, rfl⟩, (hgroup hgroups he).2 ⟨r₁, hr₁, hr⟩⟩

/-- **New sectors enter one by one.** -/
theorem addActive_eq_enterEach (hq : q.Valid) (hss : ∀ s ∈ ss, s.Nonneg size) :
    addActive grid size q ss = .ok r ↔ foldOutcome (enterSector grid size) (q, {}) ss = .ok r := by
  induction ss using List.reverseRecOn generalizing r with
  | nil => rfl
  | append_singleton ss s ih =>
    obtain ⟨hss, hs⟩ := List.forall_mem_append.1 hss
    rw [addActive_concat hq hss (hs s List.mem_cons_self), foldOutcome_append, bind_eq_ok, bind_eq_ok]
    refine exists_congr fun r₁ => and_congr (ih hss) ?_
    simp only [foldOutcome_cons, foldOutcome_nil, bind_eq_ok, Except.ok.injEq, exists_eq_right]

/-- What has been reported before stays reported. -/
theorem enterSector_join (l : Lot) (r : ExpirationQueue × Lot) (s : Sector) :
    enterSector grid size (Prod.map id l.join r) s = Prod.map id l.join <$> enterSector grid size r s := by
  have henter : ∀ c, enter grid (Prod.map id l.join r) c = Prod.map id l.join <$> enter grid r c := fun c => by
    simp only [enter, map_bind, map_pure, Prod.map, Lot.join_assoc, id]
  simp only [enterSector, enterGroup, map_bind]
  exact bind_congr fun e => bind_congr henter

/-- **Two lists of sectors enter as one does.** -/
theorem addActive_append (hq : q.Valid) (hss : ∀ s ∈ ss, s.Nonneg size) (hts : ∀ s ∈ ts, s.Nonneg size) {lot : Lot} :
    addActive grid size q (ss ++ ts) = .ok (q', lot) ↔ ∃ q₁ lot₁ lot₂, addActive grid size q ss = .ok (q₁, lot₁) ∧
      addActive grid size q₁ ts = .ok (q', lot₂) ∧ lot₁.join lot₂ = lot := by
  have hshift : ∀ q₁ lot₁, q₁.Valid → (foldOutcome (enterSector grid size) (q₁, lot₁) ts = .ok (q', lot) ↔
      ∃ lot₂, addActive grid size q₁ ts = .ok (q', lot₂) ∧ lot₁.join lot₂ = lot) := by
    intro q₁ lot₁ hq₁
    have hmap : foldOutcome (enterSector grid size) (Prod.map id lot₁.join (q₁, {})) ts =
        Prod.map id lot₁.join <$> foldOutcome (enterSector grid size) (q₁, {}) ts :=
      foldOutcome_map_eq _ (fun s r => enterSector_join lot₁ r s) _ ts
    rw [Prod.map_apply, id, Lot.join_empty] at hmap
    rw [hmap, map_eq_ok]
    simp only [Prod.exists, Prod.map_apply, id, Prod.mk.injEq, ← addActive_eq_enterEach hq₁ hts]
    grind
  rw [addActive_eq_enterEach hq (List.forall_mem_append.2 ⟨hss, hts⟩), foldOutcome_append, bind_eq_ok, Prod.exists]
  simp only [← addActive_eq_enterEach hq hss]
  refine exists_congr fun q₁ => exists_congr fun lot₁ => ?_
  rw [exists_and_left]
  exact and_congr_right fun h₁ => hshift q₁ lot₁ (hq.addActive h₁)

/-- What is reported of new sectors is not negative either. -/
theorem nonneg_of_addActive (hq : q.Valid) (hss : ∀ s ∈ ss, s.Nonneg size) {lot : Lot}
    (h : addActive grid size q ss = .ok (q', lot)) : lot.power.Nonneg := by
  refine foldOutcome_invariant (I := fun _ (r : ExpirationQueue × Lot) => r.2.power.Nonneg)
    ((addActive_eq_enterEach hq hss).1 h) Power.nonneg_zero ?_
  intro done s rest r r' hs hr hstep
  obtain ⟨e, -, henter⟩ := bind_eq_ok.1 hstep
  obtain ⟨c, hc, henter⟩ := bind_eq_ok.1 henter
  obtain ⟨-, k, -, -, rfl⟩ := enter_eq_ok.1 henter
  have hs := List.forall_mem_singleton.2 (hss s (by rw [hs]; simp))
  exact hr.add (ExpirationSet.validate_eq_ok.1 (Cohort.validate_ofSectors hs hc)).2.1

end ExpirationQueue

end SectorLedger
