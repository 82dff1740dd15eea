import SectorLedger.Power
import SectorLedger.Grid
import SectorLedger.SectorTable
import SectorLedger.Proofs.NumberSet
import SectorLedger.Proofs.SparseArray
import Mathlib.Algebra.BigOperators.Group.Finset.Basic
import Mathlib.Algebra.Order.BigOperators.Group.Finset
import Mathlib.Algebra.Order.Group.Int
import Mathlib.Data.Int.Basic

/-!
# The power and the pledge of sets of sectors

Powers form a commutative group, so they can be summed. What the ledger adds up from lists of records is
stated as a sum over a set of numbers, of the power or the pledge that the table has for each.

* `SectorTable.powerAt`, `pledgeAt`: what the table says of a number.
* `SectorTable.Lists`: a list holds the records of exactly the sectors of a set, each once; `SectorTable.Covers`: or
  more than once.
* `ofSectors_eq_ok`: the power of a list is the sum over its sectors.
* `Lists.ofSectors`, `lists_of_loadAll`, `Lists.select`: loading, summing and selecting in these terms.
* `loadAll_total`, `ofSectors_total`, `Lists.select_total`: when these are not refused.
-/

namespace SectorLedger

/-! ### Powers as a group -/

namespace Power

@[ext] theorem ext {p q : Power} (hr : p.raw = q.raw) (hq : p.qa = q.qa) : p = q := by
  cases p
  cases q
  simp_all

@[simp] theorem raw_zero : (0 : Power).raw = 0 := rfl

@[simp] theorem qa_zero : (0 : Power).qa = 0 := rfl

@[simp] theorem raw_add (p q : Power) : (p + q).raw = p.raw + q.raw := rfl

@[simp] theorem qa_add (p q : Power) : (p + q).qa = p.qa + q.qa := rfl

@[simp] theorem raw_sub (p q : Power) : (p - q).raw = p.raw - q.raw := rfl

@[simp] theorem qa_sub (p q : Power) : (p - q).qa = p.qa - q.qa := rfl

@[simp] theorem raw_neg (p : Power) : (-p).raw = -p.raw := rfl

@[simp] theorem qa_neg (p : Power) : (-p).qa = -p.qa := rfl

instance : AddCommGroup Power where
  add_assoc p q r := by ext <;> simp [Int.add_assoc]
  zero_add p := by ext <;> simp
  add_zero p := by ext <;> simp
  add_comm p q := by ext <;> simp [Int.add_comm]
  neg_add_cancel p := by ext <;> simp
  sub_eq_add_neg p q := by ext <;> simp [Int.sub_eq_add_neg]
  nsmul := nsmulRec
  zsmul := zsmulRec

/-- The raw bytes, as a homomorphism. -/
def rawHom : Power →+ Int := ⟨⟨raw, rfl⟩, raw_add⟩

/-- The weighted bytes, as a homomorphism. -/
def qaHom : Power →+ Int := ⟨⟨qa, rfl⟩, qa_add⟩

theorem isZero_iff {p : Power} : p.isZero = true ↔ p = 0 := by
  simp only [isZero, Bool.and_eq_true, beq_iff_eq]
  exact ⟨fun h => ext h.1 h.2, fun h => by rw [h]; exact ⟨rfl, rfl⟩⟩

/-- Neither the raw nor the weighted bytes are negative. -/
def Nonneg (p : Power) : Prop := 0 ≤ p.raw ∧ 0 ≤ p.qa

instance (p : Power) : Decidable p.Nonneg := inferInstanceAs (Decidable (_ ∧ _))

theorem Nonneg.add {p q : Power} (hp : p.Nonneg) (hq : q.Nonneg) : (p + q).Nonneg :=
  ⟨Int.add_nonneg hp.1 hq.1, Int.add_nonneg hp.2 hq.2⟩

theorem nonneg_zero : (0 : Power).Nonneg := ⟨le_rfl, le_rfl⟩

end Power

namespace NumberSet

variable {f : Nat → Power} {s t : NumberSet}

theorem raw_total : (total f s).raw = total (fun n => (f n).raw) s := map_sum Power.rawHom f s.toFinset

theorem qa_total : (total f s).qa = total (fun n => (f n).qa) s := map_sum Power.qaHom f s.toFinset

theorem total_nonneg {g : Nat → Int} (h : ∀ n ∈ s, 0 ≤ g n) : 0 ≤ total g s :=
  Finset.sum_nonneg fun n hn => h n (mem_toFinset.1 hn)

theorem total_mono_set {g : Nat → Int} (h : ∀ n ∈ s, 0 ≤ g n) (hts : ∀ n ∈ t, n ∈ s) : total g t ≤ total g s :=
  Finset.sum_le_sum_of_subset_of_nonneg (fun n hn => mem_toFinset.2 (hts n (mem_toFinset.1 hn)))
    fun n hn _ => h n (mem_toFinset.1 hn)

theorem nonneg_total (h : ∀ n ∈ s, (f n).Nonneg) : (total f s).Nonneg :=
  ⟨by rw [raw_total]; exact total_nonneg fun n hn => (h n hn).1,
    by rw [qa_total]; exact total_nonneg fun n hn => (h n hn).2⟩

/-- If every member has the same raw bytes, the raw total counts the members. -/
theorem raw_total_of_const {c : Int} (h : ∀ n ∈ s, (f n).raw = c) : (total f s).raw = s.count * c := by
  rw [raw_total, total_congr h, total, Finset.sum_const, card_toFinset, nsmul_eq_mul]

end NumberSet

/-! ### What a table says of a number -/

/-- The numbers that a set may have are the indices that a table has. -/
theorem NumberSet.lt_forbiddenMember_iff {n : Nat} :
    n < NumberSet.forbiddenMember ↔ n ≤ SparseArray.greatestIndex := by
  unfold forbiddenMember SparseArray.greatestIndex
  omega

namespace SectorTable

variable {t : SectorTable} {size : SectorSize} {s : Sector} {ss : List Sector} {ns ms : NumberSet}

/-- Each record stands at its own number. -/
def Keyed (t : SectorTable) : Prop := ∀ n s, t.get? n = some s → s.number = n

theorem keyed_ofList (ss : List Sector) : (ofList ss).Keyed := by
  suffices run : ∀ (ss : List Sector) (t : SectorTable), t.Keyed →
      ((ss.map fun s => (s.number, s)).foldl (fun (a : SectorTable) e => a.insert e.1 e.2) t).Keyed from
    run ss ∅ fun n s hs => by cases hs
  intro ss
  induction ss with
  | nil => exact fun t ht => ht
  | cons s ss ih =>
    refine fun t ht => ih _ fun n s' hs' => ?_
    obtain ⟨rfl, rfl⟩ | ⟨-, hs'⟩ := SparseArray.get?_insert_eq_some.1 hs'
    · rfl
    · exact ht n s' hs'

/-- The table has this record for the sector. -/
def Recorded (t : SectorTable) (s : Sector) : Prop := t.get? s.number = some s

/-- Sectors of different numbers that are entered into a table, one after the other, are all there, and what is recorded
under other numbers stays. -/
theorem recorded_foldl_insert (t : SectorTable) (h : (ss.map (·.number)).Nodup) :
    (∀ s ∈ ss, (ss.foldl (fun (a : SectorTable) s => a.insert s.number s) t).Recorded s) ∧
      ∀ n, n ∉ ss.map (·.number) →
        (ss.foldl (fun (a : SectorTable) s => a.insert s.number s) t).get? n = t.get? n := by
  induction ss generalizing t with
  | nil => exact ⟨fun s hs => absurd hs List.not_mem_nil, fun n _ => rfl⟩
  | cons s ss ih =>
    obtain ⟨hnotin, hnodup⟩ := List.nodup_cons.1 h
    obtain ⟨hthere, hother⟩ := ih (t.insert s.number s) hnodup
    refine ⟨fun s' hs' => ?_, fun n hn => ?_⟩
    · rcases List.mem_cons.1 hs' with rfl | hs'
      · exact (hother s'.number hnotin).trans (by rw [SparseArray.get?_insert, if_pos rfl])
      · exact hthere s' hs'
    · rw [List.map_cons, List.mem_cons, not_or] at hn
      exact (hother n hn.2).trans (by rw [SparseArray.get?_insert, if_neg hn.1])

/-- Sectors of different numbers are all in their table. -/
theorem recorded_ofList (h : (ss.map (·.number)).Nodup) : ∀ s ∈ ss, (ofList ss).Recorded s := by
  rw [ofList, SparseArray.ofEntries, List.foldl_map]
  exact (recorded_foldl_insert ∅ h).1

theorem foldl_insert_of_store {t' : SectorTable} (h : t.store ss = .ok t') :
    t' = ss.foldl (fun (a : SectorTable) s => a.insert s.number s) t := by
  induction ss generalizing t with
  | nil => exact (Except.ok.inj h).symm
  | cons s ss ih =>
    rw [store, foldOutcome_cons] at h
    simp only [bind_eq_ok, ite_failed_eq_ok, noting_eq_ok, SparseArray.write_eq_ok] at h
    obtain ⟨_, ⟨-, -, rfl⟩, h⟩ := h
    exact ih h

/-- Stored sectors of different numbers are in the table afterwards, and what is recorded under other numbers stays. -/
theorem recorded_of_store {t' : SectorTable} (h : t.store ss = .ok t') (hn : (ss.map (·.number)).Nodup) :
    (∀ s ∈ ss, t'.Recorded s) ∧ ∀ n, n ∉ ss.map (·.number) → t'.get? n = t.get? n := by
  rw [foldl_insert_of_store h]
  exact recorded_foldl_insert t hn

/-- The sector's own expiration rounds up to the key. -/
def DueAt (t : SectorTable) (grid : Grid) (n k : Nat) : Prop :=
  ∃ s, t.get? n = some s ∧ grid.up s.expiration = .ok (k : Int)

theorem DueAt.unique {grid : Grid} {n k k' : Nat} (h : t.DueAt grid n k) (h' : t.DueAt grid n k') : k = k' := by
  obtain ⟨s, hs, hup⟩ := h
  obtain ⟨s', hs', hup'⟩ := h'
  obtain rfl := Option.some.inj (hs.symm.trans hs')
  exact Int.ofNat.inj (Except.ok.inj (hup.symm.trans hup'))

theorem Recorded.dueAt_iff (h : t.Recorded s) {grid : Grid} {k : Nat} :
    t.DueAt grid s.number k ↔ grid.up s.expiration = .ok (k : Int) := by
  constructor
  · rintro ⟨s', hs', hup⟩
    obtain rfl := Option.some.inj (Eq.trans (Eq.symm h) hs')
    exact hup
  · exact fun hup => ⟨s, h, hup⟩

/-- The power of a sector by its number. Without a record, or without a defined power, it is zero. -/
def powerAt (t : SectorTable) (size : SectorSize) (n : Nat) : Power :=
  match t.get? n with
  | some s => (Power.ofSector size s).toOption.getD 0
  | none => 0

/-- The pledge of a sector by its number. Without a record it is zero. -/
def pledgeAt (t : SectorTable) (n : Nat) : Int :=
  match t.get? n with
  | some s => s.pledge
  | none => 0

theorem powerAt_eq {p : Power} (h : t.Recorded s) (hp : Power.ofSector size s = .ok p) :
    t.powerAt size s.number = p := by
  rw [powerAt, h]
  simp only [hp]
  rfl

theorem pledgeAt_eq (h : t.Recorded s) : t.pledgeAt s.number = s.pledge := by
  rw [pledgeAt, h]

theorem powerAt_congr {t' : SectorTable} {n : Nat} (h : t'.get? n = t.get? n) :
    t'.powerAt size n = t.powerAt size n := by
  rw [powerAt, powerAt, h]

theorem pledgeAt_congr {t' : SectorTable} {n : Nat} (h : t'.get? n = t.get? n) : t'.pledgeAt n = t.pledgeAt n := by
  rw [pledgeAt, pledgeAt, h]

/-- The list holds the records of exactly the sectors of the set, each once. -/
structure Lists (t : SectorTable) (ss : List Sector) (ns : NumberSet) : Prop where
  /-- Every element is a record of the table. -/
  recorded : ∀ s ∈ ss, t.Recorded s
  /-- No number occurs twice. -/
  nodup : (ss.map (·.number)).Nodup
  /-- The numbers are those of the set. -/
  mem : ∀ n, n ∈ ss.map (·.number) ↔ n ∈ ns

theorem lists_ofList (hr : ∀ s ∈ ss, t.Recorded s) (hn : (ss.map (·.number)).Nodup) :
    t.Lists ss (.ofList (ss.map (·.number))) := ⟨hr, hn, fun _ => NumberSet.mem_ofList.symm⟩

/-- The list holds records of exactly the sectors of the set, some of them perhaps more than once. -/
structure Covers (t : SectorTable) (ss : List Sector) (ns : NumberSet) : Prop where
  /-- Every element is a record of the table. -/
  recorded : ∀ s ∈ ss, t.Recorded s
  /-- The numbers are those of the set. -/
  mem : ∀ n, n ∈ ss.map (·.number) ↔ n ∈ ns

theorem covers_ofList (hr : ∀ s ∈ ss, t.Recorded s) : t.Covers ss (.ofList (ss.map (·.number))) :=
  ⟨hr, fun _ => NumberSet.mem_ofList.symm⟩

theorem Covers.eq_ofList (h : t.Covers ss ns) : ns = .ofList (ss.map (·.number)) :=
  NumberSet.ext fun n => by rw [NumberSet.mem_ofList, h.mem]

theorem Covers.exists_of_mem (h : t.Covers ss ns) {n : Nat} (hn : n ∈ ns) : ∃ s ∈ ss, s.number = n :=
  List.mem_map.1 ((h.mem n).2 hn)

namespace Lists

theorem covers (h : t.Lists ss ns) : t.Covers ss ns := ⟨h.recorded, h.mem⟩

theorem eq_ofList (h : t.Lists ss ns) : ns = .ofList (ss.map (·.number)) :=
  NumberSet.ext fun n => by rw [NumberSet.mem_ofList, h.mem]

theorem number_mem (h : t.Lists ss ns) (hs : s ∈ ss) : s.number ∈ ns :=
  (h.mem s.number).1 (List.mem_map_of_mem hs)

theorem exists_of_mem (h : t.Lists ss ns) {n : Nat} (hn : n ∈ ns) : ∃ s ∈ ss, s.number = n :=
  List.mem_map.1 ((h.mem n).2 hn)

/-- A list of records says when its sectors are due. -/
theorem forall_dueAt_iff (h : t.Lists ss ns) {grid : Grid} :
    (∀ n ∈ ns, ∃ k, t.DueAt grid n k) ↔ ∀ s ∈ ss, ∃ k : Nat, grid.up s.expiration = .ok (k : Int) := by
  constructor
  · intro hdue s hs
    exact (hdue s.number (h.number_mem hs)).imp fun k => (h.recorded s hs).dueAt_iff.1
  · intro hup n hn
    obtain ⟨s, hs, rfl⟩ := h.exists_of_mem hn
    exact (hup s hs).imp fun k => (h.recorded s hs).dueAt_iff.2

/-- What is recorded under one of the numbers is in the list. -/
theorem mem_of_get? (h : t.Lists ss ns) {n : Nat} (hn : n ∈ ns) (hs : t.get? n = some s) : s ∈ ss := by
  obtain ⟨s', hs', rfl⟩ := h.exists_of_mem hn
  obtain rfl := Option.some.inj ((h.recorded s' hs').symm.trans hs)
  exact hs'

theorem count (h : t.Lists ss ns) : ns.count = ss.length := by
  rw [h.eq_ofList, NumberSet.count_ofList h.nodup, List.length_map]

theorem eq_nil_iff (h : t.Lists ss ns) : ss = [] ↔ ns = ∅ := by
  rw [← NumberSet.count_eq_zero_iff, h.count, List.length_eq_zero_iff]

/-- Part of a list lists the numbers of that part. -/
theorem of_sublist (h : t.Lists ss ns) {ss' : List Sector} (hs : ss'.Sublist ss)
    (hm : ∀ n, n ∈ ss'.map (·.number) ↔ n ∈ ms) : t.Lists ss' ms :=
  ⟨fun s hs' => h.recorded s (hs.subset hs'), h.nodup.sublist (hs.map _), hm⟩

/-- The part of the list whose numbers satisfy a condition. -/
theorem filter (h : t.Lists ss ns) {p : Nat → Bool} (hm : ∀ n, n ∈ ms ↔ n ∈ ns ∧ p n = true) :
    t.Lists (ss.filter fun s => p s.number) ms := by
  refine h.of_sublist List.filter_sublist fun n => ?_
  rw [hm, ← h.mem]
  simp only [List.mem_map, List.mem_filter]
  grind

/-- Two lists without common numbers, one after the other. -/
theorem append {ss' : List Sector} (h : t.Lists ss ns) (h' : t.Lists ss' ms) (hd : ∀ n ∈ ns, n ∉ ms) :
    t.Lists (ss ++ ss') (ns ∪ ms) := by
  refine ⟨List.forall_mem_append.2 ⟨h.recorded, h'.recorded⟩, ?_, fun n => ?_⟩
  · rw [List.map_append, List.nodup_append]
    refine ⟨h.nodup, h'.nodup, fun a ha b hb hab => hd a ((h.mem a).1 ha) ?_⟩
    exact (h'.mem a).1 (hab ▸ hb)
  · rw [List.map_append, List.mem_append, h.mem, h'.mem, NumberSet.mem_union]

/-- A sum over the list is the total over the set. -/
theorem sum_map {M : Type} [AddCommGroup M] (h : t.Lists ss ns) (f : Nat → M) :
    (ss.map fun s => f s.number).sum = ns.total f := by
  rw [h.eq_ofList, ← NumberSet.sum_map_eq_total f h.nodup, List.map_map]
  rfl

end Lists

/-! ### Loading, summing, selecting -/

/-- Records that stand at given indices have those indices as their numbers. -/
theorem map_number_of_forall₂ (hk : t.Keyed) {indices : List Nat}
    (h : List.Forall₂ (fun n s => t.get? n = some s) indices ss) :
    ss.map (·.number) = indices ∧ ∀ s ∈ ss, t.Recorded s := by
  induction h with
  | nil => exact ⟨rfl, fun s hs => absurd hs List.not_mem_nil⟩
  | cons hn _ ih =>
    have hnum := hk _ _ hn
    refine ⟨by rw [List.map_cons, ih.1, hnum], fun s hs => ?_⟩
    rcases List.mem_cons.1 hs with rfl | hs
    · rwa [Recorded, hnum]
    · exact ih.2 s hs

/-- What is loaded are the records of the members, in ascending order. -/
theorem map_number_of_loadAll (hk : t.Keyed) (h : t.loadAll ns = .ok ss) :
    ss.map (·.number) = ns.elements ∧ ∀ s ∈ ss, t.Recorded s := by
  rw [loadAll, NumberSet.mapMembers_eq_ok] at h
  have hget : List.Forall₂ (fun n s => t.get? n = some s) ns.elements ss := h.imp fun n s hs => by
    simp only [bind_eq_ok, refusing_eq_ok, SparseArray.read_eq_ok] at hs
    obtain ⟨o, ⟨-, ho⟩, hs⟩ := hs
    cases o with
    | none => simp at hs
    | some s' => rw [ho, (pure_eq_ok.1 hs : s' = s)]
  exact map_number_of_forall₂ hk hget

/-- Loading a set lists its records. -/
theorem lists_of_loadAll (hk : t.Keyed) (h : t.loadAll ns = .ok ss) : t.Lists ss ns := by
  obtain ⟨hmap, hrec⟩ := map_number_of_loadAll hk h
  exact ⟨hrec, hmap ▸ ns.nodup_elements, fun n => by rw [hmap, NumberSet.mem_elements]⟩

theorem ofSector_eq_ok {p : Power} : Power.ofSector size s = .ok p ↔
    ∃ qa, Power.weightedOf size s = .ok qa ∧ ⟨size.bytes, qa⟩ = p := by
  simp [Power.ofSector]

/-- A recorded sector of defined power has the raw bytes of its size. -/
theorem raw_powerAt {n : Nat} {p : Power} (hs : t.get? n = some s) (hp : Power.ofSector size s = .ok p) :
    (t.powerAt size n).raw = size.bytes := by
  rw [powerAt, hs]
  simp only [hp]
  obtain ⟨qa, -, rfl⟩ := ofSector_eq_ok.1 hp
  rfl

/-- The sum of the weighted bytes, started anywhere. -/
theorem foldlM_weightedOf {qa₀ qa : Int} :
    ss.foldlM (fun sum s => return sum + (← Power.weightedOf size s)) qa₀ = (.ok qa : Outcome Int) ↔
      ∃ ws, List.Forall₂ (fun s w => Power.weightedOf size s = .ok w) ss ws ∧ qa₀ + ws.sum = qa := by
  induction ss generalizing qa₀ with
  | nil => simp
  | cons s ss ih =>
    simp only [List.foldlM_cons, bind_eq_ok, pure_eq_ok, ih, List.forall₂_cons_left_iff]
    constructor
    · rintro ⟨_, ⟨w, hw, rfl⟩, ws, hws, rfl⟩
      exact ⟨w :: ws, ⟨w, ws, hw, hws, rfl⟩, by rw [List.sum_cons, Int.add_assoc]⟩
    · rintro ⟨_, ⟨w, ws, hw, hws, rfl⟩, rfl⟩
      exact ⟨_, ⟨w, hw, rfl⟩, ws, hws, by rw [List.sum_cons, Int.add_assoc]⟩

/-- All sectors have the raw bytes of their size. -/
theorem forall₂_ofSector {ps : List Power} : List.Forall₂ (fun s p => Power.ofSector size s = .ok p) ss ps ↔
    ∃ ws, List.Forall₂ (fun s w => Power.weightedOf size s = .ok w) ss ws ∧ ws.map (fun w => ⟨size.bytes, w⟩) = ps := by
  simp only [ofSector_eq_ok]
  induction ss generalizing ps with
  | nil => simp [eq_comm]
  | cons s ss ih =>
    simp only [List.forall₂_cons_left_iff, ih]
    constructor
    · rintro ⟨_, _, ⟨w, hw, rfl⟩, ⟨ws, hws, rfl⟩, rfl⟩
      exact ⟨w :: ws, ⟨w, ws, hw, hws, rfl⟩, rfl⟩
    · rintro ⟨_, ⟨w, ws, hw, hws, rfl⟩, rfl⟩
      exact ⟨_, _, ⟨w, hw, rfl⟩, ⟨ws, hws, rfl⟩, rfl⟩

theorem sum_map_weighted (size : SectorSize) (ws : List Int) :
    (ws.map fun w => (⟨size.bytes, w⟩ : Power)).sum = ⟨size.bytes * ws.length, ws.sum⟩ := by
  induction ws with
  | nil => ext <;> simp
  | cons w ws ih =>
    rw [List.map_cons, List.sum_cons, ih]
    ext
    · rw [Power.raw_add, List.length_cons, Int.natCast_succ, Int.mul_add, Int.mul_one, Int.add_comm]
    · rw [Power.qa_add, List.sum_cons]

/-- **The power of a list is the sum of the powers of its sectors.** -/
theorem ofSectors_eq_ok {p : Power} : Power.ofSectors size ss = .ok p ↔
    ∃ ps, List.Forall₂ (fun s p => Power.ofSector size s = .ok p) ss ps ∧ ps.sum = p := by
  simp only [Power.ofSectors, bind_eq_ok, pure_eq_ok, foldlM_weightedOf, Int.zero_add, forall₂_ofSector]
  constructor
  · rintro ⟨_, ⟨ws, hws, rfl⟩, rfl⟩
    exact ⟨_, ⟨ws, hws, rfl⟩, by rw [sum_map_weighted, hws.length_eq]⟩
  · rintro ⟨_, ⟨ws, hws, rfl⟩, rfl⟩
    exact ⟨_, ⟨ws, hws, rfl⟩, by rw [sum_map_weighted, hws.length_eq]⟩

/-- Powers that are defined, as a function of the sectors. -/
theorem map_getD_ofSector {ps : List Power} (h : List.Forall₂ (fun s p => Power.ofSector size s = .ok p) ss ps) :
    ss.map (fun s => (Power.ofSector size s).toOption.getD 0) = ps := by
  induction h with
  | nil => rfl
  | cons hp _ ih =>
    rw [List.map_cons, ih, hp]
    rfl

/-- **The power of a list is the total over the set that it lists.** -/
theorem Lists.ofSectors {p : Power} (h : t.Lists ss ns) (hp : Power.ofSectors size ss = .ok p) :
    p = ns.total (t.powerAt size) := by
  obtain ⟨ps, hps, rfl⟩ := ofSectors_eq_ok.1 hp
  rw [← h.sum_map, ← map_getD_ofSector hps]
  exact congrArg List.sum (List.map_congr_left fun s hs => by rw [powerAt, h.recorded s hs])

/-- A selection takes out of what was missing each number that it finds. -/
theorem select_foldl (ss found : List Sector) (missing : NumberSet) {r : List Sector × NumberSet}
    (h : ss.foldl (fun (found, missing) s =>
      if s.number ∈ missing then (found ++ [s], missing \ NumberSet.singleton s.number) else (found, missing))
      (found, missing) = r) :
    ∃ more, more.Sublist ss ∧ r.1 = found ++ more ∧
      ∀ n, n ∈ missing ↔ n ∈ more.map (·.number) ∨ n ∈ r.2 := by
  induction ss generalizing found missing with
  | nil => exact ⟨[], .slnil, by simp [← h], fun n => by simp [← h]⟩
  | cons s ss ih =>
    rw [List.foldl_cons] at h
    by_cases hs : s.number ∈ missing
    · simp only [hs, if_true] at h
      obtain ⟨more, hsub, hr, hm⟩ := ih _ _ h
      refine ⟨s :: more, hsub.cons_cons s, by rw [hr, List.append_assoc]; rfl, fun n => ?_⟩
      have := hm n
      simp only [NumberSet.mem_sdiff, NumberSet.mem_singleton] at this
      rw [List.map_cons, List.mem_cons, or_assoc, ← this]
      by_cases hn : n = s.number <;> simp [hn, hs]
    · simp only [hs, if_false] at h
      obtain ⟨more, hsub, hr, hm⟩ := ih _ _ h
      exact ⟨more, hsub.cons s, hr, hm⟩

/-- A selection lists the sectors that are asked for. -/
theorem Lists.select {found : List Sector} (h : t.Lists ss ns) (hf : selectSectors ss ms = .ok found) :
    t.Lists found ms := by
  unfold selectSectors at hf
  obtain ⟨more, hsub, hr, hm⟩ := select_foldl ss [] ms rfl
  simp only [ite_failed_eq_ok, pure_eq_ok, Bool.not_eq_true', Bool.not_eq_false, NumberSet.isEmpty_iff,
    failed_bind] at hf
  obtain ⟨he, rfl⟩ := hf
  rw [hr, List.nil_append]
  refine h.of_sublist hsub fun n => ?_
  rw [hm n, he]
  simp

/-! ### What is not refused -/

/-- Records can be loaded if they are there. -/
theorem loadAll_total (h : ∀ n ∈ ns, n ≤ SparseArray.greatestIndex ∧ ∃ s, t.get? n = some s) :
    ∃ ss, t.loadAll ns = .ok ss := by
  simp only [loadAll, NumberSet.mapMembers_eq_ok]
  have hall : ∀ n ∈ ns.elements, n ≤ SparseArray.greatestIndex ∧ ∃ s, t.get? n = some s := fun n hn =>
    h n (NumberSet.mem_elements.1 hn)
  generalize ns.elements = indices at hall ⊢
  induction indices with
  | nil => exact ⟨[], .nil⟩
  | cons n indices ih =>
    obtain ⟨⟨hle, s, hs⟩, hrest⟩ := List.forall_mem_cons.1 hall
    obtain ⟨ss, hss⟩ := ih hrest
    refine ⟨s :: ss, .cons (bind_eq_ok.2 ⟨some s, ?_, rfl⟩) hss⟩
    exact refusing_eq_ok.2 (SparseArray.read_eq_ok.2 ⟨hle, hs⟩)

/-- Records that are loaded stand at indices. -/
theorem le_of_loadAll (h : t.loadAll ns = .ok ss) : ∀ n ∈ ns, n ≤ SparseArray.greatestIndex := by
  rw [loadAll, NumberSet.mapMembers_eq_ok] at h
  intro n hn
  obtain ⟨s, -, hs⟩ := exists_of_mem_left h (NumberSet.mem_elements.2 hn)
  simp only [bind_eq_ok, refusing_eq_ok, SparseArray.read_eq_ok] at hs
  obtain ⟨o, ⟨hle, -⟩, -⟩ := hs
  exact hle

/-- Powers that are defined have a sum. -/
theorem ofSectors_total (h : ∀ s ∈ ss, ∃ w, Power.ofSector size s = .ok w) :
    ∃ w, Power.ofSectors size ss = .ok w := by
  obtain ⟨ps, hps⟩ := mapM_total h
  exact ⟨_, ofSectors_eq_ok.2 ⟨ps, mapM_eq_ok.1 hps, rfl⟩⟩

/-- What a selection does not find is not in the list. -/
theorem not_mem_of_select_foldl (ss found : List Sector) (missing : NumberSet) {r : List Sector × NumberSet}
    (h : ss.foldl (fun (found, missing) s =>
      if s.number ∈ missing then (found ++ [s], missing \ NumberSet.singleton s.number) else (found, missing))
      (found, missing) = r) : ∀ n ∈ r.2, n ∈ missing ∧ n ∉ ss.map (·.number) := by
  induction ss generalizing found missing with
  | nil =>
    intro n hn
    rw [← h] at hn
    exact ⟨hn, List.not_mem_nil⟩
  | cons s ss ih =>
    intro n hn
    rw [List.foldl_cons] at h
    rw [List.map_cons, List.mem_cons, not_or]
    by_cases hs : s.number ∈ missing
    · simp only [hs, if_true] at h
      obtain ⟨hmissing, hno⟩ := ih _ _ h n hn
      rw [NumberSet.mem_sdiff, NumberSet.mem_singleton] at hmissing
      exact ⟨hmissing.1, hmissing.2, hno⟩
    · simp only [hs, if_false] at h
      obtain ⟨hmissing, hno⟩ := ih _ _ h n hn
      exact ⟨hmissing, fun he => hs (he ▸ hmissing), hno⟩

/-- A selection of listed sectors finds them. -/
theorem Lists.select_total (h : t.Lists ss ns) (hm : ∀ n ∈ ms, n ∈ ns) : ∃ found, selectSectors ss ms = .ok found := by
  unfold selectSectors
  have hnone := not_mem_of_select_foldl ss [] ms rfl
  simp only [ite_failed_eq_ok, pure_eq_ok, Bool.not_eq_true', Bool.not_eq_false, NumberSet.isEmpty_iff, failed_bind]
  refine ⟨_, NumberSet.eq_empty_iff.2 fun n hn => ?_, rfl⟩
  obtain ⟨hn, hno⟩ := hnone n hn
  exact hno ((h.mem n).2 (hm n hn))

end SectorTable

end SectorLedger
