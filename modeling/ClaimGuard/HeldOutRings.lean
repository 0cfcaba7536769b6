import ClaimGuard.DataFiles
import ClaimGuard.TemporalSplit

/-!
# The held-out rings

`ring_injection_ablation` measures the model on the rings that were planted after the
validation period. Whatever was drawn, all of their members are in the test set, none of them
is in another, and their labels are those of ring members.
-/

namespace ClaimGuard

namespace GenRings

/-- `held_out_claim_ids`. -/
def heldOutClaimIds (testIds : List String) (groundTruth : List (String × String))
    (heldOutRingIds : List String) : List String :=
  testIds.filter fun claimId =>
    (Dict.get groundTruth claimId).any fun ringId => decide (ringId ∈ heldOutRingIds)

/-- The database has the claims, with their dates, and their links. -/
def Holds (db : Db) (claims : List GeneratedClaim) : Prop :=
  ∀ c ∈ claims, ∃ claim ∈ db.claims, claim.id.toString = c.claimId ∧
    claim.incidentDate.isoformat = c.incidentDate ∧ db.IsLinked claim.id

/-! ## The ground truth -/

section

variable {claims : List GeneratedClaim} (hids : (claims.map GeneratedClaim.claimId).Nodup)

theorem mem_ringMembers {claimId ringId : String} :
    (claimId, ringId) ∈ ringMembers claims ↔
      ∃ c ∈ claims, c.claimId = claimId ∧ c.ringId = some ringId := by
  unfold ringMembers
  rw [List.mem_filterMap]
  constructor
  · rintro ⟨c, hc, hitem⟩
    rcases Option.map_eq_some_iff.1 hitem with ⟨ring, hring, heq⟩
    obtain ⟨hclaimId, rfl⟩ := Prod.mk.inj heq
    exact ⟨c, hc, hclaimId, hring⟩
  · rintro ⟨c, hc, rfl, hring⟩
    exact ⟨c, hc, by rw [hring, Option.map_some]⟩

include hids

/-- The ground truth has the ring of each claim. -/
theorem get_ringMembers {c : GeneratedClaim} (hc : c ∈ claims) :
    Dict.get (ringMembers claims) c.claimId = c.ringId := by
  have hunique : ∀ c' ∈ claims, c'.claimId = c.claimId → c' = c := fun c' hc' heq =>
    List.inj_on_of_nodup_map hids hc' hc heq
  cases hring : c.ringId with
  | none =>
      rw [Dict.get_eq_none_iff]
      intro hkey
      rcases List.mem_map.1 hkey with ⟨⟨claimId, ringId⟩, hitem, hname⟩
      rcases mem_ringMembers.1 hitem with ⟨c', hc', hid, hring'⟩
      rw [hunique c' hc' (hid.trans hname), hring] at hring'
      cases hring'
  | some ringId =>
      refine Dict.get_eq_some_of_mem (mem_ringMembers.2 ⟨c, hc, rfl, hring⟩) fun other hother => ?_
      rcases mem_ringMembers.1 hother with ⟨c', hc', hid, hring'⟩
      rw [hunique c' hc' hid, hring] at hring'
      exact (Option.some.inj hring').symm

theorem hasKey_ringMembers {c : GeneratedClaim} (hc : c ∈ claims) :
    hasKey (ringMembers claims) c.claimId = c.ringId.isSome := by
  have hget := get_ringMembers hids hc
  unfold hasKey
  cases hring : c.ringId with
  | none =>
      rw [hring, Dict.get_eq_none_iff] at hget
      exact decide_eq_false hget
  | some ringId =>
      exact decide_eq_true (List.mem_map_of_mem (mem_ringMembers.2 ⟨c, hc, rfl, hring⟩))

end

/-! ## The dates -/

/-- A claim that is dated after the validation period is in the test period. -/
theorem Sound.period_eq_test {c : GeneratedClaim} (h : Sound (splitDayOffsets.2 + 1) c)
    {date : LocalDate} (hdate : date.InRange) (heq : date.isoformat = c.incidentDate) :
    Period.of date = .test := by
  rcases h.incidentDate with ⟨day, hlow, hhigh, htext⟩
  have hday := inRange_of_window hhigh
  have hback : (epoch.plusDays day).Le date :=
    (LocalDate.isoformat_le_iff hday hdate).1 (le_of_eq (htext.symm.trans heq.symm))
  rw [Period.of_eq_test, valEndDate_eq]
  rw [splitDayOffsets_eq] at hlow
  unfold LocalDate.Le LocalDate.plusDays epoch at *
  simp only at *
  omega

/-! ## The test set -/

variable {σ : Type} {rng : Rng σ}

/-- The rings that are held out are those whose names are written. -/
theorem Planted.mem_heldOutRingIds {args : Args} {out : Output} (h : Planted rng args out)
    {ringId : String} : ringId ∈ out.heldOutRingIds ↔
      ∃ i < args.heldOutRings.toNat, ringId = heldOutName i := by
  rw [h.heldOutRingIds, List.mem_map]
  constructor
  · rintro ⟨i, hi, rfl⟩
    exact ⟨i, List.mem_range.1 hi, rfl⟩
  · rintro ⟨i, hi, rfl⟩
    exact ⟨i, List.mem_range.2 hi, rfl⟩

section

variable {F : Type} [Floats F] {ig : Igraph F} {idfWeight : ℕ → F} {float : BigDecimal → F}
  {db : Db} {s : Session F} {args : Args} {out : Output}
  (hdb : db.Trainable) (hs : s.Answers float db) (hplanted : Planted rng args out)
  (hholds : Holds db out.claims)

include hdb hs hplanted hholds

/-- A member of a held-out ring has its row in the test period and in no other. -/
theorem mem_periodRows_of_heldOut {c : GeneratedClaim} (hc : c ∈ out.claims) {i : ℕ}
    (hring : c.ringId = some (heldOutName i)) (p : Period) :
    c.claimId ∈ (periodRows ig idfWeight s p).map Prod.fst ↔ p = .test := by
  rcases hholds c hc with ⟨claim, hclaim, hid, hdate, hlinked⟩
  rw [← hid, mem_periodRows_keys hdb hs ig idfWeight hclaim hlinked,
    (hplanted.heldOut c hc i hring).period_eq_test (hdb.dates claim hclaim) hdate]
  exact eq_comm

end

/-- The ablation tests the held-out rings, and all of them. Whatever is drawn, when the database
has the claims with their links, whatever else it has: the dataset is built, each claim of the
file has one row and the label of its ring, and the claims that the ablation measures are the
members of the held-out rings, each of them once, of which none is trained or validated on. -/
theorem held_out_rings_are_tested {F : Type} [Floats F] (ig : Igraph F) (idfWeight : ℕ → F)
    (float : BigDecimal → F) (rng : Rng σ) (args : Args) (out : Output)
    (h : out ∈ (generate rng args).outcomes)
    (hids : (out.claims.map GeneratedClaim.claimId).Nodup) (db : Db) (s : Session F)
    (hdb : db.Trainable) (hs : s.Answers float db) (hholds : Holds db out.claims) :
    ∃ ds, buildDataset ig idfWeight s (ringMembers out.claims) = some ds ∧
      (∀ c ∈ out.claims, ∃ row,
        (ds.df.filter fun r => decide (r.claimId = c.claimId)) = [row] ∧
          row.label = if c.ringId.isSome then 1 else 0) ∧
      (heldOutClaimIds (temporalSplit ds.df ds.incidentDates).2.2 (ringMembers out.claims)
        out.heldOutRingIds).Nodup ∧
      (∀ claimId, claimId ∈ heldOutClaimIds (temporalSplit ds.df ds.incidentDates).2.2
          (ringMembers out.claims) out.heldOutRingIds ↔
        ∃ i < args.heldOutRings.toNat, ∃ c ∈ membersOf (heldOutName i) out.claims,
          c.claimId = claimId) ∧
      ∀ i, ∀ c ∈ membersOf (heldOutName i) out.claims,
        c.claimId ∉ (temporalSplit ds.df ds.incidentDates).1 ∧
          c.claimId ∉ (temporalSplit ds.df ds.incidentDates).2.1 := by
  have hplanted := planted_of_generate h
  have hperiod : ∀ p : Period, p.idsOf (temporalSplit
      ((featureRows ig idfWeight s).map (datasetRow (ringMembers out.claims)))
      (incidentDates s)) = (periodRows ig idfWeight s p).map Prod.fst :=
    fun p => idsOf_dataset hdb hs p
  have htest := hperiod .test
  refine ⟨_, buildDataset_eq hdb hs (ringMembers out.claims), ?_, ?_, ?_, ?_⟩
  · intro c hc
    rcases hholds c hc with ⟨claim, hclaim, hid, -, hlinked⟩
    have hkey := (mem_periodRows_keys hdb hs ig idfWeight hclaim hlinked
      (Period.of claim.incidentDate)).2 rfl
    rcases List.mem_map.1 hkey with ⟨item, hitem, hname⟩
    refine ⟨datasetRow (ringMembers out.claims) item, ?_, ?_⟩
    · rw [← hid, ← hname]
      exact filter_dataset hdb hs (mem_featureRows.2 ⟨_, hitem⟩)
    · show (if hasKey (ringMembers out.claims) item.1 then 1 else 0) = _
      rw [hname, hid, hasKey_ringMembers hids hc]
  · show (heldOutClaimIds (Period.test.idsOf (temporalSplit _ _)) _ _).Nodup
    rw [htest]
    exact (nodup_periodRows .test).filter _
  · intro claimId
    show claimId ∈ heldOutClaimIds (Period.test.idsOf (temporalSplit _ _)) _ _ ↔ _
    rw [htest, heldOutClaimIds, List.mem_filter]
    constructor
    · rintro ⟨-, hheld⟩
      rcases (Option.any_eq_true _ _).1 hheld with ⟨ringId, hget, hmem⟩
      rcases hplanted.mem_heldOutRingIds.1 (of_decide_eq_true hmem) with ⟨i, hi, rfl⟩
      rcases mem_ringMembers.1 (Dict.mem_of_get_eq_some hget) with ⟨c, hc, hid, hring⟩
      exact ⟨i, hi, c, mem_membersOf.2 ⟨hc, hring⟩, hid⟩
    · rintro ⟨i, hi, c, hmember, rfl⟩
      obtain ⟨hc, hring⟩ := mem_membersOf.1 hmember
      refine ⟨(mem_periodRows_of_heldOut hdb hs hplanted hholds hc hring .test).2 rfl, ?_⟩
      rw [get_ringMembers hids hc, hring]
      exact decide_eq_true (hplanted.mem_heldOutRingIds.2 ⟨i, hi, rfl⟩)
  · intro i c hmember
    obtain ⟨hc, hring⟩ := mem_membersOf.1 hmember
    have hnot : ∀ p : Period, p ≠ .test → c.claimId ∉ p.idsOf (temporalSplit
        ((featureRows ig idfWeight s).map (datasetRow (ringMembers out.claims)))
        (incidentDates s)) := by
      intro p hp hmem
      rw [hperiod] at hmem
      exact hp ((mem_periodRows_of_heldOut hdb hs hplanted hholds hc hring p).1 hmem)
    exact ⟨hnot .train (by decide), hnot .val (by decide)⟩

end GenRings

namespace Sample

open GenRings

/-- Loaded claims, all linked to one phone, can be trained on. -/
theorem trainable_loaded {claims : List GeneratedClaim} {rows : List Claim}
    (hloaded : List.Forall₂ LoadedAs claims rows)
    (hids : (claims.map GeneratedClaim.claimId).Nodup)
    (hapart : ∀ c ∈ claims, c.claimId ≠ UUID.toString ⟨9⟩) : (onePhone rows).Trainable := by
  have hnames : rows.map (fun claim => claim.id.toString) = claims.map GeneratedClaim.claimId := by
    induction hloaded with
    | nil => rfl
    | cons hrow _ ih =>
        rw [List.map_cons, List.map_cons, hrow.id]
        congr 1
        exact ih (List.nodup_cons.1 hids).2 fun c hc => hapart c (List.mem_cons_of_mem _ hc)
  have hnodup : ((rows.map Claim.id).map UUID.toString).Nodup := by
    rw [List.map_map]
    exact hnames ▸ hids
  apply trainable_onePhone
  · exact hnodup.of_map
  · rintro claim hclaim heq
    rcases Results.exists_of_forall₂ hloaded hclaim with ⟨c, hc, hrow⟩
    exact hapart c hc (hrow.id.trans (congrArg UUID.toString heq))
  · intro claim hclaim
    rcases Results.exists_of_forall₂ hloaded hclaim with ⟨c, -, hrow⟩
    exact hrow.inRange

theorem holds_loaded {claims : List GeneratedClaim} {rows : List Claim}
    (hloaded : List.Forall₂ LoadedAs claims rows) : Holds (onePhone rows) claims := by
  intro c hc
  rcases Results.exists_of_forall₂ hloaded.flip hc with ⟨claim, hclaim, hrow⟩
  exact ⟨claim, hclaim, hrow.id.symm, hrow.incidentDate.symm, _,
    List.mem_map_of_mem hclaim, rfl⟩

end Sample

/-- Nine generated claims, loaded and linked: each has its row, and the three of the held-out
ring are tested and nothing else. -/
theorem held_out_rings_are_tested_generated : ∃ (out : GenRings.Output) (rows : List Claim)
    (ds : Dataset Sample.Exact), out.claims.length = 9 ∧ out.heldOutRingIds = ["heldout-0000"] ∧
    buildDataset Sample.ig (fun n => ⟨n⟩) (Sample.session (Sample.onePhone rows))
      (GenRings.ringMembers out.claims) = some ds ∧
    (∀ c ∈ out.claims, ∃ row, (ds.df.filter fun r => decide (r.claimId = c.claimId)) = [row] ∧
      row.label = if c.ringId.isSome then 1 else 0) ∧
    (GenRings.heldOutClaimIds (temporalSplit ds.df ds.incidentDates).2.2
      (GenRings.ringMembers out.claims) out.heldOutRingIds).Nodup ∧
    (∀ claimId, claimId ∈ GenRings.heldOutClaimIds (temporalSplit ds.df ds.incidentDates).2.2
        (GenRings.ringMembers out.claims) out.heldOutRingIds ↔
      ∃ i < Sample.args.heldOutRings.toNat,
        ∃ c ∈ GenRings.membersOf (GenRings.heldOutName i) out.claims, c.claimId = claimId) ∧
    ∀ i, ∀ c ∈ GenRings.membersOf (GenRings.heldOutName i) out.claims,
      c.claimId ∉ (temporalSplit ds.df ds.incidentDates).1 ∧
        c.claimId ∉ (temporalSplit ds.df ds.incidentDates).2.1 := by
  rcases Sample.exists_generated with ⟨out, h, hlength, hheldOut, hids, hapart⟩
  rcases GenRings.exists_loads Sample.env Sample.reads_inputs Db.empty
    (GenRings.planted_of_generate h).sound with ⟨rows, hloaded, -⟩
  obtain ⟨ds, hds, hall⟩ := GenRings.held_out_rings_are_tested Sample.ig
    (fun n => ⟨n⟩) (fun amount => ⟨amount.unscaled⟩) Sample.lowest Sample.args out h hids
    (Sample.onePhone rows) (Sample.session (Sample.onePhone rows))
    (Sample.trainable_loaded hloaded hids hapart) (Sample.session_answers _)
    (Sample.holds_loaded hloaded)
  exact ⟨out, rows, ds, hlength, hheldOut, hds, hall⟩

end ClaimGuard
