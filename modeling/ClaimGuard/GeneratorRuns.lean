import ClaimGuard.GeneratedClaims

/-!
# When the generator fails

No draw of the generator raises but that of a size from an empty range and that of two claims
to collide when there are not two, and no arithmetic but the count of the collisions, when the
rate is no number or the product no finite one. So `main` fails on its arguments or never.
-/

namespace ClaimGuard

namespace GenRings

open Draw

variable {σ : Type} (rng : Rng σ)

/-! ## Draws -/

theorem total_randint {low high : ℤ} (h : low ≤ high) : Total (randint rng low high) := by
  unfold randint
  rw [dif_pos h]
  exact (total_draw _).bind fun _ _ => total_pure _

theorem total_choice {α : Type} {l : List α} (h : l ≠ []) : Total (choice rng l) := by
  unfold choice
  rw [dif_pos (List.length_pos_iff.2 h)]
  exact (total_draw _).bind fun _ _ => total_pure _

theorem total_chance (p : Rate) : Total (chance rng p) :=
  (total_draw _).bind fun _ _ => total_pure _

theorem total_shuffle {α : Type} (l : List α) : Total (shuffle rng l) :=
  (total_draw _).bind fun _ _ => total_pure _

/-! ## Fields -/

theorem total_randomId : Total (randomId rng) := (total_draw _).bind fun _ _ => total_pure _

theorem total_randomPolicyNumber : Total (randomPolicyNumber rng) :=
  (total_randint rng (by decide)).bind fun _ _ => total_pure _

theorem total_randomName : Total (randomName rng) := by
  refine (total_choice rng (List.cons_ne_nil _ _)).bind fun _ _ => ?_
  exact (total_choice rng (List.cons_ne_nil _ _)).bind fun _ _ => total_pure _

theorem total_randomPhone : Total (randomPhone rng) := by
  refine (total_randint rng (by decide)).bind fun _ _ => ?_
  exact (total_randint rng (by decide)).bind fun _ _ => total_pure _

theorem total_randomAddress : Total (randomAddress rng) := by
  refine (total_randint rng (by decide)).bind fun _ _ => ?_
  refine (total_choice rng (List.cons_ne_nil _ _)).bind fun _ _ => ?_
  refine (total_choice rng (List.cons_ne_nil _ _)).bind fun _ _ => ?_
  exact (total_choice rng (List.cons_ne_nil _ _)).bind fun _ _ => total_pure _

theorem total_randomShop : Total (randomShop rng) := by
  refine (total_choice rng (List.cons_ne_nil _ _)).bind fun _ _ => ?_
  exact (total_choice rng (List.cons_ne_nil _ _)).bind fun _ _ => total_pure _

theorem total_randomAmount : Total (randomAmount rng) := by
  have huniform : Total (uniform rng 5000 150000) := (total_draw _).bind fun _ _ => total_pure _
  exact huniform.bind fun _ _ => total_pure _

theorem total_randomDate {dateRange : ℤ × ℤ} (h : dateRange.1 ≤ dateRange.2) :
    Total (randomDate rng dateRange) :=
  (total_randint rng h).bind fun _ _ => total_pure _

/-! ## Near duplicates -/

/-- There is a place for a typo in a mobile number. -/
theorem total_fuzzPhoneTypo {phone : String} (h : IsMobile phone) :
    Total (fuzzPhoneTypo rng phone) := by
  rcases h with ⟨lead, rest, hphone, -, hrest, -⟩
  refine (total_randint rng ?_).bind fun _ _ => total_pure _
  rw [hphone]
  simp only [List.length_cons, hrest]
  decide

theorem total_fuzzVariants (variants : List (String × String)) (text : String) :
    Total (fuzzVariants rng variants text) := by
  refine total_foldlM (I := fun _ => True) (fun item _ fuzzed _ => ⟨?_, fun _ _ => trivial⟩) trivial
  split
  · exact (total_chance rng _).bind fun _ _ => total_pure _
  · exact total_pure _

theorem total_fuzzAddressVariant (address : String) : Total (fuzzAddressVariant rng address) :=
  (total_fuzzVariants rng _ _).bind fun _ _ => total_fuzzVariants rng _ _

/-! ## Claims -/

theorem total_makeBackgroundClaim : Total (makeBackgroundClaim rng) := by
  refine (total_randomId rng).bind fun _ _ => ?_
  refine (total_randomName rng).bind fun _ _ => ?_
  refine (total_randomPolicyNumber rng).bind fun _ _ => ?_
  refine (total_randomAmount rng).bind fun _ _ => ?_
  refine (total_randomDate rng (by decide)).bind fun _ _ => ?_
  refine (total_randomPhone rng).bind fun _ _ => ?_
  refine (total_randomAddress rng).bind fun _ _ => ?_
  exact (total_randomShop rng).bind fun _ _ => total_pure _

theorem total_collide {claims : List GeneratedClaim} (h : 2 ≤ claims.length) :
    Total (collide rng claims) := by
  unfold collide
  rw [dif_pos h]
  refine (total_draw _).bind fun _ _ => ?_
  exact (total_choice rng (List.cons_ne_nil _ _)).bind fun _ _ => total_pure _

theorem length_collide {claims claims' : List GeneratedClaim}
    (h : claims' ∈ (collide rng claims).outcomes) : claims'.length = claims.length := by
  unfold collide at h
  split at h
  · rcases of_mem_bind h with ⟨p, -, h⟩
    rcases of_mem_bind h with ⟨field, -, h⟩
    rw [of_mem_pure h, List.length_modify]
  · exact absurd h not_mem_raise

/-- Collisions need a count, and two claims if there are any to apply. -/
theorem total_applyBackgroundCollisions {claims : List GeneratedClaim} {rate : Rate} {count : ℤ}
    (hcount : countOf claims.length rate = some count) (h : 0 < count → 2 ≤ claims.length) :
    Total (applyBackgroundCollisions rng claims rate) := by
  unfold applyBackgroundCollisions
  rw [hcount]
  rcases le_or_gt count 0 with hnone | hsome
  · simp only [Int.toNat_of_nonpos hnone]
    exact total_pure _
  · refine total_foldlM (I := fun claims => 2 ≤ claims.length) (fun _ _ claims hclaims => ?_)
      (h hsome)
    exact ⟨total_collide rng hclaims, fun _ hmem => (length_collide rng hmem).symm ▸ hclaims⟩

theorem total_sometimes (p : Rate) {value : Draw σ String} (h : Total value) :
    Total (sometimes rng p value) := by
  refine (total_chance rng p).bind fun hit _ => ?_
  split
  · rw [← bind_pure_comp]
    exact h.bind fun _ _ => total_pure _
  · exact total_pure _

theorem total_drawShared : Total (drawShared rng) := by
  refine (total_randomPhone rng).bind fun _ _ => ?_
  refine (total_sometimes rng _ (total_randomShop rng)).bind fun _ _ => ?_
  exact (total_sometimes rng _ (total_randomAddress rng)).bind fun _ _ => total_pure _

theorem total_memberPhone {shared : Shared} (h : IsMobile shared.phone) (fuzzRate : Rate)
    (i : ℕ) : Total (memberPhone rng shared fuzzRate i) := by
  unfold memberPhone
  split
  · refine (total_chance rng _).bind fun typo _ => ?_
    split
    · exact total_fuzzPhoneTypo rng h
    · exact total_pure _
  · exact total_pure _

theorem total_sharedOr (shared : Option String) {value : Draw σ String} (h : Total value) :
    Total (sharedOr shared value) := by
  cases shared with
  | none => exact h
  | some value => exact total_pure _

theorem total_memberField (shared : Option String) (own : String) (fuzzRate : Rate)
    {fuzz : String → Draw σ String} (h : ∀ text, Total (fuzz text)) (i : ℕ) :
    Total (memberField rng shared own fuzzRate fuzz i) := by
  unfold memberField
  cases shared with
  | none => exact total_pure _
  | some value =>
      simp only
      split
      · refine (total_chance rng _).bind fun variant _ => ?_
        split
        · exact h value
        · exact total_pure _
      · exact total_pure _

theorem total_makeMember {shared : Shared} (h : IsMobile shared.phone) (ringId : String)
    (fuzzRate : Rate) {dateRange : ℤ × ℤ} (hrange : dateRange.1 ≤ dateRange.2) (i : ℕ) :
    Total (makeMember rng shared ringId fuzzRate dateRange i) := by
  refine (total_sharedOr _ (total_randomAddress rng)).bind fun _ _ => ?_
  refine (total_sharedOr _ (total_randomShop rng)).bind fun _ _ => ?_
  refine (total_memberPhone rng h _ _).bind fun _ _ => ?_
  refine (total_memberField rng _ _ _ (total_fuzzAddressVariant rng) _).bind fun _ _ => ?_
  refine (total_memberField rng _ _ _ (total_fuzzVariants rng _) _).bind fun _ _ => ?_
  refine (total_randomId rng).bind fun _ _ => ?_
  refine (total_randomName rng).bind fun _ _ => ?_
  refine (total_randomPolicyNumber rng).bind fun _ _ => ?_
  refine (total_randomAmount rng).bind fun _ _ => ?_
  exact (total_randomDate rng hrange).bind fun _ _ => total_pure _

theorem total_makeRing (ringId : String) (size : ℤ) (fuzzRate : Rate) {dateRange : ℤ × ℤ}
    (hrange : dateRange.1 ≤ dateRange.2) : Total (makeRing rng ringId size fuzzRate dateRange) := by
  refine (total_drawShared rng).bind fun shared hshared => ?_
  have hphone : IsMobile shared.phone := isMobile_of_randomPhone (of_mem_drawShared hshared).1
  refine Total.bind (total_mapM fun i _ => ?_) fun _ _ => total_pure _
  exact total_makeMember rng hphone ringId fuzzRate hrange i

theorem total_makeCamouflageClaim (shared : Shared) : Total (makeCamouflageClaim rng shared) := by
  refine (total_makeBackgroundClaim rng).bind fun claim _ => ?_
  refine (total_choice rng ?_).bind fun touch _ => ?_
  · split <;> exact List.cons_ne_nil _ _
  · split <;> exact total_pure _

/-! ## The run -/

theorem total_hideRing (args : Args) (shared : Shared) : Total (hideRing rng args shared) := by
  refine (total_chance rng _).bind fun hides _ => ?_
  split
  · refine (total_randint rng (by decide)).bind fun count _ => ?_
    exact total_mapM fun _ _ => total_makeCamouflageClaim rng shared
  · exact total_pure _

theorem total_plantRing {args : Args} (h : args.minRingSize ≤ args.maxRingSize) (i : ℕ) :
    Total (plantRing rng args i) := by
  refine (total_randint rng h).bind fun size _ => ?_
  refine (total_makeRing rng _ size _ (by decide)).bind fun ring _ => ?_
  exact (total_hideRing rng args ring.2).bind fun _ _ => total_pure _

theorem total_plantHeldOutRing {args : Args} (h : args.minRingSize ≤ args.maxRingSize) (i : ℕ) :
    Total (plantHeldOutRing rng args i) := by
  have hrange : (splitDayOffsets.2 : ℤ) + 1 ≤ (daySpan : ℤ) := by
    rw [splitDayOffsets_eq]
    decide
  refine (total_randint rng h).bind fun size _ => ?_
  refine Total.bind (total_makeRing rng _ size _ ?_) fun _ _ => total_pure _
  exact hrange

/-- The arguments that `main` runs with: sizes for its rings, if there are any, a rate that
gives a count of collisions, and two claims for them, if there are any. -/
def Runs (args : Args) : Prop :=
  (0 < args.rings.toNat + args.heldOutRings.toNat → args.minRingSize ≤ args.maxRingSize) ∧
    ∃ count, countOf args.claims.toNat args.backgroundCollisionRate = some count ∧
      (0 < count → 2 ≤ args.claims.toNat)

theorem total_generate {args : Args} (h : Runs args) : Total (generate rng args) := by
  obtain ⟨hsize, count, hcount, hclaims⟩ := h
  refine Total.bind (total_mapM fun _ _ => total_makeBackgroundClaim rng) fun background hmade => ?_
  have hlength : background.length = args.claims.toNat := by
    rw [← (of_mem_mapM hmade).length_eq, List.length_range]
  rw [← hlength] at hcount hclaims
  refine (total_applyBackgroundCollisions rng hcount hclaims).bind fun _ _ => ?_
  refine Total.bind (total_mapM fun i hi => ?_) fun _ _ => ?_
  · exact total_plantRing rng (hsize (by have := List.mem_range.1 hi; omega)) i
  refine Total.bind (total_mapM fun i hi => ?_) fun _ _ => ?_
  · exact total_plantHeldOutRing rng (hsize (by have := List.mem_range.1 hi; omega)) i
  exact (total_shuffle rng _).bind fun _ _ => total_pure _

variable {rng}

/-- The collisions were counted, and the first of them had two claims. -/
theorem exists_count_of_applyBackgroundCollisions {claims claims' : List GeneratedClaim}
    {rate : Rate} (h : claims' ∈ (applyBackgroundCollisions rng claims rate).outcomes) :
    ∃ count, countOf claims.length rate = some count ∧ (0 < count → 2 ≤ claims.length) := by
  unfold applyBackgroundCollisions at h
  cases hcount : countOf claims.length rate with
  | none =>
      rw [hcount] at h
      exact absurd h not_mem_raise
  | some count =>
      refine ⟨count, rfl, fun hpos => ?_⟩
      have hsucc : count.toNat = (count.toNat - 1) + 1 := by omega
      simp only [hcount] at h
      rw [hsucc, List.range_succ_eq_map, List.foldlM_cons] at h
      rcases of_mem_bind h with ⟨collided, hfirst, -⟩
      unfold collide at hfirst
      by_contra hfew
      rw [dif_neg hfew] at hfirst
      exact not_mem_raise hfirst

/-- A ring of a block has a size. -/
theorem Block.sizes {args : Args} {low : ℕ} {name : String} {block : List GeneratedClaim}
    (h : Block rng args low name block) : args.minRingSize ≤ args.maxRingSize := by
  rcases h with ⟨size, shared, members, camouflage, -, hring, -⟩
  exact hring.low_le.trans hring.le_high

/-- What comes to an end had such arguments. -/
theorem runs_of_generate {args : Args} {out : Output} (h : out ∈ (generate rng args).outcomes) :
    Runs args := by
  constructor
  · intro hpos
    rcases exists_parts h with ⟨background, rings, heldOut, hparts, -, -⟩
    rcases Nat.eq_zero_or_pos args.rings.toNat with hnone | hsome
    · have hlast : 0 < args.heldOutRings.toNat := by omega
      have hlength := hparts.heldOut.length_eq
      rw [List.length_range] at hlength
      exact (hparts.heldOut.get (List.length_range.symm ▸ hlast) (hlength ▸ hlast)).sizes
    · have hlength := hparts.rings.length_eq
      rw [List.length_range] at hlength
      exact (hparts.rings.get (List.length_range.symm ▸ hsome) (hlength ▸ hsome)).sizes
  · rcases of_mem_bind h with ⟨background, hbackground, h⟩
    rcases of_mem_bind h with ⟨collided, hcollided, -⟩
    have hlength : background.length = args.claims.toNat := by
      rw [← (of_mem_mapM hbackground).length_eq, List.length_range]
    rw [← hlength]
    exact exists_count_of_applyBackgroundCollisions hcollided

/-- Whatever is drawn, the generator comes to the end of its run exactly when there are sizes to
draw for its rings, its collisions can be counted and there are two claims for them, where it
has any; it has then planted what it was asked for. -/
theorem generator_runs_iff (rng : Rng σ) (args : Args) (state : σ) :
    (Runs args → ∃ out state', (generate rng args).run state = some (out, state') ∧
      Planted rng args out) ∧
    (¬ Runs args → (generate rng args).run state = none) := by
  constructor
  · intro hruns
    rcases total_generate rng hruns state with ⟨⟨out, state'⟩, hrun⟩
    exact ⟨out, state', hrun, planted_of_generate (mem_outcomes_of_run hrun)⟩
  · intro hnot
    rcases hrun : (generate rng args).run state with _ | ⟨out, state'⟩
    · rfl
    · exact absurd (runs_of_generate (mem_outcomes_of_run hrun)) hnot

/-- A rate whose product overflows. -/
example : countOf 2 (.finite (Floats.ofRat (10 ^ 308))) = none := by decide +kernel

end GenRings

end ClaimGuard
