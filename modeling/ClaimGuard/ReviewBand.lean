import Mathlib.Data.Finset.Max
import ClaimGuard.Lib.Binary64

/-!
# The thresholds of the trained model

`best_threshold`, `review_threshold` and `evaluate`, in exact arithmetic. One threshold is
the first candidate of the greatest F1, looked for upwards, the other the first candidate
with enough recall, looked for downwards.
-/

namespace ClaimGuard

/-- What is used of numpy and scikit-learn on the test split. -/
structure Metrics where
  averagePrecisionScore : List ℕ → List ℚ → ℚ
  argsort : List ℚ → List ℕ

/-- `round(q, n)` of a number that is not negative. -/
def roundTo (n : ℕ) (q : ℚ) : ℚ := Binary64.roundHalfEven (q * 10 ^ n) / 10 ^ n

/-! ## Counts -/

/-- How many claims of a class are scored in a way. -/
def countScored (y : List ℕ) (scores : List ℚ) (label : ℕ) (p : ℚ → Bool) : ℕ :=
  (y.zip scores).countP fun e => decide (e.1 = label) && p e.2

/-- `f1_score(y, scores >= t, zero_division=0)`. -/
def f1Score (y : List ℕ) (scores : List ℚ) (t : ℚ) : ℚ :=
  let tp := countScored y scores 1 fun s => decide (t ≤ s)
  let fp := countScored y scores 0 fun s => decide (t ≤ s)
  let fn := countScored y scores 1 fun s => decide (s < t)
  if tp = 0 then 0 else 2 * tp / (2 * tp + fp + fn)

/-- The share of the positives that score at least the threshold. -/
def recallAt (y : List ℕ) (scores : List ℚ) (t : ℚ) : ℚ :=
  let positives := countScored y scores 1 fun _ => true
  if positives = 0 then 0 else countScored y scores 1 (fun s => decide (t ≤ s)) / positives

/-! ## The two thresholds -/

/-- `np.linspace(0.01, 0.99, 99)`. -/
def candidates : List ℚ := (List.range 99).map fun k : ℕ => ((k : ℚ) + 1) / 100

/-- `np.argmax`: the first place of the greatest. -/
def argmax (l : List ℚ) : ℕ := l.findIdx fun x => l.all fun z => decide (z ≤ x)

/-- `best_threshold`. -/
def bestThreshold (yVal : List ℕ) (scoresVal : List ℚ) : ℚ :=
  let f1s := candidates.map (f1Score yVal scoresVal)
  candidates.getD (argmax f1s) 0

/-- The default of `target_recall`. -/
def targetRecall : ℚ := 95 / 100

/-- `review_threshold`. -/
def reviewThreshold (yVal : List ℕ) (scoresVal : List ℚ) : ℚ :=
  (candidates.reverse.find? fun t => decide (targetRecall ≤ recallAt yVal scoresVal t)).getD
    (1 / 100)

/-! ## The report -/

/-- `OPERATING_K_VALUES`. -/
def operatingKValues : List ℕ := [50, 100, 500]

/-- `precision_recall_at_k`. -/
def precisionRecallAtK (m : Metrics) (yTrue : List ℕ) (scores : List ℚ) (k : ℕ) : ℚ × ℚ :=
  let order := (m.argsort (scores.map fun s => -s)).take k
  let hits := (order.map fun i => yTrue.getD i 0).sum
  let totalPositive := yTrue.sum
  (if 0 < k then hits / k else 0, if 0 < totalPositive then hits / totalPositive else 0)

/-- `confusion_matrix`, by the names of its cells. -/
structure ConfusionMatrix where
  tp : ℕ
  fp : ℕ
  fn : ℕ
  tn : ℕ

/-- The report on one variant. -/
structure EvalReport where
  auprc : ℚ
  flagThreshold : ℚ
  reviewThreshold : ℚ
  confusionMatrix : ConfusionMatrix
  precisionRecallAtK : List (ℕ × ℚ × ℚ)

/-- `evaluate`. -/
def evaluate (m : Metrics) (yVal : List ℕ) (scoresVal : List ℚ) (yTest : List ℕ)
    (scoresTest : List ℚ) : EvalReport :=
  let flagT := bestThreshold yVal scoresVal
  let reviewT := ClaimGuard.reviewThreshold yVal scoresVal
  { auprc := roundTo 4 (m.averagePrecisionScore yTest scoresTest)
    flagThreshold := roundTo 3 flagT
    reviewThreshold := roundTo 3 reviewT
    confusionMatrix :=
      { tp := countScored yTest scoresTest 1 fun s => decide (flagT ≤ s)
        fp := countScored yTest scoresTest 0 fun s => decide (flagT ≤ s)
        fn := countScored yTest scoresTest 1 fun s => decide (s < flagT)
        tn := countScored yTest scoresTest 0 fun s => decide (s < flagT) }
    precisionRecallAtK := operatingKValues.map fun k =>
      let p := ClaimGuard.precisionRecallAtK m yTest scoresTest (min k scoresTest.length)
      (k, roundTo 4 p.1, roundTo 4 p.2) }

/-! ## What the scans find -/

theorem mem_candidates {t : ℚ} : t ∈ candidates ↔ ∃ k : ℕ, 1 ≤ k ∧ k ≤ 99 ∧ t = k / 100 := by
  unfold candidates
  simp only [List.mem_map, List.mem_range]
  constructor
  · rintro ⟨k, hk, rfl⟩
    exact ⟨k + 1, by omega, by omega, by push_cast; rfl⟩
  · rintro ⟨k, hpos, hk, rfl⟩
    refine ⟨k - 1, by omega, ?_⟩
    rw [Nat.cast_sub hpos, Nat.cast_one, sub_add_cancel]

theorem pairwise_candidates : candidates.Pairwise (· < ·) := by
  unfold candidates
  rw [List.pairwise_map]
  refine List.pairwise_lt_range.imp ?_
  intro j k hjk
  have hcast : (j : ℚ) < k := by exact_mod_cast hjk
  linarith

/-- Candidates are in the order of their places. -/
theorem candidates_lt {i j : ℕ} {t u : ℚ} (ht : candidates[i]? = some t)
    (hu : candidates[j]? = some u) (h : i < j) : t < u := by
  rcases List.getElem?_eq_some_iff.1 ht with ⟨hi, rfl⟩
  rcases List.getElem?_eq_some_iff.1 hu with ⟨hj, rfl⟩
  exact List.pairwise_iff_getElem.1 pairwise_candidates i j hi hj h

/-- The lowest candidate is below all the others. -/
theorem lowest_le {t : ℚ} (ht : t ∈ candidates) : 1 / 100 ≤ t := by
  rcases mem_candidates.1 ht with ⟨k, hpos, -, rfl⟩
  have hcast : (1 : ℚ) ≤ k := by exact_mod_cast hpos
  linarith

/-- The first place of the greatest: nothing is greater, and what comes before is less. -/
theorem argmax_spec {l : List ℚ} (h : l ≠ []) : ∃ x, l[argmax l]? = some x ∧
    (∀ z ∈ l, z ≤ x) ∧ ∀ j < argmax l, ∀ z, l[j]? = some z → z < x := by
  have hexists : ∃ x ∈ l, (l.all fun z => decide (z ≤ x)) = true := by
    rcases l.toFinset.exists_max_image id ((List.toFinset_nonempty_iff l).2 h) with ⟨x, hx, hmax⟩
    refine ⟨x, List.mem_toFinset.1 hx, ?_⟩
    simpa using hmax
  have hlt : argmax l < l.length := List.findIdx_lt_length_of_exists hexists
  have hgreatest : ∀ z ∈ l, z ≤ l[argmax l] := by
    have hall := List.findIdx_getElem (w := hlt)
    intro z hz
    exact of_decide_eq_true (List.all_eq_true.1 hall z hz)
  refine ⟨l[argmax l], List.getElem?_eq_getElem hlt, hgreatest, ?_⟩
  intro j hj z hz
  -- an earlier one is not the greatest, so something is above it
  rcases List.getElem?_eq_some_iff.1 hz with ⟨hjlt, rfl⟩
  have hnot := List.not_of_lt_findIdx hj
  rw [List.all_eq_false] at hnot
  rcases hnot with ⟨w, hw, hlow⟩
  exact (not_le.1 fun hle => hlow (decide_eq_true hle)).trans_le (hgreatest w hw)

section

variable (y : List ℕ) (scores : List ℚ)

/-- The flag threshold has the greatest F1 of all candidates, and any lower candidate has
less. -/
theorem bestThreshold_spec : bestThreshold y scores ∈ candidates ∧
    (∀ t ∈ candidates, f1Score y scores t ≤ f1Score y scores (bestThreshold y scores)) ∧
    ∀ t ∈ candidates, t < bestThreshold y scores →
      f1Score y scores t < f1Score y scores (bestThreshold y scores) := by
  have hne : candidates.map (f1Score y scores) ≠ [] := by
    rw [ne_eq, List.map_eq_nil_iff]
    exact List.ne_nil_of_mem (mem_candidates.2 ⟨1, le_rfl, by norm_num, rfl⟩)
  rcases argmax_spec hne with ⟨x, hx, hgreatest, hbefore⟩
  rw [List.getElem?_map, Option.map_eq_some_iff] at hx
  rcases hx with ⟨b, hb, rfl⟩
  have hbest : bestThreshold y scores = b := by
    unfold bestThreshold
    rw [List.getD_eq_getElem?_getD, hb, Option.getD_some]
  rw [hbest]
  refine ⟨List.mem_of_getElem? hb, ?_, ?_⟩
  · intro t ht
    exact hgreatest _ (List.mem_map_of_mem ht)
  · intro t ht hlt
    rcases List.mem_iff_getElem?.1 ht with ⟨j, hj⟩
    refine hbefore j ?_ _ (by rw [List.getElem?_map, hj, Option.map_some])
    -- candidates are in order, so a lower one comes before
    by_contra hle
    rcases (not_lt.1 hle).eq_or_lt with heq | hjlt
    · rw [heq, hj] at hb
      exact absurd (Option.some.inj hb) hlt.ne
    · exact absurd (candidates_lt hb hj hjlt) hlt.not_gt

/-- The review threshold is the highest candidate with enough recall, or the lowest one when
there is none. -/
theorem reviewThreshold_le_iff {b : ℚ} (hb : b ∈ candidates) : reviewThreshold y scores ≤ b ↔
    ∀ t ∈ candidates, targetRecall ≤ recallAt y scores t → t ≤ b := by
  unfold reviewThreshold
  cases hfind : candidates.reverse.find? fun t => decide (targetRecall ≤ recallAt y scores t) with
  | none =>
      rw [Option.getD_none]
      refine iff_of_true (lowest_le hb) ?_
      intro t ht hrecall
      exact absurd (decide_eq_true hrecall) (List.find?_eq_none.1 hfind t (List.mem_reverse.2 ht))
  | some r =>
      rw [Option.getD_some]
      rcases List.find?_eq_some_iff_append.1 hfind with ⟨hr, before, after, heq, hbefore⟩
      constructor
      · intro hle t ht hrecall
        apply le_trans _ hle
        -- the scan is downwards: what it passed has too little recall, what is left is lower
        have hmem : t ∈ before ++ r :: after := heq ▸ List.mem_reverse.2 ht
        have hdown : (before ++ r :: after).Pairwise (· > ·) :=
          heq ▸ List.pairwise_reverse.2 pairwise_candidates
        rcases List.mem_append.1 hmem with hmem | hmem
        · have hnot := hbefore t hmem
          rw [decide_eq_true hrecall] at hnot
          exact absurd hnot (by simp)
        · rcases List.mem_cons.1 hmem with rfl | hmem
          · exact le_rfl
          · exact (List.rel_of_pairwise_cons (List.pairwise_append.1 hdown).2.1 hmem).le
      · intro hall
        exact hall r (List.mem_reverse.1 (List.mem_of_find?_eq_some hfind)) (of_decide_eq_true hr)

/-! ## When the band is not inverted -/

/-- The claims of a class that score at least one threshold and less than another. -/
def countBetween (label : ℕ) (u t : ℚ) : ℕ :=
  countScored y scores label fun s => decide (u ≤ s) && decide (s < t)

/-- The claims of a class that score at least the threshold. -/
def countFrom (label : ℕ) (t : ℚ) : ℕ := countScored y scores label fun s => decide (t ≤ s)

/-- The claims of a class. -/
def countOf (label : ℕ) : ℕ := countScored y scores label fun _ => true

/-- Wherever a candidate keeps nineteen positives of twenty, a threshold from there up pays
against every lower one: what raising it sheds of the negatives outweighs what it loses of
the positives. -/
def RaisingPays : Prop :=
  0 < countOf y scores 1 → ∀ t ∈ candidates, 19 * countOf y scores 1 ≤ 20 * countFrom y scores 1 t →
    ∃ t' ∈ candidates, t ≤ t' ∧ ∀ u ∈ candidates, u < t →
      countBetween y scores 1 u t' * (countOf y scores 1 + countFrom y scores 0 t') <
        countBetween y scores 0 u t' * countFrom y scores 1 t'

/-- A class is split by a threshold. -/
theorem countScored_split (label : ℕ) (p q : ℚ → Bool) : countScored y scores label p =
    countScored y scores label (fun s => p s && q s) +
      countScored y scores label fun s => p s && !q s := by
  unfold countScored
  rw [List.countP_eq_countP_filter_add _ _ fun e => q e.2, List.countP_filter, List.countP_filter]
  simp only [Bool.and_assoc]

theorem countFrom_eq_add (label : ℕ) {u t : ℚ} (h : u ≤ t) : countFrom y scores label u =
    countFrom y scores label t + countBetween y scores label u t := by
  unfold countFrom countBetween
  rw [countScored_split y scores label _ fun s => decide (t ≤ s)]
  congr 1
  · congr 1
    funext s
    rw [Bool.eq_iff_iff, Bool.and_eq_true, decide_eq_true_eq, decide_eq_true_eq]
    exact ⟨fun hs => hs.2, fun hs => ⟨h.trans hs, hs⟩⟩
  · congr 1
    funext s
    rw [← decide_not, decide_eq_decide.2 not_le]

/-- The F1 from the counts: what is scored below the threshold are the other positives. -/
theorem f1Score_eq (t : ℚ) : f1Score y scores t = 2 * countFrom y scores 1 t /
    (countFrom y scores 1 t + countFrom y scores 0 t + countOf y scores 1 : ℕ) := by
  have hsplit : countOf y scores 1 =
      countFrom y scores 1 t + countScored y scores 1 fun s => decide (s < t) := by
    unfold countOf countFrom
    rw [countScored_split y scores 1 _ fun s => decide (t ≤ s)]
    simp only [Bool.true_and, ← decide_not, not_le]
  unfold f1Score
  simp only
  split_ifs with htp
  · unfold countFrom
    rw [htp]
    simp
  · rw [hsplit]
    unfold countFrom
    push_cast
    congr 1
    ring

/-- A threshold has the greater F1 when it sheds more than it loses. -/
theorem f1Score_lt_iff (hpos : 0 < countOf y scores 1) {u t : ℚ} (h : u ≤ t) :
    f1Score y scores u < f1Score y scores t ↔
      countBetween y scores 1 u t * (countOf y scores 1 + countFrom y scores 0 t) <
        countBetween y scores 0 u t * countFrom y scores 1 t := by
  rw [f1Score_eq, f1Score_eq, countFrom_eq_add y scores 1 h, countFrom_eq_add y scores 0 h,
    div_lt_div_iff₀ (by positivity) (by positivity)]
  norm_cast
  constructor <;> intro hlt <;> nlinarith only [hlt]

theorem targetRecall_le_iff (t : ℚ) : targetRecall ≤ recallAt y scores t ↔
    0 < countOf y scores 1 ∧ 19 * countOf y scores 1 ≤ 20 * countFrom y scores 1 t := by
  unfold recallAt countOf countFrom
  simp only
  split_ifs with hzero
  · rw [hzero]
    simp [targetRecall]
  · have hpos := Nat.pos_of_ne_zero hzero
    have hcast : (0 : ℚ) < countScored y scores 1 fun _ => true := by exact_mod_cast hpos
    rw [le_div_iff₀ hcast, and_iff_right hpos, targetRecall, div_mul_eq_mul_div,
      div_le_iff₀ (by norm_num)]
    norm_cast
    omega

theorem reviewThreshold_le_bestThreshold_iff :
    reviewThreshold y scores ≤ bestThreshold y scores ↔ RaisingPays y scores := by
  obtain ⟨hmem, hgreatest, hless⟩ := bestThreshold_spec y scores
  rw [reviewThreshold_le_iff y scores hmem]
  constructor
  · intro hle hpos t ht hrecall
    have hbest := hle t ht ((targetRecall_le_iff y scores t).2 ⟨hpos, hrecall⟩)
    refine ⟨_, hmem, hbest, fun u hu hut => ?_⟩
    exact (f1Score_lt_iff y scores hpos (hut.le.trans hbest)).1 (hless u hu (hut.trans_le hbest))
  · intro h t ht hrecall
    obtain ⟨hpos, hkeeps⟩ := (targetRecall_le_iff y scores t).1 hrecall
    rcases h hpos t ht hkeeps with ⟨t', ht', htt', hpays⟩
    by_contra hlt
    have hbelow := not_le.1 hlt
    exact ((f1Score_lt_iff y scores hpos (hbelow.le.trans htt')).2
      (hpays _ hmem hbelow)).not_ge (hgreatest t' ht')

/-- Three decimals are enough for a candidate. -/
theorem roundTo_candidate {t : ℚ} (ht : t ∈ candidates) : roundTo 3 t = t := by
  rcases mem_candidates.1 ht with ⟨k, -, -, rfl⟩
  have hscaled : (k : ℚ) / 100 * 10 ^ 3 = ((10 * k : ℕ) : ℚ) := by
    push_cast
    ring
  unfold roundTo
  rw [hscaled, Binary64.roundHalfEven_natCast]
  push_cast
  ring

theorem reviewThreshold_mem : reviewThreshold y scores ∈ candidates := by
  unfold reviewThreshold
  cases hfind : candidates.reverse.find? fun t => decide (targetRecall ≤ recallAt y scores t) with
  | none => exact mem_candidates.2 ⟨1, le_rfl, by norm_num, by norm_num⟩
  | some r => exact List.mem_reverse.1 (List.mem_of_find?_eq_some hfind)

end

/-- The review threshold does not exceed the flag threshold, as they are picked and as they
are reported, exactly when raising a threshold pays on the validation split. -/
theorem review_le_flag_iff (m : Metrics) (yVal : List ℕ) (scoresVal : List ℚ) (yTest : List ℕ)
    (scoresTest : List ℚ) :
    (reviewThreshold yVal scoresVal ≤ bestThreshold yVal scoresVal ↔
      RaisingPays yVal scoresVal) ∧
    ((evaluate m yVal scoresVal yTest scoresTest).reviewThreshold ≤
        (evaluate m yVal scoresVal yTest scoresTest).flagThreshold ↔
      RaisingPays yVal scoresVal) := by
  have hpicked := reviewThreshold_le_bestThreshold_iff yVal scoresVal
  refine ⟨hpicked, ?_⟩
  show roundTo 3 (reviewThreshold yVal scoresVal) ≤ roundTo 3 (bestThreshold yVal scoresVal) ↔ _
  rw [roundTo_candidate (reviewThreshold_mem yVal scoresVal),
    roundTo_candidate (bestThreshold_spec yVal scoresVal).1]
  exact hpicked

/-- A positive at 0.9 and a negative at 0.1 are told apart by every candidate in between: the
lowest of them is the flag threshold, the highest the review threshold. -/
theorem separated_inverted : ¬ ∀ (yVal : List ℕ) (scoresVal : List ℚ),
    yVal ≠ [] → yVal.length = scoresVal.length → (∀ label ∈ yVal, label = 0 ∨ label = 1) →
    (∀ s ∈ scoresVal, 0 ≤ s ∧ s ≤ 1) →
    reviewThreshold yVal scoresVal ≤ bestThreshold yVal scoresVal := by
  intro hall
  have hreview : reviewThreshold [1, 0] [9 / 10, 1 / 10] = 90 / 100 := by decide +kernel
  have hbest : bestThreshold [1, 0] [9 / 10, 1 / 10] = 11 / 100 := by decide +kernel
  have hle := hall [1, 0] [9 / 10, 1 / 10] (by simp) rfl (by simp) (by norm_num)
  rw [hreview, hbest] at hle
  exact absurd hle (by norm_num)

namespace Sample

/-- The metrics of the report play no part in the thresholds. -/
def metrics : Metrics := ⟨fun _ _ => 0, fun _ => []⟩

end Sample

/-- A positive at 0.5 and a negative right below it: 0.50 is the flag threshold and the review
threshold. A positive at 0.9 and a negative at 0.1: raising the threshold from 0.11 to 0.90
sheds nothing. -/
theorem review_le_flag_adjacent :
    (reviewThreshold [1, 0] [1 / 2, 99 / 200] = 1 / 2 ∧
      bestThreshold [1, 0] [1 / 2, 99 / 200] = 1 / 2 ∧
      RaisingPays [1, 0] [1 / 2, 99 / 200]) ∧
    ¬ RaisingPays [1, 0] [9 / 10, 1 / 10] := by
  have hreview : reviewThreshold [1, 0] [1 / 2, 99 / 200] = 1 / 2 := by decide +kernel
  have hbest : bestThreshold [1, 0] [1 / 2, 99 / 200] = 1 / 2 := by decide +kernel
  refine ⟨⟨hreview, hbest, ?_⟩, ?_⟩
  · refine (review_le_flag_iff Sample.metrics [1, 0] [1 / 2, 99 / 200] [] []).1.1 ?_
    rw [hreview, hbest]
  · intro hpays
    have hle := (review_le_flag_iff Sample.metrics [1, 0] [9 / 10, 1 / 10] [] []).1.2 hpays
    exact absurd hle (by decide +kernel)

end ClaimGuard
