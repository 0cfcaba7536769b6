import ClaimGuard.EntityResolution
import ClaimGuard.Lib.Words

/-!
# The words that the normalizers see

Lower case, blanking and trimming, by what they do to the words of a text: the last two
change separators only, and what a normalizer returns is in lower case already.
-/

namespace ClaimGuard

open Words

/-! ## Classes of characters -/

theorem isLowerAlnum_iff {c : Char} : isLowerAlnum c = true ↔
    (97 ≤ c.toNat ∧ c.toNat ≤ 122) ∨ (48 ≤ c.toNat ∧ c.toNat ≤ 57) := by
  simp only [isLowerAlnum, Bool.or_eq_true, Bool.and_eq_true, decide_eq_true_eq, Char.le_def,
    UInt32.le_iff_toNat_le]
  rfl

theorem isRegexSpace_iff {c : Char} :
    isRegexSpace c = true ↔ c.toNat = 32 ∨ (9 ≤ c.toNat ∧ c.toNat ≤ 13) := by
  have hblank : c = ' ' ↔ c.toNat = 32 := (Char.toNat_inj (d := ' ')).symm
  simp only [isRegexSpace, Bool.or_eq_true, Bool.and_eq_true, decide_eq_true_eq, beq_iff_eq, hblank]

theorem isLowerAlnum_of_isRegexSpace {c : Char} (h : isRegexSpace c = true) :
    isLowerAlnum c = false := by
  rw [isRegexSpace_iff] at h
  rw [← Bool.not_eq_true, isLowerAlnum_iff]
  omega

/-- Letters and digits are not white space. -/
theorem isWhitespace_of_isLowerAlnum {c : Char} (h : isLowerAlnum c = true) :
    isWhitespace c = false := by
  rw [isLowerAlnum_iff] at h
  rw [← Bool.not_eq_true]
  simp only [isWhitespace, Bool.or_eq_true, Bool.and_eq_true, decide_eq_true_eq, beq_iff_eq,
    bne_iff_ne]
  omega

/-! ## Lower case -/

/-- Lower case leaves alone what a normalizer returns. -/
theorem toLowerCase_eq_self {s : List Char}
    (h : ∀ c ∈ s, (isLowerAlnum c || isRegexSpace c || c == '&') = true) : toLowerCase s = s := by
  have hfixed : ∀ c ∈ s, (if 'A' ≤ c ∧ c ≤ 'Z' then [Char.ofNat (c.toNat + 32)]
      else if c.toNat = 0x212A then ['k']
      else if c.toNat = 0x0130 then ['i', Char.ofNat 0x0307]
      else [c]) = [c] := by
    intro c hc
    have hrange : (c.toNat < 65 ∨ 90 < c.toNat) ∧ c.toNat ≠ 0x212A ∧ c.toNat ≠ 0x0130 := by
      have hclass := h c hc
      rw [Bool.or_eq_true, Bool.or_eq_true, isLowerAlnum_iff, isRegexSpace_iff,
        beq_iff_eq] at hclass
      rcases hclass with (hclass | hclass) | rfl
      · omega
      · omega
      · decide
    have hupper : ¬ ('A' ≤ c ∧ c ≤ 'Z') := by
      rintro ⟨hA, hZ⟩
      have hA' : 65 ≤ c.toNat := hA
      have hZ' : c.toNat ≤ 90 := hZ
      omega
    rw [if_neg hupper, if_neg hrange.2.1, if_neg hrange.2.2]
  unfold toLowerCase
  induction s with
  | nil => rfl
  | cons c s ih =>
      rw [List.flatMap_cons, hfixed c List.mem_cons_self,
        ih (fun d hd => h d (List.mem_cons_of_mem c hd))
          fun d hd => hfixed d (List.mem_cons_of_mem c hd)]
      rfl

section

variable {p : Char → Bool}

/-- Blanking keeps the words of a smaller class. -/
theorem words_blankOutside {q : Char → Bool} (hspace : p ' ' = false)
    (hpq : ∀ c, p c = true → q c = true) (s : List Char) :
    words p (blankOutside q s) = words p s := by
  refine words_map ?_ ?_ s
  · intro c hc
    rw [if_pos (hpq c hc)]
  · intro c hc
    split
    · exact hc
    · exact hspace

/-- What is trimmed are characters up to the blank. -/
theorem exists_trim (s : List Char) : ∃ u v, s = u ++ trim s ++ v ∧
    (∀ c ∈ u, c.toNat ≤ 0x20) ∧ ∀ c ∈ v, c.toNat ≤ 0x20 := by
  let q : Char → Bool := fun c => decide (c.toNat ≤ 0x20)
  have hq : ∀ t : List Char, ∀ c ∈ t.takeWhile q, c.toNat ≤ 0x20 := by
    intro t c hc
    have hqc : q c = true := List.mem_takeWhile_imp hc
    exact of_decide_eq_true hqc
  refine ⟨s.takeWhile q, ((s.dropWhile q).reverse.takeWhile q).reverse, ?_, hq s, ?_⟩
  · have hback := congrArg List.reverse
      (List.takeWhile_append_dropWhile (p := q) (l := (s.dropWhile q).reverse))
    rw [List.reverse_append, List.reverse_reverse] at hback
    show s = s.takeWhile q ++ ((s.dropWhile q).reverse.dropWhile q).reverse ++ _
    rw [List.append_assoc, hback, List.takeWhile_append_dropWhile]
  · intro c hc
    exact hq _ c (List.mem_reverse.1 hc)

/-- Trimming changes no word. -/
theorem words_trim (hlow : ∀ c : Char, c.toNat ≤ 0x20 → p c = false) (s : List Char) :
    words p (trim s) = words p s := by
  rcases exists_trim s with ⟨u, v, heq, hu, hv⟩
  conv_rhs => rw [heq]
  exact (words_append_of_separators (fun c hc => hlow c (hu c hc))
    fun c hc => hlow c (hv c hc)).symm

end

end ClaimGuard
