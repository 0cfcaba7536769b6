import ClaimGuard.ShopWords

/-!
# Shop names that differ in formatting

Names with the same words have the same canonical name, and the canonical name is its own,
unless two words of the name make a suffix: that suffix is struck only where a single blank
is between its words, and striking a suffix of one word can bring it together.
-/

namespace ClaimGuard

open Words Replace

/-! ## Where a suffix of two words occurs -/

/-- A suffix of two words is in the text. -/
def HasTwoWordSuffix (t : List Char) : Prop := ∃ s ∈ twoWordSuffixes, spaced s <:+: t

/-- What may stand between two words until the suffixes of one word are struck. -/
inductive Filler : List Char → Prop where
  | nil : Filler []
  | separator {c : Char} (hc : isShopChar c = false) {m : List Char} (h : Filler m) :
      Filler (c :: m)
  | suffix {s : List Char} (hs : s ∈ oneWordSuffixes) {m : List Char} (h : Filler m) :
      Filler (s ++ m)

/-- A suffix of two words is in the text; or `sons` is, behind `&` or `and`, and only white
space and suffixes of one word are between the two. -/
def SplitsSuffix (t : List Char) : Prop :=
  ∃ s ∈ twoWordSuffixes, spaced s <:+: t ∨
    s.2 = "sons".toList ∧ ∃ m, m ≠ [] ∧ Filler m ∧ s.1 ++ m ++ s.2 <:+: t

/-- The words that are left of a text when the suffixes of one word are struck. -/
def wordsLeft (t : List Char) : List (List Char) :=
  words isShopChar (strikeAll ' ' oneWordSuffixes t)

theorem isWord_of_mem_wordsLeft (t : List Char) : ∀ w ∈ wordsLeft t, IsWord isShopChar w :=
  fun _ => isWord_of_mem

/-- How many characters of the words are left when the suffixes of one word are struck. -/
def lettersLeft (t : List Char) : ℕ := ((strikeAll ' ' oneWordSuffixes t).filter isShopChar).length

theorem blank_not_shopChar : ∀ c ∈ [' '], isShopChar c = false :=
  List.forall_mem_singleton.2 (by decide)

theorem isWord_oneWordSuffixes : ∀ s ∈ oneWordSuffixes, IsWord isShopChar s := by
  have hall : ∀ s ∈ oneWordSuffixes, s ≠ [] ∧ s.all isShopChar = true := by decide
  intro s hs
  exact ⟨(hall s hs).1, List.all_eq_true.1 (hall s hs).2⟩

theorem isWord_twoWordSuffixes : ∀ s ∈ twoWordSuffixes,
    IsWord isShopChar s.1 ∧ IsWord isShopChar s.2 := by
  have hall : ∀ s ∈ twoWordSuffixes, (s.1 ≠ [] ∧ s.1.all isShopChar = true) ∧
      s.2 ≠ [] ∧ s.2.all isShopChar = true := by decide
  intro s hs
  obtain ⟨⟨hne₁, hall₁⟩, hne₂, hall₂⟩ := hall s hs
  exact ⟨⟨hne₁, List.all_eq_true.1 hall₁⟩, hne₂, List.all_eq_true.1 hall₂⟩

theorem plain_oneWordSuffixes : ∀ s ∈ oneWordSuffixes, Plain ' ' s := by
  have h : ∀ s ∈ oneWordSuffixes, s ≠ [] ∧ ClosedEnd s s ∧ ' ' ∉ s := by decide
  exact fun s hs => ⟨(h s hs).1, (h s hs).2.1, (h s hs).2.2⟩

theorem isWord_of_mem_shopWords {rawShopName : String} :
    ∀ w ∈ shopWords rawShopName, IsWord isShopChar w := fun _ => isWord_of_mem

theorem words_joined {ws : List (List Char)} (h : ∀ w ∈ ws, IsWord isShopChar w) :
    words isShopChar (joined ws) = ws :=
  words_intercalate (by decide) h

/-- Words joined by a white space are a shop text. -/
theorem isShopText_intercalate {c : Char} (hc : isRegexSpace c = true) {ws : List (List Char)}
    (h : ∀ w ∈ ws, IsWord isShopChar w) : IsShopText ([c].intercalate ws) := by
  have hword : ∀ w, IsWord isShopChar w → IsShopText w := by
    intro w hw d hd
    have hclass := hw.2 d hd
    rw [isShopChar, Bool.or_eq_true] at hclass
    rcases hclass with hclass | hclass
    · rw [hclass, Bool.true_or, Bool.true_or]
    · rw [hclass, Bool.or_true]
  induction ws with
  | nil => exact fun d hd => absurd hd List.not_mem_nil
  | cons w ws ih =>
      have hw := hword w (h w List.mem_cons_self)
      have hws := ih fun v hv => h v (List.mem_cons_of_mem w hv)
      by_cases hnil : ws = []
      · rw [hnil, List.intercalate_singleton]
        exact hw
      · rw [List.intercalate_cons_of_ne_nil hnil]
        intro d hd
        rcases List.mem_append.1 hd with hd | hd
        · rcases List.mem_append.1 hd with hd | hd
          · exact hw d hd
          · rw [List.mem_singleton.1 hd, hc, Bool.or_true, Bool.true_or]
        · exact hws d hd

/-! ## Striking -/

theorem wordsLeft_eq (t : List Char) : wordsLeft t = (words isShopChar t).flatMap wordsLeft :=
  words_strikeAll isWord_oneWordSuffixes t

theorem wordsLeft_congr {s t : List Char} (h : words isShopChar s = words isShopChar t) :
    wordsLeft s = wordsLeft t := by
  rw [wordsLeft_eq, h, ← wordsLeft_eq]

/-- The letters left are those of the words left. -/
theorem lettersLeft_eq (t : List Char) : lettersLeft t = (wordsLeft t).flatten.length := by
  unfold lettersLeft wordsLeft
  rw [flatten_words]

/-- Where no suffix of two words is, only those of one word are struck. -/
theorem words_struckShop {t : List Char} (h : ¬ HasTwoWordSuffix t) :
    words isShopChar (struckShop t) = wordsLeft t := by
  unfold struckShop wordsLeft
  have hnone : strikeAll ' ' (twoWordSuffixes.map spaced) t = t := by
    apply strikeAll_eq_self
    intro u hu hinside
    rcases List.mem_map.1 hu with ⟨s, hs, rfl⟩
    exact h ⟨s, hs, hinside⟩
  rw [hnone]

/-- A suffix of two words takes letters with it. -/
theorem lettersLeft_lt {t : List Char} (h : HasTwoWordSuffix t) :
    (words isShopChar (struckShop t)).flatten.length < lettersLeft t := by
  have hfront : ∀ p ∈ twoWordSuffixes, ∀ s ∈ oneWordSuffixes, ClosedFront s p.1 := by decide
  have hend : ∀ p ∈ twoWordSuffixes, ∀ s ∈ oneWordSuffixes, ClosedEnd s p.2 := by decide
  have hborder : ∀ p ∈ twoWordSuffixes, spaced p ≠ [] ∧ ClosedEnd (spaced p) (spaced p) ∧
      0 < lettersLeft p.1 + lettersLeft p.2 := by decide
  have hblank : ∀ x y, lettersLeft (x ++ ' ' :: y) = lettersLeft x + lettersLeft y := by
    intro x y
    unfold lettersLeft
    rw [strikeAll_append_cons (by decide) (by decide), List.filter_append,
      List.filter_cons_of_neg (by decide), List.length_append]
  have hoccurrence : ∀ p ∈ twoWordSuffixes, ∀ x y, lettersLeft (x ++ spaced p ++ y) =
      lettersLeft x + lettersLeft (spaced p) + lettersLeft y := by
    intro p hp x y
    have hleft : lettersLeft (x ++ p.1) = lettersLeft x + lettersLeft p.1 := by
      unfold lettersLeft
      rw [strikeAll_append_of_closedFront plain_oneWordSuffixes x (hfront p hp),
        List.filter_append, List.length_append]
    have hright : lettersLeft (p.2 ++ y) = lettersLeft p.2 + lettersLeft y := by
      unfold lettersLeft
      rw [strikeAll_append_of_closedEnd plain_oneWordSuffixes (hend p hp) y,
        List.filter_append, List.length_append]
    have hcut : x ++ spaced p ++ y = (x ++ p.1) ++ ' ' :: (p.2 ++ y) := by simp [spaced]
    have hself : lettersLeft (spaced p) = lettersLeft p.1 + lettersLeft p.2 := hblank p.1 p.2
    rw [hcut, hblank, hleft, hright, hself]
    omega
  obtain ⟨s, hs, hinside⟩ := h
  rw [flatten_words]
  refine (measure_strikeAll _ (μ := lettersLeft) lettersLeft ?_ hblank t).2
    ⟨spaced s, List.mem_map_of_mem hs, hinside⟩
  intro u hu
  rcases List.mem_map.1 hu with ⟨p, hp, rfl⟩
  obtain ⟨hne, hclosed, hpos⟩ := hborder p hp
  exact ⟨hne, hclosed, (hblank p.1 p.2).symm ▸ hpos, hoccurrence p hp⟩

/-! ## Other spellings -/

/-- A suffix of two words is in the joined words of the text it is in. -/
theorem HasTwoWordSuffix.joined {t : List Char} (h : HasTwoWordSuffix t) :
    HasTwoWordSuffix (joined (words isShopChar t)) := by
  obtain ⟨s, hs, hinside⟩ := h
  obtain ⟨hfirst, hsecond⟩ := isWord_twoWordSuffixes s hs
  rcases words_of_infix hfirst hsecond (List.cons_ne_nil ' ' []) blank_not_shopChar
    (by simpa [spaced] using hinside) with ⟨us, x, y, ts, hwords⟩
  rw [hwords]
  exact ⟨s, hs, infix_intercalate x s.1 s.2 y⟩

/-- Words that are joined by line feeds have no suffix of two words. -/
theorem not_hasTwoWordSuffix_lines {ws : List (List Char)} (h : ∀ w ∈ ws, IsWord isShopChar w) :
    ¬ HasTwoWordSuffix (['\n'].intercalate ws) := by
  have hblank : ' ' ∉ ['\n'].intercalate ws := by
    induction ws with
    | nil => exact List.not_mem_nil
    | cons w ws ih =>
        have hword : ' ' ∉ w := by
          intro hmem
          exact absurd ((h w List.mem_cons_self).2 ' ' hmem) (by decide)
        by_cases hnil : ws = []
        · rw [hnil, List.intercalate_singleton]
          exact hword
        · rw [List.intercalate_cons_of_ne_nil hnil, List.mem_append, List.mem_append]
          rintro ((hmem | hmem) | hmem)
          · exact hword hmem
          · exact absurd (List.mem_singleton.1 hmem) (by decide)
          · exact ih (fun v hv => h v (List.mem_cons_of_mem w hv)) hmem
  rintro ⟨s, -, hinside⟩
  exact hblank (hinside.subset (List.mem_append_right s.1 List.mem_cons_self))

section

variable {rawShopName : String}

/-- The canonical name of words without a suffix of two words. -/
theorem toList_normalizeShop_eq
    (h : ¬ HasTwoWordSuffix (joined (shopWords rawShopName))) :
    (normalizeShop rawShopName).toList = joined ((shopWords rawShopName).flatMap wordsLeft) := by
  have hcleaned : ¬ HasTwoWordSuffix (cleanedShop rawShopName) := by
    intro hsuffix
    have hjoined := hsuffix.joined
    rw [words_cleanedShop] at hjoined
    exact h hjoined
  rw [toList_normalizeShop, words_struckShop hcleaned, wordsLeft_eq, words_cleanedShop]

/-- Words that make a suffix are spelled in two ways with two canonical names. -/
theorem exists_normalizeShop_ne (h : HasTwoWordSuffix (joined (shopWords rawShopName))) :
    ∃ other, shopWords other = shopWords rawShopName ∧
      normalizeShop other ≠ normalizeShop rawShopName := by
  have hwords : ∀ w ∈ shopWords rawShopName, IsWord isShopChar w := isWord_of_mem_shopWords
  have hspelled : ∀ c, isRegexSpace c = true →
      cleanedShop (String.ofList ([c].intercalate (shopWords rawShopName))) =
        [c].intercalate (shopWords rawShopName) :=
    fun c hc => cleanedShop_ofList (isShopText_intercalate hc hwords)
  have hsame : ∀ c, isRegexSpace c = true →
      shopWords (String.ofList ([c].intercalate (shopWords rawShopName))) =
        shopWords rawShopName := by
    intro c hc
    rw [← words_cleanedShop, hspelled c hc]
    exact words_intercalate (isShopChar_of_isRegexSpace hc) hwords
  by_contra hnone
  push Not at hnone
  have heq := (hnone _ (hsame ' ' (by decide))).trans (hnone _ (hsame '\n' (by decide))).symm
  have hlist := congrArg String.toList heq
  rw [toList_normalizeShop, toList_normalizeShop, hspelled ' ' (by decide),
    hspelled '\n' (by decide), words_struckShop (not_hasTwoWordSuffix_lines hwords)] at hlist
  have hleft : words isShopChar (struckShop (joined (shopWords rawShopName))) =
      wordsLeft (['\n'].intercalate (shopWords rawShopName)) :=
    intercalate_injOn (by decide) (fun _ => isWord_of_mem) (fun _ => isWord_of_mem) hlist
  have hsplit := wordsLeft_congr ((words_joined hwords).trans
    (words_intercalate (c := '\n') (by decide) hwords).symm)
  -- the blanks cost letters that the line feeds do not
  have hlt := lettersLeft_lt h
  rw [hleft, lettersLeft_eq, hsplit] at hlt
  exact lt_irrefl _ hlt

end

/-! ## The canonical name of a canonical name -/

/-- No suffix of one word is in a word that is left. -/
theorem wordsLeft_idem (t : List Char) : (wordsLeft t).flatMap wordsLeft = wordsLeft t := by
  have hword : ∀ w ∈ wordsLeft t, wordsLeft w = [w] := by
    intro w hw
    rcases List.append_of_mem hw with ⟨us, vs, hsplit⟩
    rcases exists_of_words_eq_append hsplit with ⟨x, y, heq, -, -, -⟩
    unfold wordsLeft
    rw [strikeAll_eq_self, words_of_isWord (isWord_of_mem hw)]
    intro s hs hinside
    apply not_infix_strikeAll plain_oneWordSuffixes t s hs
    rw [heq]
    exact hinside.trans ⟨x, y, rfl⟩
  calc (wordsLeft t).flatMap wordsLeft = (wordsLeft t).flatMap fun w => [w] :=
        List.flatMap_congr hword
    _ = wordsLeft t := by simp

/-- The canonical name of a text whose words are left is its own, unless they make a suffix. -/
theorem normalizeShop_joined_iff (t : List Char) :
    (normalizeShop (String.ofList (joined (wordsLeft t)))).toList = joined (wordsLeft t) ↔
      ¬ HasTwoWordSuffix (joined (wordsLeft t)) := by
  have hwords : ∀ w ∈ wordsLeft t, IsWord isShopChar w := fun _ => isWord_of_mem
  have hself : wordsLeft (joined (wordsLeft t)) = wordsLeft t := by
    rw [wordsLeft_eq, words_joined hwords, wordsLeft_idem]
  have htext : IsShopText (joined (wordsLeft t)) := isShopText_intercalate (by decide) hwords
  rw [toList_normalizeShop, cleanedShop_ofList htext]
  constructor
  · intro heq hsuffix
    have hlt := lettersLeft_lt hsuffix
    rw [intercalate_injOn (by decide) (fun _ => isWord_of_mem) hwords heq, lettersLeft_eq,
      hself] at hlt
    exact lt_irrefl _ hlt
  · intro hsuffix
    rw [words_struckShop hsuffix, hself]

/-! ## Suffixes that come together -/

/-- What is white space once it is struck is white space and suffixes. -/
theorem filler_of_struck {u m : List Char} (h : Struck ' ' oneWordSuffixes u m)
    (hm : ∀ c ∈ m, isShopChar c = false) : Filler u := by
  induction h with
  | nil => exact .nil
  | copy c _ ih =>
      exact .separator (hm c List.mem_cons_self) (ih fun d hd => hm d (List.mem_cons_of_mem c hd))
  | occurrence hs _ ih => exact .suffix hs (ih fun d hd => hm d (List.mem_cons_of_mem _ hd))

theorem Struck.ne_nil {u m : List Char} (h : Struck ' ' oneWordSuffixes u m) (hne : m ≠ []) :
    u ≠ [] := by
  induction h with
  | nil => exact absurd rfl hne
  | copy c _ _ => exact List.cons_ne_nil _ _
  | occurrence hs _ _ =>
      exact List.append_ne_nil_of_left_ne_nil (plain_oneWordSuffixes _ hs).ne_nil _

/-- White space and suffixes are white space once they are struck. -/
theorem Filler.strikeAll_append {m : List Char} (h : Filler m) (y : List Char) :
    ∃ m', (m ≠ [] → m' ≠ []) ∧ (∀ c ∈ m', isShopChar c = false) ∧
      strikeAll ' ' oneWordSuffixes (m ++ y) = m' ++ strikeAll ' ' oneWordSuffixes y := by
  induction h with
  | nil => exact ⟨[], fun h => absurd rfl h, by simp, rfl⟩
  | @separator c hc m _ ih =>
      rcases ih with ⟨m', -, hm', heq⟩
      refine ⟨c :: m', fun _ => List.cons_ne_nil _ _, List.forall_mem_cons.2 ⟨hc, hm'⟩, ?_⟩
      have hcut := strikeAll_append_cons (b := ' ')
        (fun s hs => (plain_oneWordSuffixes s hs).ne_nil) (c := c)
        (fun s hs hmem => by
          rw [(isWord_oneWordSuffixes s hs).2 c hmem] at hc
          exact Bool.noConfusion hc) [] (m ++ y)
      rw [List.nil_append] at hcut
      rw [List.cons_append, hcut, heq]
      rfl
  | @suffix s hs m _ ih =>
      rcases ih with ⟨m', -, hm', heq⟩
      have hborder : ∀ s ∈ oneWordSuffixes, (∀ u ∈ oneWordSuffixes, ClosedEnd u s) ∧
          strikeAll ' ' oneWordSuffixes s = [' '] := by decide
      refine ⟨' ' :: m', fun _ => List.cons_ne_nil _ _,
        List.forall_mem_cons.2 ⟨by decide, hm'⟩, ?_⟩
      rw [List.append_assoc, strikeAll_append_of_closedEnd plain_oneWordSuffixes (hborder s hs).1,
        (hborder s hs).2, heq]
      rfl

/-- A suffix of two words that striking brings together was split. -/
theorem splitsSuffix_of_joined {t : List Char} (h : HasTwoWordSuffix (joined (wordsLeft t))) :
    SplitsSuffix t := by
  obtain ⟨s, hs, hinside⟩ := h
  obtain ⟨hfirst, hsecond⟩ := isWord_twoWordSuffixes s hs
  have hplain : ∀ s ∈ twoWordSuffixes, ' ' ∉ s.1 ∧ ' ' ∉ s.2 ∧
      (s.2 ∈ oneWordSuffixes ∨ s.2 = "sons".toList) := by decide
  obtain ⟨hblank₁, hblank₂, hkind⟩ := hplain s hs
  rcases words_of_infix hfirst hsecond (List.cons_ne_nil ' ' []) blank_not_shopChar
    (by simpa [spaced] using hinside) with ⟨us, x, y, ts, hwords⟩
  rw [words_joined (isWord_of_mem_wordsLeft t)] at hwords
  rcases infix_of_words hwords with ⟨m, hne, hm, hstruck⟩
  have hpart : s.1 ++ (m ++ s.2) <:+: strikeAll ' ' oneWordSuffixes t :=
    List.IsInfix.trans ⟨x, y, by simp⟩ hstruck
  rcases hkind with hkind | hsons
  · -- the second word is a suffix of its own, and is struck
    have hlast : s.2 <:+: s.1 ++ (m ++ s.2) := ⟨s.1 ++ m, [], by simp⟩
    exact absurd (hlast.trans hpart) (not_infix_strikeAll plain_oneWordSuffixes t s.2 hkind)
  · rcases hpart with ⟨front, back, heq⟩
    have hfrom := struck_strikeAll plain_oneWordSuffixes t
    rw [← heq, List.append_assoc, List.append_assoc, List.append_assoc] at hfrom
    rcases hfrom.of_append with ⟨t₀, t₁, rfl, -, hfrom⟩
    rcases hfrom.of_append with ⟨u₁, t₂, rfl, hu₁, hfrom⟩
    rcases hfrom.of_append with ⟨u, t₃, rfl, hu, hfrom⟩
    rcases hfrom.of_append with ⟨u₂, t₄, rfl, hu₂, -⟩
    obtain rfl := hu₁.eq_of_blank_not_mem hblank₁
    obtain rfl := hu₂.eq_of_blank_not_mem hblank₂
    exact ⟨s, hs, Or.inr ⟨hsons, u, Struck.ne_nil hu hne, filler_of_struck hu hm,
      t₀, t₄, by simp⟩⟩

/-- A suffix around a filler is brought together. -/
theorem joined_of_filler {s : List Char × List Char} (hs : s ∈ twoWordSuffixes)
    (hsons : s.2 = "sons".toList) {m : List Char} (hne : m ≠ []) (hm : Filler m)
    (front back : List Char) :
    HasTwoWordSuffix (joined (wordsLeft (front ++ (s.1 ++ (m ++ (s.2 ++ back)))))) := by
  have hclosed : ∀ s ∈ twoWordSuffixes, s.2 = "sons".toList →
      (∀ u ∈ oneWordSuffixes, (s.1.head?.all fun c => decide (c ∉ u)) = true) ∧
      (∀ u ∈ oneWordSuffixes, ClosedEnd u s.1) ∧ strikeAll ' ' oneWordSuffixes s.1 = s.1 ∧
      (∀ u ∈ oneWordSuffixes, ClosedEnd u s.2) ∧ strikeAll ' ' oneWordSuffixes s.2 = s.2 := by
    decide
  obtain ⟨hhead, hend₁, hself₁, hend₂, hself₂⟩ := hclosed s hs hsons
  obtain ⟨hfirst, hsecond⟩ := isWord_twoWordSuffixes s hs
  have hfront : ∀ u ∈ oneWordSuffixes, ∀ y, ClosedFront u (s.1 ++ y) := by
    intro u hu
    apply closedFront_append hfirst.1
    intro c hc
    exact of_decide_eq_true ((Option.all_eq_true _ _).1 (hhead u hu) c hc)
  rcases hm.strikeAll_append (s.2 ++ back) with ⟨m', hne', hm', hfiller⟩
  have hstruck : strikeAll ' ' oneWordSuffixes (front ++ (s.1 ++ (m ++ (s.2 ++ back)))) =
      strikeAll ' ' oneWordSuffixes front ++ (s.1 ++ m' ++ s.2) ++
        strikeAll ' ' oneWordSuffixes back := by
    rw [strikeAll_append_of_closedFront plain_oneWordSuffixes front fun u hu => hfront u hu _,
      strikeAll_append_of_closedEnd plain_oneWordSuffixes hend₁, hself₁, hfiller,
      strikeAll_append_of_closedEnd plain_oneWordSuffixes hend₂, hself₂]
    simp
  rcases words_of_infix hfirst hsecond (hne' hne) hm' ⟨_, _, hstruck.symm⟩ with
    ⟨us, x, y, ts, hwords⟩
  have hleft : wordsLeft (front ++ (s.1 ++ (m ++ (s.2 ++ back)))) =
      us ++ (x ++ s.1) :: (s.2 ++ y) :: ts := hwords
  rw [hleft]
  exact ⟨s, hs, infix_intercalate x s.1 s.2 y⟩

/-- Striking the suffixes of one word brings a suffix of two words together just where `sons`
is behind `&` or `and`, and white space and suffixes are between them. -/
theorem hasTwoWordSuffix_joined_iff {t : List Char} (h : ¬ HasTwoWordSuffix t) :
    HasTwoWordSuffix (joined (wordsLeft t)) ↔ SplitsSuffix t := by
  refine ⟨splitsSuffix_of_joined, ?_⟩
  rintro ⟨s, hs, hinside | ⟨hsons, m, hne, hm, front, back, heq⟩⟩
  · exact absurd ⟨s, hs, hinside⟩ h
  · have hjoined := joined_of_filler hs hsons hne hm front back
    rwa [show front ++ (s.1 ++ (m ++ (s.2 ++ back))) = t by rw [← heq]; simp] at hjoined

/-! ## Formatting -/

/-- The names with the words of a name have its canonical name, and the canonical name is its
own, just where the words are not split around a suffix. -/
theorem normalizeShop_formatting_iff (a : String) :
    ((∀ b, shopWords b = shopWords a → normalizeShop b = normalizeShop a) ∧
        normalizeShop (normalizeShop a) = normalizeShop a) ↔
      ¬ SplitsSuffix (joined (shopWords a)) := by
  have hjoined : wordsLeft (joined (shopWords a)) = (shopWords a).flatMap wordsLeft := by
    rw [wordsLeft_eq, words_joined isWord_of_mem_shopWords]
  have hcanonical : ¬ HasTwoWordSuffix (joined (shopWords a)) →
      (normalizeShop (normalizeShop a) = normalizeShop a ↔
        ¬ SplitsSuffix (joined (shopWords a))) := by
    intro hsuffix
    have hname : normalizeShop a =
        String.ofList (joined (wordsLeft (joined (shopWords a)))) := by
      rw [← String.ofList_toList (s := normalizeShop a), toList_normalizeShop_eq hsuffix, hjoined]
    rw [← hasTwoWordSuffix_joined_iff hsuffix, ← normalizeShop_joined_iff, hname,
      ← String.toList_inj, String.toList_ofList]
  constructor
  · rintro ⟨hsame, hidem⟩
    by_cases hsuffix : HasTwoWordSuffix (joined (shopWords a))
    · rcases exists_normalizeShop_ne hsuffix with ⟨b, hwords, hne⟩
      exact absurd (hsame b hwords) hne
    · exact (hcanonical hsuffix).1 hidem
  · intro hsplit
    have hsuffix : ¬ HasTwoWordSuffix (joined (shopWords a)) := by
      rintro ⟨s, hs, hinside⟩
      exact hsplit ⟨s, hs, Or.inl hinside⟩
    refine ⟨?_, (hcanonical hsuffix).2 hsplit⟩
    intro b hwords
    rw [← String.toList_inj, toList_normalizeShop_eq hsuffix,
      toList_normalizeShop_eq (by rwa [hwords]), hwords]

/-- Points between the words of a suffix leave one of them in the canonical name, and a
suffix between the words of another gives a canonical name that has another one. -/
theorem normalizeShop_pvt_points :
    (shopWords "SpeedFix Pvt. Ltd." = shopWords "SpeedFix Pvt Ltd" ∧
      normalizeShop "SpeedFix Pvt Ltd" = "speedfix" ∧
      normalizeShop "SpeedFix Pvt. Ltd." = "speedfix pvt") ∧
    normalizeShop "Sharma & Ltd Sons" = "sharma & sons" ∧
      normalizeShop "sharma & sons" = "sharma" := by
  decide

end ClaimGuard
