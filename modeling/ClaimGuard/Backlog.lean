import Mathlib.Data.List.TakeWhile
import ClaimGuard.Resolution

/-!
# One pass over the backlog

`resolveBacklog` resolves the claims of its list one transaction after the other. The
exception of a claim whose phone cannot be parsed leaves the loop, so the claims behind it
are not resolved in this pass.
-/

namespace ClaimGuard

open ClaimService EntityService

/-- The loop of `resolveBacklog`: a transaction for each claim, until one throws. -/
def resolveEach (env : Env) : Db → List (UUID × LinkDraws) → Db × Except Failure Unit
  | db, [] => (db, .ok ())
  | db, (claimId, draws) :: work =>
      match resolveOne env draws db claimId with
      | .ok db => resolveEach env db work
      | .error failure => (db, .error failure)

/-- `resolveBacklog` on the list it read, each claim with what its transaction draws: the
database after it, and the number of claims or the exception. -/
def resolveBacklog (env : Env) (db : Db) (work : List (UUID × LinkDraws)) :
    Db × Except Failure ℕ :=
  ((resolveEach env db work).1, (resolveEach env db work).2.map fun _ => work.length)

/-- The phone normalizer accepts the phone of the claim. -/
def Accepts (env : Env) (db : Db) (claimId : UUID) : Bool :=
  ((db.findById claimId).bind fun claim => env.normalizePhone claim.claimantPhone).isSome

/-- What the schema promises of a database: unique keys, and text columns hold texts. -/
structure Db.Stored (db : Db) : Prop where
  claimIds : Table.UniqueKeys Claim.id db.claims
  entityKeys : (db.refs.map Prod.snd).Nodup
  texts : ∀ claim ∈ db.claims, ∀ text ∈ Db.claimTexts claim, Db.isText text = true

/-- The ids drawn for the claims of a list are new and different. -/
structure FreshWork (db : Db) (work : List (UUID × LinkDraws)) : Prop where
  unused : ∀ w ∈ work, ∀ entityType, ∀ r ∈ db.refs, r.1 ≠ w.2.entityId entityType
  distinct : ∀ w ∈ work, Function.Injective w.2.entityId
  apart : work.Pairwise fun w w' => ∀ entityType entityType',
    w.2.entityId entityType ≠ w'.2.entityId entityType'

/-- What a pass is for: each claim of the list whose phone is accepted has all its links, and
the others have none and had no effect. -/
structure ResolvesAll (env : Env) (db : Db) (work : List (UUID × LinkDraws)) (db' : Db) : Prop where
  linked : ∀ claim ∈ db.claims, claim.id ∈ work.map Prod.fst →
    (env.normalizePhone claim.claimantPhone).isSome →
    ∀ entityType value, canonicalValue env claim entityType = some value →
      db'.HasLink claim.id entityType value
  unlinked : ∀ claim ∈ db.claims, claim.id ∈ work.map Prod.fst →
    env.normalizePhone claim.claimantPhone = none → ¬ db'.IsLinked claim.id
  noEffect : db' = (resolveBacklog env db (work.filter fun w => Accepts env db w.1)).1

/-! ## Texts -/

theorem isText_of_forall {p : Char → Bool} (hp : p (Char.ofNat 0) = false) {s : String}
    (hs : ∀ c ∈ s.toList, p c = true) : Db.isText s = true := by
  unfold Db.isText
  rw [Bool.not_eq_true', Bool.eq_false_iff]
  intro hmem
  have hnul := hs _ (List.contains_iff_mem.1 hmem)
  rw [hp] at hnul
  cases hnul

/-- What a field normalizes to can be stored, given that this holds of phones. -/
theorem isText_of_canonicalValue {env : Env}
    (hphones : ∀ rawPhone phone, env.normalizePhone rawPhone = some phone → Db.isText phone = true)
    {claim : Claim} {entityType : EntityType} {value : String}
    (h : canonicalValue env claim entityType = some value) : Db.isText value = true := by
  cases entityType with
  | phone => exact hphones _ _ h
  | address =>
      rcases Option.some.inj h with rfl
      exact isText_of_forall (by decide) (of_mem_normalizeAddress _)
  | shop =>
      unfold canonicalValue at h
      rcases Option.bind_eq_some_iff.1 h with ⟨name, -, hname⟩
      split at hname
      · cases hname
      · rcases Option.some.inj hname with rfl
        exact isText_of_forall (by decide) (of_mem_normalizeShop _)

/-! ## One transaction -/

section

variable {env : Env} {db db' : Db} {claimId : UUID} {draws : LinkDraws} {claim : Claim}

theorem accepts_iff (hfind : db.findById claimId = some claim) :
    Accepts env db claimId = true ↔ (env.normalizePhone claim.claimantPhone).isSome := by
  unfold Accepts
  rw [hfind, Option.bind_some]

theorem resolveOne_of_found (hfind : db.findById claimId = some claim) :
    resolveOne env draws db claimId = resolveAndLink env draws db claim := by
  unfold resolveOne
  rw [hfind]

/-- A phone that is not accepted ends the transaction. -/
theorem exists_error_of_not_accepts (draws : LinkDraws) (hfound : (db.findById claimId).isSome)
    (hnot : Accepts env db claimId = false) :
    ∃ failure, resolveOne env draws db claimId = .error failure := by
  rcases Option.isSome_iff_exists.1 hfound with ⟨claim, hfind⟩
  have hphone : env.normalizePhone claim.claimantPhone = none := by
    unfold Accepts at hnot
    rwa [hfind, Option.bind_some, Option.isSome_eq_false_iff, Option.isNone_iff_eq_none] at hnot
  rw [resolveOne_of_found hfind]
  unfold resolveAndLink normalizePhone
  rw [hphone]
  exact ⟨_, rfl⟩

/-- A transaction leaves the claims as they are. -/
theorem claims_of_resolveOne (h : resolveOne env draws db claimId = .ok db') :
    db'.claims = db.claims := by
  unfold resolveOne at h
  split at h
  · rw [Results.pure_eq_ok.1 h]
  · exact (sameBeyondEntities_resolveAndLink h).1

theorem accepts_congr (hclaims : db'.claims = db.claims) : Accepts env db' = Accepts env db := by
  unfold Accepts Db.findById
  rw [hclaims]

/-- A claim whose phone is accepted is resolved. -/
theorem exists_resolveOne
    (hphones : ∀ rawPhone phone, env.normalizePhone rawPhone = some phone → Db.isText phone = true)
    (hdb : db.Stored) (hunused : ∀ entityType, ∀ r ∈ db.refs, r.1 ≠ draws.entityId entityType)
    (hdistinct : Function.Injective draws.entityId) (hfind : db.findById claimId = some claim)
    (haccepts : Accepts env db claimId = true) :
    ∃ db', resolveOne env draws db claimId = .ok db' := by
  rcases Table.find_eq_some hfind with ⟨hmem, -⟩
  rcases Option.isSome_iff_exists.1 ((accepts_iff hfind).1 haccepts) with ⟨phone, hphone⟩
  rw [resolveOne_of_found hfind]
  apply exists_resolveAndLink hdb.entityKeys hmem hphone
  intro f hf
  have hvalue := (mem_linkedFields hphone f.1 f.2.2).1 ⟨f.2.1, hf⟩
  exact ⟨hdb.texts claim hmem _ (rawValue_mem_claimTexts hf), Or.inr
    ⟨isText_of_canonicalValue hphones hvalue, hunused f.1, fun _ hne => hdistinct.ne hne⟩⟩

end

/-! ## The loop -/

/-- The loop gets as far as the first claim whose phone is not accepted. -/
theorem resolveEach_takeWhile (env : Env) {db : Db} (work : List (UUID × LinkDraws))
    (hfound : ∀ w ∈ work, (db.findById w.1).isSome) :
    (resolveEach env db work).1 =
      (resolveEach env db (work.takeWhile fun w => Accepts env db w.1)).1 := by
  induction work generalizing db with
  | nil => rfl
  | cons w work ih =>
      obtain ⟨claimId, draws⟩ := w
      by_cases haccepts : Accepts env db claimId = true
      · rw [List.takeWhile_cons, if_pos haccepts]
        unfold resolveEach
        cases hone : resolveOne env draws db claimId with
        | error failure => rfl
        | ok db₁ =>
            have hclaims := claims_of_resolveOne hone
            have hfound₁ : ∀ w ∈ work, (db₁.findById w.1).isSome := by
              unfold Db.findById
              rw [hclaims]
              exact fun w hw => hfound w (List.mem_cons_of_mem _ hw)
            dsimp only
            rw [ih hfound₁, accepts_congr hclaims]
      · rw [List.takeWhile_cons, if_neg haccepts]
        rcases exists_error_of_not_accepts draws (hfound _ List.mem_cons_self)
          (Bool.not_eq_true _ ▸ haccepts) with ⟨failure, hone⟩
        unfold resolveEach
        rw [hone]

/-- What the loop did for the claims of a list. -/
structure PassDone (env : Env) (ids : List UUID) (db db' : Db) : Prop where
  keep : ∀ id entityType value, db.HasLink id entityType value → db'.HasLink id entityType value
  only : ∀ id, id ∉ ids → db'.IsLinked id → db.IsLinked id
  linked : ∀ claim ∈ db.claims, claim.id ∈ ids → ∀ entityType value,
    canonicalValue env claim entityType = some value → db'.HasLink claim.id entityType value

/-- The loop resolves all the claims of a list of accepted ones. -/
theorem passDone_resolveEach {env : Env}
    (hphones : ∀ rawPhone phone, env.normalizePhone rawPhone = some phone → Db.isText phone = true)
    (work : List (UUID × LinkDraws)) {db : Db} (hdb : db.Stored) (hwork : FreshWork db work)
    (haccepts : ∀ w ∈ work, Accepts env db w.1 = true) :
    PassDone env (work.map Prod.fst) db (resolveEach env db work).1 := by
  -- over the list; a transaction leaves the ids drawn for the others new
  induction work generalizing db with
  | nil =>
      exact ⟨fun _ _ _ h => h, fun _ _ h => h, fun _ _ hid => absurd hid List.not_mem_nil⟩
  | cons w work ih =>
      obtain ⟨claimId, draws⟩ := w
      have haccept := haccepts _ List.mem_cons_self
      have hfound : ∃ claim, db.findById claimId = some claim := by
        cases hfind : db.findById claimId with
        | none =>
            unfold Accepts at haccept
            rw [hfind] at haccept
            cases haccept
        | some claim => exact ⟨claim, rfl⟩
      rcases hfound with ⟨claim, hfind⟩
      rcases Table.find_eq_some hfind with ⟨hmem, hid⟩
      rcases exists_resolveOne hphones hdb (hwork.unused _ List.mem_cons_self)
        (hwork.distinct _ List.mem_cons_self) hfind haccept with ⟨db₁, hone⟩
      have hresolve := hone
      rw [resolveOne_of_found hfind] at hresolve
      obtain ⟨hextends, hall⟩ := extends_of_resolveAndLink hdb.entityKeys hresolve
      have hclaims := hextends.claims
      have hdb₁ : db₁.Stored := ⟨hclaims ▸ hdb.claimIds, hextends.entityKeys, hclaims ▸ hdb.texts⟩
      rcases List.pairwise_cons.1 hwork.apart with ⟨hhead, happart⟩
      have hwork₁ : FreshWork db₁ work := by
        refine ⟨fun w hw entityType r hr => ?_,
          fun w hw => hwork.distinct w (List.mem_cons_of_mem _ hw), happart⟩
        rcases hextends.drawn r hr with hold | ⟨entityType', hdrawn⟩
        · exact hwork.unused w (List.mem_cons_of_mem _ hw) entityType r hold
        · rw [hdrawn]
          exact hhead w hw entityType' entityType
      have haccepts₁ : ∀ w ∈ work, Accepts env db₁ w.1 = true := by
        rw [accepts_congr hclaims]
        exact fun w hw => haccepts w (List.mem_cons_of_mem _ hw)
      have hrest := ih hdb₁ hwork₁ haccepts₁
      unfold resolveEach
      rw [hone]
      dsimp only
      refine ⟨fun id T v h => hrest.keep id T v (hextends.keep id T v h), ?_, ?_⟩
      · intro id hnot hlinked
        rw [List.map_cons, List.mem_cons, not_or] at hnot
        exact hextends.only id (hid ▸ hnot.1) (hrest.only id hnot.2 hlinked)
      · intro c hc hlisted entityType value hvalue
        by_cases hrestId : c.id ∈ work.map Prod.fst
        · exact hrest.linked c (hclaims ▸ hc) hrestId entityType value hvalue
        · have hcid : c.id = claim.id :=
            ((List.mem_cons.1 hlisted).resolve_right hrestId).trans hid.symm
          obtain rfl : c = claim := List.inj_on_of_nodup_map hdb.claimIds hc hmem hcid
          exact hrest.keep _ _ _ (hall entityType value hvalue)

/-! ## The order of the list -/

section

variable {α : Type} {p : α → Bool}

/-- All that pass are at the front. -/
theorem pairwise_iff_mem_takeWhile {l : List α} (hnodup : l.Nodup) :
    l.Pairwise (fun earlier later => p later = true → p earlier = true) ↔
      ∀ x ∈ l, p x = true → x ∈ l.takeWhile p := by
  induction l with
  | nil => simp
  | cons a l ih =>
      rcases List.nodup_cons.1 hnodup with ⟨ha, hl⟩
      rw [List.pairwise_cons, ih hl]
      by_cases hpa : p a = true
      · rw [List.takeWhile_cons_of_pos hpa]
        constructor
        · rintro ⟨-, hrest⟩ x hx hpx
          rcases List.mem_cons.1 hx with rfl | hx
          · exact List.mem_cons_self
          · exact List.mem_cons_of_mem a (hrest x hx hpx)
        · intro hall
          refine ⟨fun _ _ _ => hpa, fun x hx hpx => ?_⟩
          rcases List.mem_cons.1 (hall x (List.mem_cons_of_mem a hx) hpx) with rfl | hmem
          · exact absurd hx ha
          · exact hmem
      · rw [List.takeWhile_cons_of_neg hpa]
        constructor
        · rintro ⟨hfirst, -⟩ x hx hpx
          rcases List.mem_cons.1 hx with rfl | hx
          · exact absurd hpx hpa
          · exact absurd (hfirst x hx hpx) hpa
        · intro hall
          have hnone : ∀ x ∈ l, ¬ p x = true := fun x hx hpx =>
            absurd (hall x (List.mem_cons_of_mem a hx) hpx) List.not_mem_nil
          exact ⟨fun x hx hpx => absurd hpx (hnone x hx), fun x hx hpx => absurd hpx (hnone x hx)⟩

theorem filter_eq_takeWhile {l : List α}
    (h : l.Pairwise fun earlier later => p later = true → p earlier = true) :
    l.filter p = l.takeWhile p := by
  induction l with
  | nil => rfl
  | cons a l ih =>
      rcases List.pairwise_cons.1 h with ⟨hfirst, hrest⟩
      by_cases hpa : p a = true
      · rw [List.filter_cons_of_pos hpa, List.takeWhile_cons_of_pos hpa, ih hrest]
      · rw [List.takeWhile_cons_of_neg hpa]
        apply List.filter_eq_nil_iff.2
        intro x hx
        rcases List.mem_cons.1 hx with rfl | hx
        · exact hpa
        · exact fun hpx => hpa (hfirst x hx hpx)

end

/-- A claim that the query lists is there and has no link. -/
theorem exists_of_listed {db : Db} (hids : Table.UniqueKeys Claim.id db.claims) {id : UUID}
    (hid : id ∈ db.findIdsWithoutEntityLinks) :
    ∃ claim, db.findById id = some claim ∧ ¬ db.IsLinked id := by
  rcases List.mem_map.1 hid with ⟨claim, hclaim, rfl⟩
  rcases List.mem_filter.1 hclaim with ⟨hmem, hnot⟩
  refine ⟨claim, Table.find_of_mem hids hmem, ?_⟩
  rintro ⟨l, hl, hlid⟩
  rw [Bool.not_eq_true', Bool.eq_false_iff] at hnot
  exact hnot (List.any_eq_true.2 ⟨l, hl, decide_eq_true hlid⟩)

/-- A pass over claims that are there gets as far as the first one that is not accepted. -/
theorem passDone_resolveBacklog {env : Env}
    (hphones : ∀ rawPhone phone, env.normalizePhone rawPhone = some phone → Db.isText phone = true)
    {db : Db} (hdb : db.Stored) {work : List (UUID × LinkDraws)} (hwork : FreshWork db work)
    (hfound : ∀ w ∈ work, (db.findById w.1).isSome) :
    PassDone env ((work.map Prod.fst).takeWhile (Accepts env db)) db
      (resolveBacklog env db work).1 := by
  have hmap : (work.map Prod.fst).takeWhile (Accepts env db) =
      (work.takeWhile fun w => Accepts env db w.1).map Prod.fst := by
    rw [List.takeWhile_map]
    rfl
  have hsub := List.takeWhile_sublist (l := work) fun w => Accepts env db w.1
  have hfresh : FreshWork db (work.takeWhile fun w => Accepts env db w.1) :=
    ⟨fun w hw => hwork.unused w (hsub.subset hw), fun w hw => hwork.distinct w (hsub.subset hw),
      hwork.apart.sublist hsub⟩
  rw [hmap]
  show PassDone env _ db (resolveEach env db work).1
  rw [resolveEach_takeWhile env work hfound]
  apply passDone_resolveEach hphones _ hdb hfresh
  intro w hw
  exact List.mem_takeWhile_imp (p := fun w : UUID × LinkDraws => Accepts env db w.1) hw

/-- A pass over unlinked claims, in whatever order, does what it is for exactly when no claim
whose phone is accepted comes after one whose phone is not. -/
theorem resolvesAll_iff (env : Env)
    (hphones : ∀ rawPhone phone, env.normalizePhone rawPhone = some phone → Db.isText phone = true)
    (db : Db) (hdb : db.Stored) (work : List (UUID × LinkDraws))
    (hids : (work.map Prod.fst).Perm db.findIdsWithoutEntityLinks) (hwork : FreshWork db work) :
    ResolvesAll env db work (resolveBacklog env db work).1 ↔
      (work.map Prod.fst).Pairwise fun earlier later =>
        Accepts env db later = true → Accepts env db earlier = true := by
  have hlisted : ∀ id ∈ work.map Prod.fst, ∃ claim, db.findById id = some claim ∧
      ¬ db.IsLinked id := fun id hid => exists_of_listed hdb.claimIds (hids.mem_iff.1 hid)
  have hfound : ∀ w ∈ work, (db.findById w.1).isSome := by
    intro w hw
    rcases hlisted w.1 (List.mem_map_of_mem hw) with ⟨claim, hfind, -⟩
    exact Option.isSome_iff_exists.2 ⟨claim, hfind⟩
  have hnodup : (work.map Prod.fst).Nodup :=
    hids.nodup_iff.2 (((List.filter_sublist).map Claim.id).nodup hdb.claimIds)
  have hdone := passDone_resolveBacklog hphones hdb hwork hfound
  rw [pairwise_iff_mem_takeWhile hnodup]
  constructor
  · intro hall id hid haccepts
    rcases hlisted id hid with ⟨claim, hfind, hunlinked⟩
    rcases Table.find_eq_some hfind with ⟨hmem, rfl⟩
    by_contra hnot
    rcases hall.linked claim hmem hid ((accepts_iff hfind).1 haccepts) .address _
      (canonicalValue_address env claim) with ⟨eid, -, l, hl, hlid⟩
    exact hunlinked (hdone.only claim.id hnot ⟨l, hl, by rw [hlid]⟩)
  · intro hall
    have hpair := (pairwise_iff_mem_takeWhile hnodup).2 hall
    refine ⟨fun claim hmem hid hphone => ?_, fun claim hmem hid hphone => ?_, ?_⟩
    · have hfind := Table.find_of_mem hdb.claimIds hmem
      exact hdone.linked claim hmem (hall claim.id hid ((accepts_iff hfind).2 hphone))
    · intro hlinked
      have hfind := Table.find_of_mem hdb.claimIds hmem
      have hnot : claim.id ∉ (work.map Prod.fst).takeWhile (Accepts env db) := by
        intro hin
        have haccepts : (env.normalizePhone claim.claimantPhone).isSome :=
          (accepts_iff hfind).1 (List.mem_takeWhile_imp hin)
        rw [hphone] at haccepts
        cases haccepts
      rcases hlisted claim.id hid with ⟨-, -, hunlinked⟩
      exact hunlinked (hdone.only claim.id hnot hlinked)
    · show (resolveEach env db work).1 = _
      rw [resolveEach_takeWhile env work hfound, filter_eq_takeWhile (List.pairwise_map.1 hpair)]
      rfl

namespace Sample

/-- The outside pieces, with a phone library that knows one phone. -/
def strictEnv : Env :=
  { env with normalizePhone := fun rawPhone => if rawPhone = "+919876500011" then some rawPhone
      else none }

/-- A bulk-loaded claim whose phone is accepted. -/
def parsable : Claim := claimOf ⟨1⟩ request

/-- A bulk-loaded claim whose phone cannot be parsed. -/
def unparsable : Claim := claimOf ⟨9⟩ { request with claimantPhone := "ask the driver" }

/-- The two claims without links. -/
def bulkLoaded : Db := { Db.empty with claims := [unparsable, parsable] }

/-- What the transaction of the other claim draws. -/
def otherDraws : LinkDraws :=
  ⟨fun | .phone => ⟨12⟩ | .address => ⟨13⟩ | .shop => ⟨14⟩, fun _ => now⟩

/-- The list with the unparsable claim at its head. -/
def unparsableFirst : List (UUID × LinkDraws) := [(⟨9⟩, otherDraws), (⟨1⟩, draws.link)]

/-- The list the other way round. -/
def unparsableLast : List (UUID × LinkDraws) := [(⟨1⟩, draws.link), (⟨9⟩, otherDraws)]

theorem isText_strictEnv : ∀ rawPhone phone, strictEnv.normalizePhone rawPhone = some phone →
    Db.isText phone = true := by
  intro rawPhone phone h
  change (if rawPhone = "+919876500011" then some rawPhone else none) = some phone at h
  split at h
  · rename_i heq
    rw [← Option.some.inj h, heq]
    decide
  · cases h

theorem stored_bulkLoaded : bulkLoaded.Stored where
  claimIds := by
    unfold Table.UniqueKeys
    decide
  entityKeys := List.nodup_nil
  texts := by decide

theorem freshWork_unparsableLast : FreshWork bulkLoaded unparsableLast where
  unused _ _ _ _ hr := absurd hr List.not_mem_nil
  distinct := by
    have hinjective : ∀ w ∈ unparsableLast, ∀ a b, w.2.entityId a = w.2.entityId b → a = b := by
      intro w hw a b
      rcases List.mem_cons.1 hw with rfl | hw
      · cases a <;> cases b <;> decide
      · rw [List.mem_singleton.1 hw]
        cases a <;> cases b <;> decide
    exact fun w hw a b h => hinjective w hw a b h
  apart := by
    refine List.pairwise_cons.2 ⟨fun w hw a b => ?_, List.pairwise_singleton _ _⟩
    rw [List.mem_singleton.1 hw]
    cases a <;> cases b <;> decide

end Sample

/-- With the unparsable claim last, the other one is resolved. -/
theorem resolvesAll_unparsableLast : ResolvesAll Sample.strictEnv Sample.bulkLoaded
    Sample.unparsableLast
    (resolveBacklog Sample.strictEnv Sample.bulkLoaded Sample.unparsableLast).1 :=
  (resolvesAll_iff Sample.strictEnv Sample.isText_strictEnv Sample.bulkLoaded
    Sample.stored_bulkLoaded Sample.unparsableLast (by decide)
    Sample.freshWork_unparsableLast).2 (by decide)

/-- With the unparsable claim first, the other one is not resolved. -/
theorem unparsableFirst_not_resolved : ¬ ResolvesAll Sample.strictEnv Sample.bulkLoaded
    Sample.unparsableFirst
    (resolveBacklog Sample.strictEnv Sample.bulkLoaded Sample.unparsableFirst).1 := by
  intro hall
  have hnone : (resolveBacklog Sample.strictEnv Sample.bulkLoaded
      Sample.unparsableFirst).1.claimEntities = [] := by decide
  rcases hall.linked Sample.parsable (by decide) (by decide) (by decide) .address _
    (canonicalValue_address _ _) with ⟨id, -, l, hl, -⟩
  rw [hnone] at hl
  exact List.not_mem_nil hl

end ClaimGuard
