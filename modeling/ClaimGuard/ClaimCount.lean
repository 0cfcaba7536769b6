import Mathlib.Algebra.Order.BigOperators.Group.List
import ClaimGuard.Resolution

/-!
# The counter of an entity

`upsert` counts one more claim whenever an entity is referenced again, and a link that is
already there is overwritten. So each link that is saved a second time leaves the counters
one above the links, and nothing takes that back: at the end of a run the counters are
right exactly when no pass resolved a claim that had its links already.
-/

namespace ClaimGuard

open ClaimService EntityService

/-- How many links reference the entity. -/
def Db.linksTo (db : Db) (entityId : UUID) : ℕ :=
  db.claimEntities.countP fun l => decide (l.id.entityId = entityId)

/-- `claim_count` equals the number of links, and no entity is there without a link. -/
structure Db.Counted (db : Db) : Prop where
  count : ∀ e ∈ db.entities, e.claimCount = db.linksTo e.id
  referenced : ∀ e ∈ db.entities, ∃ l ∈ db.claimEntities, l.id.entityId = e.id

/-- The counters of all entities. -/
def Db.total (db : Db) : ℕ := (db.entities.map ResolvedEntity.claimCount).sum

/-- By how much the counters are above the links. -/
def Db.surplus (db : Db) : ℤ := db.total - db.claimEntities.length

/-- The counters are not below the links, and no entity is there without a link. -/
structure Db.Covered (db : Db) : Prop where
  le : ∀ e ∈ db.entities, db.linksTo e.id ≤ e.claimCount
  referenced : ∀ e ∈ db.entities, ∃ l ∈ db.claimEntities, l.id.entityId = e.id

/-- Each link is counted at one entity. -/
theorem Db.LinkTables.sum_linksTo {env : Env} {db : Db} (ht : db.LinkTables env) :
    (db.entities.map fun e => db.linksTo e.id).sum = db.claimEntities.length := by
  have hids : db.entities.map (fun e => db.linksTo e.id) =
      (db.refs.map Prod.fst).map db.linksTo := by
    unfold Db.refs
    rw [List.map_map, List.map_map]
    rfl
  rw [hids]
  apply Table.sum_countP_column ht.entityIds
  intro l hl
  rcases ht.sound l hl with ⟨c, -, r, hr, hlid, -⟩
  rw [hlid]
  exact List.mem_map_of_mem hr

/-- The counters are right when together they count as many claims as there are links. -/
theorem Db.Covered.counted_iff {env : Env} {db : Db} (h : db.Covered) (ht : db.LinkTables env) :
    db.Counted ↔ db.surplus = 0 := by
  have hsum := ht.sum_linksTo
  unfold Db.surplus Db.total
  constructor
  · intro hcounted
    have heq : db.entities.map ResolvedEntity.claimCount =
        db.entities.map fun e => db.linksTo e.id := List.map_congr_left hcounted.count
    rw [heq, hsum, sub_self]
  · intro hzero
    refine ⟨fun e he => ?_, h.referenced⟩
    -- one counter above its links would bring the sum above the number of links
    by_contra hne
    have hlt : db.linksTo e.id < e.claimCount := lt_of_le_of_ne (h.le e he) (Ne.symm hne)
    have hsum' := List.sum_lt_sum (fun e : ResolvedEntity => db.linksTo e.id)
      ResolvedEntity.claimCount h.le ⟨e, he, hlt⟩
    omega

/-! ## One link -/

/-- The claim is linked in a role. -/
def Db.InRole (db : Db) (claimId : UUID) (role : String) : Prop :=
  ∃ l ∈ db.claimEntities, l.id.claimId = claimId ∧ l.id.role = role

/-- What `upsert` does to the rows of the entities: it counts one more at the row whose id
it returns, or makes this row. -/
structure CountedAt (db db' : Db) (id : UUID) : Prop where
  total : db'.total = db.total + 1
  rows : ∀ e' ∈ db'.entities, (e' ∈ db.entities ∧ e'.id ≠ id) ∨
    (e'.id = id ∧ ∃ before, e'.claimCount = before + 1 ∧
      ((∃ e ∈ db.entities, e.id = id ∧ e.claimCount = before) ∨
        ((∀ e ∈ db.entities, e.id ≠ id) ∧ before = 0)))

theorem countedAt_of_upsert {env : Env} {db db' : Db} {id id' : UUID} {entityType : EntityType}
    {value : String} {firstSeenAt : Instant} (ht : db.LinkTables env)
    (h : db.upsert env id entityType value firstSeenAt = .ok (db', id')) :
    CountedAt db db' id' := by
  have hkeys : Table.UniqueKeys
      (fun e : ResolvedEntity => (e.entityType, e.canonicalValue)) db.entities := by
    have hunique := ht.entityKeys
    unfold Db.refs at hunique
    rwa [List.map_map] at hunique
  have hids : (db.entities.map ResolvedEntity.id).Nodup := by
    have hunique := ht.entityIds
    unfold Db.refs at hunique
    rwa [List.map_map] at hunique
  rcases Db.upsert_cases h with ⟨e, hfind, rfl, rfl⟩ | ⟨-, rfl, hnew, rfl⟩
  · rcases Table.find_eq_some hfind with ⟨hmem, hkey⟩
    have hfound : Table.find (fun e : ResolvedEntity => (e.entityType, e.canonicalValue))
        db.entities (e.entityType, e.canonicalValue) = some e := hkey ▸ hfind
    constructor
    · have hsum := Table.sum_save (f := ResolvedEntity.claimCount) hkeys
        (r := { e with claimCount := e.claimCount + 1 }) hfound
      unfold Db.total
      dsimp only at hsum ⊢
      omega
    · intro e' he'
      rcases (Table.mem_save hkeys).1 he' with rfl | ⟨hold, hne⟩
      · exact Or.inr ⟨rfl, e.claimCount, rfl, Or.inl ⟨e, hmem, rfl, rfl⟩⟩
      · refine Or.inl ⟨hold, fun heq => hne ?_⟩
        rw [List.inj_on_of_nodup_map hids hold hmem heq]
  · constructor
    · unfold Db.total
      rw [List.map_append, List.sum_append, List.map_singleton, List.sum_singleton]
    · intro e' he'
      rcases List.mem_append.1 he' with hold | hlast
      · exact Or.inl ⟨hold, hnew e' hold⟩
      · rw [List.mem_singleton.1 hlast]
        exact Or.inr ⟨rfl, 0, rfl, Or.inr ⟨hnew, rfl⟩⟩

/-- The links to an entity after a link is saved. -/
theorem linksTo_save {db db' : Db} {l : ClaimEntityLink}
    (h : db'.claimEntities = Table.save ClaimEntityLink.id db.claimEntities l) (entityId : UUID) :
    db'.linksTo entityId = db.linksTo entityId +
      if (Table.find ClaimEntityLink.id db.claimEntities l.id).isSome then 0
      else if l.id.entityId = entityId then 1 else 0 := by
  have hcount : ∀ ls : List ClaimEntityLink,
      ls.countP (fun l => decide (l.id.entityId = entityId)) =
        (ls.map ClaimEntityLink.id).countP fun lid => decide (lid.entityId = entityId) := by
    intro ls
    rw [List.countP_map]
    rfl
  unfold Db.linksTo
  rw [h]
  cases hfind : Table.find ClaimEntityLink.id db.claimEntities l.id with
  | some x =>
      rw [hcount, Table.map_key_save_of_find_some hfind, ← hcount]
      rfl
  | none =>
      rw [Table.save_of_find_none hfind, List.countP_append, List.countP_singleton]
      simp

/-- A link that is saved after its entity was counted is covered, and so are the others. -/
theorem Db.Covered.save {env : Env} {db db' : Db} {l : ClaimEntityLink} (ht : db.LinkTables env)
    (h : db.Covered) (hcounted : CountedAt db db' l.id.entityId)
    (hlinks : db'.claimEntities = Table.save ClaimEntityLink.id db.claimEntities l) :
    db'.Covered := by
  have hkeys : ∀ lid, (∃ x ∈ db'.claimEntities, x.id = lid) ↔
      lid = l.id ∨ ∃ x ∈ db.claimEntities, x.id = lid := by
    intro lid
    rw [hlinks]
    exact Table.exists_key_save
  constructor
  · intro e' he'
    rw [linksTo_save hlinks]
    rcases hcounted.rows e' he' with ⟨hold, hne⟩ | ⟨hid, before, hcount, hbefore⟩
    · have hle := h.le e' hold
      rw [if_neg (Ne.symm hne)]
      split <;> omega
    · have hle : db.linksTo e'.id ≤ before := by
        rcases hbefore with ⟨e, he, hid', rfl⟩ | ⟨hnew, -⟩
        · rw [hid, ← hid']
          exact h.le e he
        · -- no link goes to an entity that was not there
          have hzero : db.linksTo e'.id = 0 := by
            apply List.countP_eq_zero.2
            intro x hx heq
            rcases ht.sound x hx with ⟨c, -, r, hr, hlid, -⟩
            rcases List.mem_map.1 hr with ⟨e, he, rfl⟩
            rw [hlid, hid] at heq
            exact hnew e he (of_decide_eq_true heq)
          omega
      rw [hcount, if_pos hid.symm]
      split <;> omega
  · intro e' he'
    rcases hcounted.rows e' he' with ⟨hold, -⟩ | ⟨hid, -⟩
    · rcases h.referenced e' hold with ⟨x, hx, hxid⟩
      rcases (hkeys x.id).2 (Or.inr ⟨x, hx, rfl⟩) with ⟨x', hx', heq⟩
      exact ⟨x', hx', by rw [heq, hxid]⟩
    · rcases (hkeys _).2 (Or.inl rfl) with ⟨x', hx', heq⟩
      exact ⟨x', hx', by rw [heq, hid]⟩

/-- A link counts one more. It adds a row unless the claim has that link, which it has not
when nothing is linked in the role. -/
theorem counts_of_link {env : Env} {draws : LinkDraws} {db db' : Db} {claim : Claim}
    {entityType : EntityType} {rawValue value : String} (ht : db.LinkTables env)
    (hcovered : db.Covered) (h : link env draws db claim entityType rawValue value = .ok db') :
    db'.Covered ∧ db'.total = db.total + 1 ∧
      (¬ db.InRole claim.id (role entityType) →
        db'.claimEntities.length = db.claimEntities.length + 1) ∧
      (db.HasLink claim.id entityType value →
        db'.claimEntities.length = db.claimEntities.length) ∧
      ∀ role', role' ≠ role entityType → db'.InRole claim.id role' → db.InRole claim.id role' := by
  rcases Results.bind_eq_ok.1 h with ⟨⟨db₁, id⟩, hupsert, hsave⟩
  rcases upsert_ok ht.entityKeys hupsert with ⟨-, hlinks₁, hupserted⟩
  have hcounted₁ := countedAt_of_upsert ht hupsert
  have hdb' := Db.saveLink_ok hsave
  have hcounted : CountedAt db db' id := by
    rw [hdb']
    exact ⟨hcounted₁.total, hcounted₁.rows⟩
  have hlinks : db'.claimEntities = Table.save ClaimEntityLink.id db.claimEntities
      ⟨⟨claim.id, id, role entityType⟩, rawValue⟩ := by
    rw [hdb', ← hlinks₁]
  have hlength : (Table.save ClaimEntityLink.id db.claimEntities
      ⟨⟨claim.id, id, role entityType⟩, rawValue⟩).length = _ := Table.length_save _ _
  rw [← hlinks] at hlength
  refine ⟨hcovered.save ht hcounted hlinks, hcounted.total, ?_, ?_, ?_⟩
  · intro hrole
    have hnone : Table.find ClaimEntityLink.id db.claimEntities
        ⟨claim.id, id, role entityType⟩ = none := by
      refine Table.find_eq_none.2 fun l hl hlid => hrole ⟨l, hl, ?_, ?_⟩
      · rw [hlid]
      · rw [hlid]
    rw [hlength, hnone]
    rfl
  · rintro ⟨id', href, hlink⟩
    -- the row of the entity is found again, by its type and value
    have hsame : id' = id := by
      have hr := List.inj_on_of_nodup_map (hupserted.nodup_keys ht.entityKeys)
        (hupserted.keep href) hupserted.mem rfl
      exact congrArg Prod.fst hr
    have hsome : (Table.find ClaimEntityLink.id db.claimEntities
        ⟨claim.id, id, role entityType⟩).isSome := Table.find_isSome.2 (hsame ▸ hlink)
    rw [hlength, if_pos hsome, Nat.add_zero]
  · rintro role' hne ⟨l, hl, hclaim, hrole⟩
    rw [hlinks] at hl
    rcases Table.exists_key_save.1 ⟨l, hl, rfl⟩ with hnew | ⟨old, hold, heq⟩
    · rw [hnew] at hrole
      exact absurd hrole.symm hne
    · exact ⟨old, hold, by rw [heq, hclaim], by rw [heq, hrole]⟩

/-! ## One claim -/

/-- Linking some fields counts once for each. -/
theorem counts_of_foldlM {env : Env} {draws : LinkDraws} {claim : Claim}
    (fields : List (EntityType × String × String)) {db db' : Db} (ht : db.LinkTables env)
    (hcovered : db.Covered) (hclaim : claim ∈ db.claims)
    (hvalues : ∀ f ∈ fields, canonicalValue env claim f.1 = some f.2.2)
    (hfresh : ∀ c ∈ db.claims, ∀ entityType, c.id ≠ draws.entityId entityType)
    (htypes : (fields.map Prod.fst).Nodup)
    (h : fields.foldlM (fun db f => link env draws db claim f.1 f.2.1 f.2.2) db = .ok db') :
    db'.Covered ∧ db'.total = db.total + fields.length ∧
      ((∀ f ∈ fields, ¬ db.InRole claim.id (role f.1)) →
        db'.claimEntities.length = db.claimEntities.length + fields.length) ∧
      ((∀ f ∈ fields, db.HasLink claim.id f.1 f.2.2) →
        db'.claimEntities.length = db.claimEntities.length) := by
  -- over the fields; a link is in the role of its own type only
  induction fields generalizing db with
  | nil =>
      rcases Results.pure_eq_ok.1 h with rfl
      exact ⟨hcovered, rfl, fun _ => rfl, fun _ => rfl⟩
  | cons f fields ih =>
      rw [List.foldlM_cons] at h
      rcases Results.bind_eq_ok.1 h with ⟨db₁, hfirst, hrest⟩
      rcases List.nodup_cons.1 htypes with ⟨hf, htypes'⟩
      have hne : ∀ g ∈ fields, g.1 ≠ f.1 := fun g hg heq => hf (heq ▸ List.mem_map_of_mem hg)
      obtain ⟨hextends, -⟩ := extends_of_link ht.entityKeys hfirst
      have htables := ht.link hclaim (hvalues f List.mem_cons_self)
        (fun c hc => hfresh c hc f.1) hfirst
      have hclaims := hextends.claims
      obtain ⟨hcovered₁, htotal₁, hnew₁, hold₁, hroles₁⟩ := counts_of_link ht hcovered hfirst
      obtain ⟨hcovered', htotal, hnew, hold⟩ := ih htables hcovered₁ (by rwa [hclaims])
        (fun g hg => hvalues g (List.mem_cons_of_mem f hg)) (by rwa [hclaims]) htypes' hrest
      refine ⟨hcovered', ?_, fun hroles => ?_, fun hhas => ?_⟩
      · rw [htotal, htotal₁, List.length_cons]
        omega
      · have hlen := hnew fun g hg hin => hroles g (List.mem_cons_of_mem f hg)
          (hroles₁ (role g.1) (fun heq => hne g hg (role_injective heq)) hin)
        have hlen₁ := hnew₁ (hroles f List.mem_cons_self)
        rw [hlen, hlen₁, List.length_cons]
        omega
      · have hlen := hold fun g hg =>
          hextends.keep claim.id g.1 g.2.2 (hhas g (List.mem_cons_of_mem f hg))
        rw [hlen, hold₁ (hhas f List.mem_cons_self)]

/-- What holds in a run: besides what resolution keeps, the texts of claims are storable,
a linked claim has a phone that is accepted, and the counters cover the links. -/
structure Db.Countable (env : Env) (db : Db) : Prop extends db.Resolved env where
  texts : ∀ claim ∈ db.claims, ∀ text ∈ Db.claimTexts claim, Db.isText text = true
  accepted : ∀ claim ∈ db.claims, db.IsLinked claim.id →
    ∃ phone, env.normalizePhone claim.claimantPhone = some phone
  covered : db.Covered

section

variable {env : Env} {draws : LinkDraws} {db db' : Db} {claim : Claim}

/-- Resolving a claim keeps the invariant; the counters stay as far above the links as they
were exactly when the claim was not linked. -/
theorem Db.Countable.resolveAndLink (hc : db.Countable env) (hclaim : claim ∈ db.claims)
    (hfresh : ∀ c ∈ db.claims, ∀ entityType, c.id ≠ draws.entityId entityType)
    (h : resolveAndLink env draws db claim = .ok db') :
    db'.Countable env ∧ db.surplus ≤ db'.surplus ∧
      (db'.surplus = db.surplus ↔ ¬ db.IsLinked claim.id) := by
  rcases normalizePhone_of_resolveAndLink h with ⟨phone, hphone, hfold⟩
  obtain ⟨hlinks, hall⟩ := links_of_resolveAndLink hc.toLinkTables hclaim hfresh h
  have hvalues : ∀ f ∈ linkedFields claim phone, canonicalValue env claim f.1 = some f.2.2 :=
    fun f hf => (mem_linkedFields hphone f.1 f.2.2).1 ⟨f.2.1, hf⟩
  obtain ⟨hcovered, htotal, hnew, hold⟩ := counts_of_foldlM _ hc.toLinkTables hc.covered hclaim
    hvalues hfresh (nodup_linkedFields claim phone) hfold
  have hclaims := hlinks.claims
  refine ⟨⟨hc.toResolved.of_links hclaim hlinks hall, ?_, ?_, hcovered⟩, ?_⟩
  · rw [hclaims]
    exact hc.texts
  · intro c hmem hlinked
    rw [hclaims] at hmem
    by_cases hid : c.id = claim.id
    · obtain rfl : c = claim := List.inj_on_of_nodup_map hc.claimIds hmem hclaim hid
      exact ⟨phone, hphone⟩
    · exact hc.accepted c hmem (hlinks.only c.id hid hlinked)
  · have hfields : 0 < (linkedFields claim phone).length := Nat.succ_pos _
    unfold Db.surplus
    rw [htotal]
    -- an unlinked claim has no role yet, a linked one has all its links
    by_cases hlinked : db.IsLinked claim.id
    · have hlen := hold fun f hf =>
        hc.complete claim hclaim hlinked f.1 f.2.2 (hvalues f hf)
      rw [hlen]
      refine ⟨by omega, iff_of_false ?_ (not_not_intro hlinked)⟩
      omega
    · have hlen := hnew fun f _ hin => by
        rcases hin with ⟨l, hl, hid, -⟩
        exact hlinked ⟨l, hl, hid⟩
      rw [hlen]
      refine ⟨by omega, iff_of_true ?_ hlinked⟩
      omega

/-- A claim that has been resolved can be resolved again. -/
theorem Db.Countable.exists_resolveAndLink (hc : db.Countable env) (hclaim : claim ∈ db.claims)
    (hlinked : db.IsLinked claim.id) :
    ∃ db', EntityService.resolveAndLink env draws db claim = .ok db' := by
  rcases hc.accepted claim hclaim hlinked with ⟨phone, hphone⟩
  apply ClaimGuard.exists_resolveAndLink hc.entityKeys hclaim hphone
  intro f hf
  have hvalue := (mem_linkedFields hphone f.1 f.2.2).1 ⟨f.2.1, hf⟩
  rcases hc.complete claim hclaim hlinked f.1 f.2.2 hvalue with ⟨id, hmem, -⟩
  exact ⟨hc.texts claim hclaim _ (rawValue_mem_claimTexts hf), Or.inl ⟨id, hmem⟩⟩

/-- A claim that was just inserted is not counted anywhere. -/
theorem Db.Countable.insert (hc : db.Countable env) (h : Inserted db db' claim) :
    db'.Countable env ∧ db'.surplus = db.surplus ∧ ¬ db'.IsLinked claim.id := by
  have hunlinked : ¬ db'.IsLinked claim.id := by
    unfold Db.IsLinked
    rw [h.claimEntities]
    exact hc.not_isLinked h.isNew
  refine ⟨⟨hc.toResolved.insert h, ?_, ?_, ?_⟩, ?_, hunlinked⟩
  · intro c hmem
    rcases h.mem.1 hmem with hold | rfl
    · exact hc.texts c hold
    · exact h.texts
  · intro c hmem hlinked
    rcases h.mem.1 hmem with hold | rfl
    · unfold Db.IsLinked at hlinked
      rw [h.claimEntities] at hlinked
      exact hc.accepted c hold hlinked
    · exact absurd hlinked hunlinked
  · have hcovered := hc.covered
    constructor
    · rw [h.entities]
      unfold Db.linksTo
      rw [h.claimEntities]
      exact hcovered.le
    · rw [h.entities, h.claimEntities]
      exact hcovered.referenced
  · unfold Db.surplus Db.total
    rw [h.entities, h.claimEntities]

/-- The invariant is about claims, entities and links. -/
theorem Db.Countable.congr (hc : db.Countable env) (h : SameLinks db db') :
    db'.Countable env ∧ db'.surplus = db.surplus := by
  have hresolved := hc.toResolved.congr h
  rw [h.eq_with] at hresolved ⊢
  exact ⟨⟨hresolved, hc.texts, hc.accepted, ⟨hc.covered.le, hc.covered.referenced⟩⟩, rfl⟩

end

/-! ## Runs -/

/-- The claim that a step of a pass takes has no link. -/
def TakesUnlinked (s : Intake) : IntakeStep → Prop
  | .resolveNext pass _ => ∀ claimId claimIds, s.passes pass = some (claimId :: claimIds) →
      ¬ s.db.IsLinked claimId
  | _ => True

/-- What a step does to the counters. -/
def KeepsSurplus (env : Env) (s s' : Intake) (fair : Prop) : Prop :=
  s'.db.Countable env ∧ s.db.surplus ≤ s'.db.surplus ∧ (s'.db.surplus = s.db.surplus ↔ fair)

theorem KeepsSurplus.of_eq {env : Env} {s s' : Intake} {fair : Prop} (hc : s'.db.Countable env)
    (heq : s'.db.surplus = s.db.surplus) (hfair : fair) : KeepsSurplus env s s' fair :=
  ⟨hc, heq.ge, iff_of_true heq hfair⟩

theorem keepsSurplus_createClaim {env : Env} {s s' : Intake} {request : ClaimRequest}
    {draws : CreateDraws} (hc : s.db.Countable env)
    (h : Intake.step env s (.createClaim request draws) = some s') :
    KeepsSurplus env s s' True := by
  rcases Intake.step_createClaim h with
    rfl | ⟨db₁, db₂, claim, hinserted, hfresh, hresolve, hsame⟩
  · exact .of_eq hc rfl trivial
  · obtain ⟨hc₁, hsurplus₁, hunlinked⟩ := hc.insert hinserted
    obtain ⟨hc₂, -, hiff⟩ :=
      hc₁.resolveAndLink (hinserted.mem.2 (Or.inr rfl)) hfresh hresolve
    obtain ⟨hlast, hsurplus⟩ := hc₂.congr hsame
    exact .of_eq hlast (hsurplus.trans ((hiff.2 hunlinked).trans hsurplus₁)) trivial

theorem keepsSurplus_bulkLoad {env : Env} {s s' : Intake} {claim : Claim}
    (hc : s.db.Countable env) (h : Intake.step env s (.bulkLoad claim) = some s') :
    KeepsSurplus env s s' True := by
  rcases Intake.step_bulkLoad h with rfl | ⟨amount, hinserted⟩
  · exact .of_eq hc rfl trivial
  · obtain ⟨hc', hsurplus, -⟩ := hc.insert hinserted
    exact .of_eq hc' hsurplus trivial

/-- Tables that stayed as they were keep their counters. -/
theorem KeepsSurplus.of_db_eq {env : Env} {s s' : Intake} {fair : Prop} (hc : s.db.Countable env)
    (hdb : s'.db = s.db) (hfair : fair) : KeepsSurplus env s s' fair :=
  .of_eq (hdb ▸ hc) (by rw [hdb]) hfair

theorem keepsSurplus_resolveNext {env : Env} {s s' : Intake} {pass : ℕ} {draws : LinkDraws}
    (hc : s.db.Countable env) (h : Intake.step env s (.resolveNext pass draws) = some s') :
    KeepsSurplus env s s' (TakesUnlinked s (.resolveNext pass draws)) := by
  rcases Intake.step_resolveNext h with ⟨hpass, hdb⟩ | ⟨claimId, claimIds, hpass, hfresh, hone⟩
  · refine .of_db_eq hc hdb fun claimId claimIds hnext => ?_
    rw [hpass] at hnext
    cases hnext
  · have hfair : TakesUnlinked s (.resolveNext pass draws) ↔ ¬ s.db.IsLinked claimId := by
      constructor
      · intro hall
        exact hall claimId claimIds hpass
      · intro hunlinked id ids hnext
        rw [hpass] at hnext
        cases hnext
        exact hunlinked
    rw [hfair]
    unfold resolveOne at hone
    cases hfind : s.db.findById claimId with
    | none =>
        -- only claims of the table have links
        simp only [hfind] at hone
        rcases hone with hdb | ⟨hdb, -⟩
        · exact .of_db_eq hc (Results.pure_eq_ok.1 hdb).symm (hc.not_isLinked hfind)
        · exact .of_db_eq hc hdb (hc.not_isLinked hfind)
    | some claim =>
        rcases Table.find_eq_some hfind with ⟨hmem, rfl⟩
        simp only [hfind] at hone
        rcases hone with hresolve | ⟨hdb, failure, hresolve⟩
        · exact hc.resolveAndLink hmem hfresh hresolve
        · refine .of_db_eq hc hdb fun hlinked => ?_
          rcases hc.exists_resolveAndLink hmem hlinked with ⟨db, hok⟩
          rw [hok] at hresolve
          cases hresolve

theorem keepsSurplus_step {env : Env} {s s' : Intake} {call : IntakeStep}
    (hc : s.db.Countable env) (h : Intake.step env s call = some s') :
    KeepsSurplus env s s' (TakesUnlinked s call) := by
  cases call with
  | createClaim request draws => exact keepsSurplus_createClaim hc h
  | bulkLoad claim => exact keepsSurplus_bulkLoad hc h
  | startBacklog pass => exact .of_db_eq hc (Intake.step_startBacklog h) trivial
  | resolveNext pass draws => exact keepsSurplus_resolveNext hc h

theorem countable_init {env : Env} {s : Intake} (h : (resolving env).init s) :
    s.db.Countable env ∧ s.db.surplus = 0 := by
  have hresolved : s.db.Resolved env :=
    resolved_of_reachable (.of_init h)
  rcases h with ⟨hclaims, hentities, hlinks, -⟩
  refine ⟨⟨hresolved, ?_, ?_, ⟨?_, ?_⟩⟩, ?_⟩
  · simp [hclaims]
  · simp [hclaims]
  · simp [hentities]
  · simp [hentities]
  · simp [Db.surplus, Db.total, hentities, hlinks]

/-- In every run the counters are right at the end exactly when no pass took a claim that
had links already when its turn came. -/
theorem counted_iff_takesUnlinked {env : Env} {s₀ s : Intake} {steps : List IntakeStep}
    (hinit : (resolving env).init s₀) (hrun : (resolving env).run s₀ steps = some s) :
    s.db.Counted ↔ (resolving env).Along TakesUnlinked s₀ steps := by
  obtain ⟨hc₀, hzero⟩ := countable_init hinit
  have hkeeps := fun s call s' (hc : s.db.Countable env)
    (h : (resolving env).step s call = some s') => keepsSurplus_step hc h
  have hmeasure := Lts.along_iff_of_monotone (S := resolving env) (P := TakesUnlinked)
    (I := fun s => s.db.Countable env) (f := fun s => s.db.surplus)
    (fun s call s' hc h => (hkeeps s call s' hc h).1)
    (fun s call s' hc h => (hkeeps s call s' hc h).2.1)
    (fun s call s' hc h => (hkeeps s call s' hc h).2.2) hc₀ hrun
  have hc : s.db.Countable env := Lts.run_invariant (S := resolving env)
    (I := fun s => s.db.Countable env) (fun s call s' hc h => (hkeeps s call s' hc h).1) hc₀ hrun
  rw [hc.covered.counted_iff hc.toLinkTables, ← hmeasure.2, hzero]

namespace Sample

/-- A bulk-loaded claim. -/
def loaded : Claim := claimOf ⟨1⟩ request

/-- Two passes that both read the claim before either resolves it. -/
def overlappingPasses : List IntakeStep :=
  [.bulkLoad loaded, .startBacklog 0, .startBacklog 1, .resolveNext 0 draws.link,
    .resolveNext 1 draws.link]

/-- The tables before anything was loaded. -/
def noIntake : Intake := ⟨Db.empty, fun _ => none⟩

theorem noIntake_init : (resolving env).init noIntake := ⟨rfl, rfl, rfl, fun _ => rfl⟩

/-- Each of the two entities counts the claim twice and has one link. -/
theorem exists_run_overlapping : ∃ s, (resolving env).run noIntake overlappingPasses = some s ∧
    ¬ s.db.Counted := by
  have hcounts : ((resolving env).run noIntake overlappingPasses).map
      (fun s => s.db.entities.map fun e => (e.claimCount, s.db.linksTo e.id)) =
      some [(2, 1), (2, 1)] := by decide +kernel
  rcases Option.map_eq_some_iff.1 hcounts with ⟨s, hrun, hrows⟩
  refine ⟨s, hrun, fun hcounted => ?_⟩
  have hmem : ((2 : ℕ), (1 : ℕ)) ∈
      s.db.entities.map fun e => (e.claimCount, s.db.linksTo e.id) := by
    rw [hrows]
    exact List.mem_cons_self
  rcases List.mem_map.1 hmem with ⟨e, he, heq⟩
  have hcount := hcounted.count e he
  rw [Prod.mk.injEq] at heq
  omega

/-- A second claim with the phone of the first. -/
def loadedLater : Claim :=
  { claimOf ⟨6⟩ request with claimantAddress := "7 Hill St", repairShopName := some "SpeedFix" }

/-- A pass, and then one that reads its list after the first has resolved the first claim. -/
def passesInTurn : List IntakeStep :=
  [.bulkLoad loaded, .startBacklog 0, .resolveNext 0 draws.link, .bulkLoad loadedLater,
    .startBacklog 1,
    .resolveNext 1 ⟨fun | .phone => ⟨7⟩ | .address => ⟨8⟩ | .shop => ⟨9⟩, fun _ => now⟩]

/-- Each entity counts its links: the phone two, the others one. -/
theorem exists_run_inTurn : ∃ s, (resolving env).run noIntake passesInTurn = some s ∧
    s.db.Counted := by
  have hcounts : ((resolving env).run noIntake passesInTurn).map
      (fun s => s.db.entities.map fun e => (e.claimCount, s.db.linksTo e.id)) =
      some [(2, 2), (1, 1), (1, 1), (1, 1)] := by decide +kernel
  rcases Option.map_eq_some_iff.1 hcounts with ⟨s, hrun, hrows⟩
  have hequal : ∀ e ∈ s.db.entities, e.claimCount = s.db.linksTo e.id ∧ 0 < s.db.linksTo e.id := by
    intro e he
    have hmem : (e.claimCount, s.db.linksTo e.id) ∈
        s.db.entities.map fun e => (e.claimCount, s.db.linksTo e.id) := List.mem_map_of_mem he
    rw [hrows] at hmem
    revert hmem
    generalize e.claimCount = count, s.db.linksTo e.id = links
    simp only [List.mem_cons, List.not_mem_nil, or_false, Prod.mk.injEq]
    omega
  refine ⟨s, hrun, fun e he => (hequal e he).1, fun e he => ?_⟩
  rcases List.countP_pos_iff.1 (hequal e he).2 with ⟨l, hl, hid⟩
  exact ⟨l, hl, of_decide_eq_true hid⟩

end Sample

/-- In the run of two overlapping passes one takes a claim that is linked already; when one
follows the other, they take each claim once. -/
theorem overlapping_takes_linked :
    ¬ (resolving Sample.env).Along TakesUnlinked Sample.noIntake Sample.overlappingPasses ∧
      (resolving Sample.env).Along TakesUnlinked Sample.noIntake Sample.passesInTurn := by
  constructor
  · rcases Sample.exists_run_overlapping with ⟨s, hrun, hnot⟩
    exact fun halong => hnot ((counted_iff_takesUnlinked Sample.noIntake_init hrun).2 halong)
  · rcases Sample.exists_run_inTurn with ⟨s, hrun, hcounted⟩
    exact (counted_iff_takesUnlinked Sample.noIntake_init hrun).1 hcounted

/-- Overlapping passes leave a counter above its links. -/
theorem overlapping_passes_overcount :
    ¬ ∀ s, (resolving Sample.env).Reachable s → s.db.Counted := by
  rcases Sample.exists_run_overlapping with ⟨s, hrun, hnot⟩
  exact fun hall => hnot (hall s ⟨_, _, Sample.noIntake_init, hrun⟩)

end ClaimGuard
