import ClaimGuard.Runs

/-!
# Runs of entity resolution

Intake, bulk loads and backlog passes in any order, the passes overlapping or
repeated. Whatever the order, each entity is there once for its type and value, and
a claim that has been resolved is linked to exactly the entities its raw fields
normalize to.
-/

namespace ClaimGuard

open ClaimService EntityService

/-- What a raw field of a claim normalizes to, for each type of entity. -/
def canonicalValue (env : Env) (claim : Claim) : EntityType → Option String
  | .phone => env.normalizePhone claim.claimantPhone
  | .address => some (normalizeAddress claim.claimantAddress)
  | .shop => claim.repairShopName.bind fun name =>
      if isBlank name then none else some (normalizeShop name)

theorem canonicalValue_address (env : Env) (claim : Claim) :
    canonicalValue env claim .address = some (normalizeAddress claim.claimantAddress) := rfl

/-- What an entity row says, but for its counter and the time it was first seen. -/
def ResolvedEntity.ref (e : ResolvedEntity) : UUID × EntityType × String :=
  (e.id, e.entityType, e.canonicalValue)

/-- The entities of a database. -/
def Db.refs (db : Db) : List (UUID × EntityType × String) := db.entities.map ResolvedEntity.ref

/-- The claim is linked to the entity of a type and value, in the role of the type. -/
def Db.HasLink (db : Db) (claimId : UUID) (entityType : EntityType) (value : String) : Prop :=
  ∃ id, (id, entityType, value) ∈ db.refs ∧
    ∃ l ∈ db.claimEntities, l.id = ⟨claimId, id, role entityType⟩

/-- The claim has a link. -/
def Db.IsLinked (db : Db) (claimId : UUID) : Prop :=
  ∃ l ∈ db.claimEntities, l.id.claimId = claimId

/-- Keys are unique, ids of claims and entities apart, and a link goes from a claim
to an entity its raw field normalizes to. -/
structure Db.LinkTables (env : Env) (db : Db) : Prop where
  claimIds : Table.UniqueKeys Claim.id db.claims
  entityIds : (db.refs.map Prod.fst).Nodup
  entityKeys : (db.refs.map Prod.snd).Nodup
  linkIds : Table.UniqueKeys ClaimEntityLink.id db.claimEntities
  sound : ∀ l ∈ db.claimEntities, ∃ claim ∈ db.claims, ∃ r ∈ db.refs,
    l.id = ⟨claim.id, r.1, role r.2.1⟩ ∧ canonicalValue env claim r.2.1 = some r.2.2
  apart : ∀ claim ∈ db.claims, ∀ r ∈ db.refs, claim.id ≠ r.1

/-- A resolved claim has all its links. -/
structure Db.Resolved (env : Env) (db : Db) : Prop extends db.LinkTables env where
  complete : ∀ claim ∈ db.claims, db.IsLinked claim.id →
    ∀ entityType value, canonicalValue env claim entityType = some value →
      db.HasLink claim.id entityType value

/-! ## One link -/

/-- The entity was there, or it is new: its id is the drawn one, and neither its id nor
its type and value were there. -/
def Upserted (refs refs' : List (UUID × EntityType × String)) (drawn : UUID)
    (ref : UUID × EntityType × String) : Prop :=
  (refs' = refs ∧ ref ∈ refs) ∨
    (ref.1 = drawn ∧ refs' = refs ++ [ref] ∧ ref.1 ∉ refs.map Prod.fst ∧
      ref.2 ∉ refs.map Prod.snd)

namespace Upserted

variable {refs refs' : List (UUID × EntityType × String)} {drawn : UUID}
  {ref r : UUID × EntityType × String}

theorem mem (h : Upserted refs refs' drawn ref) : ref ∈ refs' := by
  rcases h with ⟨rfl, hold⟩ | ⟨-, rfl, -, -⟩
  · exact hold
  · exact List.mem_append_right _ (List.mem_singleton_self ref)

theorem keep (h : Upserted refs refs' drawn ref) (hr : r ∈ refs) : r ∈ refs' := by
  rcases h with ⟨rfl, -⟩ | ⟨-, rfl, -, -⟩
  · exact hr
  · exact List.mem_append_left _ hr

theorem old_or_drawn (h : Upserted refs refs' drawn ref) (hr : r ∈ refs') :
    r ∈ refs ∨ r.1 = drawn := by
  rcases h with ⟨rfl, -⟩ | ⟨hdrawn, rfl, -, -⟩
  · exact Or.inl hr
  · rcases List.mem_append.1 hr with hr | hr
    · exact Or.inl hr
    · exact Or.inr (List.mem_singleton.1 hr ▸ hdrawn)

theorem nodup_ids (h : Upserted refs refs' drawn ref) (hids : (refs.map Prod.fst).Nodup) :
    (refs'.map Prod.fst).Nodup := by
  rcases h with ⟨rfl, -⟩ | ⟨-, rfl, hnew, -⟩
  · exact hids
  · rw [List.map_append]
    exact hids.append (List.nodup_singleton _) (List.disjoint_singleton.2 hnew)

theorem nodup_keys (h : Upserted refs refs' drawn ref) (hkeys : (refs.map Prod.snd).Nodup) :
    (refs'.map Prod.snd).Nodup := by
  rcases h with ⟨rfl, -⟩ | ⟨-, rfl, -, hnew⟩
  · exact hkeys
  · rw [List.map_append]
    exact hkeys.append (List.nodup_singleton _) (List.disjoint_singleton.2 hnew)

end Upserted

/-- The entity is there after the upsert, and at most this entity is new. -/
theorem upsert_ok {env : Env} {db db' : Db} {id id' : UUID} {entityType : EntityType}
    {value : String} {firstSeenAt : Instant} (hkeys : (db.refs.map Prod.snd).Nodup)
    (h : db.upsert env id entityType value firstSeenAt = .ok (db', id')) :
    db'.claims = db.claims ∧ db'.claimEntities = db.claimEntities ∧
      Upserted db.refs db'.refs id (id', entityType, value) := by
  have hunique : Table.UniqueKeys
      (fun e : ResolvedEntity => (e.entityType, e.canonicalValue)) db.entities := by
    unfold Db.refs at hkeys
    rw [List.map_map] at hkeys
    exact hkeys
  rcases Db.upsert_cases h with ⟨e, hfind, rfl, rfl⟩ | ⟨hfind, rfl, hid, rfl⟩
  · rcases Table.find_eq_some hfind with ⟨hmem, hkey⟩
    refine ⟨rfl, rfl, Or.inl ⟨?_, ?_⟩⟩
    · have hfound : (Table.find (fun e : ResolvedEntity => (e.entityType, e.canonicalValue))
          db.entities (e.entityType, e.canonicalValue)).isSome :=
        Table.find_isSome.2 ⟨e, hmem, rfl⟩
      unfold Db.refs Table.save
      simp only [hfound, if_true, List.map_map]
      apply List.map_congr_left
      intro x hx
      simp only [Function.comp_apply]
      split
      · rename_i hsame
        -- only the row itself has its key
        rw [List.inj_on_of_nodup_map hunique hx hmem hsame]
        rfl
      · rfl
    · rcases Prod.mk.inj hkey with ⟨htype, hvalue⟩
      refine List.mem_map.2 ⟨e, hmem, ?_⟩
      simp only [ResolvedEntity.ref, htype, hvalue]
  · refine ⟨rfl, rfl, Or.inr ⟨rfl, by simp [Db.refs, ResolvedEntity.ref], ?_, ?_⟩⟩
    · intro hmem
      rcases List.mem_map.1 hmem with ⟨r, hr, hrid⟩
      rcases List.mem_map.1 hr with ⟨e, he, rfl⟩
      exact hid e he hrid
    · intro hmem
      rcases List.mem_map.1 hmem with ⟨r, hr, hkey⟩
      rcases List.mem_map.1 hr with ⟨e, he, rfl⟩
      exact Table.find_eq_none.1 hfind e he hkey

/-- What a link does: its entity is upserted, and the link to it is saved. -/
theorem link_ok {env : Env} {draws : LinkDraws} {db db' : Db} {claim : Claim}
    {entityType : EntityType} {rawValue value : String} (hkeys : (db.refs.map Prod.snd).Nodup)
    (h : link env draws db claim entityType rawValue value = .ok db') :
    ∃ id, db'.claims = db.claims ∧
      Upserted db.refs db'.refs (draws.entityId entityType) (id, entityType, value) ∧
      db'.claimEntities = Table.save ClaimEntityLink.id db.claimEntities
        ⟨⟨claim.id, id, role entityType⟩, rawValue⟩ := by
  rcases Results.bind_eq_ok.1 h with ⟨⟨db₁, id⟩, hupsert, hsave⟩
  rcases upsert_ok hkeys hupsert with ⟨hclaims, hlinks, hupserted⟩
  rcases Db.saveLink_ok hsave with rfl
  exact ⟨id, hclaims, hupserted, by rw [← hlinks]⟩

/-- What linking a claim leaves as it was: the claims, the entities, what is linked, and
which other claims are. -/
structure Extends (draws : LinkDraws) (claimId : UUID) (db db' : Db) : Prop where
  claims : db'.claims = db.claims
  drawn : ∀ r ∈ db'.refs, r ∈ db.refs ∨ ∃ entityType, r.1 = draws.entityId entityType
  entityKeys : (db'.refs.map Prod.snd).Nodup
  keep : ∀ id entityType value, db.HasLink id entityType value → db'.HasLink id entityType value
  only : ∀ id, id ≠ claimId → db'.IsLinked id → db.IsLinked id

theorem Extends.refl {draws : LinkDraws} {claimId : UUID} {db : Db}
    (hkeys : (db.refs.map Prod.snd).Nodup) : Extends draws claimId db db :=
  ⟨rfl, fun _ h => Or.inl h, hkeys, fun _ _ _ h => h, fun _ _ h => h⟩

theorem Extends.trans {draws : LinkDraws} {claimId : UUID} {db db' db'' : Db}
    (h : Extends draws claimId db db') (h' : Extends draws claimId db' db'') :
    Extends draws claimId db db'' :=
  ⟨h'.claims.trans h.claims, fun r hr => (h'.drawn r hr).elim (h.drawn r) Or.inr, h'.entityKeys,
    fun id T v hl => h'.keep id T v (h.keep id T v hl),
    fun id hne hl => h.only id hne (h'.only id hne hl)⟩

/-- One link: the claim is linked to the entity. -/
theorem extends_of_link {env : Env} {draws : LinkDraws} {db db' : Db} {claim : Claim}
    {entityType : EntityType} {rawValue value : String} (hkeys : (db.refs.map Prod.snd).Nodup)
    (h : link env draws db claim entityType rawValue value = .ok db') :
    Extends draws claim.id db db' ∧ db'.HasLink claim.id entityType value := by
  rcases link_ok hkeys h with ⟨id, hclaims, hupserted, hlinks⟩
  have hsaved : ∀ lid, (∃ l ∈ db'.claimEntities, l.id = lid) ↔
      lid = ⟨claim.id, id, role entityType⟩ ∨ ∃ l ∈ db.claimEntities, l.id = lid := by
    intro lid
    rw [hlinks]
    exact Table.exists_key_save
  refine ⟨⟨hclaims, fun r hr => (hupserted.old_or_drawn hr).imp_right fun h => ⟨entityType, h⟩,
    hupserted.nodup_keys hkeys, ?_, ?_⟩, id, hupserted.mem, (hsaved _).2 (Or.inl rfl)⟩
  · rintro cid T v ⟨eid, href, hlink⟩
    exact ⟨eid, hupserted.keep href, (hsaved _).2 (Or.inr hlink)⟩
  · rintro cid hne ⟨l, hl, hlid⟩
    rcases (hsaved l.id).1 ⟨l, hl, rfl⟩ with hnew | ⟨old, hold, heq⟩
    · rw [hnew] at hlid
      exact absurd hlid.symm hne
    · exact ⟨old, hold, by rw [heq, hlid]⟩

/-- What linking does: the claim gets its links, no other claim does, and what is
linked stays linked. -/
structure Links (env : Env) (claimId : UUID) (db db' : Db) : Prop where
  claims : db'.claims = db.claims
  tables : db'.LinkTables env
  keep : ∀ id entityType value, db.HasLink id entityType value → db'.HasLink id entityType value
  only : ∀ id, id ≠ claimId → db'.IsLinked id → db.IsLinked id

theorem Extends.links {env : Env} {draws : LinkDraws} {claimId : UUID} {db db' : Db}
    (h : Extends draws claimId db db') (ht : db'.LinkTables env) : Links env claimId db db' :=
  ⟨h.claims, ht, h.keep, h.only⟩

/-- One link from a field keeps the tables: the link goes to the entity its field
normalizes to. -/
theorem Db.LinkTables.link {env : Env} {draws : LinkDraws} {db db' : Db} {claim : Claim}
    {entityType : EntityType} {rawValue value : String} (ht : db.LinkTables env)
    (hclaim : claim ∈ db.claims) (hvalue : canonicalValue env claim entityType = some value)
    (hfresh : ∀ c ∈ db.claims, c.id ≠ draws.entityId entityType)
    (h : link env draws db claim entityType rawValue value = .ok db') : db'.LinkTables env := by
  rcases link_ok ht.entityKeys h with ⟨id, hclaims, hupserted, hlinks⟩
  refine ⟨hclaims ▸ ht.claimIds, hupserted.nodup_ids ht.entityIds,
    hupserted.nodup_keys ht.entityKeys, ?_, ?_, ?_⟩
  · rw [hlinks]
    exact Table.uniqueKeys_save ht.linkIds _
  · intro l hl
    rw [hclaims]
    have hsaved := Table.exists_key_save.1
      ⟨l, (hlinks ▸ hl : l ∈ Table.save ClaimEntityLink.id _ _), rfl⟩
    -- the saved link goes to the upserted entity, the others went somewhere before
    rcases hsaved with hnew | ⟨old, hold, heq⟩
    · exact ⟨claim, hclaim, (id, entityType, value), hupserted.mem, hnew, hvalue⟩
    · rcases ht.sound old hold with ⟨c, hc, r, hr, hid, hcanonical⟩
      exact ⟨c, hc, r, hupserted.keep hr, by rw [← heq, hid], hcanonical⟩
  · intro c hc r hr
    rw [hclaims] at hc
    rcases hupserted.old_or_drawn hr with hold | hdrawn
    · exact ht.apart c hc r hold
    · rw [hdrawn]
      exact hfresh c hc

/-! ## One claim -/

/-- The repair shop, when a claim has one that is not blank. -/
def shopField (repairShopName : Option String) : List (EntityType × String × String) :=
  match repairShopName with
  | none => []
  | some name => if isBlank name then [] else [(.shop, name, normalizeShop name)]

/-- The fields `resolveAndLink` links, each with its type, raw and canonical value. -/
def linkedFields (claim : Claim) (phone : String) : List (EntityType × String × String) :=
  (.phone, claim.claimantPhone, phone) ::
    (.address, claim.claimantAddress, normalizeAddress claim.claimantAddress) ::
      shopField claim.repairShopName

/-- `resolveAndLink` links one field after the other. -/
theorem resolveAndLink_eq (env : Env) (draws : LinkDraws) (db : Db) (claim : Claim) :
    resolveAndLink env draws db claim = (do
      let phone ← normalizePhone env claim.claimantPhone
      (linkedFields claim phone).foldlM
        (fun db field => link env draws db claim field.1 field.2.1 field.2.2) db) := by
  unfold resolveAndLink linkedFields shopField
  apply bind_congr
  intro phone
  simp only [List.foldlM_cons]
  refine bind_congr fun db₁ => bind_congr fun db₂ => ?_
  cases claim.repairShopName with
  | none => rfl
  | some name =>
      simp only
      split
      · rfl
      · simp only [List.foldlM_cons, List.foldlM_nil, bind_pure]

theorem exists_mem_shopField {repairShopName : Option String} {entityType : EntityType}
    {value : String} :
    (∃ rawValue, (entityType, rawValue, value) ∈ shopField repairShopName) ↔
      entityType = .shop ∧ (repairShopName.bind fun name =>
        if isBlank name then none else some (normalizeShop name)) = some value := by
  cases repairShopName with
  | none => simp [shopField]
  | some name =>
      cases hblank : isBlank name with
      | true => simp [shopField, hblank]
      | false =>
          simp only [shopField, hblank, Option.bind_some, Bool.false_eq_true, if_false,
            List.mem_singleton, Prod.mk.injEq, Option.some.injEq]
          constructor
          · rintro ⟨rawValue, htype, -, hvalue⟩
            exact ⟨htype, hvalue.symm⟩
          · rintro ⟨htype, hvalue⟩
            exact ⟨name, htype, rfl, hvalue.symm⟩

/-- The linked fields are those with a canonical value. -/
theorem mem_linkedFields {env : Env} {claim : Claim} {phone : String}
    (hphone : env.normalizePhone claim.claimantPhone = some phone) (entityType : EntityType)
    (value : String) :
    (∃ rawValue, (entityType, rawValue, value) ∈ linkedFields claim phone) ↔
      canonicalValue env claim entityType = some value := by
  have hcases : (∃ rawValue, (entityType, rawValue, value) ∈ linkedFields claim phone) ↔
      (entityType = .phone ∧ value = phone) ∨
        (entityType = .address ∧ value = normalizeAddress claim.claimantAddress) ∨
        ∃ rawValue, (entityType, rawValue, value) ∈ shopField claim.repairShopName := by
    simp [linkedFields, exists_or]
  rw [hcases, exists_mem_shopField]
  cases entityType with
  | phone =>
      simp only [canonicalValue, hphone, Option.some.injEq, true_and, false_and, or_false,
        reduceCtorEq]
      exact eq_comm
  | address =>
      simp only [canonicalValue, Option.some.injEq, true_and, false_and, or_false, false_or,
        reduceCtorEq]
      exact eq_comm
  | shop => simp only [canonicalValue, true_and, false_and, false_or, reduceCtorEq]

/-- Linking some fields of a claim. -/
theorem extends_of_foldlM {env : Env} {draws : LinkDraws} {claim : Claim}
    (fields : List (EntityType × String × String)) {db db' : Db}
    (hkeys : (db.refs.map Prod.snd).Nodup)
    (h : fields.foldlM (fun db f => link env draws db claim f.1 f.2.1 f.2.2) db = .ok db') :
    Extends draws claim.id db db' ∧ ∀ f ∈ fields, db'.HasLink claim.id f.1 f.2.2 := by
  -- over the fields; later links keep the earlier ones
  induction fields generalizing db with
  | nil =>
      rcases Results.pure_eq_ok.1 h with rfl
      exact ⟨.refl hkeys, by simp⟩
  | cons f fields ih =>
      rw [List.foldlM_cons] at h
      rcases Results.bind_eq_ok.1 h with ⟨db₁, hfirst, hrest⟩
      obtain ⟨hextends₁, hf⟩ := extends_of_link hkeys hfirst
      obtain ⟨hextends, hall⟩ := ih hextends₁.entityKeys hrest
      refine ⟨hextends₁.trans hextends, ?_⟩
      intro g hg
      rcases List.mem_cons.1 hg with rfl | hg
      · exact hextends.keep _ _ _ hf
      · exact hall g hg

theorem Db.LinkTables.foldlM {env : Env} {draws : LinkDraws} {claim : Claim}
    (fields : List (EntityType × String × String)) {db db' : Db} (ht : db.LinkTables env)
    (hclaim : claim ∈ db.claims)
    (hvalues : ∀ f ∈ fields, canonicalValue env claim f.1 = some f.2.2)
    (hfresh : ∀ c ∈ db.claims, ∀ entityType, c.id ≠ draws.entityId entityType)
    (h : fields.foldlM (fun db f => EntityService.link env draws db claim f.1 f.2.1 f.2.2) db =
      .ok db') : db'.LinkTables env := by
  induction fields generalizing db with
  | nil =>
      rcases Results.pure_eq_ok.1 h with rfl
      exact ht
  | cons f fields ih =>
      rw [List.foldlM_cons] at h
      rcases Results.bind_eq_ok.1 h with ⟨db₁, hfirst, hrest⟩
      have hclaims := (extends_of_link ht.entityKeys hfirst).1.claims
      exact ih (ht.link hclaim (hvalues f List.mem_cons_self) (fun c hc => hfresh c hc f.1) hfirst)
        (by rwa [hclaims]) (fun g hg => hvalues g (List.mem_cons_of_mem f hg)) (by rwa [hclaims])
        hrest

/-- A claim that is resolved has a phone that is accepted, and its fields were linked. -/
theorem normalizePhone_of_resolveAndLink {env : Env} {draws : LinkDraws} {claim : Claim}
    {db db' : Db} (h : resolveAndLink env draws db claim = .ok db') :
    ∃ phone, env.normalizePhone claim.claimantPhone = some phone ∧
      (linkedFields claim phone).foldlM
        (fun db f => link env draws db claim f.1 f.2.1 f.2.2) db = .ok db' := by
  rw [resolveAndLink_eq] at h
  rcases Results.bind_eq_ok.1 h with ⟨phone, hphone, h⟩
  unfold normalizePhone at hphone
  split at hphone
  · rename_i canonical hcanonical
    exact ⟨phone, by rw [hcanonical, Results.pure_eq_ok.1 hphone], h⟩
  · cases hphone

/-- Resolving a claim links it to every entity its raw fields normalize to. -/
theorem extends_of_resolveAndLink {env : Env} {draws : LinkDraws} {claim : Claim} {db db' : Db}
    (hkeys : (db.refs.map Prod.snd).Nodup) (h : resolveAndLink env draws db claim = .ok db') :
    Extends draws claim.id db db' ∧ ∀ entityType value,
      canonicalValue env claim entityType = some value → db'.HasLink claim.id entityType value := by
  rcases normalizePhone_of_resolveAndLink h with ⟨phone, hphone, h⟩
  obtain ⟨hextends, hall⟩ := extends_of_foldlM _ hkeys h
  refine ⟨hextends, ?_⟩
  intro entityType value hvalue
  rcases (mem_linkedFields hphone entityType value).2 hvalue with ⟨rawValue, hf⟩
  exact hall _ hf

theorem links_of_resolveAndLink {env : Env} {draws : LinkDraws} {claim : Claim} {db db' : Db}
    (ht : db.LinkTables env) (hclaim : claim ∈ db.claims)
    (hfresh : ∀ c ∈ db.claims, ∀ entityType, c.id ≠ draws.entityId entityType)
    (h : resolveAndLink env draws db claim = .ok db') :
    Links env claim.id db db' ∧ ∀ entityType value,
      canonicalValue env claim entityType = some value → db'.HasLink claim.id entityType value := by
  obtain ⟨hextends, hall⟩ := extends_of_resolveAndLink ht.entityKeys h
  rcases normalizePhone_of_resolveAndLink h with ⟨phone, hphone, hfields⟩
  have htables := ht.foldlM _ hclaim
    (fun f hf => (mem_linkedFields hphone f.1 f.2.2).1 ⟨f.2.1, hf⟩) hfresh hfields
  exact ⟨hextends.links htables, hall⟩

/-- Resolving a claim keeps every resolved claim resolved. -/
theorem Db.Resolved.of_links {env : Env} {db db' : Db} {claim : Claim} (hr : db.Resolved env)
    (hclaim : claim ∈ db.claims) (hlinks : Links env claim.id db db')
    (hall : ∀ entityType value, canonicalValue env claim entityType = some value →
      db'.HasLink claim.id entityType value) : db'.Resolved env := by
  refine ⟨hlinks.tables, ?_⟩
  intro c hc hlinked entityType value hvalue
  rw [hlinks.claims] at hc
  -- the resolved claim has all its links, the others had theirs before
  by_cases hid : c.id = claim.id
  · obtain rfl : c = claim := List.inj_on_of_nodup_map hr.claimIds hc hclaim hid
    exact hall entityType value hvalue
  · exact hlinks.keep _ _ _
      (hr.complete c hc (hlinks.only c.id hid hlinked) entityType value hvalue)

/-! ## When a claim can be linked -/

/-- The id drawn for a type is new. -/
structure FreshDraw (draws : LinkDraws) (db : Db) (entityType : EntityType) : Prop where
  unused : ∀ r ∈ db.refs, r.1 ≠ draws.entityId entityType
  distinct : ∀ other, other ≠ entityType → draws.entityId other ≠ draws.entityId entityType

/-- A field that can be linked: its texts can be stored, and its entity is there or can be
made. -/
def CanLink (draws : LinkDraws) (db : Db) (field : EntityType × String × String) : Prop :=
  Db.isText field.2.1 = true ∧
    ((∃ id, (id, field.1, field.2.2) ∈ db.refs) ∨
      (Db.isText field.2.2 = true ∧ FreshDraw draws db field.1))

theorem exists_upsert (env : Env) {draws : LinkDraws} {db : Db}
    {field : EntityType × String × String} (h : CanLink draws db field) :
    ∃ db' id, db.upsert env (draws.entityId field.1) field.1 field.2.2
      (draws.firstSeenAt field.1) = .ok (db', id) := by
  unfold Db.upsert
  cases hfind : db.findEntity field.1 field.2.2 with
  | some e => exact ⟨_, _, rfl⟩
  | none =>
      rcases h.2 with ⟨id, hmem⟩ | ⟨htext, hfresh⟩
      · rcases List.mem_map.1 hmem with ⟨e, he, heq⟩
        exact absurd (congrArg Prod.snd heq) (Table.find_eq_none.1 hfind e he)
      · have hunused : ¬ db.entities.any (fun e => decide (e.id = draws.entityId field.1)) := by
          intro hany
          rcases List.any_eq_true.1 hany with ⟨e, he, hid⟩
          exact hfresh.unused _ (List.mem_map_of_mem he) (of_decide_eq_true hid)
        dsimp only
        rw [if_pos htext, if_neg hunused]
        exact ⟨_, _, rfl⟩

theorem exists_link (env : Env) {draws : LinkDraws} {db : Db} {claim : Claim}
    {field : EntityType × String × String} (hkeys : (db.refs.map Prod.snd).Nodup)
    (hclaim : claim ∈ db.claims) (h : CanLink draws db field) :
    ∃ db', link env draws db claim field.1 field.2.1 field.2.2 = .ok db' := by
  rcases exists_upsert env h with ⟨db₁, id, hupsert⟩
  rcases upsert_ok hkeys hupsert with ⟨hclaims₁, -, hupserted⟩
  have hfound : ¬ (db₁.findById claim.id).isNone := by
    have hsome : (db₁.findById claim.id).isSome :=
      Table.find_isSome.2 ⟨claim, hclaims₁ ▸ hclaim, rfl⟩
    rw [Option.isSome_iff_ne_none] at hsome
    rwa [Option.isNone_iff_eq_none]
  have hentity : ¬ db₁.entities.all (fun e => decide (e.id ≠ id)) := by
    intro hall
    rcases List.mem_map.1 hupserted.mem with ⟨e, he, heq⟩
    exact of_decide_eq_true (List.all_eq_true.1 hall e he) (congrArg Prod.fst heq)
  have hsave : ∃ db', db₁.saveLink ⟨⟨claim.id, id, role field.1⟩, field.2.1⟩ = .ok db' := by
    unfold Db.saveLink
    rw [if_pos h.1, if_neg hfound, if_neg hentity]
    exact ⟨_, rfl⟩
  rcases hsave with ⟨db', hsave⟩
  exact ⟨db', Results.bind_eq_ok.2 ⟨(db₁, id), hupsert, hsave⟩⟩

/-- Linking one field leaves it possible to link the others. -/
theorem CanLink.of_link {env : Env} {draws : LinkDraws} {db db' : Db} {claim : Claim}
    {field other : EntityType × String × String} (hkeys : (db.refs.map Prod.snd).Nodup)
    (hne : other.1 ≠ field.1) (hother : CanLink draws db other)
    (h : link env draws db claim field.1 field.2.1 field.2.2 = .ok db') :
    CanLink draws db' other := by
  rcases link_ok hkeys h with ⟨id, -, hupserted, -⟩
  refine ⟨hother.1, hother.2.imp (fun ⟨id, hmem⟩ => ⟨id, hupserted.keep hmem⟩) ?_⟩
  rintro ⟨htext, hfresh⟩
  refine ⟨htext, fun r hr => ?_, hfresh.distinct⟩
  rcases hupserted.old_or_drawn hr with hold | hdrawn
  · exact hfresh.unused r hold
  · rw [hdrawn]
    exact hfresh.distinct field.1 (Ne.symm hne)

theorem exists_foldlM (env : Env) {draws : LinkDraws} {claim : Claim}
    (fields : List (EntityType × String × String)) {db : Db}
    (hkeys : (db.refs.map Prod.snd).Nodup) (hclaim : claim ∈ db.claims)
    (htypes : (fields.map Prod.fst).Nodup) (hcan : ∀ f ∈ fields, CanLink draws db f) :
    ∃ db', fields.foldlM (fun db f => link env draws db claim f.1 f.2.1 f.2.2) db = .ok db' := by
  induction fields generalizing db with
  | nil => exact ⟨db, rfl⟩
  | cons f fields ih =>
      rcases List.nodup_cons.1 htypes with ⟨hf, htypes'⟩
      rcases exists_link env hkeys hclaim (hcan f List.mem_cons_self) with ⟨db₁, hfirst⟩
      have hextends := (extends_of_link hkeys hfirst).1
      have hclaims := hextends.claims
      have hcan' : ∀ g ∈ fields, CanLink draws db₁ g := by
        intro g hg
        have hne : g.1 ≠ f.1 := fun heq => hf (heq ▸ List.mem_map_of_mem hg)
        exact (hcan g (List.mem_cons_of_mem f hg)).of_link hkeys hne hfirst
      rcases ih hextends.entityKeys (by rwa [hclaims]) htypes' hcan' with ⟨db', hrest⟩
      exact ⟨db', Results.bind_eq_ok.2 ⟨db₁, hfirst, hrest⟩⟩

/-- The fields of a claim are of different types. -/
theorem nodup_linkedFields (claim : Claim) (phone : String) :
    ((linkedFields claim phone).map Prod.fst).Nodup := by
  unfold linkedFields shopField
  cases claim.repairShopName with
  | none => simp
  | some name =>
      dsimp only
      split <;> simp

/-- The raw values are texts of the claim. -/
theorem rawValue_mem_claimTexts {claim : Claim} {phone : String}
    {field : EntityType × String × String} (h : field ∈ linkedFields claim phone) :
    field.2.1 ∈ Db.claimTexts claim := by
  unfold Db.claimTexts
  rcases List.mem_cons.1 h with rfl | h
  · simp
  · rcases List.mem_cons.1 h with rfl | h
    · simp
    · unfold shopField at h
      cases hshop : claim.repairShopName with
      | none =>
          rw [hshop] at h
          exact absurd h List.not_mem_nil
      | some name =>
          rw [hshop] at h
          dsimp only at h
          split at h
          · exact absurd h List.not_mem_nil
          · rw [List.mem_singleton.1 h]
            simp

/-- A claim whose phone is accepted and whose fields can be linked is resolved. -/
theorem exists_resolveAndLink {env : Env} {draws : LinkDraws} {db : Db} {claim : Claim}
    {phone : String} (hkeys : (db.refs.map Prod.snd).Nodup) (hclaim : claim ∈ db.claims)
    (hphone : env.normalizePhone claim.claimantPhone = some phone)
    (hcan : ∀ f ∈ linkedFields claim phone, CanLink draws db f) :
    ∃ db', resolveAndLink env draws db claim = .ok db' := by
  rcases exists_foldlM env _ hkeys hclaim (nodup_linkedFields claim phone) hcan
    with ⟨db', hfields⟩
  refine ⟨db', ?_⟩
  have hnormalized : normalizePhone env claim.claimantPhone = .ok phone := by
    unfold normalizePhone
    rw [hphone]
    rfl
  rw [resolveAndLink_eq]
  exact Results.bind_eq_ok.2 ⟨phone, hnormalized, hfields⟩

/-! ## Runs -/

/-- The database, and the backlog passes that are running with the claims each
still has to resolve. -/
structure Intake where
  db : Db
  passes : ℕ → Option (List UUID)

/-- A call, or one transaction of a backlog pass. -/
inductive IntakeStep where
  | createClaim (request : ClaimRequest) (draws : CreateDraws)
  | bulkLoad (claim : Claim)
  | startBacklog (pass : ℕ)
  | resolveNext (pass : ℕ) (draws : LinkDraws)

namespace Intake

/-- A claim id is drawn apart from the ids of the entities. -/
def isFreshClaim (db : Db) (id : UUID) : Bool := db.entities.all fun e => decide (id ≠ e.id)

/-- Entity ids are drawn apart from the id of a claim. -/
def isFreshFor (draws : LinkDraws) (id : UUID) : Bool :=
  [EntityType.phone, .address, .shop].all fun entityType => decide (id ≠ draws.entityId entityType)

/-- One step. `resolveBacklog` ends at the first claim whose transaction throws. -/
def step (env : Env) (s : Intake) : IntakeStep → Option Intake
  | .createClaim request draws =>
      if isFreshClaim s.db draws.claimId && isFreshFor draws.link draws.claimId &&
          s.db.claims.all fun c => isFreshFor draws.link c.id then
        match createClaim env s.db request draws with
        | .ok db => some { s with db := db }
        | .error _ => some s
      else none
  | .bulkLoad claim =>
      if isFreshClaim s.db claim.id then
        match s.db.insertClaim claim with
        | .ok db => some { s with db := db }
        | .error _ => some s
      else none
  | .startBacklog pass =>
      match s.passes pass with
      | some _ => none
      | none => some { s with
          passes := Function.update s.passes pass (some s.db.findIdsWithoutEntityLinks) }
  | .resolveNext pass draws =>
      match s.passes pass with
      | none => none
      | some [] => some { s with passes := Function.update s.passes pass none }
      -- one transaction for each claim; the list was read when the pass began
      | some (claimId :: claimIds) =>
          if s.db.claims.all fun c => isFreshFor draws c.id then
            match resolveOne env draws s.db claimId with
            | .ok db => some ⟨db, Function.update s.passes pass (some claimIds)⟩
            | .error _ => some { s with passes := Function.update s.passes pass none }
          else none

end Intake

/-- Intake and backlog passes, started on empty tables. -/
def resolving (env : Env) : Lts Intake IntakeStep where
  init s := s.db.claims = [] ∧ s.db.entities = [] ∧ s.db.claimEntities = [] ∧
    ∀ pass, s.passes pass = none
  step := Intake.step env

theorem ne_of_isFreshFor {draws : LinkDraws} {id : UUID} (h : Intake.isFreshFor draws id = true)
    (entityType : EntityType) : id ≠ draws.entityId entityType := by
  unfold Intake.isFreshFor at h
  have hall := List.all_eq_true.1 h entityType
  cases entityType <;> simpa using hall

/-! ## What a step does -/

/-- A claim was inserted: its id is new, also among the ids of the entities, the columns hold
its texts, and the other tables are as they were. -/
structure Inserted (db db' : Db) (claim : Claim) : Prop where
  isNew : db.findById claim.id = none
  fresh : Intake.isFreshClaim db claim.id = true
  texts : ∀ text ∈ Db.claimTexts claim, Db.isText text = true
  claims : db'.claims = db.claims ++ [claim]
  entities : db'.entities = db.entities
  claimEntities : db'.claimEntities = db.claimEntities

/-- The claims, the entities and the links are the same. -/
structure SameLinks (db db' : Db) : Prop where
  claims : db'.claims = db.claims
  entities : db'.entities = db.entities
  claimEntities : db'.claimEntities = db.claimEntities

/-- Such databases differ in their other tables only. -/
theorem SameLinks.eq_with {db db' : Db} (h : SameLinks db db') :
    db' = { db with auditEvents := db'.auditEvents, outbox := db'.outbox } := by
  rw [← h.claims, ← h.entities, ← h.claimEntities]

theorem Inserted.mem {db db' : Db} {claim c : Claim} (h : Inserted db db' claim) :
    c ∈ db'.claims ↔ c ∈ db.claims ∨ c = claim := by
  rw [h.claims, List.mem_append, List.mem_singleton]

/-- The claim is stored with its amount rounded. -/
theorem exists_inserted {db db' : Db} {claim : Claim} (h : db.insertClaim claim = .ok db')
    (hfresh : Intake.isFreshClaim db claim.id = true) :
    ∃ amount, Inserted db db' { claim with claimAmount := amount } := by
  rcases Db.insertClaim_ok h with ⟨amount, hnew, rfl⟩
  unfold Db.insertClaim at h
  rcases Results.test_eq_ok.1 h with ⟨htexts, -⟩
  exact ⟨amount, hnew, hfresh, List.all_eq_true.1 htexts, rfl, rfl, rfl⟩

namespace Intake

variable {env : Env} {s s' : Intake}

/-- A call of `createClaim` is rolled back, or inserts its claim and then links it. -/
theorem step_createClaim {request : ClaimRequest} {draws : CreateDraws}
    (h : Intake.step env s (.createClaim request draws) = some s') :
    s' = s ∨ ∃ db₁ db₂ claim, Inserted s.db db₁ claim ∧
      (∀ c ∈ db₁.claims, ∀ entityType, c.id ≠ draws.link.entityId entityType) ∧
      resolveAndLink env draws.link db₁ claim = .ok db₂ ∧ SameLinks db₂ s'.db := by
  simp only [Intake.step, Bool.and_eq_true, List.all_eq_true] at h
  split at h
  · rename_i hfresh
    rcases hfresh with ⟨⟨hclaimFresh, hown⟩, hothers⟩
    split at h <;> cases h
    · rename_i db hcreate
      right
      unfold ClaimService.createClaim at hcreate
      rcases Results.bind_eq_ok.1 hcreate with ⟨db₁, hinsert, hcreate⟩
      rcases Results.bind_eq_ok.1 hcreate with ⟨db₂, hresolve, hcreate⟩
      rcases Results.bind_eq_ok.1 hcreate with ⟨db₃, happend, henqueue⟩
      rcases exists_inserted hinsert hclaimFresh with ⟨amount, hinserted⟩
      rcases Results.bind_eq_ok.1 happend with ⟨event, -, happend⟩
      rcases Db.insertAuditEvent_ok happend with ⟨row, -, -, -, -, rfl⟩
      rcases OutboxService.enqueue_ok henqueue with ⟨payload, -, rfl⟩
      refine ⟨db₁, db₂, _, hinserted, ?_, ?_, ⟨rfl, rfl, rfl⟩⟩
      · intro c hc
        rcases hinserted.mem.1 hc with hc | rfl
        · exact ne_of_isFreshFor (hothers c hc)
        · exact ne_of_isFreshFor hown
      · -- resolution does not read the amount
        rw [← hresolve]
        rfl
    · exact Or.inl rfl
  · cases h

/-- A bulk load is refused or inserts its claim. -/
theorem step_bulkLoad {claim : Claim} (h : Intake.step env s (.bulkLoad claim) = some s') :
    s' = s ∨ ∃ amount, Inserted s.db s'.db { claim with claimAmount := amount } := by
  simp only [Intake.step] at h
  split at h
  · rename_i hfresh
    split at h <;> cases h
    · rename_i db hinsert
      exact Or.inr (exists_inserted hinsert hfresh)
    · exact Or.inl rfl
  · cases h

/-- The start of a pass changes no table. -/
theorem step_startBacklog {pass : ℕ} (h : Intake.step env s (.startBacklog pass) = some s') :
    s'.db = s.db := by
  simp only [Intake.step] at h
  split at h <;> cases h
  rfl

/-- A pass ends, or resolves the next claim of its list, or changes no table because it
cannot. -/
theorem step_resolveNext {pass : ℕ} {draws : LinkDraws}
    (h : Intake.step env s (.resolveNext pass draws) = some s') :
    (s.passes pass = some [] ∧ s'.db = s.db) ∨ ∃ claimId claimIds,
      s.passes pass = some (claimId :: claimIds) ∧
      (∀ c ∈ s.db.claims, ∀ entityType, c.id ≠ draws.entityId entityType) ∧
      (resolveOne env draws s.db claimId = .ok s'.db ∨
        s'.db = s.db ∧ ∃ failure, resolveOne env draws s.db claimId = .error failure) := by
  simp only [Intake.step] at h
  split at h
  · cases h
  · rename_i hpass
    cases h
    exact Or.inl ⟨hpass, rfl⟩
  · rename_i claimId claimIds hpass
    split at h
    · rename_i hfresh
      refine Or.inr ⟨claimId, claimIds, hpass, ?_, ?_⟩
      · intro c hc
        exact ne_of_isFreshFor (List.all_eq_true.1 hfresh c hc)
      · split at h <;> cases h
        · rename_i db hresolve
          exact Or.inl hresolve
        · rename_i failure hresolve
          exact Or.inr ⟨rfl, failure, hresolve⟩
    · cases h

end Intake

/-! ## What stays resolved -/

/-- A claim that is not there has no link. -/
theorem Db.LinkTables.not_isLinked {env : Env} {db : Db} (ht : db.LinkTables env) {id : UUID}
    (hnew : db.findById id = none) : ¬ db.IsLinked id := by
  rintro ⟨l, hl, hid⟩
  rcases ht.sound l hl with ⟨c, hc, r, -, hlid, -⟩
  rw [hlid] at hid
  exact Table.find_eq_none.1 hnew c hc hid

/-- A claim that was just inserted has no link yet. -/
theorem Db.Resolved.insert {env : Env} {db db' : Db} {claim : Claim} (hr : db.Resolved env)
    (h : Inserted db db' claim) : db'.Resolved env := by
  have hrefs : db'.refs = db.refs := by rw [Db.refs, Db.refs, h.entities]
  have hids : Table.UniqueKeys Claim.id db'.claims := by
    have hsave := Table.uniqueKeys_save hr.claimIds claim
    rwa [Table.save_of_find_none h.isNew, ← h.claims] at hsave
  refine ⟨⟨hids, by rw [hrefs]; exact hr.entityIds, by rw [hrefs]; exact hr.entityKeys,
    by rw [h.claimEntities]; exact hr.linkIds, ?_, ?_⟩, ?_⟩
  · intro l hl
    rw [h.claimEntities] at hl
    rcases hr.sound l hl with ⟨c, hc, r, hr', hrest⟩
    exact ⟨c, h.mem.2 (Or.inl hc), r, by rwa [hrefs], hrest⟩
  · intro c hc r hmem
    rw [hrefs] at hmem
    rcases h.mem.1 hc with hc | rfl
    · exact hr.apart c hc r hmem
    · rcases List.mem_map.1 hmem with ⟨e, he, rfl⟩
      exact of_decide_eq_true (List.all_eq_true.1 h.fresh e he)
  · intro c hc hlinked entityType value hvalue
    unfold Db.IsLinked at hlinked
    rw [h.claimEntities] at hlinked
    rcases h.mem.1 hc with hc | rfl
    · unfold Db.HasLink
      rw [hrefs, h.claimEntities]
      exact hr.complete c hc hlinked entityType value hvalue
    · exact absurd hlinked (hr.not_isLinked h.isNew)

/-- Only claims, entities and links matter to what is resolved. -/
theorem Db.Resolved.congr {env : Env} {db db' : Db} (hr : db.Resolved env)
    (h : SameLinks db db') : db'.Resolved env := by
  rw [h.eq_with]
  exact ⟨⟨hr.claimIds, hr.entityIds, hr.entityKeys, hr.linkIds, hr.sound, hr.apart⟩, hr.complete⟩

/-- Resolving a claim of the table keeps resolved claims resolved. -/
theorem Db.Resolved.resolveAndLink {env : Env} {draws : LinkDraws} {db db' : Db} {claim : Claim}
    (hr : db.Resolved env) (hclaim : claim ∈ db.claims)
    (hfresh : ∀ c ∈ db.claims, ∀ entityType, c.id ≠ draws.entityId entityType)
    (h : EntityService.resolveAndLink env draws db claim = .ok db') : db'.Resolved env := by
  obtain ⟨hlinks, hall⟩ := links_of_resolveAndLink hr.toLinkTables hclaim hfresh h
  exact hr.of_links hclaim hlinks hall

/-- Every step keeps resolved claims resolved. -/
theorem Db.Resolved.step {env : Env} {s s' : Intake} {call : IntakeStep} (hr : s.db.Resolved env)
    (h : Intake.step env s call = some s') : s'.db.Resolved env := by
  cases call with
  | createClaim request draws =>
      rcases Intake.step_createClaim h with
        rfl | ⟨db₁, db₂, claim, hinserted, hfresh, hresolve, hsame⟩
      · exact hr
      · -- first the insert, then the links of the new claim
        have hr₁ := hr.insert hinserted
        exact (hr₁.resolveAndLink (hinserted.mem.2 (Or.inr rfl)) hfresh hresolve).congr hsame
  | bulkLoad claim =>
      rcases Intake.step_bulkLoad h with rfl | ⟨amount, hinserted⟩
      · exact hr
      · exact hr.insert hinserted
  | startBacklog pass =>
      rw [Intake.step_startBacklog h]
      exact hr
  | resolveNext pass draws =>
      rcases Intake.step_resolveNext h with ⟨-, hdb⟩ | ⟨claimId, claimIds, -, hfresh, hone⟩
      · rw [hdb]
        exact hr
      · rcases hone with hresolve | ⟨hdb, -⟩
        · unfold resolveOne at hresolve
          split at hresolve
          · rw [← Results.pure_eq_ok.1 hresolve]
            exact hr
          · rename_i claim hclaim
            exact hr.resolveAndLink (Table.find_eq_some hclaim).1 hfresh hresolve
        · rw [hdb]
          exact hr

theorem resolved_of_reachable {env : Env} {s : Intake} (h : (resolving env).Reachable s) :
    s.db.Resolved env := by
  refine h.invariant (I := fun s => s.db.Resolved env) ?_ fun _ _ _ hr hstep => hr.step hstep
  rintro s ⟨hclaims, hentities, hlinks, -⟩
  refine ⟨⟨?_, ?_, ?_, ?_, ?_, ?_⟩, ?_⟩
  · rw [hclaims]
    exact Table.uniqueKeys_nil
  · simp [Db.refs, hentities]
  · simp [Db.refs, hentities]
  · rw [hlinks]
    exact Table.uniqueKeys_nil
  · simp [hlinks]
  · simp [hclaims]
  · simp [hclaims]

/-- A claim is linked to an entity exactly when it is resolved and the raw field of
that type normalizes to the entity's value. -/
theorem Db.Resolved.hasLink_iff {env : Env} {db : Db} (hr : db.Resolved env) {claim : Claim}
    (hclaim : claim ∈ db.claims) (entityType : EntityType) (value : String) :
    db.HasLink claim.id entityType value ↔
      db.IsLinked claim.id ∧ canonicalValue env claim entityType = some value := by
  constructor
  · rintro ⟨id, href, l, hl, hid⟩
    refine ⟨⟨l, hl, by rw [hid]⟩, ?_⟩
    rcases hr.sound l hl with ⟨c, hc, r, hr', hlid, hcanonical⟩
    rw [hid, ClaimEntityLinkId.mk.injEq] at hlid
    rcases hlid with ⟨hcid, hrid, -⟩
    obtain rfl : claim = c := List.inj_on_of_nodup_map hr.claimIds hclaim hc hcid
    obtain rfl : (id, entityType, value) = r :=
      List.inj_on_of_nodup_map hr.entityIds href hr' hrid
    exact hcanonical
  · rintro ⟨hlinked, hvalue⟩
    exact hr.complete claim hclaim hlinked entityType value hvalue

end ClaimGuard
