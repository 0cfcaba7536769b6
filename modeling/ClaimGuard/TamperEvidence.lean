import Mathlib.Data.List.Forall2
import ClaimGuard.JsonLeaves
import ClaimGuard.Runs

/-!
# Tamper evidence

What the last hash of a trail commits to, and which deletions `verify` detects.
SHA-256 is assumed injective, and without a preimage of the genesis hash, on the
strings at hand.
-/

namespace ClaimGuard

open AuditService ClaimService CanonicalJson

/-! ## What a hash covers -/

/-- The parsed explanation of a row, a missing one being JSON null. -/
def explanationTree (e : ClaimAuditEvent) : Json := (e.explanationJson.map parse).getD .null

/-- Two rows agree on every hashed field, the explanations up to `R`. -/
structure SameFields (R : Json → Json → Prop) (e f : ClaimAuditEvent) : Prop where
  claimId : e.claimId = f.claimId
  seq : e.seq = f.seq
  eventType : e.eventType = f.eventType
  fromStatus : e.fromStatus = f.fromStatus
  toStatus : e.toStatus = f.toStatus
  actorId : e.actorId = f.actorId
  actorRole : e.actorRole = f.actorRole
  reason : e.reason = f.reason
  fraudScore : e.fraudScore.map (·.setScale 4) = f.fraudScore.map (·.setScale 4)
  ringId : e.ringId = f.ringId
  explanation : R (explanationTree e) (explanationTree f)
  modelVersion : e.modelVersion = f.modelVersion
  occurredAt : e.occurredAt = f.occurredAt
  prevHash : e.prevHash = f.prevHash

theorem SameFields.imp {R S : Json → Json → Prop} {e f : ClaimAuditEvent} (h : SameFields R e f)
    (hRS : R (explanationTree e) (explanationTree f) → S (explanationTree e) (explanationTree f)) :
    SameFields S e f :=
  ⟨h.claimId, h.seq, h.eventType, h.fromStatus, h.toStatus, h.actorId, h.actorRole, h.reason,
    h.fraudScore, h.ringId, hRS h.explanation, h.modelVersion, h.occurredAt, h.prevHash⟩

/-- A nullable string is read back from its canonical text. -/
theorem jsonString_inj {a b : Option String}
    (h : canonicalText (jsonString a) = canonicalText (jsonString b)) : a = b := by
  cases a with
  | none =>
      cases b with
      | none => rfl
      | some t => simp [jsonString] at h
  | some s =>
      cases b with
      | none => simp [jsonString] at h
      | some t =>
          simp only [jsonString, canonicalText_str, JsonText.str.injEq] at h
          rw [h]

/-- Maps with the same keys in the same order and the same entries are equal. -/
theorem eq_of_perm_of_keys {α : Type} {l m : List (String × α)}
    (hkeys : l.map Prod.fst = m.map Prod.fst) (hnodup : (l.map Prod.fst).Nodup) (h : l.Perm m) :
    l = m := by
  have hinj := List.inj_on_of_nodup_map (hkeys ▸ hnodup)
  apply List.ext_getElem h.length_eq
  intro i hi hj
  have hkey : (l[i]).1 = (m[i]).1 := by
    have hget := congrArg (fun keys => keys[i]?) hkeys
    simpa only [List.getElem?_map, List.getElem?_eq_getElem hi, List.getElem?_eq_getElem hj,
      Option.map_some, Option.some.injEq] using hget
  exact hinj (h.mem_iff.1 (List.getElem_mem hi)) (List.getElem_mem hj) hkey

/-- The hashed string determines every hashed field, and the explanation as far
as its canonical text does. -/
theorem sameFields_of_hashedText {e f : ClaimAuditEvent}
    (hlen : e.prevHash.toList.length = f.prevHash.toList.length)
    (h : hashedText e = hashedText f) :
    SameFields (fun v w => canonicalText v = canonicalText w) e f := by
  have hlist : e.prevHash.toList ++ (canonicalize (fieldsFor e)).toList =
      f.prevHash.toList ++ (canonicalize (fieldsFor f)).toList := by
    rw [← String.toList_append, ← String.toList_append]
    exact congrArg String.toList h
  -- links of one length: the string splits into the link and the fields
  rcases List.append_inj hlist hlen with ⟨hprev, hcanonical⟩
  have hperm := canonicalize_inj (String.toList_inj.1 hcanonical)
  have hnodup : (((fieldsFor e).map fun x => (x.1, canonicalText x.2)).map Prod.fst).Nodup := by
    simp only [fieldsFor, List.map_cons, List.map_nil]
    decide
  -- both maps have the same fourteen keys, so the fields agree one by one
  have hfields := eq_of_perm_of_keys (by simp [fieldsFor]) hnodup hperm
  simp only [fieldsFor, List.map_cons, List.map_nil, List.cons.injEq, Prod.mk.injEq, true_and,
    and_true, canonicalText_str, canonicalText_int, JsonText.str.injEq] at hfields
  obtain ⟨hclaimId, hseq, heventType, hfrom, hto, hactorId, hactorRole, hreason, hscore, hringId,
    hexplanation, hmodelVersion, hoccurredAt, -⟩ := hfields
  refine ⟨UUID.toString_injective hclaimId, ?_, AuditEventType.name_injective heventType, ?_, ?_,
    hactorId, ActorRole.name_injective hactorRole, jsonString_inj hreason, ?_,
    jsonString_inj hringId, hexplanation, jsonString_inj hmodelVersion,
    Instant.toString_injective hoccurredAt, String.toList_inj.1 hprev⟩
  -- the number, the two statuses and the score
  · rw [← Numeral.toInt_ofInt e.seq, JsonText.num.inj hseq, Numeral.toInt_ofInt]
  · exact Option.map_injective ClaimStatus.name_injective (jsonString_inj hfrom)
  · exact Option.map_injective ClaimStatus.name_injective (jsonString_inj hto)
  · have hscore' := jsonString_inj hscore
    cases he : e.fraudScore with
    | none =>
        cases hf : f.fraudScore with
        | none => rfl
        | some d => simp [he, hf] at hscore'
    | some c =>
        cases hf : f.fraudScore with
        | none => simp [he, hf] at hscore'
        | some d =>
            simp only [he, hf, Option.map_some, Option.some.injEq] at hscore' ⊢
            exact BigDecimal.toPlainString_inj rfl (String.ofList_injective hscore')

/-! ## The digest -/

/-- The strings the hashes of some rows are taken of. -/
def hashedTexts (rows : List ClaimAuditEvent) : Set String := {t | ∃ r ∈ rows, t = hashedText r}

/-- What is assumed of SHA-256 on the strings at hand: no collision, and no
preimage of the genesis hash. -/
def DigestSound (env : Env) (texts : Set String) : Prop :=
  Set.InjOn env.digest texts ∧ ∀ t ∈ texts, sha256 env t ≠ genesisHash

theorem length_sha256 (env : Env) (t : String) : (sha256 env t).toList.length = 64 := by
  unfold sha256
  rw [String.toList_ofList, Text.length_fixed]

theorem length_genesisHash : genesisHash.toList.length = 64 := by
  unfold genesisHash
  rw [String.toList_ofList, List.length_replicate]

/-- The hexadecimal digits of a digest determine it. -/
theorem digest_eq_of_sha256_eq {env : Env} {s t : String} (h : sha256 env s = sha256 env t) :
    env.digest s = env.digest t := by
  have hdigits := String.ofList_injective h
  have hlt : ∀ u, (env.digest u).toNat < 16 ^ 64 := by
    intro u
    exact lt_of_lt_of_eq (env.digest u).isLt (by norm_num)
  have hnat := Text.fixed_inj (by decide) (by decide) (hlt s) (hlt t) hdigits
  exact BitVec.eq_of_toNat_eq hnat

/-- Equal hashes are hashes of equal strings. -/
theorem eq_of_sha256_eq {env : Env} {texts : Set String} (hsound : DigestSound env texts)
    {s t : String} (hs : s ∈ texts) (ht : t ∈ texts) (h : sha256 env s = sha256 env t) : s = t :=
  hsound.1 hs ht (digest_eq_of_sha256_eq h)

/-- In a trail that verifies every link has the length of a hash. -/
theorem length_prevHash {env : Env} {rows : List ClaimAuditEvent}
    (h : verifyRows env rows = true) {r : ClaimAuditEvent} (hr : r ∈ rows) :
    r.prevHash.toList.length = 64 := by
  -- the link is the genesis hash or the hash of a row, recomputed
  rcases (chain env).prev_eq_or_mem h hr with hprev | hprev
  · have : r.prevHash = genesisHash := hprev
    rw [this, length_genesisHash]
  · rcases List.mem_map.1 hprev with ⟨s, hs, hsr⟩
    have hhash : rowHash env s = s.hash := (chain env).recompute_eq_of_mem h hs
    have hlink : s.hash = r.prevHash := hsr
    rw [← hlink, ← hhash]
    exact length_sha256 env _

/-- Rows of trails that verify and have one hash agree on what is hashed. -/
theorem sameFields_of_rowHash {env : Env} {rows rows' : List ClaimAuditEvent}
    (hsound : DigestSound env (hashedTexts (rows ++ rows'))) (h : verifyRows env rows = true)
    (h' : verifyRows env rows' = true) {r s : ClaimAuditEvent} (hr : r ∈ rows) (hs : s ∈ rows')
    (hhash : rowHash env r = rowHash env s) :
    SameFields (fun v w => canonicalText v = canonicalText w) r s := by
  have htext : hashedText r = hashedText s :=
    eq_of_sha256_eq hsound ⟨r, by simp [hr], rfl⟩ ⟨s, by simp [hs], rfl⟩ hhash
  exact sameFields_of_hashedText (by rw [length_prevHash h hr, length_prevHash h' hs]) htext

/-- A digest without collisions that is never zero is sound. -/
theorem digestSound_of_injOn {env : Env} {texts : Set String} (h : Set.InjOn env.digest texts)
    (hdigest : ∀ t ∈ texts, env.digest t ≠ 0) : DigestSound env texts := by
  refine ⟨h, ?_⟩
  intro t ht hgenesis
  have hzero : Text.fixed 16 64 (env.digest t).toNat = Text.fixed 16 64 0 :=
    String.ofList_injective hgenesis
  have hnat := Text.fixed_inj (by decide) (by decide)
    (lt_of_lt_of_eq (env.digest t).isLt (by norm_num)) (by norm_num) hzero
  exact hdigest t ht (BitVec.eq_of_toNat_eq hnat)

theorem hashedText_sealEvent (env : Env) (event : ClaimAuditEvent) :
    hashedText (sealEvent env event) = hashedText event := by
  have hfields : fieldsFor (sealEvent env event) = fieldsFor event := by
    simp only [fieldsFor, sealEvent]
  have hprev : (sealEvent env event).prevHash = event.prevHash := by
    simp only [sealEvent]
  simp only [hashedText, hfields, hprev]

/-- A sealed event on top of a trail that verifies. -/
theorem verifyRows_append_sealEvent {env : Env} (rows : List ClaimAuditEvent)
    {event : ClaimAuditEvent} (h : verifyRows env rows = true)
    (hprev : event.prevHash = (chain env).lastHash genesisHash rows) :
    verifyRows env (rows ++ [sealEvent env event]) = true := by
  unfold verifyRows at h ⊢
  rw [HashChain.verifyFrom_append_singleton, chain_prev, chain_hash, chain_recompute,
    rowHash_sealEvent]
  refine ⟨h, ?_, ?_⟩
  · simp only [sealEvent, hprev]
  · simp only [sealEvent]

/-- Two rows whose texts have different digests. -/
theorem digestSound_pair {env : Env} {r s : ClaimAuditEvent}
    (hne : env.digest (hashedText r) ≠ env.digest (hashedText s))
    (hr : env.digest (hashedText r) ≠ 0) (hs : env.digest (hashedText s) ≠ 0) :
    DigestSound env (hashedTexts [r, s]) := by
  have hcases : ∀ t ∈ hashedTexts [r, s], t = hashedText r ∨ t = hashedText s := by
    rintro t ⟨e, he, rfl⟩
    rcases List.mem_cons.1 he with rfl | he
    · exact Or.inl rfl
    · rw [List.mem_singleton.1 he]
      exact Or.inr rfl
  refine digestSound_of_injOn ?_ ?_
  · intro t ht u hu heq
    rcases hcases t ht with rfl | rfl <;> rcases hcases u hu with rfl | rfl
    · rfl
    · exact absurd heq hne
    · exact absurd heq.symm hne
    · rfl
  · intro t ht
    rcases hcases t ht with rfl | rfl
    · exact hr
    · exact hs

/-- A sealed first event is a trail that verifies. -/
theorem verifyRows_sealEvent {env : Env} {event : ClaimAuditEvent}
    (h : event.prevHash = genesisHash) : verifyRows env [sealEvent env event] = true :=
  verifyRows_append_sealEvent [] rfl h

/-! ## The head hash commits to the trail -/

/-- A trail that cannot be replaced without changing its last hash: every other
non-empty list of rows of the claim that verifies and ends in that hash agrees
with it row by row on every hashed field. -/
def TamperEvident (env : Env) (claimId : UUID) (rows : List ClaimAuditEvent) : Prop :=
  ∀ rows', rows' ≠ [] → (∀ r ∈ rows', r.claimId = claimId) →
    DigestSound env (hashedTexts (rows ++ rows')) → verifyRows env rows' = true →
    rows'.getLast?.map ClaimAuditEvent.hash = rows.getLast?.map ClaimAuditEvent.hash →
    List.Forall₂ (SameFields SameTree) rows rows'

/-- Whatever ends in the same hash has the same hashed strings. -/
theorem forall₂_sameFields {env : Env} {rows rows' : List ClaimAuditEvent}
    (hsound : DigestSound env (hashedTexts (rows ++ rows'))) (h : verifyRows env rows = true)
    (h' : verifyRows env rows' = true)
    (hlast : rows'.getLast?.map ClaimAuditEvent.hash = rows.getLast?.map ClaimAuditEvent.hash) :
    List.Forall₂ (fun r s => r ∈ rows ∧
      SameFields (fun v w => canonicalText v = canonicalText w) r s) rows rows' := by
  have hgenesis : ∀ r ∈ rows ++ rows', (chain env).recompute r ≠ genesisHash :=
    fun r hr => hsound.2 _ ⟨r, hr, rfl⟩
  -- from the last row back: equal hashes give equal links
  refine (chain env).forall₂_of_lastHash_eq ?_ (fun r hr => hgenesis r (by simp [hr]))
    (fun s hs => hgenesis s (by simp [hs])) h h' ?_
  · intro r hr s hs hhash
    have hsame := sameFields_of_rowHash hsound h h' hr hs hhash
    exact ⟨hsame.prevHash, hr, hsame⟩
  · unfold HashChain.lastHash
    exact congrArg (fun o => Option.getD o genesisHash) hlast.symm

/-- A row with its explanation replaced by a text of the tree with changed leaves. -/
def tamper (f : Json → Json) (r : ClaimAuditEvent) : ClaimAuditEvent :=
  { r with
    explanationJson := r.explanationJson.map fun t => Json.spell (Json.mapLeaves f (parse t)) }

theorem explanationTree_tamper {f : Json → Json}
    (hf : ∀ x, x.isLeaf = true → (f x).isLeaf = true) (hnull : f .null = .null)
    (r : ClaimAuditEvent) :
    explanationTree (tamper f r) = Json.mapLeaves f (explanationTree r) := by
  unfold explanationTree tamper
  cases r.explanationJson with
  | none =>
      simp only [Option.map_none, Option.getD_none]
      exact hnull.symm
  | some t =>
      simp only [Option.map_some, Option.getD_some]
      exact Json.parse_spell (Json.uniqueKeys_mapLeaves hf (Json.uniqueKeys_parse t))

/-- Exchanging leaves that are written alike keeps the hashed string. -/
theorem hashedText_tamper {f : Json → Json} (hf : ∀ x, x.isLeaf = true → (f x).isLeaf = true)
    (htext : ∀ x, x.isLeaf = true → toText (f x) = toText x) (hnull : f .null = .null)
    (r : ClaimAuditEvent) : hashedText (tamper f r) = hashedText r := by
  have hexplanation : canonicalText (((tamper f r).explanationJson.map parse).getD .null) =
      canonicalText ((r.explanationJson.map parse).getD .null) := by
    have := explanationTree_tamper hf hnull r
    unfold explanationTree at this
    rw [this, Json.canonicalText_mapLeaves hf htext]
  have hfields : canonicalize (fieldsFor (tamper f r)) = canonicalize (fieldsFor r) := by
    apply canonicalize_congr
    simp only [fieldsFor, List.map_cons, List.map_nil, hexplanation]
    simp only [tamper]
  have hprev : (tamper f r).prevHash = r.prevHash := rfl
  unfold hashedText
  rw [hfields, hprev]

/-- Such an exchange in a tamper-evident trail changes no tree. -/
theorem sameTree_of_tamperEvident {env : Env} {claimId : UUID} {rows : List ClaimAuditEvent}
    {f : Json → Json} (hf : ∀ x, x.isLeaf = true → (f x).isLeaf = true)
    (htext : ∀ x, x.isLeaf = true → toText (f x) = toText x) (hnull : f .null = .null)
    (hne : rows ≠ []) (hclaim : ∀ r ∈ rows, r.claimId = claimId)
    (hsound : DigestSound env (hashedTexts rows)) (hverify : verifyRows env rows = true)
    (hevident : TamperEvident env claimId rows) {r : ClaimAuditEvent} (hr : r ∈ rows) :
    SameTree (explanationTree r) (Json.mapLeaves f (explanationTree r)) := by
  have hsame : ∀ s, hashedText (tamper f s) = hashedText s := hashedText_tamper hf htext hnull
  have htexts : hashedTexts (rows ++ rows.map (tamper f)) = hashedTexts rows := by
    ext t
    constructor
    · rintro ⟨s, hs, rfl⟩
      rcases List.mem_append.1 hs with hs | hs
      · exact ⟨s, hs, rfl⟩
      · rcases List.mem_map.1 hs with ⟨s', hs', rfl⟩
        exact ⟨s', hs', hsame s'⟩
    · rintro ⟨s, hs, rfl⟩
      exact ⟨s, by simp [hs], rfl⟩
  have hrow : ∀ s, rowHash env (tamper f s) = rowHash env s := by
    intro s
    unfold rowHash
    rw [hsame]
  -- links and hashes are untouched, so the changed trail verifies as the old one did
  have hverify' : verifyRows env (rows.map (tamper f)) = true := by
    unfold verifyRows
    rw [(chain env).verifyFrom_map rows]
    · exact hverify
    · intro s _
      simp only [chain_prev, tamper]
    · intro s _
      simp only [chain_hash, tamper]
    · intro s _
      rw [chain_recompute, chain_recompute, hrow]
  have hlast : (rows.map (tamper f)).getLast?.map ClaimAuditEvent.hash =
      rows.getLast?.map ClaimAuditEvent.hash := by
    rw [List.getLast?_map, Option.map_map]
    rfl
  have hforall := hevident (rows.map (tamper f)) (by simpa using hne)
    (by
      intro s hs
      rcases List.mem_map.1 hs with ⟨s', hs', rfl⟩
      exact hclaim s' hs')
    (by rw [htexts]; exact hsound) hverify' hlast
  rw [List.forall₂_map_right_iff, List.forall₂_same] at hforall
  have := (hforall r hr).explanation
  rwa [explanationTree_tamper hf hnull] at this

/-- A trail is tamper-evident exactly when no number of an explanation overflowed
and no string of one looks like a number that did: an overflowed double is hashed
as the string `"Infinity"`. -/
theorem tamperEvident_iff (env : Env) (claimId : UUID) (rows : List ClaimAuditEvent)
    (hne : rows ≠ []) (hclaim : ∀ r ∈ rows, r.claimId = claimId)
    (hsound : DigestSound env (hashedTexts rows)) (hverify : verifyRows env rows = true) :
    TamperEvident env claimId rows ↔ ∀ r ∈ rows, Json.Clear (explanationTree r) := by
  constructor
  · intro hevident r hr
    by_contra hunclear
    rcases Json.exists_mapLeaves_not_sameTree hunclear with hblur | hsharpen
    · exact hblur (sameTree_of_tamperEvident (fun _ => Json.isLeaf_blur)
        (fun x _ => Json.toText_blur x) rfl hne hclaim hsound hverify hevident hr)
    · exact hsharpen (sameTree_of_tamperEvident (fun _ => Json.isLeaf_sharpen)
        (fun x _ => Json.toText_sharpen x) rfl hne hclaim hsound hverify hevident hr)
  · intro hclear rows' _ _ hsound' hverify' hlast
    apply (forall₂_sameFields hsound' hverify hverify' hlast).imp
    rintro r s ⟨hr, hsame⟩
    exact hsame.imp (Json.sameTree_of_canonicalText (hclear r hr))

namespace Sample

/-- The creation of a claim and its score, whose explanation has numbers and strings. -/
def scoredTrail : List ClaimAuditEvent :=
  [sealEvent auditEnv firstDraft, sealEvent auditEnv scoringDraft]

/-- The row is linked to the first one. -/
theorem prevHash_scoringDraft :
    scoringDraft.prevHash = (sealEvent auditEnv firstDraft).hash := by
  show _ = sha256 auditEnv (hashedText firstDraft)
  simp only [sha256, auditEnv, if_true]
  decide +kernel

theorem verifyRows_scoredTrail : verifyRows auditEnv scoredTrail = true :=
  verifyRows_append_sealEvent [sealEvent auditEnv firstDraft] (verifyRows_sealEvent rfl)
    prevHash_scoringDraft

/-- The texts of the two rows differ, by their numbers alone. -/
theorem hashedText_scoringDraft_ne : hashedText scoringDraft ≠ hashedText firstDraft := by
  intro h
  have hlen : scoringDraft.prevHash.toList.length = firstDraft.prevHash.toList.length := by
    decide +kernel
  have hseq := (sameFields_of_hashedText hlen h).seq
  simp [scoringDraft, firstDraft, draftEvent] at hseq

theorem digestSound_scoredTrail : DigestSound auditEnv (hashedTexts scoredTrail) := by
  have hfirst : auditEnv.digest (hashedText (sealEvent auditEnv firstDraft)) =
      0xcdeb1a42745f9eee6a66681dd60bdd835b034362f58c6b27dc4b71fa61668e05 := by
    simp [auditEnv, hashedText_sealEvent]
  have hsecond : auditEnv.digest (hashedText (sealEvent auditEnv scoringDraft)) =
      0xd45454af55fa8a228c9da668653c959192d71e97ec994cfb65316783def0d07a := by
    simp [auditEnv, hashedText_sealEvent, hashedText_scoringDraft_ne]
  apply digestSound_pair <;> simp only [hfirst, hsecond] <;> decide

end Sample

/-- The scored trail is tamper-evident: none of its numbers overflowed. -/
theorem tamperEvident_scoredTrail : TamperEvident Sample.auditEnv ⟨1⟩ Sample.scoredTrail := by
  refine (tamperEvident_iff Sample.auditEnv ⟨1⟩ Sample.scoredTrail (List.cons_ne_nil _ _) ?_
    Sample.digestSound_scoredTrail Sample.verifyRows_scoredTrail).2 ?_
  · intro r hr
    rcases List.mem_cons.1 hr with rfl | hr
    · rfl
    · rw [List.mem_singleton.1 hr]
      rfl
  · intro r hr
    rcases List.mem_cons.1 hr with rfl | hr
    · intro x hx
      rw [List.mem_singleton.1 hx]
      rfl
    · rw [List.mem_singleton.1 hr]
      -- two numbers and four strings
      have hleaves : (Json.leaves (explanationTree
          (sealEvent Sample.auditEnv Sample.scoringDraft))).all (fun x => !x.isAmbiguous) = true := by
        decide +kernel
      rw [List.all_eq_true] at hleaves
      intro x hx
      simpa using hleaves x hx

/-- The outside pieces of the scored sample: the digest is that of its text. -/
def Sample.scoredEnv : Env :=
  { Sample.env with
    digest := fun _ => 0xb94ff5f7bb30086674e5c943a1652ecfea4f95eac70fb1938ea96b31ec4bbba3 }

/-- A scored first event with a given explanation, before its hash. -/
def Sample.scoredDraft (explanation : JsonText) : ClaimAuditEvent :=
  draftEvent ⟨1⟩ none
    { eventType := .fraudScored
      fromStatus := some .submitted
      toStatus := some .flagged
      actorId := scoringActorId
      actorRole := .system
      reason := none
      fraudScore := some ⟨9000, 4⟩
      ringId := none
      explanationJson := none
      modelVersion := some "v1" } (some explanation) Sample.now

/-- A scored first event with a given explanation. -/
def Sample.scored (explanation : Json) : ClaimAuditEvent :=
  sealEvent Sample.scoredEnv (Sample.scoredDraft (Json.spell explanation))

/-- An amount of `10^400` written with one decimal. -/
def Sample.overflowed : Json := .obj [("claim_amount", .double (.infinite false))]

/-- The same amount replaced by a string. -/
def Sample.replaced : Json := .obj [("claim_amount", .str "Infinity")]

/-- Replacing the overflowed amount by a string keeps the head hash and verifies. -/
theorem overflow_replaced_undetected :
    verifyRows Sample.scoredEnv [Sample.scored Sample.overflowed] = true ∧
      verifyRows Sample.scoredEnv [Sample.scored Sample.replaced] = true ∧
      (Sample.scored Sample.overflowed).hash = (Sample.scored Sample.replaced).hash ∧
      DigestSound Sample.scoredEnv
        (hashedTexts ([Sample.scored Sample.overflowed] ++ [Sample.scored Sample.replaced])) ∧
      ¬ SameFields SameTree (Sample.scored Sample.overflowed) (Sample.scored Sample.replaced) := by
  have hparse : ∀ v : Json, v.UniqueKeys → explanationTree (Sample.scored v) = v :=
    fun v hv => Json.parse_spell hv
  have hoverflowed := hparse Sample.overflowed (by simp [Sample.overflowed, Json.UniqueKeys])
  have hreplaced := hparse Sample.replaced (by simp [Sample.replaced, Json.UniqueKeys])
  have hverify : ∀ v, verifyRows Sample.scoredEnv [Sample.scored v] = true := by
    intro v
    unfold Sample.scored
    apply verifyRows_sealEvent
    simp only [Sample.scoredDraft, draftEvent]
  have hhash : ∀ v w, (Sample.scored v).hash = (Sample.scored w).hash := by
    intro v w
    simp only [Sample.scored, sealEvent, rowHash, sha256, Sample.scoredEnv]
  have hcanonical : canonicalText Sample.overflowed = canonicalText Sample.replaced := by
    unfold Sample.overflowed Sample.replaced
    rw [canonicalText_obj, canonicalText_obj]
    rfl
  have htext : hashedText (Sample.scored Sample.overflowed) =
      hashedText (Sample.scored Sample.replaced) := by
    unfold explanationTree at hoverflowed hreplaced
    have hfields : canonicalize (fieldsFor (Sample.scored Sample.overflowed)) =
        canonicalize (fieldsFor (Sample.scored Sample.replaced)) := by
      apply canonicalize_congr
      simp only [fieldsFor, List.map_cons, List.map_nil, hoverflowed, hreplaced, hcanonical]
      simp only [Sample.scored, Sample.scoredDraft, sealEvent, draftEvent]
    have hprev : (Sample.scored Sample.overflowed).prevHash =
        (Sample.scored Sample.replaced).prevHash := by
      simp only [Sample.scored, Sample.scoredDraft, sealEvent, draftEvent]
    unfold hashedText
    rw [hfields, hprev]
  refine ⟨hverify _, hverify _, hhash _ _, ?_, ?_⟩
  · apply digestSound_of_injOn
    · apply Set.Subsingleton.injOn
      rintro s ⟨r₁, h₁, rfl⟩ t ⟨r₂, h₂, rfl⟩
      simp only [List.cons_append, List.nil_append, List.mem_cons, List.not_mem_nil, or_false]
        at h₁ h₂
      rcases h₁ with rfl | rfl <;> rcases h₂ with rfl | rfl <;> simp only [htext]
    · intro t _
      show (0xb94ff5f7bb30086674e5c943a1652ecfea4f95eac70fb1938ea96b31ec4bbba3 : BitVec 256) ≠ 0
      decide
  -- the overflowed number is a leaf of one tree and not of the other
  · intro hsame
    have hmem := (Json.mem_leaves_of_sameTree (x := .double (.infinite false)) hsame.explanation).1
    rw [hoverflowed, hreplaced] at hmem
    have := hmem (by simp [Sample.overflowed, Json.leaves, Json.leavesFields])
    simp [Sample.replaced, Json.leaves, Json.leavesFields] at this

/-! ## Deleted rows -/

/-- The database after some audit rows were deleted directly from the table. -/
def Db.deleteRows (db : Db) (deleted : ClaimAuditEvent → Bool) : Db :=
  { db with auditEvents := db.auditEvents.filter fun e => !deleted e }

/-- The trail that is left is the trail without the deleted rows. -/
theorem findByClaimIdOrderBySeq_deleteRows (db : Db) (deleted : ClaimAuditEvent → Bool)
    (claimId : UUID) :
    (db.deleteRows deleted).findByClaimIdOrderBySeq claimId =
      (db.findByClaimIdOrderBySeq claimId).filter fun e => !deleted e := by
  unfold Db.findByClaimIdOrderBySeq Db.eventsOf Db.deleteRows
  simp only
  rw [List.filter_comm, Table.insertionSort_filter]
  · exact fun a b c hab hbc => le_trans hab hbc
  · exact fun a b => le_total a.seq b.seq

/-- With unique numbers the trail is strictly ascending. -/
theorem pairwise_seq_trail {db : Db} {claimId : UUID}
    (h : ((db.eventsOf claimId).map ClaimAuditEvent.seq).Nodup) :
    (db.findByClaimIdOrderBySeq claimId).Pairwise fun a b => a.seq < b.seq := by
  have hperm : (db.findByClaimIdOrderBySeq claimId).Perm (db.eventsOf claimId) :=
    List.perm_insertionSort _ _
  have hnodup : ((db.findByClaimIdOrderBySeq claimId).map ClaimAuditEvent.seq).Nodup :=
    (hperm.map ClaimAuditEvent.seq).nodup_iff.2 h
  have hsorted : (db.findByClaimIdOrderBySeq claimId).Pairwise fun a b => a.seq ≤ b.seq := by
    have : Std.Total (fun a b : ClaimAuditEvent => a.seq ≤ b.seq) :=
      ⟨fun a b => le_total a.seq b.seq⟩
    have : IsTrans ClaimAuditEvent (fun a b => a.seq ≤ b.seq) := ⟨fun _ _ _ => le_trans⟩
    exact List.pairwise_insertionSort _ _
  rw [List.Nodup, List.pairwise_map] at hnodup
  exact (hsorted.and hnodup).imp fun hab => lt_of_le_of_ne hab.1 hab.2

/-- Rows of a trail that verifies have distinct hashes, none of them the genesis
hash. -/
theorem nodup_hash_trail {env : Env} {rows : List ClaimAuditEvent}
    (hsound : DigestSound env (hashedTexts rows)) (hverify : verifyRows env rows = true)
    (hseq : rows.Pairwise fun a b => a.seq < b.seq) :
    (rows.map (chain env).hash).Nodup ∧ genesisHash ∉ rows.map (chain env).hash := by
  have hhash : ∀ r ∈ rows, rowHash env r = r.hash :=
    fun r hr => (chain env).recompute_eq_of_mem hverify hr
  constructor
  · rw [List.Nodup, List.pairwise_map]
    apply hseq.imp_of_mem
    intro a b ha hb hlt heq
    rw [chain_hash, chain_hash] at heq
    -- equal hashes would mean equal numbers
    have hrow : rowHash env a = rowHash env b := by rw [hhash a ha, hhash b hb, heq]
    have hsound' : DigestSound env (hashedTexts (rows ++ rows)) := by
      have htexts : hashedTexts (rows ++ rows) = hashedTexts rows := by
        ext t
        simp [hashedTexts]
      rw [htexts]
      exact hsound
    have hsame := (sameFields_of_rowHash hsound' hverify hverify ha hb hrow).seq
    exact absurd hsame (ne_of_lt hlt)
  · intro hmem
    rcases List.mem_map.1 hmem with ⟨r, hr, hgenesis⟩
    rw [chain_hash, ← hhash r hr] at hgenesis
    exact hsound.2 _ ⟨r, hr, rfl⟩ hgenesis

/-- What is left of a trail that verifies does so exactly when no row that is left
comes after a deleted one. -/
theorem verify_deleteRows_eq_true {env : Env} {db : Db} {claimId : UUID}
    {deleted : ClaimAuditEvent → Bool}
    (hsound : DigestSound env (hashedTexts (db.findByClaimIdOrderBySeq claimId)))
    (hverify : verify env db claimId = true)
    (hseq : (db.findByClaimIdOrderBySeq claimId).Pairwise fun a b => a.seq < b.seq) :
    verify env (db.deleteRows deleted) claimId = true ↔
      (db.findByClaimIdOrderBySeq claimId).Pairwise fun a b =>
        (!deleted b) = true → (!deleted a) = true := by
  rcases nodup_hash_trail hsound hverify hseq with ⟨hnodup, hgenesis⟩
  rw [← HashChain.filter_prefix_iff, verify, findByClaimIdOrderBySeq_deleteRows]
  constructor
  · exact (chain env).prefix_of_sublist hverify hnodup hgenesis List.filter_sublist
  · exact (chain env).verifyFrom_initial hverify

/-- In a strictly ascending trail the row with the smaller number comes first. -/
theorem pairwise_kept_iff {rows : List ClaimAuditEvent}
    (hseq : rows.Pairwise fun a b => a.seq < b.seq) (deleted : ClaimAuditEvent → Bool) :
    (rows.Pairwise fun a b => (!deleted b) = true → (!deleted a) = true) ↔
      ∀ gone ∈ rows, ∀ left ∈ rows, deleted gone = true → deleted left = false →
        ¬ gone.seq < left.seq := by
  constructor
  · intro hall gone hgone left hleft hdeleted hkept hlt
    rcases List.getElem_of_mem hgone with ⟨i, hi, rfl⟩
    rcases List.getElem_of_mem hleft with ⟨j, hj, rfl⟩
    have hij : i < j := by
      rcases lt_trichotomy i j with h | rfl | h
      · exact h
      · exact absurd hlt (lt_irrefl _)
      · exact absurd (List.pairwise_iff_getElem.1 hseq j i hj hi h) (not_lt.2 hlt.le)
    have := List.pairwise_iff_getElem.1 hall i j hi hj hij (by simp [hkept])
    simp [hdeleted] at this
  · intro hnone
    apply hseq.imp_of_mem
    intro a b ha hb hlt hleft
    by_contra hgone
    exact hnone a ha b hb (by simpa using hgone) (by simpa using hleft) hlt

/-- Deleting rows from a trail that verifies is detected exactly when a row that
is left comes after a deleted one: the loop has no expected length and no expected
head, so a trail may lose its last rows, or all of them. -/
theorem verify_deleteRows_iff (env : Env) (db : Db) (claimId : UUID)
    (deleted : ClaimAuditEvent → Bool)
    (hunique : ((db.eventsOf claimId).map ClaimAuditEvent.seq).Nodup)
    (hsound : DigestSound env (hashedTexts (db.findByClaimIdOrderBySeq claimId)))
    (hverify : verify env db claimId = true) :
    verify env (db.deleteRows deleted) claimId = false ↔
      ∃ gone ∈ db.eventsOf claimId, ∃ left ∈ db.eventsOf claimId,
        deleted gone = true ∧ deleted left = false ∧ gone.seq < left.seq := by
  have hseq := pairwise_seq_trail hunique
  have hmem : ∀ e, e ∈ db.findByClaimIdOrderBySeq claimId ↔ e ∈ db.eventsOf claimId :=
    fun e => (List.perm_insertionSort _ _).mem_iff
  rw [← Bool.not_eq_true, verify_deleteRows_eq_true hsound hverify hseq,
    pairwise_kept_iff hseq deleted]
  simp only [hmem]
  constructor
  · intro hnot
    by_contra hnone
    refine hnot fun gone hgone left hleft hdeleted hkept hlt => hnone ?_
    exact ⟨gone, hgone, left, hleft, hdeleted, hkept, hlt⟩
  · rintro ⟨gone, hgone, left, hleft, hdeleted, hkept, hlt⟩ hall
    exact hall gone hgone left hleft hdeleted hkept hlt

/-! ## A trail of two events -/

namespace Sample

/-- The outside pieces of the two events: the digests are those of their texts. -/
def trailEnv : Env :=
  { env with
    digest := fun text =>
      if text = hashedText firstDraft then
        0xcdeb1a42745f9eee6a66681dd60bdd835b034362f58c6b27dc4b71fa61668e05
      else 0x6d6648f35273218980389f692b976f7506340430c494b4a5e186bf25daf62605 }

/-- The first event. -/
def first : ClaimAuditEvent := sealEvent trailEnv firstDraft

/-- An adjuster takes the claim into review, before the hash. -/
def secondDraft : ClaimAuditEvent :=
  draftEvent ⟨1⟩ (some first)
    { eventType := .statusChanged
      fromStatus := some .submitted
      toStatus := some .underReview
      actorId := "ada"
      actorRole := .adjuster
      reason := none
      fraudScore := none
      ringId := none
      explanationJson := none
      modelVersion := none } none now

/-- The second event. -/
def second : ClaimAuditEvent := sealEvent trailEnv secondDraft

/-- A database with the two events as its audit table. -/
def twoEvents : Db := { Db.empty with auditEvents := [first, second] }

theorem trail_twoEvents : twoEvents.findByClaimIdOrderBySeq ⟨1⟩ = [first, second] := by
  simp [twoEvents, Db.findByClaimIdOrderBySeq, Db.eventsOf, first, second, firstDraft, secondDraft,
    sealEvent, draftEvent]

theorem prevHash_second : second.prevHash = first.hash := by
  simp only [second, secondDraft, sealEvent, draftEvent]

/-- The two texts differ, by their numbers alone. -/
theorem hashedText_second_ne : hashedText secondDraft ≠ hashedText firstDraft := by
  intro h
  have hlen : secondDraft.prevHash.toList.length = firstDraft.prevHash.toList.length := by
    have hsecond : secondDraft.prevHash = sha256 trailEnv (hashedText firstDraft) := by
      simp only [secondDraft, draftEvent, first, sealEvent, rowHash]
    have hfirst : firstDraft.prevHash = genesisHash := by
      simp only [firstDraft, draftEvent]
    rw [hsecond, hfirst, length_sha256, length_genesisHash]
  have hseq := (sameFields_of_hashedText hlen h).seq
  simp [secondDraft, firstDraft, draftEvent, first, sealEvent] at hseq

theorem verifyRows_twoEvents : verifyRows trailEnv [first, second] = true :=
  verifyRows_append_sealEvent [first] (verifyRows_sealEvent rfl) prevHash_second

theorem digestSound_twoEvents : DigestSound trailEnv (hashedTexts [first, second]) := by
  have hfirst : trailEnv.digest (hashedText first) =
      0xcdeb1a42745f9eee6a66681dd60bdd835b034362f58c6b27dc4b71fa61668e05 := by
    simp [trailEnv, first, hashedText_sealEvent]
  have hsecond : trailEnv.digest (hashedText second) =
      0x6d6648f35273218980389f692b976f7506340430c494b4a5e186bf25daf62605 := by
    simp [trailEnv, second, hashedText_sealEvent, hashedText_second_ne]
  apply digestSound_pair <;> simp only [hfirst, hsecond] <;> decide

end Sample

/-- The last event can be deleted unnoticed. -/
theorem deletion_undetected :
    verify Sample.trailEnv Sample.twoEvents ⟨1⟩ = true ∧
      DigestSound Sample.trailEnv (hashedTexts (Sample.twoEvents.findByClaimIdOrderBySeq ⟨1⟩)) ∧
      Sample.twoEvents.findByClaimIdOrderBySeq ⟨1⟩ = [Sample.first, Sample.second] ∧
      (Sample.twoEvents.deleteRows fun e => decide (e.seq = 2)).findByClaimIdOrderBySeq ⟨1⟩ =
        [Sample.first] ∧
      verify Sample.trailEnv (Sample.twoEvents.deleteRows fun e => decide (e.seq = 2)) ⟨1⟩ =
        true := by
  have hleft : (Sample.twoEvents.deleteRows fun e => decide (e.seq = 2)).findByClaimIdOrderBySeq
      ⟨1⟩ = [Sample.first] := by
    rw [findByClaimIdOrderBySeq_deleteRows, Sample.trail_twoEvents]
    simp [Sample.first, Sample.second, Sample.firstDraft, Sample.secondDraft, sealEvent, draftEvent]
  refine ⟨?_, ?_, Sample.trail_twoEvents, hleft, ?_⟩
  · rw [verify, Sample.trail_twoEvents]
    exact Sample.verifyRows_twoEvents
  · rw [Sample.trail_twoEvents]
    exact Sample.digestSound_twoEvents
  · rw [verify, hleft]
    exact verifyRows_sealEvent rfl

/-- Deleting the first of two events is detected. -/
theorem verify_deleteRows_first :
    verify Sample.trailEnv (Sample.twoEvents.deleteRows fun e => decide (e.seq = 1)) ⟨1⟩ =
      false := by
  have hmem : Sample.first ∈ Sample.twoEvents.eventsOf ⟨1⟩ ∧
      Sample.second ∈ Sample.twoEvents.eventsOf ⟨1⟩ := by
    simp [Sample.twoEvents, Db.eventsOf, Sample.first, Sample.second, Sample.firstDraft,
      Sample.secondDraft, sealEvent, draftEvent]
  refine (verify_deleteRows_iff Sample.trailEnv Sample.twoEvents ⟨1⟩ _ ?_ ?_ ?_).2
    ⟨Sample.first, hmem.1, Sample.second, hmem.2, ?_⟩
  · simp [Sample.twoEvents, Db.eventsOf, Sample.first, Sample.second, Sample.firstDraft,
      Sample.secondDraft, sealEvent, draftEvent]
  · rw [Sample.trail_twoEvents]
    exact Sample.digestSound_twoEvents
  · rw [verify, Sample.trail_twoEvents]
    exact Sample.verifyRows_twoEvents
  · simp [Sample.first, Sample.second, Sample.firstDraft, Sample.secondDraft, sealEvent, draftEvent]

end ClaimGuard
