import ClaimGuard.Runs

/-!
# No false alarm

`append` hashes the values in memory, `verify` the columns read back. Every field
is stable under its column, so every trail the service writes verifies.
-/

namespace ClaimGuard

open AuditService ClaimService CanonicalJson

/-- A `jsonb` column gives back a text of the same tree. -/
def KeepsTree (env : Env) : Prop :=
  ∀ text stored, env.jsonb text = some stored → SameTree (parse stored) (parse text)

/-- A `timestamptz` column gives back instants of whole microseconds unchanged. -/
def KeepsMicros (env : Env) : Prop :=
  ∀ instant : Instant, instant.nano % 1000 = 0 → env.timestamptz instant = instant

/-- The score field is the same before and after the column: the column rounds to
the scale the field is printed with. -/
theorem scoreField_stored {score stored : Option BigDecimal}
    (h : Db.storeOption (BigDecimal.numeric 5 4) score = some stored) :
    (stored.map fun s => String.ofList (s.setScale 4).toPlainString) =
      score.map fun s => String.ofList (s.setScale 4).toPlainString := by
  cases score with
  | none =>
      rcases Option.some.inj h with rfl
      rfl
  | some d =>
      rcases Option.map_eq_some_iff.1 h with ⟨d', hd', rfl⟩
      rcases BigDecimal.numeric_eq_some hd' with rfl
      have htwice : (d.setScale ((4 : ℕ) : ℤ)).setScale 4 = d.setScale 4 :=
        BigDecimal.setScale_setScale d 4
      simp only [Option.map_some, htwice]

/-- The explanation field is hashed alike before and after the column. -/
theorem explanationField_stored {env : Env} (hjsonb : KeepsTree env)
    {text stored : Option JsonText} (h : Db.storeOption env.jsonb text = some stored) :
    canonicalText ((stored.map parse).getD .null) =
      canonicalText ((text.map parse).getD .null) := by
  cases text with
  | none =>
      rcases Option.some.inj h with rfl
      rfl
  | some t =>
      rcases Option.map_eq_some_iff.1 h with ⟨t', ht', rfl⟩
      exact (hjsonb t t' ht').canonicalText_eq

/-- Storing an event of whole microseconds keeps the string its hash is taken of. -/
theorem hashedText_stored {env : Env} (hjsonb : KeepsTree env) (htimestamptz : KeepsMicros env)
    {event row : ClaimAuditEvent} (hmicros : event.occurredAt.nano % 1000 = 0)
    (h : Db.storeAuditEvent env event = .ok row) : hashedText row = hashedText event := by
  rcases Db.storeAuditEvent_ok h with ⟨hscore, hjson, hrow⟩
  have hscore' := scoreField_stored hscore
  have hjson' := explanationField_stored hjsonb hjson
  have htime := htimestamptz event.occurredAt hmicros
  have hfields : canonicalize (fieldsFor row) = canonicalize (fieldsFor event) := by
    -- the three columns that change a value keep its canonical text
    apply canonicalize_congr
    rw [hrow]
    simp only [fieldsFor, List.map_cons, List.map_nil, hscore', hjson', htime]
  have hprev : row.prevHash = event.prevHash := by rw [hrow]
  unfold hashedText
  rw [hfields, hprev]

/-- Appending the next event to a trail that verifies gives one that does. -/
theorem verifyRows_append {env : Env} (hjsonb : KeepsTree env) (htimestamptz : KeepsMicros env)
    {claimId : UUID} {trail : List ClaimAuditEvent} {entry : AuditEntry} {now : Instant}
    {event row : ClaimAuditEvent}
    (hevent : nextEvent env claimId trail.getLast? entry now = .ok event)
    (hrow : Db.storeAuditEvent env event = .ok row) (h : verifyRows env trail = true) :
    verifyRows env (trail ++ [row]) = true := by
  have hnext := nextRow_of_stored hevent hrow
  rcases nextEvent_ok hevent with ⟨json, -, rfl⟩
  have hmicros := Instant.nano_truncatedToMillis now
  have htext := hashedText_stored hjsonb htimestamptz hmicros hrow
  rcases Db.storeAuditEvent_ok hrow with ⟨-, -, hfields⟩
  -- the stored hash is the hash of the draft, and the row still has its text
  have hhash : row.hash = rowHash env (draftEvent claimId trail.getLast? entry json now) := by
    rw [hfields]
    simp only [sealEvent]
  have hrecompute : rowHash env row = row.hash :=
    calc
      rowHash env row =
          rowHash env (sealEvent env (draftEvent claimId trail.getLast? entry json now)) := by
        simp only [rowHash, htext]
      _ = rowHash env (draftEvent claimId trail.getLast? entry json now) := rowHash_sealEvent env _
      _ = row.hash := hhash.symm
  -- the loop reaches the new row with the last hash of the old trail
  unfold verifyRows at h ⊢
  rw [HashChain.verifyFrom_append_singleton]
  exact ⟨h, hnext.prevHash_eq.symm, hrecompute⟩

/-- In every state creating, moving, scoring and narrating lead to, the trail of
every claim verifies. -/
theorem verify_of_reachable (env : Env) (hjsonb : KeepsTree env) (htimestamptz : KeepsMicros env)
    (db : Db) (h : (service env).Reachable db) (claimId : UUID) : verify env db claimId = true := by
  rw [← Lts.restrict_true (service env)] at h
  have hinv : Consistent db ∧
      ∀ claim ∈ db.claims, verifyRows env (db.eventsOf claim.id) = true := by
    refine forall_claims_of_reachable (A := fun _ => True)
      (P := fun _ trail => verifyRows env trail = true) (fun _ _ _ _ => trivial) ?_ ?_ ?_ h
    · intro claim event row now _ hevent hrow
      have hempty : verifyRows env [] = true := rfl
      have hone := verifyRows_append hjsonb htimestamptz hevent hrow hempty
      exact hone
    · intro claim trail op decision event row now _ _ hevent hrow hvalid
      exact verifyRows_append hjsonb htimestamptz hevent hrow hvalid
    · intro claim _
      rfl
  rcases hinv with ⟨hc, hvalid⟩
  unfold verify
  rw [hc.findByClaimIdOrderBySeq_eq]
  -- a claim that does not exist has no rows, and no rows verify
  cases hfind : db.findById claimId with
  | none =>
      rw [hc.eventsOf_eq_nil hfind]
      rfl
  | some claim =>
      rcases Table.find_eq_some hfind with ⟨hmem, rfl⟩
      exact hvalid claim hmem

/-- The sample claim verifies, scored and narrated. -/
theorem verify_of_reachable_narrated :
    Sample.scoredAndNarrated.auditEvents.map ClaimAuditEvent.eventType =
        [.claimCreated, .fraudScored, .narrativeGenerated] ∧
      verify Sample.auditEnv Sample.scoredAndNarrated ⟨1⟩ = true := by
  refine ⟨by decide +kernel, verify_of_reachable Sample.auditEnv ?_ ?_ Sample.scoredAndNarrated ?_ ⟨1⟩⟩
  · rintro text stored h
    rcases Option.some.inj h with rfl
    exact SameTree.refl _
  · intro instant _
    rfl
  · exact ⟨Db.empty, [.createClaim Sample.request Sample.draws, Sample.scoring, Sample.narrating],
      Sample.created_init, rfl⟩

end ClaimGuard
