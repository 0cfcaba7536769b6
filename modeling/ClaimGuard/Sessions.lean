import ClaimGuard.Http
import ClaimGuard.Lib.JsonWriters

/-!
# Users, tokens and sessions

Accounts come from the seeder of a startup alone, a login exchanges a password for a token,
and the filter names the actor of a request by the token it carries. Instances start, stop
and seed side by side, tokens are handed on and kept, and requests come at any time.
-/

namespace ClaimGuard

open AuditService ClaimService

/-! ## Users -/

/-- A row of `users`. -/
structure User where
  id : UUID
  username : String
  passwordHash : String
  role : ActorRole
  createdAt : Instant

/-- `UserRepository.findByUsername`. -/
def findByUsername (users : List User) (username : String) : Option User :=
  Table.find User.username users username

/-- `ActorRole.valueOf`, `none` when it throws. -/
def ActorRole.valueOf (name : String) : Option ActorRole :=
  [ActorRole.adjuster, .investigator, .auditor, .system].find? fun role => role.name == name

theorem ActorRole.valueOf_name (role : ActorRole) : ActorRole.valueOf role.name = some role := by
  cases role <;> decide

/-! ## Tokens -/

/-- The claims of a token: whose it is, the `role` claim, and when it was issued and when it
expires, in milliseconds since 1970. -/
structure TokenClaims where
  subject : String
  role : Option JsonText
  issuedAt : ℕ
  expiration : ℕ

/-- The password encoder, which draws a salt, and the token library with the key of the
service: what it makes of claims, and what it reads at a time, nothing when it throws. -/
structure Security where
  encode : String → String → String
  passwordMatches : String → String → Bool
  compact : TokenClaims → String
  parse : ℕ → String → Option TokenClaims
  expirationMinutes : ℕ

/-- Dates are written in whole seconds. -/
def wholeSeconds (date : ℕ) : ℕ := date / 1000 * 1000

/-! ## Seeding -/

namespace DemoUserSeeder

/-- `DEMO_PASSWORD`. -/
def demoPassword : String := "changeme123"

/-- The accounts that `run` seeds, in its order. -/
def accounts : List (String × ActorRole) :=
  [("adjuster1", .adjuster), ("investigator1", .investigator), ("auditor1", .auditor)]

/-- What `seed` saves. -/
def seed (sec : Security) (account : String × ActorRole) (id : UUID) (salt : String)
    (createdAt : Instant) : User where
  id := id
  username := account.1
  passwordHash := sec.encode salt demoPassword
  role := account.2
  createdAt := createdAt

end DemoUserSeeder

/-! ## What the service relies on -/

/-- The claims name an account of the seeder, in its role. -/
def TokenClaims.OfAccount (claims : TokenClaims) : Prop :=
  ∃ account ∈ DemoUserSeeder.accounts,
    claims.subject = account.1 ∧ claims.role = some (.str account.2.name)

/-- The password of the demo matches its hash, and the token of an account is read until it
expires as what it was made of. -/
structure Security.Works (sec : Security) : Prop where
  matches_encode : ∀ salt, sec.passwordMatches DemoUserSeeder.demoPassword
    (sec.encode salt DemoUserSeeder.demoPassword) = true
  parse_compact : ∀ claims now, claims.OfAccount → sec.parse now (sec.compact claims) =
    if now ≤ wholeSeconds claims.expiration then
      some { claims with
        issuedAt := wholeSeconds claims.issuedAt
        expiration := wholeSeconds claims.expiration }
    else none

/-! ## Tokens of users -/

namespace JwtService

/-- `generateToken`. -/
def generateToken (sec : Security) (user : User) (now : ℕ) : String :=
  sec.compact
    { subject := user.username
      role := some (.str user.role.name)
      issuedAt := now
      expiration := now + sec.expirationMinutes * 60000 }

/-- How reading the role of a token ends otherwise. -/
inductive RoleError where
  | requiredType
  | nullPointer

/-- `roleFrom` and `ActorRole.valueOf`: a claim that is no string is refused by the library,
and a null has no name to look up. -/
def roleFrom (claims : TokenClaims) : Except RoleError (Option ActorRole) :=
  match claims.role with
  | some (.str name) => pure (ActorRole.valueOf name)
  | some .null => throw .nullPointer
  | none => throw .nullPointer
  | some _ => throw .requiredType

end JwtService

namespace JwtAuthenticationFilter

/-- `BEARER_PREFIX`. -/
def bearerPrefix : String := "Bearer "

/-- `doFilterInternal`: the actor of a request, none when the token is not accepted. What is
not caught here ends the request. -/
def doFilterInternal (sec : Security) (now : ℕ) (header : Option String) :
    Except Unit (Option AuthenticatedActor) :=
  match header with
  | none => pure none
  | some header =>
      if bearerPrefix.toList.isPrefixOf header.toList then
        match sec.parse now (String.ofList (header.toList.drop bearerPrefix.toList.length)) with
        | none => pure none
        | some claims =>
            match JwtService.roleFrom claims with
            | .ok role => pure (role.map fun role => ⟨claims.subject, role⟩)
            | .error .requiredType => pure none
            -- `valueOf(null)` throws no `IllegalArgumentException`
            | .error .nullPointer => throw ()
      else pure none

end JwtAuthenticationFilter

/-! ## Logging in -/

/-- The answer to a login. -/
structure LoginResponse where
  token : String
  role : String

namespace AuthController

/-- `login`: one answer for an unknown user and a wrong password. -/
def login (sec : Security) (users : List User) (username password : Option String) (now : ℕ) :
    Except Rejection LoginResponse :=
  match notBlank username, notBlank password with
  | some username, some password =>
      match (findByUsername users username).filter fun u =>
          sec.passwordMatches password u.passwordHash with
      | none => throw (.unauthorized "Invalid username or password")
      | some user => pure ⟨JwtService.generateToken sec user now, user.role.name⟩
  | _, _ => throw .validationFailed

end AuthController

/-! ## The site -/

/-- The `users` table, the accounts that each running startup still has to seed, the tokens
that were handed out, and the database of the claims. -/
structure Site where
  users : List User
  startups : ℕ → Option (List (String × ActorRole))
  tokens : List String
  db : Db

/-- A step: of a startup, a login, a request with the header it carries, or a score. -/
inductive SiteEvent where
  | startUp (application : ℕ)
  | seedNext (application : ℕ) (id : UUID) (salt : String) (createdAt : Instant)
  | stop (application : ℕ)
  | login (username password : Option String) (now : ℕ)
  | request (header : Option String) (receivedAt : ℕ) (request : HttpRequest)
  | applyScore (claimId : UUID) (fraudScore : Option BigDecimal)
      (decisionHint ringId : Option String) (explanationJson : Option RawJson)
      (modelVersion : Option String) (now : Instant)

namespace Site

/-- What a startup still has to seed. -/
def setStartup (s : Site) (application : ℕ) (rest : Option (List (String × ActorRole))) : Site :=
  { s with startups := Function.update s.startups application rest }

/-- One step. -/
def step (sec : Security) (env : Env) (s : Site) : SiteEvent → Option Site
  | .startUp application =>
      match s.startups application with
      | some _ => none
      | none =>
          if 0 < s.users.length then some s
          else some (s.setStartup application (some DemoUserSeeder.accounts))
  | .seedNext application id salt createdAt =>
      match s.startups application with
      | none => none
      | some [] => some (s.setStartup application none)
      | some (account :: rest) =>
          -- the id is drawn: one that is there already would be merged
          if s.users.any fun u => decide (u.id = id) then none
          -- each account is saved in a transaction of its own
          else if s.users.any fun u => decide (u.username = account.1) then
            some (s.setStartup application none)
          else
            some { s.setStartup application (some rest) with
              users := s.users ++ [DemoUserSeeder.seed sec account id salt createdAt] }
  | .stop application => some (s.setStartup application none)
  | .login username password now =>
      match AuthController.login sec s.users username password now with
      | .ok response => some { s with tokens := s.tokens ++ [response.token] }
      | .error _ => some s
  | .request header receivedAt request =>
      match JwtAuthenticationFilter.doFilterInternal sec receivedAt header with
      | .ok authentication =>
          some { s with db := receive env s.db (.http authentication request) }
      | .error _ => some s
  | .applyScore claimId fraudScore decisionHint ringId explanationJson modelVersion now =>
      let input := Input.applyScore claimId fraudScore decisionHint ringId explanationJson
        modelVersion now
      some { s with db := receive env s.db input }

end Site

/-- The site, started on empty tables with nothing running. -/
def site (sec : Security) (env : Env) : Lts Site SiteEvent where
  init s := s.users = [] ∧ (∀ application, s.startups application = none) ∧ s.tokens = [] ∧
    s.db.claims = [] ∧ s.db.auditEvents = []
  step := Site.step sec env

/-! ## Who an event names -/

/-- Who an operation is made by. -/
def Op.actorId : Op → String
  | .transition _ _ actorId _ => actorId
  | .score _ _ _ _ _ => scoringActorId
  | .narrative _ _ _ actorId _ => actorId

/-- The event types of an operation. -/
def Op.Writes (op : Op) (eventType : AuditEventType) : Prop :=
  match op with
  | .transition _ _ _ _ => eventType = .statusChanged ∨ eventType = .humanOverride
  | .score _ _ _ _ _ => eventType = .fraudScored
  | .narrative _ _ _ _ _ => eventType = .narrativeGenerated

/-- The entry of an operation names its actor. -/
theorem decideOp_actor {op : Op} {claim : Claim} {decision : Decision}
    (h : decideOp op claim = .ok decision) :
    decision.entry.actorId = op.actorId ∧ op.Writes decision.entry.eventType := by
  cases op with
  | transition toStatus reason actorId actorRole =>
      simp only [decideOp, decideTransition, Results.guard_eq_ok, Results.pure_eq_ok] at h
      rcases h with ⟨-, -, -, rfl⟩
      refine ⟨rfl, ?_⟩
      unfold Op.Writes
      dsimp only
      split <;> simp
  | score fraudScore decisionHint ringId explanationJson modelVersion =>
      rcases Results.pure_eq_ok.1 h with rfl
      exact ⟨rfl, rfl⟩
  | narrative narrative grounded modelVersion actorId actorRole =>
      rcases Results.pure_eq_ok.1 h with rfl
      exact ⟨rfl, rfl⟩

theorem actorId_of_stored {env : Env} {claimId : UUID} {previous : Option ClaimAuditEvent}
    {entry : AuditEntry} {now : Instant} {event row : ClaimAuditEvent}
    (hevent : nextEvent env claimId previous entry now = .ok event)
    (hrow : Db.storeAuditEvent env event = .ok row) : row.actorId = entry.actorId := by
  rcases nextEvent_ok hevent with ⟨json, -, rfl⟩
  rcases Db.storeAuditEvent_ok hrow with ⟨-, -, hrow⟩
  rw [hrow]
  simp only [sealEvent, draftEvent]

/-- The row names this actor. -/
structure ClaimAuditEvent.Names (row : ClaimAuditEvent) (actor : AuthenticatedActor) : Prop where
  username : row.actorId = actor.username
  role : row.actorRole = actor.role

/-- The row is written by a call: it names the actor of the operation, or the intake. -/
def Call.Writes (call : Call) (row : ClaimAuditEvent) : Prop :=
  match call with
  | .createClaim _ _ => row.eventType = .claimCreated ∧ row.Names ⟨intakeActorId, .system⟩
  | .onClaim _ op _ => op.Writes row.eventType ∧ row.Names ⟨op.actorId, op.actorRole⟩

/-- A served call writes one row or none. -/
theorem row_of_serve (env : Env) (db : Db) (call : Call) :
    (serve env db call).auditEvents = db.auditEvents ∨
      ∃ row, (serve env db call).auditEvents = db.auditEvents ++ [row] ∧ call.Writes row := by
  unfold serve
  cases hexec : execute env db call with
  | error failure => exact Or.inl rfl
  | ok db' =>
      cases call with
      | createClaim request draws =>
          obtain ⟨claim, event, row, payload, db₁, db₂, -, -, -, -, -, -, hevent, hstored, -, rfl⟩ :=
            createClaim_ok hexec
          have hnext := nextRow_of_stored hevent hstored
          exact Or.inr ⟨row, rfl, hnext.eventType_eq, actorId_of_stored hevent hstored,
            hnext.actorRole_eq⟩
      | onClaim claimId op now =>
          rcases execute_onClaim hexec with rfl | hperform
          · exact Or.inl rfl
          · rcases perform_ok hperform with
              ⟨claim, decision, event, row, -, hdecide, hevent, hstored, -, rfl⟩
            have hnext := nextRow_of_stored hevent hstored
            obtain ⟨hactor, htype⟩ := decideOp_actor hdecide
            refine Or.inr ⟨row, rfl, ?_, ?_, ?_⟩
            · rwa [hnext.eventType_eq]
            · rw [actorId_of_stored hevent hstored, hactor]
            · rw [hnext.actorRole_eq, decideOp_actorRole hdecide]

/-- What the machines write, and in whose name. -/
def machineActors : List (AuditEventType × String) :=
  [(.claimCreated, intakeActorId), (.fraudScored, scoringActorId),
    (.narrativeGenerated, "anonymous")]

/-- The row is one of the machines, in the role of the system. -/
def ClaimAuditEvent.ByMachine (row : ClaimAuditEvent) : Prop :=
  row.actorRole = .system ∧ (row.eventType, row.actorId) ∈ machineActors

/-- A request writes one row or none, as a machine or in the name of its actor. -/
theorem row_of_receive (env : Env) (db : Db) (input : Input) :
    (receive env db input).auditEvents = db.auditEvents ∨
      ∃ row, (receive env db input).auditEvents = db.auditEvents ++ [row] ∧
        (row.ByMachine ∨ ∃ actor request, input = .http (some actor) request ∧ row.Names actor) := by
  cases input with
  | applyScore claimId fraudScore decisionHint ringId explanationJson modelVersion now =>
      rcases row_of_serve env db (.onClaim claimId
        (.score fraudScore decisionHint ringId explanationJson modelVersion) now) with
        hsame | ⟨row, hrow, htype, hnames⟩
      · exact Or.inl hsame
      · refine Or.inr ⟨row, hrow, Or.inl ⟨hnames.role, ?_⟩⟩
        have htype' : row.eventType = .fraudScored := htype
        rw [htype', hnames.username]
        simp [machineActors, Op.actorId]
  | http authentication request =>
      simp only [receive]
      cases hcall : ClaimController.handle authentication request with
      | error rejection => exact Or.inl rfl
      | ok call =>
          rcases row_of_serve env db call with hsame | ⟨row, hrow, hwrites⟩
          · exact Or.inl hsame
          refine Or.inr ⟨row, hrow, ?_⟩
          cases request with
          | createClaim body draws =>
              simp only [ClaimController.handle, ClaimController.createClaim] at hcall
              split at hcall <;> cases hcall
              obtain ⟨htype, hnames⟩ := hwrites
              refine Or.inl ⟨hnames.role, ?_⟩
              rw [htype, hnames.username]
              simp [machineActors]
          | transition claimId body now =>
              simp only [ClaimController.handle, ClaimController.transition] at hcall
              split at hcall
              · cases hcall
              · rename_i actor
                split at hcall <;> cases hcall
                exact Or.inr ⟨actor, _, rfl, hwrites.2⟩
          | recordNarrative claimId body now =>
              simp only [ClaimController.handle, ClaimController.recordNarrative] at hcall
              split at hcall <;> cases hcall
              obtain ⟨htype, hnames⟩ := hwrites
              cases authentication with
              | some actor => exact Or.inr ⟨actor, _, rfl, hnames⟩
              | none =>
                  refine Or.inl ⟨hnames.role, ?_⟩
                  have htype' : row.eventType = .narrativeGenerated := htype
                  rw [htype', hnames.username]
                  simp [machineActors, Op.actorId]

/-! ## The accounts there are -/

/-- What the row says about its account. -/
def User.account (u : User) : String × ActorRole := (u.username, u.role)

/-- The startups together have saved the first `k` accounts: one of them has saved them all,
the others none. -/
structure Site.Seeded (sec : Security) (s : Site) (k : ℕ) : Prop where
  users : s.users.map User.account = DemoUserSeeder.accounts.take k
  hashes : ∀ u ∈ s.users, ∃ salt, u.passwordHash = sec.encode salt DemoUserSeeder.demoPassword
  rest : ∀ i rest, s.startups i = some rest →
    rest = DemoUserSeeder.accounts ∨ rest = DemoUserSeeder.accounts.drop k
  one : ∀ i j rest rest', s.startups i = some rest → s.startups j = some rest' →
    rest ≠ DemoUserSeeder.accounts → rest' ≠ DemoUserSeeder.accounts → i = j

/-- A startup that ends, and one that begins. -/
theorem Site.Seeded.setStartup {sec : Security} {s : Site} {k : ℕ} (h : s.Seeded sec k) (i : ℕ)
    {next : Option (List (String × ActorRole))}
    (hnext : ∀ rest, next = some rest → rest = DemoUserSeeder.accounts) :
    (s.setStartup i next).Seeded sec k := by
  have hcases : ∀ j rest, (s.setStartup i next).startups j = some rest →
      rest = DemoUserSeeder.accounts ∨ s.startups j = some rest := by
    intro j rest hj
    by_cases hij : j = i
    · subst hij
      simp only [Site.setStartup, Function.update_self] at hj
      exact Or.inl (hnext rest hj)
    · simp only [Site.setStartup, Function.update_of_ne hij] at hj
      exact Or.inr hj
  refine ⟨h.users, h.hashes, ?_, ?_⟩
  · intro j rest hj
    rcases hcases j rest hj with hall | hold
    · exact Or.inl hall
    · exact h.rest j rest hold
  · intro j j' rest rest' hj hj' hne hne'
    exact h.one j j' rest rest' ((hcases j rest hj).resolve_left hne)
      ((hcases j' rest' hj').resolve_left hne') hne hne'

/-- The first account of a list that is left is saved unless there is one of its name. -/
theorem Site.Seeded.save {sec : Security} {s : Site} {k : ℕ} (h : s.Seeded sec k) {i : ℕ}
    {account : String × ActorRole} {rest : List (String × ActorRole)}
    (hi : s.startups i = some (account :: rest))
    (hnew : ∀ u ∈ s.users, u.username ≠ account.1) (id : UUID) (salt : String)
    (createdAt : Instant) :
    Site.Seeded sec { s.setStartup i (some rest) with
      users := s.users ++ [DemoUserSeeder.seed sec account id salt createdAt] } (k + 1) := by
  -- what is left is what comes after the accounts that are saved
  have hdrop : account :: rest = DemoUserSeeder.accounts.drop k := by
    rcases h.rest i _ hi with hall | hdrop
    · have hzero : k = 0 := by
        by_contra hk
        have hfirst : account ∈ DemoUserSeeder.accounts.take k := by
          obtain ⟨m, rfl⟩ := Nat.exists_eq_succ_of_ne_zero hk
          rw [← hall, List.take_succ_cons]
          exact List.mem_cons_self
        rw [← h.users] at hfirst
        rcases List.mem_map.1 hfirst with ⟨u, hu, rfl⟩
        exact hnew u hu rfl
      rw [hzero, List.drop_zero]
      exact hall
    · exact hdrop
  have hk : k < DemoUserSeeder.accounts.length := by
    by_contra hlen
    rw [List.drop_eq_nil_of_le (by omega)] at hdrop
    cases hdrop
  rw [List.drop_eq_getElem_cons hk] at hdrop
  obtain ⟨haccount, hrest⟩ := List.cons.inj hdrop
  -- no other startup has saved one
  have hothers : ∀ j rest', j ≠ i → s.startups j = some rest' → rest' = DemoUserSeeder.accounts := by
    intro j rest' hne hj
    by_cases hzero : k = 0
    · rcases h.rest j rest' hj with hall | hnone
      · exact hall
      · rw [hnone, hzero, List.drop_zero]
    · by_contra hother
      refine hne (h.one j i rest' _ hj hi hother fun hall => hzero ?_)
      have hlength := congrArg List.length (hdrop.symm.trans hall)
      rw [← List.drop_eq_getElem_cons hk, List.length_drop] at hlength
      omega
  have hcases : ∀ j rest', Function.update s.startups i (some rest) j = some rest' →
      j = i ∧ rest' = rest ∨ rest' = DemoUserSeeder.accounts := by
    intro j rest' hj
    by_cases hij : j = i
    · subst hij
      rw [Function.update_self] at hj
      exact Or.inl ⟨rfl, (Option.some.inj hj).symm⟩
    · rw [Function.update_of_ne hij] at hj
      exact Or.inr (hothers j rest' hij hj)
  refine ⟨?_, ?_, ?_, ?_⟩
  · show (s.users ++ _).map User.account = _
    rw [List.map_append, h.users, List.take_succ_eq_append_getElem hk, haccount]
    rfl
  · intro u hu
    rcases List.mem_append.1 hu with hold | hlast
    · exact h.hashes u hold
    · rw [List.mem_singleton.1 hlast]
      exact ⟨salt, rfl⟩
  · intro j rest' hj
    rcases hcases j rest' hj with ⟨-, rfl⟩ | hall
    · exact Or.inr hrest
    · exact Or.inl hall
  · intro j j' rest₁ rest₂ hj hj' hne hne'
    rcases hcases j rest₁ hj with ⟨rfl, -⟩ | hall
    · rcases hcases j' rest₂ hj' with ⟨rfl, -⟩ | hall
      · rfl
      · exact absurd hall hne'
    · exact absurd hall hne

/-- Startups seed the accounts in their order, each once, however they interleave. -/
theorem Site.Seeded.step {sec : Security} {env : Env} {s s' : Site} {k : ℕ} {event : SiteEvent}
    (h : s.Seeded sec k) (hstep : Site.step sec env s event = some s') :
    ∃ k', s'.Seeded sec k' := by
  cases event with
  | startUp application =>
      simp only [Site.step] at hstep
      split at hstep
      · cases hstep
      · split at hstep <;> cases hstep
        · exact ⟨k, h⟩
        · exact ⟨k, h.setStartup application fun rest hrest => (Option.some.inj hrest).symm⟩
  | seedNext application id salt createdAt =>
      simp only [Site.step] at hstep
      split at hstep
      · cases hstep
      · cases hstep
        exact ⟨k, h.setStartup application (by rintro rest ⟨⟩)⟩
      · rename_i account rest hi
        split at hstep
        · cases hstep
        split at hstep <;> cases hstep
        · exact ⟨k, h.setStartup application (by rintro rest ⟨⟩)⟩
        · rename_i hany
          refine ⟨k + 1, h.save hi (fun u hu heq => hany ?_) id salt createdAt⟩
          exact List.any_eq_true.2 ⟨u, hu, decide_eq_true heq⟩
  | stop application =>
      cases hstep
      exact ⟨k, h.setStartup application (by rintro rest ⟨⟩)⟩
  | login username password now =>
      simp only [Site.step] at hstep
      split at hstep <;> cases hstep <;> exact ⟨k, h.users, h.hashes, h.rest, h.one⟩
  | request header receivedAt request =>
      simp only [Site.step] at hstep
      split at hstep <;> cases hstep <;> exact ⟨k, h.users, h.hashes, h.rest, h.one⟩
  | applyScore claimId fraudScore decisionHint ringId explanationJson modelVersion now =>
      cases hstep
      exact ⟨k, h.users, h.hashes, h.rest, h.one⟩

theorem Site.seeded_of_run {sec : Security} {env : Env} {s₀ s : Site} {events : List SiteEvent}
    (hinit : (site sec env).init s₀) (hrun : (site sec env).run s₀ events = some s) :
    ∃ k, s.Seeded sec k := by
  refine Lts.run_invariant (I := fun s => ∃ k, s.Seeded sec k)
    (fun _ _ _ ⟨_, h⟩ hstep => h.step hstep) ⟨0, ?_⟩ hrun
  obtain ⟨husers, hstartups, -⟩ := hinit
  refine ⟨by rw [husers]; rfl, by simp [husers], ?_, ?_⟩
  · intro i rest hi
    rw [hstartups] at hi
    cases hi
  · intro i j rest rest' hi
    rw [hstartups] at hi
    cases hi

theorem Site.Seeded.account_mem {sec : Security} {s : Site} {k : ℕ} (h : s.Seeded sec k) {u : User}
    (hu : u ∈ s.users) : u.account ∈ DemoUserSeeder.accounts := by
  have hmem := List.mem_map_of_mem (f := User.account) hu
  rw [h.users] at hmem
  exact List.mem_of_mem_take hmem

/-- A user is found by the name. -/
theorem Site.Seeded.findByUsername {sec : Security} {s : Site} {k : ℕ} (h : s.Seeded sec k)
    {u : User} (hu : u ∈ s.users) : findByUsername s.users u.username = some u := by
  have hnames : (s.users.map User.username).Nodup := by
    have hsub : ((DemoUserSeeder.accounts.take k).map Prod.fst).Nodup :=
      List.Nodup.sublist ((List.take_sublist k _).map _) (by decide)
    rw [← h.users, List.map_map] at hsub
    exact hsub
  exact Table.find_of_mem hnames hu

/-! ## What the filter reads -/

/-- An actor is named by a bearer token that the library reads, with a role. -/
theorem filter_ok {sec : Security} {now : ℕ} {header : Option String} {actor : AuthenticatedActor}
    (h : JwtAuthenticationFilter.doFilterInternal sec now header = .ok (some actor)) :
    ∃ token claims, header = some (JwtAuthenticationFilter.bearerPrefix ++ token) ∧
      sec.parse now token = some claims ∧ claims.subject = actor.username ∧
      JwtService.roleFrom claims = .ok (some actor.role) := by
  unfold JwtAuthenticationFilter.doFilterInternal at h
  cases header with
  | none => cases h
  | some header =>
      simp only at h
      split at h
      · rename_i hbearer
        split at h
        · cases h
        · rename_i claims hparse
          refine ⟨_, claims, ?_, hparse, ?_⟩
          · rw [List.isPrefixOf_iff_prefix] at hbearer
            rw [Option.some_inj, ← String.toList_inj, String.toList_append, String.toList_ofList]
            exact (List.prefix_iff_eq_append.1 hbearer).symm
          · split at h
            · rename_i role hrole
              rw [Results.pure_eq_ok] at h
              cases role with
              | none => cases h
              | some role =>
                  cases h
                  exact ⟨rfl, hrole⟩
            · cases h
            · cases h
      · cases h

/-- What is read of a token that the service made for a user is the user, until it expires. -/
def readClaims (sec : Security) (user : User) (loginAt : ℕ) : TokenClaims where
  subject := user.username
  role := some (.str user.role.name)
  issuedAt := wholeSeconds loginAt
  expiration := wholeSeconds (loginAt + sec.expirationMinutes * 60000)

theorem parse_generateToken {sec : Security} (works : sec.Works) {user : User}
    (haccount : user.account ∈ DemoUserSeeder.accounts) (loginAt t : ℕ) :
    sec.parse t (JwtService.generateToken sec user loginAt) =
      if t ≤ wholeSeconds (loginAt + sec.expirationMinutes * 60000) then
        some (readClaims sec user loginAt)
      else none :=
  works.parse_compact _ t ⟨user.account, haccount, rfl, rfl⟩

theorem roleFrom_readClaims (sec : Security) (user : User) (loginAt : ℕ) :
    JwtService.roleFrom (readClaims sec user loginAt) = .ok (some user.role) := by
  simp only [JwtService.roleFrom, readClaims, ActorRole.valueOf_name]
  rfl

/-- The filter takes a token that the service made for a user, until it expires. -/
theorem filter_generateToken {sec : Security} (works : sec.Works) {user : User}
    (haccount : user.account ∈ DemoUserSeeder.accounts) (loginAt t : ℕ) :
    JwtAuthenticationFilter.doFilterInternal sec t
        (some (JwtAuthenticationFilter.bearerPrefix ++ JwtService.generateToken sec user loginAt)) =
      .ok (if t ≤ wholeSeconds (loginAt + sec.expirationMinutes * 60000) then
        some ⟨user.username, user.role⟩ else none) := by
  have hbearer : JwtAuthenticationFilter.bearerPrefix.toList.isPrefixOf
      (JwtAuthenticationFilter.bearerPrefix ++ JwtService.generateToken sec user loginAt).toList := by
    rw [String.toList_append, List.isPrefixOf_iff_prefix]
    exact List.prefix_append _ _
  have hdrop : String.ofList
      ((JwtAuthenticationFilter.bearerPrefix ++ JwtService.generateToken sec user loginAt).toList.drop
        JwtAuthenticationFilter.bearerPrefix.toList.length) =
      JwtService.generateToken sec user loginAt := by
    rw [String.toList_append, List.drop_left, String.ofList_toList]
  unfold JwtAuthenticationFilter.doFilterInternal
  simp only [hbearer, if_true, hdrop]
  rw [parse_generateToken works haccount]
  by_cases hlive : t ≤ wholeSeconds (loginAt + sec.expirationMinutes * 60000)
  · rw [if_pos hlive, if_pos hlive]
    simp only [roleFrom_readClaims]
    rfl
  · rw [if_neg hlive, if_neg hlive]
    rfl

/-! ## Sessions -/

/-- In the run, the token was handed out to the user, who was there and gave a password that
matched. -/
def Granted (sec : Security) (env : Env) (s₀ : Site) (events : List SiteEvent) (token : String)
    (user : User) (loginAt : ℕ) : Prop :=
  ∃ earlier password later s, events =
      earlier ++ SiteEvent.login (some user.username) (some password) loginAt :: later ∧
    (site sec env).run s₀ earlier = some s ∧ user ∈ s.users ∧
    sec.passwordMatches password user.passwordHash = true ∧
    token = JwtService.generateToken sec user loginAt

theorem Granted.token_eq {sec : Security} {env : Env} {s₀ : Site} {events : List SiteEvent}
    {token : String} {user : User} {loginAt : ℕ}
    (h : Granted sec env s₀ events token user loginAt) :
    token = JwtService.generateToken sec user loginAt := by
  obtain ⟨-, -, -, -, -, -, -, -, htoken⟩ := h
  exact htoken

theorem Granted.extend {sec : Security} {env : Env} {s₀ : Site} {events : List SiteEvent}
    {token : String} {user : User} {loginAt : ℕ}
    (h : Granted sec env s₀ events token user loginAt) (event : SiteEvent) :
    Granted sec env s₀ (events ++ [event]) token user loginAt := by
  obtain ⟨earlier, password, later, s, rfl, hrun, huser, hmatches, htoken⟩ := h
  refine ⟨earlier, password, later ++ [event], s, ?_, hrun, huser, hmatches, htoken⟩
  rw [List.append_assoc, List.cons_append]

/-- A session is of an account of the seeder. -/
theorem Granted.account_mem {sec : Security} {env : Env} {s₀ : Site} {events : List SiteEvent}
    {token : String} {user : User} {loginAt : ℕ} (hinit : (site sec env).init s₀)
    (h : Granted sec env s₀ events token user loginAt) :
    user.account ∈ DemoUserSeeder.accounts := by
  obtain ⟨earlier, password, later, s, -, hrun, huser, -, -⟩ := h
  obtain ⟨k, hseeded⟩ := Site.seeded_of_run hinit hrun
  exact hseeded.account_mem huser

/-- In the run, a request appended the row: it carried a token of the user, within the
session that the login opened. -/
def WrittenBy (sec : Security) (env : Env) (s₀ : Site) (events : List SiteEvent)
    (row : ClaimAuditEvent) (user : User) : Prop :=
  ∃ before token receivedAt request after s s' loginAt, events =
      before ++ SiteEvent.request (some (JwtAuthenticationFilter.bearerPrefix ++ token)) receivedAt
        request :: after ∧
    (site sec env).run s₀ before = some s ∧
    Site.step sec env s (.request (some (JwtAuthenticationFilter.bearerPrefix ++ token)) receivedAt
      request) = some s' ∧
    s'.db.auditEvents = s.db.auditEvents ++ [row] ∧
    Granted sec env s₀ before token user loginAt ∧
    receivedAt ≤ wholeSeconds (loginAt + sec.expirationMinutes * 60000)

theorem WrittenBy.extend {sec : Security} {env : Env} {s₀ : Site} {events : List SiteEvent}
    {row : ClaimAuditEvent} {user : User} (h : WrittenBy sec env s₀ events row user)
    (event : SiteEvent) : WrittenBy sec env s₀ (events ++ [event]) row user := by
  obtain ⟨before, token, receivedAt, request, after, s, s', loginAt, rfl, hwritten⟩ := h
  refine ⟨before, token, receivedAt, request, after ++ [event], s, s', loginAt, ?_, hwritten⟩
  rw [List.append_assoc, List.cons_append]

/-- Nobody makes up a token: one that the library reads was handed out. -/
def Unforged (sec : Security) (s : Site) : SiteEvent → Prop
  | .request (some header) receivedAt _ =>
      ∀ token, header = JwtAuthenticationFilter.bearerPrefix ++ token →
        sec.parse receivedAt token ≠ none → token ∈ s.tokens
  | _ => True

/-- What a run of the site leaves: each token was granted, and each row is a machine's or was
written in a session of the person it names. -/
structure Authentic (sec : Security) (env : Env) (s₀ : Site) (events : List SiteEvent)
    (s : Site) : Prop where
  tokens : ∀ token ∈ s.tokens, ∃ user loginAt, Granted sec env s₀ events token user loginAt
  rows : ∀ row ∈ s.db.auditEvents, row.ByMachine ∨
    ∃ user, WrittenBy sec env s₀ events row user ∧ row.Names ⟨user.username, user.role⟩

/-- What was so stays so. -/
theorem Authentic.extend {sec : Security} {env : Env} {s₀ s : Site} {events : List SiteEvent}
    (h : Authentic sec env s₀ events s) (event : SiteEvent) :
    Authentic sec env s₀ (events ++ [event]) s := by
  constructor
  · intro token htoken
    obtain ⟨user, loginAt, hgranted⟩ := h.tokens token htoken
    exact ⟨user, loginAt, hgranted.extend event⟩
  · intro row hrow
    rcases h.rows row hrow with hmachine | ⟨user, hwritten, hnames⟩
    · exact Or.inl hmachine
    · exact Or.inr ⟨user, hwritten.extend event, hnames⟩

/-- A step that hands out no token and writes no row. -/
theorem Authentic.quiet {sec : Security} {env : Env} {s₀ s s' : Site} {events : List SiteEvent}
    (h : Authentic sec env s₀ events s) (event : SiteEvent) (htokens : s'.tokens = s.tokens)
    (hrows : s'.db.auditEvents = s.db.auditEvents) :
    Authentic sec env s₀ (events ++ [event]) s' := by
  refine ⟨?_, ?_⟩
  · rw [htokens]
    exact (h.extend event).tokens
  · rw [hrows]
    exact (h.extend event).rows

/-- A step that writes one row. -/
theorem Authentic.write {sec : Security} {env : Env} {s₀ s s' : Site} {events : List SiteEvent}
    {row : ClaimAuditEvent} (h : Authentic sec env s₀ events s) (event : SiteEvent)
    (htokens : s'.tokens = s.tokens) (hrows : s'.db.auditEvents = s.db.auditEvents ++ [row])
    (hrow : row.ByMachine ∨ ∃ user, WrittenBy sec env s₀ (events ++ [event]) row user ∧
      row.Names ⟨user.username, user.role⟩) :
    Authentic sec env s₀ (events ++ [event]) s' := by
  refine ⟨?_, ?_⟩
  · rw [htokens]
    exact (h.extend event).tokens
  · intro row' hrow'
    rw [hrows] at hrow'
    rcases List.mem_append.1 hrow' with hold | hlast
    · exact (h.extend event).rows row' hold
    · rw [List.mem_singleton.1 hlast]
      exact hrow

/-- The answer to a login is a token for a user of that name, whose password it was. -/
theorem login_ok {sec : Security} {users : List User} {username password : Option String} {now : ℕ}
    {response : LoginResponse}
    (h : AuthController.login sec users username password now = .ok response) :
    ∃ user given, username = some user.username ∧ password = some given ∧ user ∈ users ∧
      sec.passwordMatches given user.passwordHash = true ∧
      response = ⟨JwtService.generateToken sec user now, user.role.name⟩ := by
  unfold AuthController.login at h
  split at h
  · rename_i name given hname hgiven
    split at h
    · cases h
    · rename_i user huser
      rcases Results.pure_eq_ok.1 h with rfl
      rcases Option.filter_eq_some_iff.1 huser with ⟨hfind, hmatches⟩
      obtain ⟨hmem, rfl⟩ := Table.find_eq_some hfind
      exact ⟨user, given, (Option.filter_eq_some_iff.1 hname).1,
        (Option.filter_eq_some_iff.1 hgiven).1, hmem, hmatches, rfl⟩
  · cases h

/-- One step of the site. -/
theorem Authentic.step {sec : Security} {env : Env} {s₀ s s' : Site} {events : List SiteEvent}
    {event : SiteEvent} (works : sec.Works) (hinit : (site sec env).init s₀)
    (hrun : (site sec env).run s₀ events = some s)
    (h : Authentic sec env s₀ events s) (hunforged : Unforged sec s event)
    (hstep : Site.step sec env s event = some s') :
    Authentic sec env s₀ (events ++ [event]) s' := by
  have hkept := hstep
  cases event with
  | startUp application =>
      simp only [Site.step] at hstep
      split at hstep
      · cases hstep
      · split at hstep <;> cases hstep <;> exact h.quiet _ rfl rfl
  | seedNext application id salt createdAt =>
      simp only [Site.step] at hstep
      split at hstep
      · cases hstep
      · cases hstep
        exact h.quiet _ rfl rfl
      · split at hstep
        · cases hstep
        · split at hstep <;> cases hstep <;> exact h.quiet _ rfl rfl
  | stop application =>
      cases hstep
      exact h.quiet _ rfl rfl
  | login username password now =>
      simp only [Site.step] at hstep
      split at hstep
      · rename_i response hlogin
        cases hstep
        obtain ⟨user, given, rfl, rfl, huser, hmatches, rfl⟩ := login_ok hlogin
        refine ⟨fun token htoken => ?_, (h.extend _).rows⟩
        rcases List.mem_append.1 htoken with hold | hnew
        · exact (h.extend _).tokens token hold
        · exact ⟨user, now, events, given, [], s, rfl, hrun, huser, hmatches,
            List.mem_singleton.1 hnew⟩
      · cases hstep
        exact h.quiet _ rfl rfl
  | request header receivedAt request =>
      simp only [Site.step] at hstep
      split at hstep
      · rename_i authentication hfilter
        cases hstep
        rcases row_of_receive env s.db (.http authentication request) with hsame | ⟨row, hrow, hrow'⟩
        · exact h.quiet _ rfl hsame
        refine h.write _ rfl hrow ?_
        rcases hrow' with hmachine | ⟨actor, request', hinput, hnames⟩
        · exact Or.inl hmachine
        cases hinput
        -- the actor was named by a token, and that was handed out in a login
        obtain ⟨token, claims, rfl, hparse, hsubject, hrole⟩ := filter_ok hfilter
        have htoken : token ∈ s.tokens := hunforged token rfl (by rw [hparse]; simp)
        obtain ⟨user, loginAt, hgranted⟩ := h.tokens token htoken
        rw [hgranted.token_eq, parse_generateToken works (hgranted.account_mem hinit)] at hparse
        obtain ⟨hlive, hclaims⟩ := Option.ite_none_right_eq_some.1 hparse
        rcases Option.some.inj hclaims with rfl
        rw [roleFrom_readClaims] at hrole
        refine Or.inr ⟨user, ⟨events, token, receivedAt, request, [], s, _, loginAt, rfl, hrun,
          hkept, hrow, hgranted, hlive⟩, hnames.username.trans hsubject.symm, ?_⟩
        exact hnames.role.trans (Option.some.inj (Except.ok.inj hrole)).symm
      · cases hstep
        exact h.quiet _ rfl rfl
  | applyScore claimId fraudScore decisionHint ringId explanationJson modelVersion now =>
      cases hstep
      rcases row_of_receive env s.db (.applyScore claimId fraudScore decisionHint ringId
        explanationJson modelVersion now) with hsame | ⟨row, hrow, hmachine | ⟨_, _, hinput, _⟩⟩
      · exact h.quiet _ rfl hsame
      · exact h.write _ rfl hrow (Or.inl hmachine)
      · cases hinput

theorem Site.authentic_of_run {sec : Security} {env : Env} {s₀ s : Site} {events : List SiteEvent}
    (works : sec.Works) (hinit : (site sec env).init s₀)
    (hunforged : (site sec env).Along (Unforged sec) s₀ events)
    (hrun : (site sec env).run s₀ events = some s) : Authentic sec env s₀ events s := by
  have hempty := hinit
  obtain ⟨-, -, htokens, -, haudit⟩ := hempty
  refine Lts.run_history_along (I := Authentic sec env s₀) ⟨?_, ?_⟩ ?_ hunforged hrun
  · simp [htokens]
  · simp [haudit]
  · intro events s event s' hrun h hunforged hstep
    exact h.step works hinit hrun hunforged hstep

theorem WrittenBy.account_mem {sec : Security} {env : Env} {s₀ : Site} {events : List SiteEvent}
    {row : ClaimAuditEvent} {user : User} (hinit : (site sec env).init s₀)
    (h : WrittenBy sec env s₀ events row user) : user.account ∈ DemoUserSeeder.accounts := by
  obtain ⟨before, token, receivedAt, request, after, s, s', loginAt, -, -, -, -, hgranted, -⟩ := h
  exact hgranted.account_mem hinit

/-- In every run in which no token is made up, every audit row is a machine's, or it names a
person with an account of the seeder, who logged in with a matching password, and it was
written by a request with the token of that login before the token expired. -/
theorem people_are_authentic (sec : Security) (env : Env) (s₀ s : Site) (events : List SiteEvent)
    (works : sec.Works) (hinit : (site sec env).init s₀)
    (hrun : (site sec env).run s₀ events = some s)
    (hunforged : (site sec env).Along (Unforged sec) s₀ events) :
    ∀ row ∈ s.db.auditEvents, row.ByMachine ∨
      ∃ user, user.account ∈ DemoUserSeeder.accounts ∧ WrittenBy sec env s₀ events row user ∧
        row.Names ⟨user.username, user.role⟩ := by
  intro row hrow
  rcases (Site.authentic_of_run works hinit hunforged hrun).rows row hrow with
    hmachine | ⟨user, hwritten, hnames⟩
  · exact Or.inl hmachine
  · exact Or.inr ⟨user, hwritten.account_mem hinit, hwritten, hnames⟩

namespace Sample

/-- A token of the sample library: the payload, with no signature. -/
def payload (claims : TokenClaims) : JsonText :=
  .obj ([("sub", .str claims.subject)] ++ (claims.role.map fun role => ("role", role)).toList ++
    [("iat", .num (.ofInt ↑(claims.issuedAt / 1000))),
      ("exp", .num (.ofInt ↑(claims.expiration / 1000)))])

/-- What a payload says. -/
def claimsOf : JsonText → Option TokenClaims
  | .obj [("sub", .str subject), ("role", role), ("iat", .num issued), ("exp", .num expires)] =>
      some ⟨subject, some role, issued.toInt.toNat * 1000, expires.toInt.toNat * 1000⟩
  | .obj [("sub", .str subject), ("iat", .num issued), ("exp", .num expires)] =>
      some ⟨subject, none, issued.toInt.toNat * 1000, expires.toInt.toNat * 1000⟩
  | _ => none

theorem claimsOf_payload (claims : TokenClaims) : claimsOf (payload claims) = some
    { claims with
      issuedAt := wholeSeconds claims.issuedAt
      expiration := wholeSeconds claims.expiration } := by
  have hseconds : ∀ date : ℕ, (date / 1000 : ℤ).toNat = date / 1000 := by omega
  rcases claims with ⟨subject, _ | role, issuedAt, expiration⟩ <;>
    simp [payload, claimsOf, wholeSeconds, hseconds]

/-- Sessions of an hour, salted passwords and tokens that are not signed. -/
def security : Security where
  encode salt password := salt ++ password
  passwordMatches password hash := password.toList.isSuffixOf hash.toList
  compact claims := String.ofList (JsonText.compact.write (payload claims))
  parse now token := ((JsonText.read token.toList).bind claimsOf).filter fun claims =>
    decide (now ≤ claims.expiration)
  expirationMinutes := 60

theorem works_security : security.Works where
  matches_encode salt := by
    show DemoUserSeeder.demoPassword.toList.isSuffixOf
      (salt ++ DemoUserSeeder.demoPassword).toList = true
    rw [String.toList_append, List.isSuffixOf_iff_suffix]
    exact List.suffix_append _ _
  parse_compact claims now _ := by
    simp only [security, String.toList_ofList, JsonText.compact.read_write, Option.bind_some,
      claimsOf_payload, Option.filter_some, decide_eq_true_eq]

/-- The site before its first startup. -/
def closed : Site where
  users := []
  startups _ := none
  tokens := []
  db := Db.empty

/-- The first startup, a claim and the login of the adjuster. -/
def opening : List SiteEvent :=
  [.startUp 0, .seedNext 0 ⟨101⟩ "s1" now, .seedNext 0 ⟨102⟩ "s2" now, .seedNext 0 ⟨103⟩ "s3" now,
    .seedNext 0 ⟨104⟩ "s4" now,
    .request none 0 (.createClaim
      { claimantName := some "Asha", policyNumber := some "P-1", claimAmount := some ⟨12500, 2⟩,
        incidentDate := some ⟨20454⟩, claimantPhone := some "+919876500011",
        claimantAddress := some "12 MG Rd", repairShopName := none } draws),
    .login (some "adjuster1") (some "changeme123") 5000]

/-- The token of the adjuster. -/
def badge : String :=
  security.compact ⟨"adjuster1", some (.str "ADJUSTER"), 5000, 3605000⟩

/-- The adjuster takes the claim up. -/
def takeUp : SiteEvent :=
  .request (some ("Bearer " ++ badge)) 9000 (.transition ⟨1⟩ ⟨some .underReview, none⟩ now)

theorem tokens_opening :
    ((site security env).run closed opening).map Site.tokens = some [badge] := by
  decide +kernel

theorem actors_takeUp : ((site security env).run closed (opening ++ [takeUp])).map
    (fun s => s.db.auditEvents.map ClaimAuditEvent.actorId) = some [intakeActorId, "adjuster1"] := by
  decide +kernel

theorem unforged_takeUp :
    (site security env).Along (Unforged security) closed (opening ++ [takeUp]) := by
  refine Lts.along_append.2 ⟨?_, fun s hs => ⟨?_, fun _ _ => trivial⟩⟩
  · exact ⟨trivial, fun _ _ => ⟨trivial, fun _ _ => ⟨trivial, fun _ _ => ⟨trivial, fun _ _ =>
      ⟨trivial, fun _ _ => ⟨trivial, fun _ _ => ⟨trivial, fun _ _ => trivial⟩⟩⟩⟩⟩⟩⟩
  · intro token htoken _
    have htokens := tokens_opening
    rw [hs, Option.map_some, Option.some_inj] at htokens
    have heq : badge = token := by
      rw [← String.toList_inj, String.toList_append, String.toList_append] at htoken
      exact String.toList_inj.1 (List.append_cancel_left htoken)
    rw [htokens, ← heq]
    exact List.mem_singleton_self _

end Sample

/-- The adjuster logs in and takes the first claim up. -/
theorem people_are_authentic_takeUp : ∃ s,
    (site Sample.security Sample.env).run Sample.closed (Sample.opening ++ [Sample.takeUp]) =
        some s ∧
      ∀ row ∈ s.db.auditEvents, row.ByMachine ∨
        ∃ user, user.account ∈ DemoUserSeeder.accounts ∧
          WrittenBy Sample.security Sample.env Sample.closed (Sample.opening ++ [Sample.takeUp]) row
            user ∧ row.Names ⟨user.username, user.role⟩ := by
  have hsome := Sample.actors_takeUp
  rcases hrun : (site Sample.security Sample.env).run Sample.closed
    (Sample.opening ++ [Sample.takeUp]) with _ | s
  · rw [hrun] at hsome
    cases hsome
  · exact ⟨s, rfl, people_are_authentic Sample.security Sample.env Sample.closed s _
      Sample.works_security ⟨rfl, fun _ => rfl, rfl, rfl, rfl⟩ hrun Sample.unforged_takeUp⟩

/-! ## How long a session lasts -/

/-- When no startup runs and there is a user, no other is ever added. -/
theorem Site.users_final {sec : Security} {env : Env} {s s' : Site} {events : List SiteEvent}
    (huser : s.users ≠ []) (hidle : ∀ application, s.startups application = none)
    (hrun : (site sec env).run s events = some s') : s'.users = s.users := by
  refine (Lts.run_invariant
    (I := fun t => t.users = s.users ∧ ∀ application, t.startups application = none)
    ?_ ⟨rfl, hidle⟩ hrun).1
  rintro t event t' ⟨husers, hstopped⟩ hstep
  change Site.step sec env t event = some t' at hstep
  cases event with
  | startUp application =>
      simp only [Site.step, hstopped] at hstep
      rw [if_pos (by rw [husers]; exact List.length_pos_of_ne_nil huser)] at hstep
      cases hstep
      exact ⟨husers, hstopped⟩
  | seedNext application id salt createdAt =>
      simp only [Site.step, hstopped] at hstep
      cases hstep
  | stop application =>
      cases hstep
      refine ⟨husers, fun j => ?_⟩
      simp only [Site.setStartup, Function.update_apply, hstopped, ite_self]
  | login username password now =>
      simp only [Site.step] at hstep
      split at hstep <;> cases hstep <;> exact ⟨husers, hstopped⟩
  | request header receivedAt request =>
      simp only [Site.step] at hstep
      split at hstep <;> cases hstep <;> exact ⟨husers, hstopped⟩
  | applyScore claimId fraudScore decisionHint ringId explanationJson modelVersion now =>
      cases hstep
      exact ⟨husers, hstopped⟩

theorem notBlank_of_seeded {sec : Security} {s : Site} {k : ℕ} (h : s.Seeded sec k) {user : User}
    (huser : user ∈ s.users) : notBlank (some user.username) = some user.username := by
  have hall : ∀ account ∈ DemoUserSeeder.accounts,
      notBlank (some account.1) = some account.1 := by
    decide +kernel
  exact hall user.account (h.account_mem huser)

theorem notBlank_demoPassword :
    notBlank (some DemoUserSeeder.demoPassword) = some DemoUserSeeder.demoPassword := by
  decide +kernel

/-- A user logs in with the password of the demo. -/
theorem login_of_seeded {sec : Security} {s : Site} {k : ℕ} (works : sec.Works)
    (h : s.Seeded sec k) {user : User} (huser : user ∈ s.users) (now : ℕ) :
    AuthController.login sec s.users (some user.username) (some DemoUserSeeder.demoPassword) now =
      .ok ⟨JwtService.generateToken sec user now, user.role.name⟩ := by
  obtain ⟨salt, hhash⟩ := h.hashes user huser
  have hmatches : sec.passwordMatches DemoUserSeeder.demoPassword user.passwordHash = true := by
    rw [hhash]
    exact works.matches_encode _
  have hfind : (findByUsername s.users user.username).filter
      (fun u => sec.passwordMatches DemoUserSeeder.demoPassword u.passwordHash) = some user := by
    rw [h.findByUsername huser, Option.filter_some, if_pos hmatches]
  unfold AuthController.login
  simp only [notBlank_of_seeded h huser, notBlank_demoPassword, hfind]
  rfl

/-- In every state of every run of the site, the users are the first of the three accounts of
the seeder, in its order, and once no startup runs they stay those that there are. Each of
them gets a token for the password of the demo, and the filter takes that token as the
user, in the role of the account, until it expires and never after. -/
theorem accounts_and_sessions (sec : Security) (env : Env) (s₀ s : Site) (events : List SiteEvent)
    (works : sec.Works) (hinit : (site sec env).init s₀)
    (hrun : (site sec env).run s₀ events = some s) :
    (∃ k, s.users.map User.account = DemoUserSeeder.accounts.take k) ∧
      (s.users ≠ [] → (∀ application, s.startups application = none) →
        ∀ later s', (site sec env).run s later = some s' → s'.users = s.users) ∧
      ∀ user ∈ s.users, ∀ loginAt, ∃ token,
        AuthController.login sec s.users (some user.username) (some DemoUserSeeder.demoPassword)
            loginAt = .ok ⟨token, user.role.name⟩ ∧
          ∀ t, JwtAuthenticationFilter.doFilterInternal sec t
              (some (JwtAuthenticationFilter.bearerPrefix ++ token)) =
            .ok (if t ≤ wholeSeconds (loginAt + sec.expirationMinutes * 60000) then
              some ⟨user.username, user.role⟩ else none) := by
  obtain ⟨k, hseeded⟩ := Site.seeded_of_run hinit hrun
  refine ⟨⟨k, hseeded.users⟩, fun huser hidle later s' hlater =>
    Site.users_final huser hidle hlater, fun user huser loginAt => ?_⟩
  exact ⟨JwtService.generateToken sec user loginAt, login_of_seeded works hseeded huser loginAt,
    filter_generateToken works (hseeded.account_mem huser) loginAt⟩

/-- The three accounts, seeded by a first startup, with their sessions. -/
theorem accounts_and_sessions_opening : ∃ s,
    (site Sample.security Sample.env).run Sample.closed Sample.opening = some s ∧
      s.users.map User.account = DemoUserSeeder.accounts ∧
      (∃ k, s.users.map User.account = DemoUserSeeder.accounts.take k) ∧
      (s.users ≠ [] → (∀ application, s.startups application = none) →
        ∀ later s', (site Sample.security Sample.env).run s later = some s' →
          s'.users = s.users) ∧
      ∀ user ∈ s.users, ∀ loginAt, ∃ token,
        AuthController.login Sample.security s.users (some user.username)
            (some DemoUserSeeder.demoPassword) loginAt = .ok ⟨token, user.role.name⟩ ∧
          ∀ t, JwtAuthenticationFilter.doFilterInternal Sample.security t
              (some (JwtAuthenticationFilter.bearerPrefix ++ token)) =
            .ok (if t ≤ wholeSeconds (loginAt + Sample.security.expirationMinutes * 60000) then
              some ⟨user.username, user.role⟩ else none) := by
  have haccounts : ((site Sample.security Sample.env).run Sample.closed Sample.opening).map
      (fun s => s.users.map User.account) = some DemoUserSeeder.accounts := by
    decide +kernel
  rcases hrun : (site Sample.security Sample.env).run Sample.closed Sample.opening with _ | s
  · rw [hrun] at haccounts
    cases haccounts
  · rw [hrun] at haccounts
    exact ⟨s, rfl, Option.some.inj haccounts, accounts_and_sessions Sample.security Sample.env
      Sample.closed s _ Sample.works_security ⟨rfl, fun _ => rfl, rfl, rfl, rfl⟩ hrun⟩

end ClaimGuard
