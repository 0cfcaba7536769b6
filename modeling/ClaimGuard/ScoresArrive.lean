import ClaimGuard.HeldClaims

/-!
# Scores arrive

A submitted claim that the pipeline holds can get its score from the machines alone: a
publisher brings its record to the end of the topic, a consumer that starts on the committed
offset reads on up to it, and so does a listener with its score. A claim that is no longer
held never gets one.
-/

namespace ClaimGuard

open ClaimService

/-! ## What the machines can do -/

/-- The step is one of a publisher, of a consumer, of a listener or of the broker. -/
def GroupedEvent.byMachines : GroupedEvent → Bool
  | .other event => event.byMachines
  | _ => true

/-- The machines alone. -/
abbrev machines (svc : Services) : Lts Grouped GroupedEvent :=
  (grouped svc).restrict GroupedEvent.byMachines

section

variable {svc : Services} {g g' : Grouped}

theorem leads_of_step (event : GroupedEvent) (hmachines : event.byMachines = true)
    (h : Grouped.step svc g event = some g') : (machines svc).Leads g g' :=
  .of_step (Lts.restrict_step_eq_some.2 ⟨hmachines, h⟩)

/-- Publishers, as part of the whole. -/
theorem leads_of_publishing {events : List Event} {d : Deployment}
    (hmachines : ∀ e ∈ events, (SystemEvent.publishing e).byMachines = true)
    (h : (publishing svc.env).run g.system.deployment events = some d) :
    (machines svc).Leads g { g with system := { g.system with deployment := d } } ∧
      d.db.claims = g.db.claims := by
  induction events generalizing g with
  | nil =>
      cases h
      exact ⟨.refl g, rfl⟩
  | cons event events ih =>
      rcases (publishing svc.env).run_cons_eq_some.1 h with ⟨d₁, hstep, hrest⟩
      have hevent := hmachines event List.mem_cons_self
      have hfirst : Grouped.step svc g (.other (.publishing event)) =
          some { g with system := { g.system with deployment := d₁ } } := by
        have hstep' := System.step_publishing svc hevent hstep
        simp only [Grouped.step, SystemEvent.isReading, Bool.false_eq_true, if_false, hstep',
          Option.map_some]
      obtain ⟨hleads, hclaims⟩ :=
        ih (g := { g with system := { g.system with deployment := d₁ } })
          (fun e he => hmachines e (List.mem_cons_of_mem _ he)) hrest
      exact ⟨(leads_of_step (.other (.publishing event)) hevent hfirst).trans hleads,
        hclaims.trans (Deployment.claims_step hevent hstep)⟩

/-- A record among the new ones of a topic has a place behind the old ones. -/
theorem exists_place {α : Type} {l new : List α} {a : α} (h : a ∈ new) :
    ∃ n, l.length ≤ n ∧ (l ++ new)[n]? = some a := by
  rcases List.mem_iff_getElem?.1 h with ⟨k, hk⟩
  refine ⟨l.length + k, by omega, ?_⟩
  rw [List.getElem?_append_right (by omega), Nat.add_sub_cancel_left]
  exact hk

/-- What is owed can be brought to the end of the topic. -/
theorem leads_of_owes (svc : Services) {claimId : UUID} (howes : g.system.deployment.Owes claimId) (now : Instant) :
    ∃ d n record, (machines svc).Leads g { g with system := { g.system with deployment := d } } ∧
      d.db.claims = g.db.claims ∧ g.system.deployment.topic.length ≤ n ∧
      d.topic[n]? = some record ∧ record.key = claimId.toString := by
  -- a run of publishers that adds a record of the claim
  have hrun : ∃ (events : List Event) (d : Deployment) (new : List OutboxRecord) (record : _),
      (∀ e ∈ events, (SystemEvent.publishing e).byMachines = true) ∧
      (publishing svc.env).run g.system.deployment events = some d ∧
      d.topic = g.system.deployment.topic ++ new ∧ record ∈ new ∧
      record.key = claimId.toString := by
    cases howes with
    | queued row hrow howner hunsent =>
        rcases run_cleanTick svc.env g.system.deployment now with ⟨d, hrun, htopic⟩
        refine ⟨_, d, _, row.record, ?_, hrun, htopic, List.mem_map_of_mem
          ((List.perm_insertionSort _ _).mem_iff.2 (List.mem_filter.2 ⟨hrow, by simp [hunsent]⟩)),
          congrArg UUID.toString howner⟩
        intro e he
        rcases List.mem_cons.1 he with rfl | he
        · rfl
        · rcases List.mem_cons.1 he with rfl | he
          · rfl
          · exact byMachines_of_mem_tickEvents e he
    | read row hread howner =>
        rcases hread with ⟨publisher, tick, htick, hrow⟩
        rcases run_restOfTick svc.env now htick with ⟨d, hrun, htopic⟩
        refine ⟨_, d, _, row.record, ?_, hrun, htopic, List.mem_map_of_mem hrow,
          congrArg UUID.toString howner⟩
        intro e he
        rcases List.mem_append.1 he with howed | he
        · unfold Tick.owed at howed
          split at howed
          · cases howed
          · rw [List.mem_singleton.1 howed]
            rfl
        · exact byMachines_of_mem_tickEvents e he
    | onTheWay record hrecord hkey =>
        rcases List.mem_iff_getElem?.1 hrecord with ⟨k, hk⟩
        have hstep : (publishing svc.env).step g.system.deployment (.lateAccept k) =
            some { g.system.deployment with
              topic := g.system.deployment.topic ++ [record]
              onTheWay := g.system.deployment.onTheWay.eraseIdx k } := by
          simp only [publishing, Deployment.step, hk]
        refine ⟨[.lateAccept k],
          { g.system.deployment with
            topic := g.system.deployment.topic ++ [record]
            onTheWay := g.system.deployment.onTheWay.eraseIdx k },
          [record], record, by simp [SystemEvent.byMachines], ?_, rfl,
          List.mem_singleton_self _, hkey⟩
        rw [Lts.run_cons, hstep, Option.bind_some, Lts.run_nil]
  rcases hrun with ⟨events, d, new, record, hmachines, hrun, htopic, hmem, hkey⟩
  obtain ⟨hleads, hclaims⟩ := leads_of_publishing (g := g) hmachines hrun
  rcases exists_place (l := g.system.deployment.topic) hmem with ⟨n, hn, hplace⟩
  exact ⟨d, n, record, hleads, hclaims, hn, by rw [htopic]; exact hplace, hkey⟩

theorem reachable_of_leads (hg : (grouped svc).Reachable g) (h : (machines svc).Leads g g') :
    (grouped svc).Reachable g' :=
  Lts.Leads.reachable h hg

/-! ## Up to a record -/

/-- A consumer starts afresh on the committed offset, in the place of the one that has the
topic. -/
theorem leads_of_restart (svc : Services) (hdates : g.db.Readable none) :
    ∃ g', (machines svc).Leads g g' ∧ g'.system.deployment = g.system.deployment ∧
      g'.system.scored = g.system.scored ∧ g'.listeners = g.listeners ∧
      g'.scorers.owner = some 0 ∧
      g'.scorers.members 0 = some ⟨g.scorers.committed, g.scorers.committed⟩ := by
  -- the owner stops
  have hstop : ∃ g₁, (machines svc).Leads g g₁ ∧ g₁.system.deployment = g.system.deployment ∧
      g₁.system.scored = g.system.scored ∧ g₁.listeners = g.listeners ∧
      g₁.scorers = g.scorers.owner.elim g.scorers g.scorers.leave := by
    cases howner : g.scorers.owner with
    | none => exact ⟨g, .refl g, rfl, rfl, rfl, rfl⟩
    | some owner =>
        exact ⟨{ g with
            system := g.system.setConsumer owner none
            scorers := g.scorers.leave owner },
          leads_of_step (.stopConsumer owner) rfl rfl, rfl, rfl, rfl, rfl⟩
  rcases hstop with ⟨g₁, hleads, hdeployment, hscored, hlisteners, hscorers⟩
  -- another one starts
  rcases exists_refresh svc.sc Cache.empty (svc.graph g₁.db (fetchLinks g₁.db none)) with
    ⟨k, hrefresh⟩
  generalize hcache : Cache.of svc.sc (svc.graph g₁.db (fetchLinks g₁.db none)) = cache at hrefresh
  have hstart : Grouped.step svc g₁ (.startConsumer 0 (fetchLinks g₁.db none) true) =
      some { g₁ with
        system := g₁.system.setConsumer 0 (some cache)
        scorers := g₁.scorers.leave 0 } := by
    have hcan : g₁.canRefresh true = true := by
      unfold Grouped.canRefresh
      rw [Grouped.db, System.db, hdeployment]
      exact decide_eq_true hdates
    have hsystem : System.step svc g₁.system (.startConsumer 0 (fetchLinks g₁.db none) true) =
        some (g₁.system.setConsumer 0 (some cache)) := by
      simp only [System.step, List.isPerm_iff.2 (List.Perm.refl _), if_true, hrefresh]
    simp only [Grouped.step, hcan, if_true, hsystem, Option.map_some]
  -- and gets the topic
  rcases g.scorers.exists_assigned 0 with ⟨scorers, hact, howner, hplace⟩
  have hassign : Grouped.step svc { g₁ with
        system := g₁.system.setConsumer 0 (some cache)
        scorers := g₁.scorers.leave 0 } (.scorers (.assign 0)) =
      some { g₁ with system := g₁.system.setConsumer 0 (some cache), scorers := scorers } := by
    have hruns : ((g₁.system.setConsumer 0 (some cache)).consumers 0).isSome = true := by
      simp [System.setConsumer]
    rw [← hscorers] at hact
    simp only [Grouped.step, Grouped.admitsScorers, hruns, if_true, hact, Option.map_some]
  exact ⟨_, hleads.trans ((leads_of_step _ rfl hstart).trans (leads_of_step _ rfl hassign)),
    hdeployment, hscored, hlisteners, howner, hplace⟩

/-- A consumer reads the record it is at, and its score is the next of the other topic. -/
theorem leads_of_read
    (hjsonb : ∀ text stored, svc.env.jsonb text = some stored → JsonbReturns text stored)
    (hsc : svc.sc.Works) (hg : (grouped svc).Reachable g) (hdates : g.db.Readable none)
    (scoredAt : String) {consumer n fetched : ℕ}
    (hplace : g.scorers.members consumer = some ⟨n, fetched⟩) (hlt : n < fetched)
    {record : OutboxRecord} (hrecord : g.system.deployment.topic[n]? = some record) :
    ∃ g' payload claimId, (machines svc).Leads g g' ∧
      g'.system.deployment = g.system.deployment ∧ g'.listeners = g.listeners ∧
      g'.system.scored = g.system.scored ++ [payload] ∧
      g'.scorers.members consumer = some ⟨n + 1, fetched⟩ ∧ record.key = claimId.toString ∧
      ∀ id, ScoringResultConsumer.Names payload id ↔ id = claimId := by
  have hruns := (Grouped.ordered_of_reachable hjsonb hsc hg).running consumer _ hplace
  rcases System.exists_consume_step hjsonb hsc (Grouped.reachable_system hg) hruns hrecord scoredAt
    with ⟨next, payload, claimId, hsystem, hkey, hnames⟩
  have hstep : Grouped.step svc g (.consume consumer (fetchLinks g.db none) true scoredAt true) =
      some { g with
        system := { g.system.setConsumer consumer (some next) with
          scored := g.system.scored ++ [payload] }
        scorers := g.scorers.advance consumer } := by
    have hnext : g.scorers.next consumer = some n :=
      ConsumerGroup.next_eq_some.2 ⟨fetched, hplace, hlt⟩
    have hcan : g.canRefresh true = true := decide_eq_true hdates
    simp only [Grouped.step, hnext, hcan, if_true, hsystem, Option.map_some, Grouped.afterRead,
      System.setConsumer, Function.update_self, Option.isSome_some]
  exact ⟨_, payload, claimId, leads_of_step _ rfl hstep, rfl, rfl, rfl,
    ConsumerGroup.members_advance_self hplace, hkey, hnames⟩

/-- A consumer reads what it has fetched up to a record and publishes the score of its claim. -/
theorem leads_of_place
    (hjsonb : ∀ text stored, svc.env.jsonb text = some stored → JsonbReturns text stored)
    (hsc : svc.sc.Works) (hg : (grouped svc).Reachable g) (hdates : g.db.Readable none)
    (scoredAt : String) {consumer p n fetched : ℕ}
    (hplace : g.scorers.members consumer = some ⟨p, fetched⟩) (hle : p ≤ n) (hlt : n < fetched)
    {record : OutboxRecord} (hrecord : g.system.deployment.topic[n]? = some record)
    {claimId : UUID} (hkey : record.key = claimId.toString) :
    ∃ g' m payload, (machines svc).Leads g g' ∧ g'.listeners = g.listeners ∧
      g.system.scored.length ≤ m ∧ g'.system.scored[m]? = some payload ∧
      ScoringResultConsumer.Names payload claimId := by
  obtain ⟨k, rfl⟩ := Nat.exists_eq_add_of_le hle
  -- by induction on how many records are before it
  induction k generalizing g p with
  | zero =>
      rcases leads_of_read hjsonb hsc hg hdates scoredAt hplace hlt hrecord with
        ⟨g', payload, claimId', hleads, -, hlisteners, hscored, -, hkey', hnames⟩
      rw [hkey] at hkey'
      refine ⟨g', g.system.scored.length, payload, hleads, hlisteners, le_rfl, ?_, ?_⟩
      · rw [hscored, List.getElem?_concat_length]
      · rw [hnames]
        exact UUID.toString_injective hkey'
  | succ k ih =>
      have hfirst : p < g.system.deployment.topic.length :=
        lt_of_le_of_lt (Nat.le_add_right p (k + 1)) (List.getElem?_eq_some_iff.1 hrecord).1
      rcases leads_of_read hjsonb hsc hg hdates scoredAt hplace (by omega)
        (List.getElem?_eq_getElem hfirst) with
        ⟨g₁, first, -, hleads, hdeployment, hlisteners, hscored, hplace₁, -, -⟩
      have hdb : g₁.db = g.db := congrArg Deployment.db hdeployment
      have hnext : p + 1 + k = p + (k + 1) := by omega
      rcases ih (reachable_of_leads hg hleads) (hdb ▸ hdates) hplace₁ (Nat.le_add_right _ _)
        (hnext ▸ hlt) (by rw [hnext, hdeployment]; exact hrecord) with
        ⟨g', m, payload, hrest, hlisteners', hm, hpayload, hnames⟩
      rw [hscored, List.length_append] at hm
      exact ⟨g', m, payload, hleads.trans hrest, hlisteners'.trans hlisteners, by omega, hpayload,
        hnames⟩

/-- The owner of the topic reads on up to a record. -/
theorem leads_of_owner
    (hjsonb : ∀ text stored, svc.env.jsonb text = some stored → JsonbReturns text stored)
    (hsc : svc.sc.Works) (hg : (grouped svc).Reachable g) (hdates : g.db.Readable none)
    (scoredAt : String) {consumer n : ℕ} {place : ConsumerGroup.Place}
    (howner : g.scorers.owner = some consumer) (hplace : g.scorers.members consumer = some place)
    (hle : place.position ≤ n) {record : OutboxRecord}
    (hrecord : g.system.deployment.topic[n]? = some record) {claimId : UUID}
    (hkey : record.key = claimId.toString) :
    ∃ g' m payload, (machines svc).Leads g g' ∧ g'.listeners = g.listeners ∧
      g.system.scored.length ≤ m ∧ g'.system.scored[m]? = some payload ∧
      ScoringResultConsumer.Names payload claimId := by
  -- it fetches what is in the topic
  have hact := ConsumerGroup.act_fetch howner hplace g.system.deployment.topic.length
  generalize hscorers : ConsumerGroup.mk _ _ _ = scorers at hact
  have hfetch : (machines svc).Leads g { g with scorers := scorers } := by
    refine leads_of_step (.scorers (.fetch consumer g.system.deployment.topic.length)) rfl ?_
    simp only [Grouped.step, Grouped.admitsScorers, le_refl, decide_true, if_true, hact,
      Option.map_some]
  have hfetched : scorers.members consumer =
      some ⟨place.position, g.system.deployment.topic.length⟩ := by
    rw [← hscorers]
    exact Function.update_self _ _ _
  rcases leads_of_place hjsonb hsc (reachable_of_leads hg hfetch) hdates scoredAt hfetched hle
    (List.getElem?_eq_some_iff.1 hrecord).1 hrecord hkey with ⟨g', m, payload, hleads, hrest⟩
  exact ⟨g', m, payload, hfetch.trans hleads, hrest⟩

/-- A record that can be read is scored. -/
theorem leads_of_submitted
    (hjsonb : ∀ text stored, svc.env.jsonb text = some stored → JsonbReturns text stored)
    (hsc : svc.sc.Works) (hg : (grouped svc).Reachable g) (hdates : g.db.Readable none)
    (scoredAt : String) {n : ℕ} {record : OutboxRecord}
    (hrecord : g.system.deployment.topic[n]? = some record) {claimId : UUID}
    (hkey : record.key = claimId.toString) (hread : g.scorers.CanRead n) :
    ∃ g' m payload, (machines svc).Leads g g' ∧ g'.listeners = g.listeners ∧
      g.system.scored.length ≤ m ∧ g'.system.scored[m]? = some payload ∧
      ScoringResultConsumer.Names payload claimId := by
  rcases hread with hle | ⟨member, place, hplace, hle, howner | hlt⟩
  · rcases leads_of_restart svc hdates with
      ⟨g₁, hleads, hdeployment, hscored, hlisteners, howner, hplace⟩
    have hdb : g₁.db = g.db := congrArg Deployment.db hdeployment
    rcases leads_of_owner hjsonb hsc (reachable_of_leads hg hleads) (hdb ▸ hdates) scoredAt howner
      hplace hle (by rw [hdeployment]; exact hrecord) hkey with
      ⟨g', m, payload, hrest, hlisteners', hm, hpayload, hnames⟩
    exact ⟨g', m, payload, hleads.trans hrest, hlisteners'.trans hlisteners, hscored ▸ hm,
      hpayload, hnames⟩
  · exact leads_of_owner hjsonb hsc hg hdates scoredAt howner hplace hle hrecord hkey
  · exact leads_of_place hjsonb hsc hg hdates scoredAt hplace hle hlt hrecord hkey

/-! ## Up to a score -/

section

variable
  (hjsonb : ∀ text stored, svc.env.jsonb text = some stored → JsonbReturns text stored)
  (hstores : ∀ explanation : Explanation Double, explanation.IsPlain →
    (svc.env.jsonb explanation.stored).isSome)
  (hphone : ∀ raw value, svc.env.normalizePhone raw = some value →
    ∀ c ∈ value.toList, c = '+' ∨ c.isDigit = true)
  (hsc : svc.sc.Works) (hversion : Db.isText svc.sc.modelVersion = true)

include hjsonb hstores hphone hsc hversion

/-- A listener takes the scores that it has fetched up to one. -/
theorem leads_of_heard (hg : (grouped svc).Reachable g) (now : Instant) {listener p m fetched : ℕ}
    (hplace : g.listeners.members listener = some ⟨p, fetched⟩) (hle : p ≤ m) (hlt : m < fetched)
    {payload : List Char} (hpayload : g.system.scored[m]? = some payload) {claimId : UUID}
    (hnames : ScoringResultConsumer.Names payload claimId) :
    ∃ g', (machines svc).Leads g g' ∧ g'.db.HasScore claimId svc.sc.modelVersion := by
  obtain ⟨k, rfl⟩ := Nat.exists_eq_add_of_le hle
  -- by induction on how many scores are before it
  induction k generalizing g p with
  | zero =>
      have hnext : g.listeners.next listener = some p :=
        ConsumerGroup.next_eq_some.2 ⟨fetched, hplace, hlt⟩
      rcases System.exists_deliver_step hjsonb hstores hphone hsc hversion
        (Grouped.reachable_system hg) hpayload now with ⟨db, hsystem, hscore⟩
      refine ⟨{ g with
          system := g.system.setDb db
          listeners := g.listeners.advance listener },
        leads_of_step (.deliver listener now) rfl ?_, hscore claimId hnames⟩
      simp only [Grouped.step, hnext, Nat.add_zero] at hsystem ⊢
      rw [hsystem, Option.map_some]
  | succ k ih =>
      have hnext : g.listeners.next listener = some p :=
        ConsumerGroup.next_eq_some.2 ⟨fetched, hplace, by omega⟩
      have hfirst : p < g.system.scored.length :=
        lt_of_le_of_lt (Nat.le_add_right p (k + 1)) (List.getElem?_eq_some_iff.1 hpayload).1
      rcases System.exists_deliver_step hjsonb hstores hphone hsc hversion
        (Grouped.reachable_system hg) (List.getElem?_eq_getElem hfirst) now with ⟨db, hsystem, -⟩
      have hleads : (machines svc).Leads g { g with
          system := g.system.setDb db
          listeners := g.listeners.advance listener } := by
        refine leads_of_step (.deliver listener now) rfl ?_
        simp only [Grouped.step, hnext, hsystem, Option.map_some]
      have hplaces : p + 1 + k = p + (k + 1) := by omega
      rcases ih (reachable_of_leads hg hleads) (ConsumerGroup.members_advance_self hplace)
        (Nat.le_add_right _ _) (hplaces ▸ hlt) (by rw [hplaces]; exact hpayload) with
        ⟨g', hrest, hscore⟩
      exact ⟨g', hleads.trans hrest, hscore⟩

/-- The owner of the topic takes the scores up to one. -/
theorem leads_of_listener (hg : (grouped svc).Reachable g) (now : Instant) {listener m : ℕ}
    {place : ConsumerGroup.Place} (howner : g.listeners.owner = some listener)
    (hplace : g.listeners.members listener = some place) (hle : place.position ≤ m)
    {payload : List Char} (hpayload : g.system.scored[m]? = some payload) {claimId : UUID}
    (hnames : ScoringResultConsumer.Names payload claimId) :
    ∃ g', (machines svc).Leads g g' ∧ g'.db.HasScore claimId svc.sc.modelVersion := by
  have hact := ConsumerGroup.act_fetch howner hplace g.system.scored.length
  generalize hlisteners : ConsumerGroup.mk _ _ _ = listeners at hact
  have hfetch : (machines svc).Leads g { g with listeners := listeners } := by
    refine leads_of_step (.listeners (.fetch listener g.system.scored.length)) rfl ?_
    simp only [Grouped.step, Grouped.admitsListeners, le_refl, decide_true, if_true, hact,
      Option.map_some]
  have hfetched : listeners.members listener =
      some ⟨place.position, g.system.scored.length⟩ := by
    rw [← hlisteners]
    exact Function.update_self _ _ _
  rcases leads_of_heard hjsonb hstores hphone hsc hversion (reachable_of_leads hg hfetch) now
    hfetched hle (List.getElem?_eq_some_iff.1 hpayload).1 hpayload hnames with ⟨g', hleads, hscore⟩
  exact ⟨g', hfetch.trans hleads, hscore⟩

/-- A score that can be read is stored. -/
theorem leads_of_scored (hg : (grouped svc).Reachable g) (now : Instant) {m : ℕ}
    {payload : List Char} (hpayload : g.system.scored[m]? = some payload) {claimId : UUID}
    (hnames : ScoringResultConsumer.Names payload claimId) (hread : g.listeners.CanRead m) :
    ∃ g', (machines svc).Leads g g' ∧ g'.db.HasScore claimId svc.sc.modelVersion := by
  rcases hread with hle | ⟨member, place, hplace, hle, howner | hlt⟩
  · -- a listener gets the topic in the place of the one that has it
    rcases g.listeners.exists_assigned 0 with ⟨listeners, hact, howner, hplace⟩
    have hleads : (machines svc).Leads g { g with listeners := listeners } := by
      have hleave : (machines svc).Leads g
          { g with listeners := g.listeners.owner.elim g.listeners g.listeners.leave } := by
        cases howner : g.listeners.owner with
        | none => exact .refl g
        | some owner => exact leads_of_step (.listeners (.leave owner)) rfl rfl
      refine hleave.trans ((leads_of_step (.listeners (.leave 0)) rfl rfl).trans
        (leads_of_step (.listeners (.assign 0)) rfl ?_))
      simp only [Grouped.step, Grouped.admitsListeners, if_true, hact, Option.map_some]
    rcases leads_of_listener hjsonb hstores hphone hsc hversion (reachable_of_leads hg hleads) now
      howner hplace hle hpayload hnames with ⟨g', hrest, hscore⟩
    exact ⟨g', hleads.trans hrest, hscore⟩
  · exact leads_of_listener hjsonb hstores hphone hsc hversion hg now howner hplace hle hpayload
      hnames
  · exact leads_of_heard hjsonb hstores hphone hsc hversion hg now hplace hle hlt hpayload hnames

/-- What the pipeline holds of a claim, the machines can bring to its score. -/
theorem leads_of_holds (hg : (grouped svc).Reachable g) (hdates : g.db.Readable none)
    (scoredAt : String) (now : Instant) {claimId : UUID} (hholds : g.Holds claimId) :
    ∃ g', (machines svc).Leads g g' ∧ g'.db.HasScore claimId svc.sc.modelVersion := by
  -- from its record on
  have hrecord : ∀ g, (grouped svc).Reachable g → g.db.Readable none → ∀ (n : ℕ)
      (record : OutboxRecord), g.system.deployment.topic[n]? = some record →
      record.key = claimId.toString → g.scorers.CanRead n →
      ∃ g', (machines svc).Leads g g' ∧ g'.db.HasScore claimId svc.sc.modelVersion := by
    intro g hg hdates n record hrecord hkey hread
    rcases leads_of_submitted hjsonb hsc hg hdates scoredAt hrecord hkey hread with
      ⟨g₁, m, payload, hleads, hlisteners, hm, hpayload, hnames⟩
    have hread : g₁.listeners.CanRead m := by
      rw [hlisteners]
      exact (Grouped.ordered_of_reachable hjsonb hsc hg).listeners.canRead hm
    rcases leads_of_scored hjsonb hstores hphone hsc hversion (reachable_of_leads hg hleads) now
      hpayload hnames hread with ⟨g', hrest, hscore⟩
    exact ⟨g', hleads.trans hrest, hscore⟩
  cases hholds with
  | owed howes =>
      rcases leads_of_owes svc howes now with
        ⟨d, n, record, hleads, hclaims, hn, hplace, hkey⟩
      have hreadable : d.db.Readable none := fun claim hclaim => hdates claim (hclaims ▸ hclaim)
      rcases hrecord _ (reachable_of_leads hg hleads) hreadable n record hplace hkey
        ((Grouped.ordered_of_reachable hjsonb hsc hg).scorers.canRead hn) with
        ⟨g', hrest, hscore⟩
      exact ⟨g', hleads.trans hrest, hscore⟩
  | submitted n record hplace hkey hread => exact hrecord g hg hdates n record hplace hkey hread
  | scored m payload hpayload hnames hread =>
      exact leads_of_scored hjsonb hstores hphone hsc hversion hg now hpayload hnames hread

end

end

/-! ## The claim and its score -/

/-- A submitted claim gets its score as long as the pipeline holds something of it. If it does,
and the driver reads every date, the machines can go on from any state of any run to one in
which the claim has its score and has left its initial status. If it does not, the claim
stays without a score however the run goes on. Along a run in which no send of a score is
lost and no record is given up, every submitted claim is held or has its score. -/
theorem scores_arrive (svc : Services)
    (hjsonb : ∀ text stored, svc.env.jsonb text = some stored → JsonbReturns text stored)
    (hstores : ∀ explanation : Explanation Double, explanation.IsPlain →
      (svc.env.jsonb explanation.stored).isSome)
    (hphone : ∀ raw value, svc.env.normalizePhone raw = some value →
      ∀ c ∈ value.toList, c = '+' ∨ c.isDigit = true)
    (hsc : svc.sc.Works) (hversion : Db.isText svc.sc.modelVersion = true) (g₀ g : Grouped)
    (events : List GroupedEvent) (hinit : (grouped svc).init g₀)
    (hrun : (grouped svc).run g₀ events = some g) (claimId : UUID)
    (hsubmitted : g.db.IsSubmitted claimId) :
    (g.IsLive svc.sc.modelVersion claimId →
        (∀ claim ∈ g.db.claims, claim.incidentDate.InRange) →
      ∃ later g', (∀ event ∈ later, event.byMachines = true) ∧
        (grouped svc).run g later = some g' ∧ g'.db.HasScore claimId svc.sc.modelVersion ∧
        ∃ claim ∈ g'.db.claims, claim.id = claimId ∧ claim.status ≠ .submitted) ∧
    (¬ g.IsLive svc.sc.modelVersion claimId → ∀ later g',
      (grouped svc).run g later = some g' → ¬ g'.db.HasScore claimId svc.sc.modelVersion) ∧
    ((∀ event ∈ events, event.losesNothing = true) → g.IsLive svc.sc.modelVersion claimId) := by
  have hg : (grouped svc).Reachable g := ⟨g₀, events, hinit, hrun⟩
  refine ⟨fun hlive hdates => ?_, fun hlost later g' hlater hscore => ?_, fun hloses => ?_⟩
  · have hleads : ∃ g', (machines svc).Leads g g' ∧ g'.db.HasScore claimId svc.sc.modelVersion := by
      rcases hlive with hscore | hholds
      · exact ⟨g, .refl g, hscore⟩
      · exact leads_of_holds hjsonb hstores hphone hsc hversion hg
          (fun claim hclaim _ => hdates claim hclaim) "" default hholds
    rcases hleads with ⟨g', hleads, hscore⟩
    rcases Grouped.reachable_system (reachable_of_leads hg hleads) with ⟨s₀, ls, hstart, hls⟩
    rcases hleads with ⟨later, hlater⟩
    rcases Lts.run_restrict_eq_some.1 hlater with ⟨hmachines, hlater⟩
    rcases hscore with ⟨row, hrow, rfl, htype, hmodel⟩
    exact ⟨later, g', hmachines, hlater, ⟨row, hrow, rfl, htype, hmodel⟩,
      System.moved_of_run hstart hls row hrow htype⟩
  · exact hlost (Grouped.isLive_of_run hjsonb hsc hg hsubmitted hlater (Or.inl hscore))
  · exact Grouped.isLive_of_losesNothing hjsonb hstores hphone hsc hversion hinit hloses hrun
      hsubmitted

namespace Sample

/-- Empty tables, and nobody in the groups. -/
def resting : Grouped := ⟨stopped, .start, .start⟩

theorem resting_init : (grouped dialing).init resting := ⟨stopped_init, rfl, rfl⟩

/-- A consumer that could not refresh for the record of a new claim, and a publisher that
stopped before it had marked the row. -/
def interrupted : List GroupedEvent :=
  [.startConsumer 0 [] true, .scorers (.assign 0),
    .other (.publishing (.createClaim request draws true)), .other (.publishing (.readPending 0)),
    .other (.publishing (.send 0 .acknowledged)), .scorers (.fetch 0 1),
    .consume 0 (fetchLinks created none) false "2026-01-02T03:04:06Z" true,
    .other (.publishing (.crash 0))]

/-- A consumer that has committed the offset of a record whose score was not sent. -/
def unheard : List GroupedEvent :=
  [.other (.publishing (.createClaim request draws true)), .other (.publishing (.readPending 0)),
    .other (.publishing (.send 0 .acknowledged)), .other (.publishing (.markSent 0 now true)),
    .other (.publishing (.finish 0)), .startConsumer 0 (fetchLinks created none) true,
    .scorers (.assign 0), .scorers (.fetch 0 1),
    .consume 0 (fetchLinks created none) true "2026-01-02T03:04:06Z" false, .scorers (.commit 0)]

/-- The claim is linked and its creation recorded, and every date can be read. -/
def isKept (g : Grouped) : Bool :=
  (g.db.claimEntities.any fun l => decide (l.id.claimId = ⟨1⟩)) &&
    (g.db.auditEvents.any fun row => decide (row.claimId = ⟨1⟩ ∧ row.eventType = .claimCreated)) &&
    decide (∀ claim ∈ g.db.claims, claim.incidentDate.InRange)

theorem submitted_of_isKept {g : Grouped} (h : isKept g = true) :
    g.db.IsSubmitted ⟨1⟩ ∧ ∀ claim ∈ g.db.claims, claim.incidentDate.InRange := by
  rw [isKept, Bool.and_eq_true, Bool.and_eq_true, List.any_eq_true, List.any_eq_true,
    decide_eq_true_eq] at h
  obtain ⟨⟨⟨l, hl, hid⟩, row, hrow, hcreated⟩, hdates⟩ := h
  exact ⟨⟨⟨l, hl, of_decide_eq_true hid⟩, row, hrow, of_decide_eq_true hcreated⟩, hdates⟩

theorem exists_interrupted :
    ∃ g, (grouped dialing).run resting interrupted = some g ∧ isKept g = true := by
  have h : ((grouped dialing).run resting interrupted).any isKept = true := by decide +kernel
  exact (Option.any_eq_true _ _).1 h

/-- Everything was sent and read, and nothing was scored. -/
def isSpent (g : Grouped) : Bool :=
  (g.db.outbox.all fun row => row.sentAt.isSome) && (g.system.deployment.ticks 0).isNone &&
    g.system.deployment.onTheWay.isEmpty &&
    decide (g.system.deployment.topic.length ≤ g.scorers.committed) &&
    ((g.scorers.members 0).all fun place => decide (g.scorers.committed ≤ place.position)) &&
    g.system.scored.isEmpty && g.db.auditEvents.all fun row => decide (row.eventType ≠ .fraudScored)

theorem exists_unheard : ∃ g, (grouped dialing).run resting unheard = some g ∧ isKept g = true ∧
    isSpent g = true := by
  have h : ((grouped dialing).run resting unheard).any (fun g => isKept g && isSpent g) = true := by
    decide +kernel
  rcases (Option.any_eq_true _ _).1 h with ⟨g, hrun, hboth⟩
  rw [Bool.and_eq_true] at hboth
  exact ⟨g, hrun, hboth⟩

/-- Its claim is not held any more: there are no other processes. -/
theorem not_isLive_unheard {g : Grouped} (hrun : (grouped dialing).run resting unheard = some g)
    (hspent : isSpent g = true) (modelVersion : String) : ¬ g.IsLive modelVersion ⟨1⟩ := by
  simp only [isSpent, Bool.and_eq_true, List.all_eq_true, Option.isNone_iff_eq_none,
    List.isEmpty_iff, decide_eq_true_eq, Option.all_eq_true] at hspent
  obtain ⟨⟨⟨⟨⟨⟨hsent, hticks⟩, hway⟩, hcommitted⟩, hmember⟩, hscored⟩, hevents⟩ := hspent
  have hidle : ∀ process, process ≠ 0 → g.system.deployment.ticks process = none ∧
      g.scorers.members process = none := by
    intro process hne
    have hprocesses : ∀ event ∈ unheard, event.process = none ∨ event.process = some 0 := by
      simp [unheard, GroupedEvent.process, Event.publisher, ConsumerGroup.Act.member]
    have hothers : ∀ event ∈ unheard, event.process ≠ some process := by
      intro event hevent heq
      rcases hprocesses event hevent with hnone | hzero
      · rw [hnone] at heq
        cases heq
      · exact hne (Option.some.inj (heq.symm.trans hzero))
    obtain ⟨hpublisher, hconsumer, -⟩ := Grouped.idle_of_run resting_init hrun hothers
    exact ⟨hpublisher, hconsumer⟩
  rintro (⟨row, hrow, -, htype, -⟩ | hholds)
  · exact hevents row hrow htype
  · cases hholds with
    | owed howes =>
        cases howes with
        | queued row hrow howner hunsent =>
            have hsome := hsent row hrow
            rw [hunsent] at hsome
            cases hsome
        | read row hread howner =>
            rcases hread with ⟨publisher, tick, htick, -⟩
            by_cases hzero : publisher = 0
            · rw [hzero, hticks] at htick
              cases htick
            · rw [(hidle publisher hzero).1] at htick
              cases htick
        | onTheWay record hrecord hkey =>
            rw [hway] at hrecord
            cases hrecord
    | submitted n record hrecord hkey hread =>
        have hn := (List.getElem?_eq_some_iff.1 hrecord).1
        rcases hread with hle | ⟨member, place, hplace, hle, -⟩
        · omega
        · by_cases hzero : member = 0
          · rw [hzero] at hplace
            have hposition := hmember place hplace
            omega
          · rw [(hidle member hzero).2] at hplace
            cases hplace
    | scored n payload hpayload hnames hread =>
        rw [hscored] at hpayload
        cases hpayload

end Sample

/-- One claim gets its score although a consumer and a publisher have stopped over it; another
never gets one. -/
theorem scores_arrive_interrupted :
    (∃ g later g', (grouped Sample.dialing).run Sample.resting Sample.interrupted = some g ∧
      (∀ event ∈ later, event.byMachines = true) ∧
      (grouped Sample.dialing).run g later = some g' ∧
      g'.db.HasScore ⟨1⟩ ruleBasedModelVersion ∧
      ∃ claim ∈ g'.db.claims, claim.id = ⟨1⟩ ∧ claim.status ≠ .submitted) ∧
    ∃ g, (grouped Sample.dialing).run Sample.resting Sample.unheard = some g ∧
      g.db.IsSubmitted ⟨1⟩ ∧ ∀ later g', (grouped Sample.dialing).run g later = some g' →
        ¬ g'.db.HasScore ⟨1⟩ ruleBasedModelVersion := by
  constructor
  · rcases Sample.exists_interrupted with ⟨g, hrun, hkept⟩
    obtain ⟨hsubmitted, hdates⟩ := Sample.submitted_of_isKept hkept
    obtain ⟨harrives, -, hheld⟩ := scores_arrive Sample.dialing Sample.jsonb_storing
      (fun _ _ => rfl) Sample.phone_dialing Sample.works_ruleBased (by decide +kernel)
      Sample.resting g Sample.interrupted Sample.resting_init hrun ⟨1⟩ hsubmitted
    rcases harrives (hheld (by decide)) hdates with ⟨later, g', hlater⟩
    exact ⟨g, later, g', hrun, hlater⟩
  · rcases Sample.exists_unheard with ⟨g, hrun, hkept, hspent⟩
    obtain ⟨hsubmitted, -⟩ := Sample.submitted_of_isKept hkept
    obtain ⟨-, hlost, -⟩ := scores_arrive Sample.dialing Sample.jsonb_storing
      (fun _ _ => rfl) Sample.phone_dialing Sample.works_ruleBased (by decide +kernel)
      Sample.resting g Sample.unheard Sample.resting_init hrun ⟨1⟩ hsubmitted
    exact ⟨g, hrun, hsubmitted, hlost (Sample.not_isLive_unheard hrun hspent _)⟩

end ClaimGuard
