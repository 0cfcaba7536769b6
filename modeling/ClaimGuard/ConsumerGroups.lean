import ClaimGuard.Lib.ConsumerGroup
import ClaimGuard.Provenance

/-!
# The consumer groups

The pipeline with what the broker keeps for its readers. The scoring consumers are one group
on `claim.submitted`, the listeners of the claims service another on `claim.scored`; each
topic has one partition, which is the broker's default, and both groups start with the
earliest record. Records are read in their order from the committed offset on, and an offset
is committed for what was read, whatever became of it: nobody looks at the future of a send,
and the listener's container goes on after its last attempt. The broker keeps its records and
offsets. Every run is one of the pipeline, in which records may be read in any order and any
number of times.
-/

namespace ClaimGuard

/-- The pipeline and the groups of its two topics. -/
structure Grouped where
  system : System
  scorers : ConsumerGroup
  listeners : ConsumerGroup

/-- A step of the pipeline in which no topic is read, a step of a reader, or one of a group. -/
inductive GroupedEvent where
  | other (event : SystemEvent)
  | startConsumer (consumer : ℕ) (rows : List LinkRow) (completes : Bool)
  | consume (consumer : ℕ) (rows : List LinkRow) (completes : Bool) (scoredAt : String)
      (accepted : Bool)
  | stopConsumer (consumer : ℕ)
  | scorers (act : ConsumerGroup.Act)
  | deliver (listener : ℕ) (now : Instant)
  | giveUp (listener : ℕ)
  | listeners (act : ConsumerGroup.Act)

/-- The step is one of a reader. -/
def SystemEvent.isReading : SystemEvent → Bool
  | .startConsumer _ _ _ | .consume _ _ _ _ _ _ | .stopConsumer _ | .deliver _ _ => true
  | _ => false

namespace Grouped

/-- The committed database. -/
abbrev db (g : Grouped) : Db := g.system.db

/-- A refresh can complete: the driver reads every date. -/
def canRefresh (g : Grouped) (completes : Bool) : Bool :=
  !completes || decide (g.db.Readable none)

/-- A consumer gets a topic while its process runs, and records are fetched when they are in
the topic. -/
def admitsScorers (g : Grouped) : ConsumerGroup.Act → Bool
  | .assign consumer => (g.system.consumers consumer).isSome
  | .fetch _ upTo => decide (upTo ≤ g.system.deployment.topic.length)
  | _ => true

/-- Scores are fetched when they are in the topic. -/
def admitsListeners (g : Grouped) : ConsumerGroup.Act → Bool
  | .fetch _ upTo => decide (upTo ≤ g.system.scored.length)
  | _ => true

/-- After a consumer has read a record: it has its place as long as its process runs. -/
def afterRead (g : Grouped) (consumer : ℕ) (s : System) : Grouped :=
  { g with
    system := s
    scorers := if (s.consumers consumer).isSome then g.scorers.advance consumer
      else g.scorers.leave consumer }

/-- One step. -/
def step (svc : Services) (g : Grouped) : GroupedEvent → Option Grouped
  | .other event =>
      if event.isReading then none
      else (System.step svc g.system event).map fun s => { g with system := s }
  | .startConsumer consumer rows completes =>
      if g.canRefresh completes then
        -- a process that starts has no place in the group yet
        (System.step svc g.system (.startConsumer consumer rows completes)).map fun s =>
          { g with system := s, scorers := g.scorers.leave consumer }
      else none
  | .consume consumer rows completes scoredAt accepted =>
      match g.scorers.next consumer with
      | some n =>
          if g.canRefresh completes then
            (System.step svc g.system (.consume consumer n rows completes scoredAt accepted)).map
              (g.afterRead consumer)
          else none
      | none => none
  | .stopConsumer consumer =>
      (System.step svc g.system (.stopConsumer consumer)).map fun s =>
        { g with system := s, scorers := g.scorers.leave consumer }
  | .scorers act =>
      if g.admitsScorers act then
        (g.scorers.act act).map fun scorers => { g with scorers := scorers }
      else none
  | .deliver listener now =>
      match g.listeners.next listener with
      | some n =>
          (System.step svc g.system (.deliver n now)).map fun s =>
            { g with system := s, listeners := g.listeners.advance listener }
      | none => none
  -- the last attempt has failed
  | .giveUp listener =>
      match g.listeners.next listener with
      | some n =>
          if n < g.system.scored.length then
            some { g with listeners := g.listeners.advance listener }
          else none
      | none => none
  | .listeners act =>
      if g.admitsListeners act then
        (g.listeners.act act).map fun listeners => { g with listeners := listeners }
      else none

end Grouped

/-- The pipeline and its groups, started on empty tables with no process running. -/
def grouped (svc : Services) : Lts Grouped GroupedEvent where
  init g := (pipeline svc).init g.system ∧ g.scorers = .start ∧ g.listeners = .start
  step := Grouped.step svc

/-! ## What a step does -/

/-- The step of the pipeline that is behind a step, and what becomes of the groups. -/
inductive GroupStep (svc : Services) (g : Grouped) (g' : Grouped) : GroupedEvent → Prop where
  | other (event : SystemEvent) (hother : event.isReading = false)
      (hstep : System.step svc g.system event = some g'.system)
      (hscorers : g'.scorers = g.scorers) (hlisteners : g'.listeners = g.listeners) :
      GroupStep svc g g' (.other event)
  | startConsumer (consumer : ℕ) (rows : List LinkRow) (completes : Bool)
      (hstep : System.step svc g.system (.startConsumer consumer rows completes) = some g'.system)
      (hscorers : g'.scorers = g.scorers.leave consumer)
      (hlisteners : g'.listeners = g.listeners) :
      GroupStep svc g g' (.startConsumer consumer rows completes)
  | consume (consumer n : ℕ) (rows : List LinkRow) (completes : Bool) (scoredAt : String)
      (accepted : Bool) (hnext : g.scorers.next consumer = some n)
      (hstep : System.step svc g.system (.consume consumer n rows completes scoredAt accepted) =
        some g'.system)
      (hscorers : g'.scorers = if (g'.system.consumers consumer).isSome then
        g.scorers.advance consumer else g.scorers.leave consumer)
      (hlisteners : g'.listeners = g.listeners) :
      GroupStep svc g g' (.consume consumer rows completes scoredAt accepted)
  | stopConsumer (consumer : ℕ)
      (hstep : System.step svc g.system (.stopConsumer consumer) = some g'.system)
      (hscorers : g'.scorers = g.scorers.leave consumer)
      (hlisteners : g'.listeners = g.listeners) :
      GroupStep svc g g' (.stopConsumer consumer)
  | scorers (act : ConsumerGroup.Act) (hsystem : g'.system = g.system)
      (hadmits : g.admitsScorers act = true) (hact : g.scorers.act act = some g'.scorers)
      (hlisteners : g'.listeners = g.listeners) :
      GroupStep svc g g' (.scorers act)
  | deliver (listener n : ℕ) (now : Instant) (hnext : g.listeners.next listener = some n)
      (hstep : System.step svc g.system (.deliver n now) = some g'.system)
      (hscorers : g'.scorers = g.scorers)
      (hlisteners : g'.listeners = g.listeners.advance listener) :
      GroupStep svc g g' (.deliver listener now)
  | giveUp (listener n : ℕ) (hnext : g.listeners.next listener = some n)
      (hlt : n < g.system.scored.length) (hsystem : g'.system = g.system)
      (hscorers : g'.scorers = g.scorers)
      (hlisteners : g'.listeners = g.listeners.advance listener) :
      GroupStep svc g g' (.giveUp listener)
  | listeners (act : ConsumerGroup.Act) (hsystem : g'.system = g.system)
      (hscorers : g'.scorers = g.scorers) (hact : g.listeners.act act = some g'.listeners) :
      GroupStep svc g g' (.listeners act)

section

variable {svc : Services} {g g' : Grouped} {event : GroupedEvent}

theorem Grouped.groupStep (h : Grouped.step svc g event = some g') :
    GroupStep svc g g' event := by
  cases event with
  | other event =>
      simp only [Grouped.step] at h
      split at h
      · cases h
      · rename_i hother
        rcases Option.map_eq_some_iff.1 h with ⟨s, hs, rfl⟩
        exact .other event (Bool.eq_false_iff.2 hother) hs rfl rfl
  | startConsumer consumer rows completes =>
      simp only [Grouped.step] at h
      split at h
      · rcases Option.map_eq_some_iff.1 h with ⟨s, hs, rfl⟩
        exact .startConsumer consumer rows completes hs rfl rfl
      · cases h
  | consume consumer rows completes scoredAt accepted =>
      simp only [Grouped.step] at h
      split at h
      · rename_i n hn
        split at h
        · rcases Option.map_eq_some_iff.1 h with ⟨s, hs, rfl⟩
          exact .consume consumer n rows completes scoredAt accepted hn hs rfl rfl
        · cases h
      · cases h
  | stopConsumer consumer =>
      simp only [Grouped.step] at h
      rcases Option.map_eq_some_iff.1 h with ⟨s, hs, rfl⟩
      exact .stopConsumer consumer hs rfl rfl
  | scorers act =>
      simp only [Grouped.step] at h
      split at h
      · rename_i hadmits
        rcases Option.map_eq_some_iff.1 h with ⟨scorers, hact, rfl⟩
        exact .scorers act rfl hadmits hact rfl
      · cases h
  | deliver listener now =>
      simp only [Grouped.step] at h
      split at h
      · rename_i n hn
        rcases Option.map_eq_some_iff.1 h with ⟨s, hs, rfl⟩
        exact .deliver listener n now hn hs rfl rfl
      · cases h
  | giveUp listener =>
      simp only [Grouped.step] at h
      split at h
      · rename_i n hn
        split at h <;> cases h
        rename_i hlt
        exact .giveUp listener n hn hlt rfl rfl rfl
      · cases h
  | listeners act =>
      simp only [Grouped.step] at h
      split at h
      · rcases Option.map_eq_some_iff.1 h with ⟨listeners, hact, rfl⟩
        exact .listeners act rfl rfl hact
      · cases h

/-- A step is one of the pipeline, or none. -/
theorem GroupStep.exists_event (h : GroupStep svc g g' event) :
    g'.system = g.system ∨ ∃ e, System.step svc g.system e = some g'.system := by
  cases h with
  | other e hother hstep => exact Or.inr ⟨e, hstep⟩
  | startConsumer consumer rows completes hstep => exact Or.inr ⟨_, hstep⟩
  | consume consumer n rows completes scoredAt accepted hnext hstep => exact Or.inr ⟨_, hstep⟩
  | stopConsumer consumer hstep => exact Or.inr ⟨_, hstep⟩
  | scorers act hsystem => exact Or.inl hsystem
  | deliver listener n now hnext hstep => exact Or.inr ⟨_, hstep⟩
  | giveUp listener n hnext hlt hsystem => exact Or.inl hsystem
  | listeners act hsystem => exact Or.inl hsystem

/-- A run is one of the pipeline: what holds there in every state holds here. -/
theorem Grouped.exists_run {events : List GroupedEvent}
    (h : (grouped svc).run g events = some g') :
    ∃ ls, (pipeline svc).run g.system ls = some g'.system := by
  induction events generalizing g with
  | nil =>
      cases h
      exact ⟨[], rfl⟩
  | cons event events ih =>
      rcases (grouped svc).run_cons_eq_some.1 h with ⟨g₁, hstep, hrest⟩
      rcases ih hrest with ⟨ls, hls⟩
      rcases (Grouped.groupStep hstep).exists_event with heq | ⟨e, he⟩
      · exact ⟨ls, heq ▸ hls⟩
      · refine ⟨e :: ls, ?_⟩
        rw [Lts.run_cons]
        show (System.step svc g.system e).bind _ = _
        rw [he]
        exact hls

theorem Grouped.reachable_system (h : (grouped svc).Reachable g) :
    (pipeline svc).Reachable g.system := by
  rcases h with ⟨g₀, events, hinit, hrun⟩
  rcases Grouped.exists_run hrun with ⟨ls, hls⟩
  exact ⟨g₀.system, ls, hinit.1, hls⟩

end

end ClaimGuard
