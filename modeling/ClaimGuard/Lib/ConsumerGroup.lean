import Mathlib.Algebra.Order.Group.Nat
import Mathlib.Logic.Function.Basic

/-!
# Consumer groups

A log of records and the members of a group that read it, record by record. The group
commits offsets: the member that gets the log reads on from the committed one, so records
that were read and not committed are read again. The owner of the log fetches records and
reads what it has fetched; a member that has lost the log may still read the rest of that.
-/

namespace ConsumerGroup

/-- Where a member is: at the next record to read, and before the end of what it fetched. -/
structure Place where
  position : ℕ
  fetched : ℕ

end ConsumerGroup

/-- A group: the committed offset, the member that has the log, and where its members are. -/
structure ConsumerGroup where
  committed : ℕ
  owner : Option ℕ
  members : ℕ → Option ConsumerGroup.Place

namespace ConsumerGroup

/-- What happens in a group besides reading. -/
inductive Act where
  | assign (member : ℕ)
  | fetch (member upTo : ℕ)
  | commit (member : ℕ)
  | revoke
  | leave (member : ℕ)

/-- The member that it is about. -/
def Act.member : Act → Option ℕ
  | .assign member | .fetch member _ | .commit member | .leave member => some member
  | .revoke => none

/-- No member, and nothing read. -/
def start : ConsumerGroup := ⟨0, none, fun _ => none⟩

/-- The member is gone. -/
def leave (g : ConsumerGroup) (member : ℕ) : ConsumerGroup :=
  { g with
    owner := if g.owner = some member then none else g.owner
    members := Function.update g.members member none }

/-- One step. Only the owner of the log fetches and commits. -/
def act (g : ConsumerGroup) : Act → Option ConsumerGroup
  | .assign member =>
      match g.owner with
      | none => some
          { g with
            owner := some member
            members := Function.update g.members member (some ⟨g.committed, g.committed⟩) }
      | some _ => none
  | .fetch member upTo =>
      match g.members member with
      | some place =>
          if g.owner = some member then
            some { g with
              members := Function.update g.members member (some ⟨place.position, upTo⟩) }
          else none
      | none => none
  | .commit member =>
      match g.members member with
      | some place =>
          if g.owner = some member then some { g with committed := place.position } else none
      | none => none
  | .revoke => some { g with owner := none }
  | .leave member => some (g.leave member)

/-- The record that a member reads next. -/
def next (g : ConsumerGroup) (member : ℕ) : Option ℕ :=
  match g.members member with
  | some place => if place.position < place.fetched then some place.position else none
  | none => none

/-- The member has read a record. -/
def advance (g : ConsumerGroup) (member : ℕ) : ConsumerGroup :=
  { g with
    members := Function.update g.members member ((g.members member).map fun place =>
      { place with position := place.position + 1 }) }

/-- The committed offset, or the position of a member. -/
def IsMark (g : ConsumerGroup) (p : ℕ) : Prop :=
  p = g.committed ∨ ∃ member place, g.members member = some place ∧ p = place.position

/-- The record at `n` may still be read, for the first time or again: from the committed
offset on, by the owner of the log, or by a member that has fetched it. -/
def CanRead (g : ConsumerGroup) (n : ℕ) : Prop :=
  g.committed ≤ n ∨ ∃ member place, g.members member = some place ∧ place.position ≤ n ∧
    (g.owner = some member ∨ n < place.fetched)

/-- The record at `n` was read, by a member that is there or for good. -/
def HasPassed (g : ConsumerGroup) (n : ℕ) : Prop := ∃ p, n < p ∧ g.IsMark p

/-- Nobody is behind the end of the log. -/
def Within (g : ConsumerGroup) (length : ℕ) : Prop := ∀ p, g.IsMark p → p ≤ length

variable {g g' : ConsumerGroup} {member other n : ℕ}

/-! ## Members -/

theorem next_eq_some {k : ℕ} : g.next member = some k ↔
    ∃ fetched, g.members member = some ⟨k, fetched⟩ ∧ k < fetched := by
  unfold next
  cases hplace : g.members member with
  | none => simp
  | some place =>
      rcases place with ⟨position, fetched⟩
      constructor
      · intro h
        simp only at h
        split at h <;> cases h
        rename_i hlt
        exact ⟨fetched, rfl, hlt⟩
      · rintro ⟨_, heq, hlt⟩
        cases heq
        exact if_pos hlt

theorem members_leave {place : Place} (h : (g.leave member).members other = some place) :
    other ≠ member ∧ g.members other = some place := by
  by_cases heq : other = member
  · subst heq
    simp [leave] at h
  · exact ⟨heq, by simpa [leave, heq] using h⟩

theorem members_advance {place : Place} (h : (g.advance member).members other = some place) :
    g.members other = some place ∨ other = member ∧ ∃ position,
      g.members member = some ⟨position, place.fetched⟩ ∧ place.position = position + 1 := by
  by_cases heq : other = member
  · subst heq
    simp only [advance, Function.update_self, Option.map_eq_some_iff] at h
    rcases h with ⟨old, hold, rfl⟩
    exact Or.inr ⟨rfl, old.position, hold, rfl⟩
  · exact Or.inl (by simpa [advance, heq] using h)

@[simp] theorem members_leave_of_ne (h : other ≠ member) :
    (g.leave member).members other = g.members other := Function.update_of_ne h _ _

@[simp] theorem members_advance_of_ne (h : other ≠ member) :
    (g.advance member).members other = g.members other := Function.update_of_ne h _ _

theorem members_advance_self {position fetched : ℕ}
    (h : g.members member = some ⟨position, fetched⟩) :
    (g.advance member).members member = some ⟨position + 1, fetched⟩ := by
  simp [advance, h]

/-- A step of one member leaves the others where they are. -/
theorem members_act_of_ne {a : Act} (hact : g.act a = some g') (hother : a.member ≠ some other) :
    g'.members other = g.members other := by
  have hne : ∀ {member : ℕ}, some member ≠ some other → other ≠ member :=
    fun h heq => h (congrArg some heq.symm)
  cases a with
  | assign member =>
      simp only [act] at hact
      split at hact <;> cases hact
      exact Function.update_of_ne (hne hother) _ _
  | fetch member upTo =>
      simp only [act] at hact
      split at hact
      · split at hact <;> cases hact
        exact Function.update_of_ne (hne hother) _ _
      · cases hact
  | commit member =>
      simp only [act] at hact
      split at hact
      · split at hact <;> cases hact
        rfl
      · cases hact
  | revoke =>
      cases hact
      rfl
  | leave member =>
      cases hact
      exact members_leave_of_ne (hne hother)

/-- The member that gets the log starts from the committed offset. -/
theorem members_assign (hact : g.act (.assign member) = some g') :
    g'.members member = some ⟨g.committed, g.committed⟩ := by
  simp only [act] at hact
  split at hact <;> cases hact
  exact Function.update_self _ _ _

/-- Any other member has the position it had, and what it had fetched if it is no owner. -/
theorem members_act {a : Act} {place : Place} (hact : g.act a = some g')
    (hassign : a ≠ .assign other) (h : g'.members other = some place) :
    ∃ old, g.members other = some old ∧ old.position = place.position ∧
      (g.owner = some other ∨ old = place) := by
  by_cases hother : a.member = some other
  · cases a with
    | assign member =>
        cases hother
        exact absurd rfl hassign
    | fetch member upTo =>
        cases hother
        simp only [act] at hact
        split at hact
        · rename_i old hold
          split at hact <;> cases hact
          rename_i howner
          simp only [Function.update_self, Option.some.injEq] at h
          subst h
          exact ⟨old, hold, rfl, Or.inl howner⟩
        · cases hact
    | commit member =>
        simp only [act] at hact
        split at hact
        · split at hact <;> cases hact
          exact ⟨place, h, rfl, Or.inr rfl⟩
        · cases hact
    | revoke => cases hother
    | leave member =>
        cases hother
        cases hact
        exact absurd rfl (members_leave h).1
  · rw [members_act_of_ne hact hother] at h
    exact ⟨place, h, rfl, Or.inr rfl⟩

/-- Only the member that gets the log becomes its owner. -/
theorem owner_act {a : Act} (hact : g.act a = some g') (hassign : a ≠ .assign other)
    (h : g'.owner = some other) : g.owner = some other := by
  cases a with
  | assign member =>
      simp only [act] at hact
      split at hact <;> cases hact
      cases h
      exact absurd rfl hassign
  | fetch member upTo =>
      simp only [act] at hact
      split at hact
      · split at hact <;> cases hact
        exact h
      · cases hact
  | commit member =>
      simp only [act] at hact
      split at hact
      · split at hact <;> cases hact
        exact h
      · cases hact
  | revoke =>
      cases hact
      cases h
  | leave member =>
      cases hact
      simp only [leave] at h
      split at h
      · cases h
      · exact h

/-! ## Marks -/

theorem isMark_leave {p : ℕ} (h : (g.leave member).IsMark p) : g.IsMark p :=
  h.imp_right fun ⟨other, place, hother, hp⟩ => ⟨other, place, (members_leave hother).2, hp⟩

/-- The committed offset is kept, or that of the owner. -/
theorem committed_act {a : Act} (hact : g.act a = some g') : g'.committed = g.committed ∨
    ∃ member place, g.owner = some member ∧ g.members member = some place ∧
      g'.committed = place.position := by
  cases a with
  | assign member =>
      simp only [act] at hact
      split at hact <;> cases hact
      exact Or.inl rfl
  | fetch member upTo =>
      simp only [act] at hact
      split at hact
      · split at hact <;> cases hact
        exact Or.inl rfl
      · cases hact
  | commit member =>
      simp only [act] at hact
      split at hact
      · rename_i place hplace
        split at hact <;> cases hact
        rename_i howner
        exact Or.inr ⟨member, place, howner, hplace, rfl⟩
      · cases hact
  | revoke =>
      cases hact
      exact Or.inl rfl
  | leave member =>
      cases hact
      exact Or.inl rfl

/-- No step makes a mark: a member gets the committed offset, and commits where it is. -/
theorem isMark_act {a : Act} {p : ℕ} (hact : g.act a = some g') (h : g'.IsMark p) :
    g.IsMark p := by
  rcases h with rfl | ⟨other, place, hother, rfl⟩
  · rcases committed_act hact with hsame | ⟨member, place, -, hplace, heq⟩
    · exact Or.inl hsame
    · exact Or.inr ⟨member, place, hplace, heq⟩
  · by_cases hassign : a = .assign other
    · subst hassign
      rw [members_assign hact, Option.some.injEq] at hother
      exact Or.inl (congrArg Place.position hother.symm)
    · rcases members_act hact hassign hother with ⟨old, hold, hposition, -⟩
      exact Or.inr ⟨other, old, hold, hposition.symm⟩

theorem isMark_advance {p : ℕ} (hnext : g.next member = some n)
    (h : (g.advance member).IsMark p) : g.IsMark p ∨ p = n + 1 := by
  rcases h with hcommitted | ⟨other, place, hother, rfl⟩
  · exact Or.inl (Or.inl hcommitted)
  · rcases members_advance hother with hold | ⟨-, position, hposition, heq⟩
    · exact Or.inl (Or.inr ⟨other, place, hold, rfl⟩)
    · rcases next_eq_some.1 hnext with ⟨fetched, hplace, -⟩
      cases hposition.symm.trans hplace
      exact Or.inr heq

/-! ## What can be read -/

theorem canRead_of_next (hnext : g.next member = some n) : g.CanRead n := by
  rcases next_eq_some.1 hnext with ⟨fetched, hplace, hlt⟩
  exact Or.inr ⟨member, _, hplace, le_rfl, Or.inr hlt⟩

theorem CanRead.of_leave (h : (g.leave member).CanRead n) : g.CanRead n := by
  refine h.imp_right ?_
  rintro ⟨other, place, hother, hle, hreach⟩
  rcases members_leave hother with ⟨hne, hold⟩
  refine ⟨other, place, hold, hle, hreach.imp_left fun howner => ?_⟩
  simp only [leave] at howner
  split at howner
  · cases howner
  · exact howner

theorem CanRead.of_advance (h : (g.advance member).CanRead n) : g.CanRead n := by
  rcases h with hle | ⟨other, place, hother, hle, hreach⟩
  · exact Or.inl hle
  · rcases members_advance hother with hold | ⟨rfl, position, hposition, heq⟩
    · exact Or.inr ⟨other, place, hold, hle, hreach⟩
    · exact Or.inr ⟨other, _, hposition, by simp only; omega, hreach⟩

/-- What cannot be read stays so. -/
theorem CanRead.of_act {a : Act} (hact : g.act a = some g') (h : g'.CanRead n) : g.CanRead n := by
  rcases h with hle | ⟨other, place, hother, hle, hreach⟩
  · rcases committed_act hact with hsame | ⟨member, place, howner, hplace, heq⟩
    · exact Or.inl (hsame ▸ hle)
    · exact Or.inr ⟨member, place, hplace, heq ▸ hle, Or.inl howner⟩
  · by_cases hassign : a = .assign other
    · subst hassign
      rw [members_assign hact, Option.some.injEq] at hother
      subst hother
      exact Or.inl hle
    · rcases members_act hact hassign hother with ⟨old, hold, hposition, hor⟩
      refine Or.inr ⟨other, old, hold, hposition ▸ hle, ?_⟩
      rcases hor with howner | rfl
      · exact Or.inl howner
      · exact hreach.imp_left (owner_act hact hassign)

theorem HasPassed.of_imp (himp : ∀ p, g'.IsMark p → g.IsMark p) (h : g'.HasPassed n) :
    g.HasPassed n := by
  rcases h with ⟨p, hlt, hmark⟩
  exact ⟨p, hlt, himp p hmark⟩

/-- A record is passed by the member that reads it. -/
theorem HasPassed.of_advance {k : ℕ} (hnext : g.next member = some k)
    (h : (g.advance member).HasPassed n) : g.HasPassed n ∨ n = k := by
  rcases h with ⟨p, hlt, hmark⟩
  rcases isMark_advance hnext hmark with hold | rfl
  · exact Or.inl ⟨p, hlt, hold⟩
  · rcases Nat.lt_succ_iff_lt_or_eq.1 hlt with hlt | heq
    · rcases next_eq_some.1 hnext with ⟨fetched, hplace, -⟩
      exact Or.inl ⟨k, hlt, Or.inr ⟨member, _, hplace, rfl⟩⟩
    · exact Or.inr heq

/-- What cannot be read was. -/
theorem canRead_or_hasPassed (g : ConsumerGroup) (n : ℕ) : g.CanRead n ∨ g.HasPassed n :=
  (le_or_gt g.committed n).imp Or.inl fun h => ⟨_, h, Or.inl rfl⟩

/-! ## The end of the log -/

theorem within_start (length : ℕ) : start.Within length := by
  rintro p (rfl | ⟨member, place, hmember, -⟩)
  · exact Nat.zero_le length
  · cases hmember

theorem Within.mono {length length' : ℕ} (h : g.Within length) (hle : length ≤ length') :
    g.Within length' :=
  fun p hmark => (h p hmark).trans hle

theorem Within.advance {length : ℕ} (h : g.Within length) (hnext : g.next member = some n)
    (hn : n < length) : (g.advance member).Within length := by
  intro p hmark
  rcases isMark_advance hnext hmark with hold | rfl
  · exact h p hold
  · exact hn

/-- A record that is new at the end can be read. -/
theorem Within.canRead {length : ℕ} (h : g.Within length) (hn : length ≤ n) : g.CanRead n :=
  Or.inl ((h g.committed (Or.inl rfl)).trans hn)

theorem Within.lt_of_hasPassed {length : ℕ} (h : g.Within length) (hn : g.HasPassed n) :
    n < length := by
  rcases hn with ⟨p, hlt, hmark⟩
  exact hlt.trans_le (h p hmark)

/-! ## From the committed offset -/

/-- The owner of the log fetches on from its position. -/
theorem act_fetch {place : Place} (howner : g.owner = some member)
    (hplace : g.members member = some place) (upTo : ℕ) :
    g.act (.fetch member upTo) = some
      { g with members := Function.update g.members member (some ⟨place.position, upTo⟩) } := by
  simp only [act, hplace, howner, if_true]

/-- A member that gets the log after its last owner has left is at the committed offset. -/
theorem exists_assigned (g : ConsumerGroup) (member : ℕ) :
    ∃ g', ((g.owner.elim g g.leave).leave member).act (.assign member) = some g' ∧
      g'.owner = some member ∧ g'.members member = some ⟨g.committed, g.committed⟩ := by
  have howner : ((g.owner.elim g g.leave).leave member).owner = none := by
    cases h : g.owner with
    | none => simp [leave, h]
    | some owner => simp [leave, h]
  have hcommitted : ((g.owner.elim g g.leave).leave member).committed = g.committed := by
    cases g.owner <;> rfl
  refine ⟨_, by rw [act, howner], rfl, ?_⟩
  simp [hcommitted]

end ConsumerGroup
