import Mathlib.Logic.Function.Basic

/-! # Groups whose members share a space

Members belong to groups, and each member uses a space. A group is named after
one of its members, its leader. Members are separated when exactly those of one
group share a space; `DwBpf.Groups.separated_join` says when a member can be made
to join a group, on the terms of the group's leader, without giving that up.
-/

namespace DwBpf

universe u v

/-- The group and the space of each member. -/
abbrev Groups (ι : Type u) (σ : Type v) := ι → Option (ι × σ)

namespace Groups

variable {ι : Type u} {σ : Type v}

/-- Two members share a space exactly when they are in the same group. -/
def Separated (groups : Groups ι σ) : Prop :=
  ∀ first second group group' space space', groups first = some (group, space) →
    groups second = some (group', space') → (space = space' ↔ group = group')

/-- Every group has a leader among the members. -/
def Led (groups : Groups ι σ) : Prop :=
  ∀ member group space, groups member = some (group, space) → (groups group).isSome

/-- The leader of `group` is in another group or has no company: no one but
itself and `joins` is in the group it is in or in the group it should lead. -/
def Clear (groups : Groups ι σ) (group joins : ι) : Prop :=
  ∀ other space, groups group = some (other, space) → other ≠ group →
    ∀ member its kept, member ≠ group → member ≠ joins → groups member = some (its, kept) →
      its ≠ other ∧ its ≠ group

variable [DecidableEq ι]

/-- The space of a leader, which is `fresh` for a new one. -/
def space (groups : Groups ι σ) (group : ι) (fresh : σ) : σ :=
    ((groups group).map Prod.snd).getD fresh

/-- The member `joins` and the leader of `group` share the leader's space. -/
def join (groups : Groups ι σ) (group joins : ι) (fresh : σ) : Groups ι σ := fun member =>
  if member = joins ∨ member = group then some (group, groups.space group fresh) else groups member

variable {groups : Groups ι σ} {group joins : ι} {fresh : σ}

/-- A member that is left where it is shares the space of the joined group exactly
when it is in that group. -/
theorem space_iff (separated : groups.Separated) (led : groups.Led)
    (clear : groups.Clear group joins)
    (unused : ∀ member its kept, groups member = some (its, kept) → kept ≠ fresh)
    {member its : ι} {kept : σ} (notJoins : member ≠ joins) (notLeader : member ≠ group)
    (stays : groups member = some (its, kept)) :
    kept = groups.space group fresh ↔ its = group := by
  cases leader : groups group with
  | none =>
      have isFresh : groups.space group fresh = fresh := by simp [space, leader]
      have apart : its ≠ group := by
        rintro rfl
        have hasLeader := led member its kept stays
        rw [leader] at hasLeader
        cases hasLeader
      rw [isFresh]
      exact iff_of_false (unused member its kept stays) apart
  | some value =>
      obtain ⟨other, own⟩ := value
      have isOwn : groups.space group fresh = own := by simp [space, leader]
      rw [isOwn, separated member group its other kept own stays leader]
      by_cases leads : other = group
      · rw [leads]
      · obtain ⟨notOther, notGroup⟩ :=
          clear other own leader leads member its kept notLeader notJoins stays
        exact iff_of_false notOther notGroup

/-- Groups stay apart when a member joins one, or starts one with a token that is not in
use. -/
theorem separated_join (separated : groups.Separated) (led : groups.Led)
    (clear : groups.Clear group joins)
    (unused : ∀ member its kept, groups member = some (its, kept) → kept ≠ fresh) :
    (groups.join group joins fresh).Separated := by
  intro first second its its' kept kept' isFirst isSecond
  unfold join at isFirst isSecond
  by_cases firstIn : first = joins ∨ first = group
  · rw [if_pos firstIn] at isFirst
    cases isFirst
    by_cases secondIn : second = joins ∨ second = group
    · rw [if_pos secondIn] at isSecond
      cases isSecond
      exact iff_of_true rfl rfl
    · rw [if_neg secondIn] at isSecond
      rw [not_or] at secondIn
      rw [eq_comm, @eq_comm _ group]
      exact space_iff separated led clear unused secondIn.1 secondIn.2 isSecond
  · rw [if_neg firstIn] at isFirst
    rw [not_or] at firstIn
    by_cases secondIn : second = joins ∨ second = group
    · rw [if_pos secondIn] at isSecond
      cases isSecond
      exact space_iff separated led clear unused firstIn.1 firstIn.2 isFirst
    · rw [if_neg secondIn] at isSecond
      exact separated first second its its' kept kept' isFirst isSecond

theorem led_join (led : groups.Led) : (groups.join group joins fresh).Led := by
  have present : ∀ member, (groups member).isSome →
      (groups.join group joins fresh member).isSome := by
    intro member isMember
    unfold join
    split
    · rfl
    · exact isMember
  intro member its kept isMember
  unfold join at isMember
  split at isMember
  · cases isMember
    simp [join]
  · exact present its (led member its kept isMember)

/-- Every member is in the group that `owner` gives it. -/
def Owned (groups : Groups ι σ) (owner : ι → ι) : Prop :=
  ∀ member its kept, groups member = some (its, kept) → its = owner member

section Owned

variable {owner : ι → ι} (leads : owner group = group)
include leads

omit [DecidableEq ι] in
/-- A leader that is in no other group is clear of other company. -/
theorem clear_of_owned (owned : groups.Owned owner) : groups.Clear group joins := by
  intro other space leader different
  exact absurd ((owned group other space leader).trans leads) different

theorem owned_join (owned : groups.Owned owner) (own : owner joins = group) :
    (groups.join group joins fresh).Owned owner := by
  intro member its kept isMember
  unfold join at isMember
  split at isMember
  · rename_i which
    cases isMember
    rcases which with rfl | rfl
    · exact own.symm
    · exact leads.symm
  · exact owned member its kept isMember

/-- A member that is there already keeps its group and its space. -/
theorem join_of_some (separated : groups.Separated) (led : groups.Led) (owned : groups.Owned owner)
    (own : owner joins = group) {member its : ι} {kept : σ}
    (isMember : groups member = some (its, kept)) :
    groups.join group joins fresh member = some (its, kept) := by
  unfold join
  split
  · rename_i which
    have inGroup : its = group := by
      rw [owned member its kept isMember]
      rcases which with rfl | rfl
      · exact own
      · exact leads
    subst inGroup
    obtain ⟨⟨other, space⟩, leader⟩ := Option.isSome_iff_exists.mp (led member its kept isMember)
    have same : other = its := (owned its other space leader).trans leads
    subst same
    have shares := (separated member other other other kept space isMember leader).mpr rfl
    rw [Groups.space, leader, shares]
    rfl
  · exact isMember

/-- The space of a member was one of its group before, or is fresh. -/
theorem space_of_join (owned : groups.Owned owner) {member its : ι} {kept : σ}
    (isMember : groups.join group joins fresh member = some (its, kept)) :
    kept = fresh ∨ ∃ other, groups other = some (its, kept) := by
  unfold join at isMember
  split at isMember
  · cases isMember
    cases leader : groups group with
    | none => exact .inl (by simp [Groups.space, leader])
    | some value =>
        obtain ⟨other, space⟩ := value
        have same : other = group := (owned group other space leader).trans leads
        subst same
        refine .inr ⟨other, ?_⟩
        rw [leader, Groups.space, leader]
        rfl
  · exact .inr ⟨member, isMember⟩

end Owned

end Groups

end DwBpf
