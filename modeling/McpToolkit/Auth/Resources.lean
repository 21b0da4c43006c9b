import McpToolkit.Auth.Rbac
/-!
# Access to resources

The two decisions about a resource are one, and what the store knows of a resource is
its latest registration with the owner that it was given since.
-/

namespace McpToolkit

/-- A user may do something with a resource that the policy lets it do. -/
def User.Opens (user : User) (resource : ResourceAccess) (action : Bytes) : Prop :=
  (user.role = .admin ∧ ascii "any" <:+: action) ∨ resource.isPublic = true ∨
    resource.ownerId = user.userId ∨ ∃ group ∈ resource.groupIds, group ∈ user.groupIds

theorem Role.admin_le {role : Role} : Role.admin ≤ role ↔ role = .admin := by
  cases role <;> decide

namespace RoleBasedAccessControl

/-! ## The decision -/

/-- The policy lets a user do something. -/
def Permits (rbac : RoleBasedAccessControl) (user : User) (action : Bytes) : Prop :=
  ∃ perm ∈ rbac.policy, perm.action = action ∧ perm.requiredRole ≤ user.role

section decision

variable {rbac : RoleBasedAccessControl} {user : User} {action : Bytes}

theorem any_policy_iff : (rbac.policy.any fun perm =>
    perm.action = action && hasSufficientRole user perm) = true ↔ rbac.Permits user action := by
  unfold Permits hasSufficientRole
  simp

theorem canAccessResource_allowed {resource : ResourceAccess} :
    (rbac.canAccessResource user resource action).allowed = true ↔
      user.authenticated = true ∧ rbac.Permits user action ∧ user.Opens resource action := by
  unfold canAccessResource User.Opens
  rw [← any_policy_iff, ← ownsResource_iff, ← inSharedGroup_iff, ← Role.admin_le]
  cases user.authenticated with
  | false => simp
  | true =>
      dsimp only
      split_ifs <;> simp_all

/-- The second decision is the first one about the record in the store. -/
theorem canAccessResourceById_eq (rbac : RoleBasedAccessControl) (user : User)
    (resourceId action : Bytes) : rbac.canAccessResourceById user resourceId action =
      match rbac.resources.lookup resourceId with
      | none => ⟨false, ascii "Resource not found"⟩
      | some resource => rbac.canAccessResource user resource action := by
  unfold canAccessResourceById
  cases rbac.resources.lookup resourceId <;> rfl

theorem canAccessResourceById_allowed {resourceId : Bytes} :
    (rbac.canAccessResourceById user resourceId action).allowed = true ↔
      ∃ resource, rbac.resources.lookup resourceId = some resource ∧
        user.authenticated = true ∧ rbac.Permits user action ∧ user.Opens resource action := by
  rw [canAccessResourceById_eq]
  cases rbac.resources.lookup resourceId with
  | none => simp
  | some resource => simp [canAccessResource_allowed]

end decision

end RoleBasedAccessControl

/-! ## Histories -/

/-- A call that changes what the decisions depend on. -/
inductive RbacCall where
  | addPermission (perm : Permission)
  | registerResource (resource : ResourceAccess)
  | updateResourceOwner (resourceId newOwnerId : Bytes)
  deriving Repr, DecidableEq

namespace RbacCall

def run (rbac : RoleBasedAccessControl) : RbacCall → RoleBasedAccessControl
  | .addPermission perm => rbac.addPermission perm
  | .registerResource resource => rbac.registerResource resource
  | .updateResourceOwner resourceId newOwnerId => rbac.updateResourceOwner resourceId newOwnerId

/-- The owner that a call names for a resource. -/
def owner? (resourceId : Bytes) : RbacCall → Option Bytes
  | .updateResourceOwner id newOwnerId => if id = resourceId then some newOwnerId else none
  | _ => none

end RbacCall

/-- A resource was registered. -/
def Registered (calls : List RbacCall) (resourceId : Bytes) : Prop :=
  ∃ resource, .registerResource resource ∈ calls ∧ resource.resourceId = resourceId

/-- The owner that the latest of the calls names for a resource. -/
def latestOwner (resourceId : Bytes) (calls : List RbacCall) : Option Bytes :=
  (calls.filterMap (RbacCall.owner? resourceId)).getLast?

/-- The record that was last registered for a resource, with the owner that was last named
for it since then. -/
def Recorded (calls : List RbacCall) (resourceId : Bytes) (record : ResourceAccess) : Prop :=
  ∃ before resource since, calls = before ++ .registerResource resource :: since ∧
    resource.resourceId = resourceId ∧ ¬ Registered since resourceId ∧
    record = { resource with ownerId := (latestOwner resourceId since).getD resource.ownerId }

section histories

variable {calls : List RbacCall} {c : RbacCall} {resourceId : Bytes} {record : ResourceAccess}

theorem registered_concat : Registered (calls ++ [c]) resourceId ↔
    Registered calls resourceId ∨
      ∃ resource, c = .registerResource resource ∧ resource.resourceId = resourceId := by
  simp [Registered, or_and_right, exists_or, eq_comm]

theorem latestOwner_concat : latestOwner resourceId (calls ++ [c]) =
    (c.owner? resourceId).or (latestOwner resourceId calls) := by
  rw [latestOwner, List.filterMap_append, List.getLast?_append]
  cases hc : c.owner? resourceId <;> simp [hc, latestOwner]

/-- One more call: it registers the resource, or it at most names an owner. -/
theorem recorded_concat : Recorded (calls ++ [c]) resourceId record ↔
    (c = .registerResource record ∧ record.resourceId = resourceId) ∨
    ((∀ resource, c = .registerResource resource → resource.resourceId ≠ resourceId) ∧
      ∃ record', Recorded calls resourceId record' ∧
        record = { record' with ownerId := (c.owner? resourceId).getD record'.ownerId }) := by
  constructor
  · rintro ⟨before, resource, since, hcalls, hid, hsince, rfl⟩
    rcases List.eq_nil_or_concat' since with rfl | ⟨since, d, rfl⟩
    · obtain ⟨rfl, hc⟩ := List.append_inj' hcalls rfl
      cases hc
      exact .inl ⟨rfl, hid⟩
    · rw [← List.cons_append, ← List.append_assoc] at hcalls
      obtain ⟨rfl, hc⟩ := List.append_inj' hcalls rfl
      cases hc
      rw [registered_concat, not_or] at hsince
      refine .inr ⟨fun r hr hid' => hsince.2 ⟨r, hr, hid'⟩, _,
        ⟨before, resource, since, rfl, hid, hsince.1, rfl⟩, ?_⟩
      rw [latestOwner_concat]
      cases c.owner? resourceId <;> rfl
  · rintro (⟨rfl, hid⟩ | ⟨hother, record', ⟨before, resource, since, rfl, hid, hsince, rfl⟩, rfl⟩)
    · exact ⟨calls, record, [], rfl, hid, by simp [Registered], rfl⟩
    · refine ⟨before, resource, since ++ [c], by simp, hid, ?_, ?_⟩
      · rw [registered_concat, not_or]
        exact ⟨hsince, fun ⟨r, hr, hid'⟩ => hother r hr hid'⟩
      · rw [latestOwner_concat]
        cases c.owner? resourceId <;> rfl

/-- What was never registered has no record. -/
theorem exists_recorded_iff :
    (∃ record, Recorded calls resourceId record) ↔ Registered calls resourceId := by
  induction calls using List.reverseRecOn with
  | nil => simp [Recorded, Registered]
  | append_singleton calls c ih =>
      simp only [recorded_concat, registered_concat, ← ih]
      constructor
      · rintro ⟨record, ⟨hc, hid⟩ | ⟨-, record', hrecord, -⟩⟩
        · exact .inr ⟨record, hc, hid⟩
        · exact .inl ⟨record', hrecord⟩
      · intro h
        by_cases hc : ∃ resource, c = .registerResource resource ∧ resource.resourceId = resourceId
        · obtain ⟨resource, hc, hid⟩ := hc
          exact ⟨resource, .inl ⟨hc, hid⟩⟩
        · obtain ⟨record, hrecord⟩ := h.resolve_right hc
          exact ⟨_, .inr ⟨fun r hr hid => hc ⟨r, hr, hid⟩, record, hrecord, rfl⟩⟩

end histories

namespace RoleBasedAccessControl

variable {rbac : RoleBasedAccessControl} {calls : List RbacCall} {resourceId : Bytes}

theorem updateResourceOwner_policy (id newOwnerId : Bytes) :
    (rbac.updateResourceOwner id newOwnerId).policy = rbac.policy := by
  unfold updateResourceOwner
  cases rbac.resources.lookup id <;> rfl

theorem updateResourceOwner_lookup (id newOwnerId : Bytes) :
    (rbac.updateResourceOwner id newOwnerId).resources.lookup resourceId =
      (rbac.resources.lookup resourceId).map fun record =>
        if id = resourceId then { record with ownerId := newOwnerId } else record := by
  unfold updateResourceOwner
  cases hid : rbac.resources.lookup id with
  | none =>
      dsimp only
      cases hrecord : rbac.resources.lookup resourceId with
      | none => rfl
      | some record =>
          rw [Option.map_some, if_neg]
          rintro rfl
          rw [hid] at hrecord
          cases hrecord
  | some record =>
      dsimp only
      rw [Table.lookup_insert_eq]
      by_cases heq : resourceId = id
      · rw [if_pos heq, heq, hid, Option.map_some, if_pos rfl]
      · rw [if_neg heq]
        simp [Ne.symm heq]

/-- What one call does to the record of a resource. -/
theorem lookup_run {c : RbacCall} {record : ResourceAccess} :
    (c.run rbac).resources.lookup resourceId = some record ↔
      (c = .registerResource record ∧ record.resourceId = resourceId) ∨
      ((∀ resource, c = .registerResource resource → resource.resourceId ≠ resourceId) ∧
        ∃ record', rbac.resources.lookup resourceId = some record' ∧
          record = { record' with ownerId := (c.owner? resourceId).getD record'.ownerId }) := by
  cases c with
  | addPermission perm => simp [RbacCall.run, addPermission, RbacCall.owner?]
  | registerResource resource =>
      simp only [RbacCall.run, registerResource, Table.lookup_insert_eq, RbacCall.owner?,
        RbacCall.registerResource.injEq, Option.getD_none, forall_eq']
      by_cases hid : resource.resourceId = resourceId
      · simp only [hid, if_true, ne_eq, not_true, false_and, or_false, Option.some.injEq]
        refine ⟨?_, fun h => h.1⟩
        rintro rfl
        exact ⟨rfl, hid⟩
      · rw [if_neg (Ne.symm hid), or_iff_right]
        · simp [hid]
        · rintro ⟨rfl, hid'⟩
          exact hid hid'
  | updateResourceOwner id newOwnerId =>
      simp only [RbacCall.run, updateResourceOwner_lookup, RbacCall.owner?, reduceCtorEq,
        false_and, false_or, false_imp_iff, implies_true, true_and, Option.map_eq_some_iff]
      refine exists_congr fun record' => and_congr_right fun _ => ?_
      split_ifs <;> exact eq_comm

/-- Access control after some calls. -/
def after (calls : List RbacCall) : RoleBasedAccessControl := calls.foldl RbacCall.run {}

theorem after_concat (calls : List RbacCall) (c : RbacCall) :
    after (calls ++ [c]) = c.run (after calls) :=
  List.foldl_concat RbacCall.run {} c calls

theorem mem_policy_after {perm : Permission} :
    perm ∈ (after calls).policy ↔ .addPermission perm ∈ calls := by
  induction calls using List.reverseRecOn with
  | nil => exact iff_of_false List.not_mem_nil List.not_mem_nil
  | append_singleton calls c ih =>
      rw [after_concat, List.mem_append, List.mem_singleton, ← ih]
      cases c with
      | addPermission p => simp [RbacCall.run, addPermission]
      | registerResource resource => simp [RbacCall.run, registerResource]
      | updateResourceOwner id newOwnerId =>
          rw [RbacCall.run, updateResourceOwner_policy]
          simp

/-- The store holds the records of the history. -/
theorem lookup_after {record : ResourceAccess} :
    (after calls).resources.lookup resourceId = some record ↔
      Recorded calls resourceId record := by
  induction calls using List.reverseRecOn generalizing record with
  | nil =>
      refine iff_of_false (by simp [after]) ?_
      rintro ⟨before, resource, since, hcalls, -⟩
      simp at hcalls
  | append_singleton calls c ih =>
      rw [after_concat, recorded_concat, lookup_run]
      simp only [ih]

theorem lookup_after_eq_none (h : ¬ Registered calls resourceId) :
    (after calls).resources.lookup resourceId = none := by
  cases hrecord : (after calls).resources.lookup resourceId with
  | none => rfl
  | some record => exact absurd (exists_recorded_iff.mp ⟨record, lookup_after.mp hrecord⟩) h

/-- Naming an owner for a resource that is not known changes nothing. -/
theorem after_unknown {before : List RbacCall} (h : ¬ Registered before resourceId)
    (newOwnerId : Bytes) (since : List RbacCall) :
    after (before ++ .updateResourceOwner resourceId newOwnerId :: since) =
      after (before ++ since) := by
  have hsame : (after before).updateResourceOwner resourceId newOwnerId = after before := by
    unfold updateResourceOwner
    rw [lookup_after_eq_none h]
  have hstep : RbacCall.run (after before) (.updateResourceOwner resourceId newOwnerId) =
      after before := hsame
  rw [after, List.foldl_append, List.foldl_cons, ← after, hstep, after, ← List.foldl_append,
    ← after]

/-- The decision about an id is the one about the record that the history left for it, and a
resource that was never registered is denied. -/
theorem canAccessResourceById_refines (calls : List RbacCall) (user : User)
    (resourceId action : Bytes) :
    (¬ Registered calls resourceId →
      ((after calls).canAccessResourceById user resourceId action).allowed = false) ∧
    (Registered calls resourceId → ∃ record, Recorded calls resourceId record) ∧
    (∀ record, Recorded calls resourceId record →
      (after calls).canAccessResourceById user resourceId action =
        (after calls).canAccessResource user record action ∧
      (((after calls).canAccessResourceById user resourceId action).allowed = true ↔
        user.authenticated = true ∧
        (∃ perm, .addPermission perm ∈ calls ∧ perm.action = action ∧
          perm.requiredRole ≤ user.role) ∧
        ((user.role = .admin ∧ ascii "any" <:+: action) ∨ record.isPublic = true ∨
          record.ownerId = user.userId ∨
          ∃ group ∈ record.groupIds, group ∈ user.groupIds))) ∧
    ∀ before unknown newOwnerId since, ¬ Registered before unknown →
      calls = before ++ .updateResourceOwner unknown newOwnerId :: since →
      (after (before ++ since)).canAccessResourceById user resourceId action =
        (after calls).canAccessResourceById user resourceId action ∧
      ∀ record, (after (before ++ since)).canAccessResource user record action =
        (after calls).canAccessResource user record action := by
  refine ⟨fun hunknown => ?_, exists_recorded_iff.mpr, fun record hrecord => ?_, ?_⟩
  · rw [canAccessResourceById_eq, lookup_after_eq_none hunknown]
  · have heq := canAccessResourceById_eq (after calls) user resourceId action
    rw [lookup_after.mpr hrecord] at heq
    refine ⟨heq, ?_⟩
    rw [heq, canAccessResource_allowed, Permits]
    simp only [mem_policy_after]
    exact Iff.rfl
  · rintro before unknown newOwnerId since hunknown rfl
    rw [after_unknown hunknown]
    exact ⟨rfl, fun _ => rfl⟩

/-! ## Looking first -/

theorem getResource_after {record : ResourceAccess} (h : Recorded calls resourceId record) :
    (after calls).getResource resourceId = record := by
  rw [getResource, lookup_after.mpr h]

theorem getResource_unknown (h : ¬ Registered calls resourceId) :
    (after calls).getResource resourceId = { resourceId := [], ownerId := [], groupIds := [] } := by
  rw [getResource, lookup_after_eq_none h]

/-- The empty record opens to administrators as any other one does, and to users without
an id, who own it. -/
theorem opens_empty {user : User} {action : Bytes} :
    user.Opens { resourceId := [], ownerId := [], groupIds := [] } action ↔
      (user.role = .admin ∧ ascii "any" <:+: action) ∨ user.userId = [] := by
  simp [User.Opens, eq_comm]

/-- `get_resource` returns the record that the calls have left, or an empty one.  A decision
about what it returns is the decision about the id, unless the resource was never registered
and the policy lets a user in who is an administrator asking for `any` or has no id. -/
theorem getResource_decides_iff (calls : List RbacCall) (user : User) (resourceId action : Bytes) :
    (∀ record, Recorded calls resourceId record →
      (after calls).getResource resourceId = record) ∧
    (¬ Registered calls resourceId → (after calls).getResource resourceId =
      { resourceId := [], ownerId := [], groupIds := [] }) ∧
    (((after calls).canAccessResource user ((after calls).getResource resourceId) action).allowed =
        ((after calls).canAccessResourceById user resourceId action).allowed ↔
      Registered calls resourceId ∨
        ¬ (user.authenticated = true ∧ (∃ perm, .addPermission perm ∈ calls ∧
            perm.action = action ∧ perm.requiredRole ≤ user.role) ∧
          ((user.role = .admin ∧ ascii "any" <:+: action) ∨ user.userId = []))) := by
  have hpermits : (after calls).Permits user action ↔ ∃ perm, .addPermission perm ∈ calls ∧
      perm.action = action ∧ perm.requiredRole ≤ user.role := by
    unfold Permits
    simp only [mem_policy_after]
  refine ⟨fun record => getResource_after, getResource_unknown, ?_⟩
  rw [← hpermits, canAccessResourceById_eq]
  by_cases hregistered : Registered calls resourceId
  · obtain ⟨record, hrecord⟩ := exists_recorded_iff.mpr hregistered
    rw [lookup_after.mpr hrecord, getResource_after hrecord]
    exact iff_of_true rfl (.inl hregistered)
  · rw [lookup_after_eq_none hregistered, getResource_unknown hregistered,
      or_iff_right hregistered, ← opens_empty, ← canAccessResource_allowed, Bool.not_eq_true]

/-- Nobody has registered the resource, and yet the guest without an id may read what
`get_resource` returns of it. -/
example : ((after [.addPermission ⟨.guest, ascii "read"⟩]).canAccessResource
    { userId := [], authenticated := true }
    ((after [.addPermission ⟨.guest, ascii "read"⟩]).getResource (ascii "r"))
    (ascii "read")).allowed = true := by
  decide

end RoleBasedAccessControl

end McpToolkit
