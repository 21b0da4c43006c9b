import McpToolkit.Base.Bytes
import McpToolkit.Base.Table
/-!
# Roles, permissions and resources

`RoleBasedAccessControl` decides whether a user may call a method, and whether it may
do something with a resource.  The decision about a resource exists twice, for a record
that the caller has and for one that is looked up by its id.
-/

namespace McpToolkit

inductive Role where
  | guest
  | user
  | admin
  deriving Repr, DecidableEq

namespace Role

/-- The value of the enumerator. -/
def value : Role → Nat
  | .guest => 0
  | .user => 1
  | .admin => 2

instance : LE Role := ⟨fun a b => a.value ≤ b.value⟩

instance (a b : Role) : Decidable (a ≤ b) := inferInstanceAs (Decidable (a.value ≤ b.value))

end Role

structure Permission where
  requiredRole : Role
  action : Bytes
  deriving Repr, DecidableEq

structure ResourceAccess where
  resourceId : Bytes
  ownerId : Bytes
  /-- Groups with access. -/
  groupIds : List Bytes
  isPublic : Bool := false
  deriving Repr, DecidableEq

structure User where
  userId : Bytes := []
  role : Role := .guest
  groupIds : List Bytes := []
  authenticated : Bool := false
  deriving Repr, DecidableEq

structure AuthzResult where
  allowed : Bool := false
  reason : Bytes
  deriving Repr, DecidableEq

structure RoleBasedAccessControl where
  policy : List Permission := []
  resources : Table Bytes ResourceAccess := ∅
  deriving DecidableEq

namespace RoleBasedAccessControl

def addPermission (rbac : RoleBasedAccessControl) (perm : Permission) : RoleBasedAccessControl :=
  { rbac with policy := rbac.policy ++ [perm] }

def hasSufficientRole (user : User) (perm : Permission) : Bool := perm.requiredRole ≤ user.role

def checkPermission (rbac : RoleBasedAccessControl) (user : User) (action : Bytes) : Bool :=
  if !user.authenticated then false
  else rbac.policy.any fun perm => perm.action = action && hasSufficientRole user perm

def ownsResource (user : User) (resource : ResourceAccess) : Bool :=
  resource.ownerId = user.userId

def inSharedGroup (user : User) (resource : ResourceAccess) : Bool :=
  resource.groupIds.any fun group => user.groupIds.contains group

def canAccessResource (rbac : RoleBasedAccessControl) (user : User) (resource : ResourceAccess)
    (action : Bytes) : AuthzResult :=
  if !user.authenticated then ⟨false, ascii "Not authenticated"⟩
  else
    let hasRolePerm := rbac.policy.any fun perm =>
      perm.action = action && hasSufficientRole user perm
    if !hasRolePerm then ⟨false, ascii "Insufficient permissions for action"⟩
    else if Role.admin ≤ user.role && ascii "any" <:+: action then
      ⟨true, ascii "Admin access to resource granted"⟩
    else if resource.isPublic then ⟨true, ascii "Public resource access granted"⟩
    else if ownsResource user resource then ⟨true, ascii "Resource owner access granted"⟩
    else if inSharedGroup user resource then ⟨true, ascii "Group access granted"⟩
    else ⟨false, ascii "No access to this resource"⟩

def canAccessResourceById (rbac : RoleBasedAccessControl) (user : User) (resourceId : Bytes)
    (action : Bytes) : AuthzResult :=
  match rbac.resources.lookup resourceId with
  | none => ⟨false, ascii "Resource not found"⟩
  | some resource =>
      if !user.authenticated then ⟨false, ascii "Not authenticated"⟩
      else
        let hasRolePerm := rbac.policy.any fun perm =>
          perm.action = action && hasSufficientRole user perm
        if !hasRolePerm then ⟨false, ascii "Insufficient permissions for action"⟩
        else if Role.admin ≤ user.role && ascii "any" <:+: action then
          ⟨true, ascii "Admin access to resource granted"⟩
        else if resource.isPublic then ⟨true, ascii "Public resource access granted"⟩
        else if ownsResource user resource then ⟨true, ascii "Resource owner access granted"⟩
        else if inSharedGroup user resource then ⟨true, ascii "Group access granted"⟩
        else ⟨false, ascii "No access to this resource"⟩

def registerResource (rbac : RoleBasedAccessControl) (resource : ResourceAccess) :
    RoleBasedAccessControl :=
  { rbac with resources := rbac.resources.insert resource.resourceId resource }

def updateResourceOwner (rbac : RoleBasedAccessControl) (resourceId newOwnerId : Bytes) :
    RoleBasedAccessControl :=
  match rbac.resources.lookup resourceId with
  | some resource =>
      { rbac with
        resources := rbac.resources.insert resourceId { resource with ownerId := newOwnerId } }
  | none => rbac

/-- The record of a resource, an empty one if there is none. -/
def getResource (rbac : RoleBasedAccessControl) (resourceId : Bytes) : ResourceAccess :=
  match rbac.resources.lookup resourceId with
  | some resource => resource
  | none => { resourceId := [], ownerId := [], groupIds := [] }

/-! ## Specifications -/

theorem checkPermission_iff {rbac : RoleBasedAccessControl} {user : User} {action : Bytes} :
    rbac.checkPermission user action = true ↔ user.authenticated = true ∧
      ∃ perm ∈ rbac.policy, perm.action = action ∧ perm.requiredRole ≤ user.role := by
  unfold checkPermission hasSufficientRole
  cases user.authenticated <;> simp

theorem ownsResource_iff {user : User} {resource : ResourceAccess} :
    ownsResource user resource = true ↔ resource.ownerId = user.userId :=
  decide_eq_true_iff

theorem inSharedGroup_iff {user : User} {resource : ResourceAccess} :
    inSharedGroup user resource = true ↔ ∃ group ∈ resource.groupIds, group ∈ user.groupIds := by
  unfold inSharedGroup
  simp

end RoleBasedAccessControl

end McpToolkit
