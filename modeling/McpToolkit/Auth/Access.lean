import McpToolkit.Auth.Resources
/-!
# Who has access

More rights never turn an allowed access into a denied one.  Private resources are kept
apart by owners and groups alone, but for administrators, whom a substring of the action
lets in.
-/

namespace McpToolkit

/-- The same user with at least the role and the groups. -/
structure User.Below (user user' : User) : Prop where
  userId : user'.userId = user.userId
  authenticated : user'.authenticated = user.authenticated
  role : user.role ≤ user'.role
  groupIds : user.groupIds ⊆ user'.groupIds

/-- A resource is given one more group, or made public. -/
inductive ResourceAccess.Widened (resource : ResourceAccess) : ResourceAccess → Prop where
  | group (groupId : Bytes) :
      Widened resource { resource with groupIds := resource.groupIds.insert groupId }
  | isPublic : Widened resource { resource with isPublic := true }

/-! ## More rights -/

theorem Role.le_trans {a b c : Role} (h : a ≤ b) (h' : b ≤ c) : a ≤ c := Nat.le_trans h h'

section monotone

variable {user user' : User} {resource wider : ResourceAccess} {action : Bytes}

theorem User.Opens.mono (h : user.Below user') (hopens : user.Opens resource action) :
    user'.Opens resource action := by
  rcases hopens with ⟨hadmin, hany⟩ | hpublic | howner | ⟨group, hgroup, hmember⟩
  · have hrole := h.role
    rw [hadmin, Role.admin_le] at hrole
    exact .inl ⟨hrole, hany⟩
  · exact .inr (.inl hpublic)
  · exact .inr (.inr (.inl (howner.trans h.userId.symm)))
  · exact .inr (.inr (.inr ⟨group, hgroup, h.groupIds hmember⟩))

theorem User.Opens.widened (h : resource.Widened wider) (hopens : user.Opens resource action) :
    user.Opens wider action := by
  cases h with
  | group groupId =>
      refine hopens.imp_right (Or.imp_right (Or.imp_right ?_))
      rintro ⟨group, hgroup, hmember⟩
      exact ⟨group, List.mem_insert_of_mem hgroup, hmember⟩
  | isPublic => exact .inr (.inl rfl)

namespace RoleBasedAccessControl

variable {rbac rbac' : RoleBasedAccessControl}

theorem checkPermission_iff_permits : rbac.checkPermission user action = true ↔
    user.authenticated = true ∧ rbac.Permits user action :=
  checkPermission_iff

theorem Permits.mono (hpolicy : rbac.policy ⊆ rbac'.policy) (hrole : user.role ≤ user'.role)
    (h : rbac.Permits user action) : rbac'.Permits user' action := by
  obtain ⟨perm, hperm, haction, hle⟩ := h
  exact ⟨perm, hpolicy hperm, haction, Role.le_trans hle hrole⟩

theorem policy_subset_addPermission (rbac : RoleBasedAccessControl) (perm : Permission) :
    rbac.policy ⊆ (rbac.addPermission perm).policy :=
  List.subset_append_left _ _

end RoleBasedAccessControl

end monotone

open RoleBasedAccessControl

/-- What a user may do, a user with more rights may do, and so it stays when permissions are
added and resources are widened. -/
theorem authorization_mono (rbac : RoleBasedAccessControl) (action : Bytes) :
    (∀ user user' : User, user.Below user' →
      (rbac.checkPermission user action = true → rbac.checkPermission user' action = true) ∧
      (∀ resource, (rbac.canAccessResource user resource action).allowed = true →
        (rbac.canAccessResource user' resource action).allowed = true) ∧
      ∀ id, (rbac.canAccessResourceById user id action).allowed = true →
        (rbac.canAccessResourceById user' id action).allowed = true) ∧
    (∀ (user : User) (perm : Permission),
      (rbac.checkPermission user action = true →
        (rbac.addPermission perm).checkPermission user action = true) ∧
      (∀ resource, (rbac.canAccessResource user resource action).allowed = true →
        ((rbac.addPermission perm).canAccessResource user resource action).allowed = true) ∧
      ∀ id, (rbac.canAccessResourceById user id action).allowed = true →
        ((rbac.addPermission perm).canAccessResourceById user id action).allowed = true) ∧
    ∀ (user : User) (resource wider : ResourceAccess), resource.Widened wider →
      ((rbac.canAccessResource user resource action).allowed = true →
        (rbac.canAccessResource user wider action).allowed = true) ∧
      ∀ stored, rbac.resources.lookup stored = some resource →
        ∀ id, (rbac.canAccessResourceById user id action).allowed = true →
          (({ rbac with resources := rbac.resources.insert stored wider } :
            RoleBasedAccessControl).canAccessResourceById user id action).allowed = true := by
  simp only [checkPermission_iff_permits, canAccessResource_allowed,
    canAccessResourceById_allowed]
  refine ⟨fun user user' h => ?_, fun user perm => ?_, fun user resource wider h => ?_⟩
  · rw [h.authenticated]
    have hpermits : rbac.Permits user action → rbac.Permits user' action :=
      Permits.mono (fun _ => id) h.role
    refine ⟨And.imp_right hpermits, fun resource => And.imp_right (And.imp hpermits (.mono h)),
      fun id => Exists.imp fun resource => ?_⟩
    exact And.imp_right (And.imp_right (And.imp hpermits (.mono h)))
  · have hpermits : rbac.Permits user action → (rbac.addPermission perm).Permits user action :=
      Permits.mono (rbac.policy_subset_addPermission perm) (Nat.le_refl _)
    refine ⟨And.imp_right hpermits, fun resource => And.imp_right (And.imp_left hpermits),
      fun id => Exists.imp fun resource => ?_⟩
    exact And.imp_right (And.imp_right (And.imp_left hpermits))
  · refine ⟨And.imp_right (And.imp_right (.widened h)), fun stored hstored id => ?_⟩
    rintro ⟨found, hfound, hauth, hpermits, hopens⟩
    simp only [Table.lookup_insert_eq]
    by_cases hid : id = stored
    · rw [hid, hstored] at hfound
      cases hfound
      exact ⟨wider, if_pos hid, hauth, hpermits, hopens.widened h⟩
    · exact ⟨found, by rw [if_neg hid, hfound], hauth, hpermits, hopens⟩

/-! ## Private resources -/

/-- The words of an action, which underscores part. -/
def actionWords (action : Bytes) : List Bytes := action.splitOn 0x5F

/-- Someone without a share in a private resource is denied every action without the word `any`
exactly if the letters do not occur in it, or the user is no administrator or may not do
it at all. -/
theorem private_denied_iff (rbac : RoleBasedAccessControl) {user : User}
    {resource : ResourceAccess} (hprivate : resource.isPublic = false)
    (howner : resource.ownerId ≠ user.userId)
    (hgroups : ∀ group ∈ resource.groupIds, group ∉ user.groupIds) (action : Bytes) :
    (ascii "any" ∉ actionWords action →
        (rbac.canAccessResource user resource action).allowed = false ∧
        ∀ id, rbac.resources.lookup id = some resource →
          (rbac.canAccessResourceById user id action).allowed = false) ↔
      (ascii "any" ∈ actionWords action ∨ ¬ ascii "any" <:+: action ∨ user.role ≠ .admin ∨
        rbac.checkPermission user action = false) := by
  have hopens : user.Opens resource action ↔ user.role = .admin ∧ ascii "any" <:+: action := by
    refine or_iff_left ?_
    rintro (hpublic | howns | ⟨group, hgroup, hmember⟩)
    · exact Bool.false_ne_true (hprivate.symm.trans hpublic)
    · exact howner howns
    · exact hgroups group hgroup hmember
  have hallowed : (rbac.canAccessResource user resource action).allowed = true ↔
      rbac.checkPermission user action = true ∧ user.role = .admin ∧ ascii "any" <:+: action := by
    rw [canAccessResource_allowed, checkPermission_iff_permits, hopens, and_assoc]
  have hboth : ((rbac.canAccessResource user resource action).allowed = false ∧
      ∀ id, rbac.resources.lookup id = some resource →
        (rbac.canAccessResourceById user id action).allowed = false) ↔
      (rbac.canAccessResource user resource action).allowed = false := by
    refine and_iff_left_of_imp fun hdenied id hid => ?_
    rw [canAccessResourceById_eq, hid]
    exact hdenied
  rw [hboth, ← Bool.not_eq_true, hallowed, ← Bool.not_eq_true]
  by_cases hword : ascii "any" ∈ actionWords action
  · exact iff_of_true (fun h => absurd hword h) (.inl hword)
  · rw [or_iff_right hword, imp_iff_right hword, not_and_or, not_and_or, or_comm,
      or_comm (a := ¬ user.role = .admin), or_assoc]

/-- An administrator may read companies. -/
def companyPolicy : RoleBasedAccessControl where
  policy := [⟨.admin, ascii "read_company"⟩]
  resources := AList.singleton (ascii "doc") ⟨ascii "doc", ascii "alice", [], false⟩

/-- Everyone may, and bob does not get at the document of alice all the same. -/
theorem private_denied_iff_of_read :
    let rbac := companyPolicy.addPermission ⟨.user, ascii "read_company"⟩
    let bob : User := ⟨ascii "bob", .user, [], true⟩
    rbac.checkPermission bob (ascii "read_company") = true ∧
      (rbac.canAccessResource bob ⟨ascii "doc", ascii "alice", [], false⟩
        (ascii "read_company")).allowed = false ∧
      (rbac.canAccessResourceById bob (ascii "doc") (ascii "read_company")).allowed = false := by
  have hiff := @private_denied_iff (companyPolicy.addPermission ⟨.user, ascii "read_company"⟩)
    ⟨ascii "bob", .user, [], true⟩ ⟨ascii "doc", ascii "alice", [], false⟩ rfl (by decide)
    (by decide) (ascii "read_company")
  obtain ⟨hrecord, hid⟩ := hiff.mpr (.inr (.inr (.inl (by decide)))) (by decide +kernel)
  exact ⟨by decide +kernel, hrecord, hid _ (by decide)⟩

/-- The letters of `any` at the end of `company` open a private resource. -/
theorem company_opens :
    ascii "any" ∉ actionWords (ascii "read_company") ∧
      (companyPolicy.canAccessResource ⟨ascii "root", .admin, [], true⟩
        ⟨ascii "doc", ascii "alice", [], false⟩ (ascii "read_company")).allowed = true ∧
      (companyPolicy.canAccessResourceById ⟨ascii "root", .admin, [], true⟩ (ascii "doc")
        (ascii "read_company")).allowed = true := by
  decide +kernel

end McpToolkit
