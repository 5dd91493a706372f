import Mathlib.Data.List.Sort
import Mathlib.Data.List.Perm.Basic
import Modary.Action.Names
import Modary.Lib.TextOrder

/-! # The RBAC tables and the policy query

The three tables of the RBAC schema with the constraints PostgreSQL enforces on them, and the
query that lists an actor's effective policy in a scope: the roles bound to it by an active binding,
each with its permissions (`LEFT JOIN`), ordered by role and permission. The schema fixes no
collation, so the order of `ORDER BY` is a parameter. -/

namespace Modary.Rbac.Store

open Modary.Lib.TextOrder Modary.Lib.GoText

/-- A row of `modary_rbac_role`. -/
structure RoleRow where
  roleId : String
  maxRows : ℤ
  active : Bool
  deriving DecidableEq, Repr

/-- A row of `modary_rbac_role_permission`. -/
structure PermissionRow where
  roleId : String
  permission : String
  deriving DecidableEq, Repr

/-- The primary key of `modary_rbac_binding`. -/
structure BindingKey where
  actorId : String
  actorType : String
  scopeKind : String
  scopeId : String
  roleId : String
  deriving DecidableEq, Repr

/-- A row of `modary_rbac_binding`. -/
structure BindingRow where
  key : BindingKey
  active : Bool
  deriving DecidableEq, Repr

/-- `CHECK (length(column) BETWEEN 1 AND n)`. -/
def LengthCheck (n : ℕ) (column : String) : Prop := 1 ≤ column.length ∧ column.length ≤ n

/-- The checks on the columns of the binding key. -/
def BindingKey.Check (k : BindingKey) : Prop :=
  LengthCheck 256 k.actorId ∧ LengthCheck 64 k.actorType ∧ LengthCheck 64 k.scopeKind ∧
    LengthCheck 256 k.scopeId

/-- The stored policy, with the constraints of the schema. -/
structure Tables where
  roles : List RoleRow
  permissions : List PermissionRow
  bindings : List BindingRow
  roleKey : (roles.map RoleRow.roleId).Nodup
  roleCheck : ∀ r ∈ roles, LengthCheck 127 r.roleId
  maxRowsCheck : ∀ r ∈ roles, 0 ≤ r.maxRows
  permissionKey : permissions.Nodup
  permissionCheck : ∀ p ∈ permissions, LengthCheck 127 p.permission
  permissionRole : ∀ p ∈ permissions, p.roleId ∈ roles.map RoleRow.roleId
  bindingKey : (bindings.map BindingRow.key).Nodup
  bindingCheck : ∀ b ∈ bindings, b.key.Check
  bindingRole : ∀ b ∈ bindings, b.key.roleId ∈ roles.map RoleRow.roleId

/-- The actor and scope parameters `$1` to `$4` of the policy query. -/
structure Subject where
  actorId : GoString
  actorType : GoString
  scopeKind : GoString
  scopeId : GoString
  deriving DecidableEq, Repr

/-- A row of the query; `none` is the `NULL` of a role without permissions. -/
structure PolicyRow where
  roleId : String
  maxRows : ℤ
  permission : Option String
  deriving DecidableEq, Repr

namespace Tables

variable (t : Tables) (s : Subject)

/-- The binding is an active binding of the subject. -/
def binds (b : BindingRow) : Bool :=
  .utf8 b.key.actorId == s.actorId && .utf8 b.key.actorType == s.actorType &&
    .utf8 b.key.scopeKind == s.scopeKind && .utf8 b.key.scopeId == s.scopeId && b.active

/-- The active roles bound to the subject by an active binding. -/
def boundRoles : List RoleRow :=
  (t.bindings.filter (binds s)).flatMap fun b =>
    t.roles.filter fun r => r.roleId == b.key.roleId && r.active

/-- The stored permissions of a role. -/
def permissionsOf (roleId : String) : List String :=
  (t.permissions.filter fun p => p.roleId == roleId).map PermissionRow.permission

/-- The rows a role contributes. -/
def rowsOf (r : RoleRow) (permissions : List String) : List PolicyRow :=
  if permissions = [] then [⟨r.roleId, r.maxRows, none⟩]
  else permissions.map fun p => ⟨r.roleId, r.maxRows, some p⟩

/-- The joined rows, in no particular order. -/
def joinedRows : List PolicyRow :=
  (t.boundRoles s).flatMap fun r => rowsOf r (t.permissionsOf r.roleId)

end Tables

/-- `NULL` sorts after every text. -/
def permissionLe (c : Collation) : Option String → Option String → Prop
  | _, none => True
  | none, some _ => False
  | some a, some b => c.le a b

instance (c : Collation) : DecidableRel (permissionLe c)
  | none, none => isTrue trivial
  | some _, none => isTrue trivial
  | none, some _ => isFalse id
  | some a, some b => c.dec a b

/-- `ORDER BY 1, 4`. -/
def rowLe (c : Collation) (a b : PolicyRow) : Prop :=
  if a.roleId = b.roleId then permissionLe c a.permission b.permission else c.le a.roleId b.roleId

instance (c : Collation) : DecidableRel (rowLe c) := fun a b => by
  unfold rowLe; infer_instance

/-- The rows of the policy query without its limit. -/
def Tables.policyRows (t : Tables) (c : Collation) (s : Subject) : List PolicyRow :=
  (t.joinedRows s).insertionSort (rowLe c)

/-! ### The bound roles -/

variable {t : Tables} {c : Collation} {s : Subject}

theorem Tables.role_eq {r r' : RoleRow} (hr : r ∈ t.roles) (hr' : r' ∈ t.roles)
    (h : r.roleId = r'.roleId) : r = r' :=
  List.inj_on_of_nodup_map t.roleKey hr hr' h

theorem Tables.mem_boundRoles {r : RoleRow} :
    r ∈ t.boundRoles s ↔ r ∈ t.roles ∧ r.active = true ∧
      ∃ b ∈ t.bindings, binds s b = true ∧ b.key.roleId = r.roleId := by
  simp only [boundRoles, List.mem_flatMap, List.mem_filter, Bool.and_eq_true, beq_iff_eq]
  constructor
  · rintro ⟨b, ⟨hb, hbs⟩, hr, he, ha⟩; exact ⟨hr, ha, b, hb, hbs, he.symm⟩
  · rintro ⟨hr, ha, b, hb, hbs, he⟩; exact ⟨b, ⟨hb, hbs⟩, hr, he.symm, ha⟩

/-- Two bindings of the subject to one role are the same row. -/
theorem binds_eq {b b' : BindingRow} (hb : b ∈ t.bindings) (hb' : b' ∈ t.bindings)
    (h : Tables.binds s b = true) (h' : Tables.binds s b' = true)
    (hr : b.key.roleId = b'.key.roleId) : b = b' := by
  refine List.inj_on_of_nodup_map t.bindingKey hb hb' ?_
  obtain ⟨⟨a1, a2, a3, a4, a5⟩, act⟩ := b
  obtain ⟨⟨b1, b2, b3, b4, b5⟩, act'⟩ := b'
  simp only [Tables.binds, Bool.and_eq_true, beq_iff_eq] at h h' hr
  obtain ⟨⟨⟨⟨h1, h2⟩, h3⟩, h4⟩, -⟩ := h
  obtain ⟨⟨⟨⟨h1', h2'⟩, h3'⟩, h4'⟩, -⟩ := h'
  rw [← h1'] at h1; rw [← h2'] at h2; rw [← h3'] at h3; rw [← h4'] at h4
  simp only [GoString.utf8.injEq] at h1 h2 h3 h4
  simp [h1, h2, h3, h4, hr]

theorem Tables.nodup_boundRoles : ((t.boundRoles s).map RoleRow.roleId).Nodup := by
  rw [List.nodup_map_iff_inj_on]
  · intro r hr r' hr' h
    exact t.role_eq (mem_boundRoles.mp hr).1 (mem_boundRoles.mp hr').1 h
  · unfold boundRoles
    refine List.nodup_flatMap.mpr ⟨fun b _ => (List.Nodup.of_map _ t.roleKey).filter _, ?_⟩
    have hb : (t.bindings.filter (binds s)).Nodup := (List.Nodup.of_map _ t.bindingKey).filter _
    refine hb.imp_of_mem fun {b b'} hb1 hb2 hne => ?_
    rw [Function.onFun_apply, List.disjoint_iff_ne]
    rintro r hr r' hr' rfl
    simp only [List.mem_filter, Bool.and_eq_true, beq_iff_eq] at hr hr' hb1 hb2
    exact hne (binds_eq hb1.1 hb2.1 hb1.2 hb2.2 (hr.2.1.symm.trans hr'.2.1))

theorem Tables.nodup_permissionsOf (roleId : String) : (t.permissionsOf roleId).Nodup := by
  unfold permissionsOf
  refine (List.nodup_map_iff_inj_on (t.permissionKey.filter _)).mpr ?_
  rintro ⟨r, p⟩ hp ⟨r', p'⟩ hp' h
  simp only [List.mem_filter, beq_iff_eq] at hp hp' h
  rw [hp.2, hp'.2, h]

/-! ### The order of the rows -/

theorem permissionLe_total (a b : Option String) : permissionLe c a b ∨ permissionLe c b a := by
  cases a with
  | none => exact Or.inr (by cases b <;> trivial)
  | some a =>
    cases b with
    | none => exact Or.inl trivial
    | some b => exact c.total a b

theorem permissionLe_trans {x y z : Option String} (h1 : permissionLe c x y)
    (h2 : permissionLe c y z) : permissionLe c x z := by
  cases x <;> cases y <;> cases z <;> simp only [permissionLe] at h1 h2 ⊢
  exact c.trans _ _ _ h1 h2

theorem permissionLe_antisymm {x y : Option String} (h1 : permissionLe c x y)
    (h2 : permissionLe c y x) : x = y := by
  cases x <;> cases y <;> simp only [permissionLe] at h1 h2 ⊢
  rw [c.antisymm _ _ h1 h2]

instance : Std.Total (rowLe c) where
  total a b := by
    unfold rowLe
    by_cases h : a.roleId = b.roleId
    · rw [if_pos h, if_pos h.symm]; exact permissionLe_total _ _
    · rw [if_neg h, if_neg (Ne.symm h)]; exact c.total _ _

instance : IsTrans PolicyRow (rowLe c) where
  trans a b d h1 h2 := by
    unfold rowLe at *
    by_cases hab : a.roleId = b.roleId
    · rw [if_pos hab] at h1
      by_cases hbd : b.roleId = d.roleId
      · rw [if_pos hbd] at h2
        rw [if_pos (hab.trans hbd)]
        exact permissionLe_trans h1 h2
      · rw [if_neg hbd] at h2
        rw [if_neg (by rwa [hab]), hab]
        exact h2
    · rw [if_neg hab] at h1
      by_cases hbd : b.roleId = d.roleId
      · rw [if_neg (by rwa [← hbd]), ← hbd]; exact h1
      · rw [if_neg hbd] at h2
        have had : a.roleId ≠ d.roleId := by
          intro h
          rw [← h] at h2
          exact hab (c.antisymm _ _ h1 h2)
        rw [if_neg had]
        exact c.trans _ _ _ h1 h2

theorem rowLe_antisymm {a b : PolicyRow} (h1 : rowLe c a b) (h2 : rowLe c b a) :
    a.roleId = b.roleId ∧ a.permission = b.permission := by
  unfold rowLe at h1 h2
  by_cases h : a.roleId = b.roleId
  · rw [if_pos h] at h1; rw [if_pos h.symm] at h2
    exact ⟨h, permissionLe_antisymm h1 h2⟩
  · rw [if_neg h] at h1; rw [if_neg (Ne.symm h)] at h2
    exact absurd (c.antisymm _ _ h1 h2) h

instance : Std.Total c.le := ⟨c.total⟩

instance : IsTrans String c.le := ⟨c.trans⟩

/-! ### The rows, role by role -/

/-- The order of the bound roles in the result. -/
def roleLe (c : Collation) (a b : RoleRow) : Prop := c.le a.roleId b.roleId

instance : DecidableRel (roleLe c) := fun a b => c.dec a.roleId b.roleId

instance : Std.Total (roleLe c) := ⟨fun a b => c.total a.roleId b.roleId⟩

instance : IsTrans RoleRow (roleLe c) := ⟨fun _ _ _ h1 h2 => c.trans _ _ _ h1 h2⟩

/-- The bound roles in the order of the database. -/
def Tables.orderedRoles (t : Tables) (c : Collation) (s : Subject) : List RoleRow :=
  (t.boundRoles s).insertionSort (roleLe c)

/-- The permissions of a role in the order of the database. -/
def Tables.orderedPermissions (t : Tables) (c : Collation) (roleId : String) : List String :=
  (t.permissionsOf roleId).insertionSort c.le

theorem Tables.orderedRoles_perm : (t.orderedRoles c s).Perm (t.boundRoles s) :=
  List.perm_insertionSort _ _

theorem Tables.orderedPermissions_perm (roleId : String) :
    (t.orderedPermissions c roleId).Perm (t.permissionsOf roleId) :=
  List.perm_insertionSort _ _

theorem mem_rowsOf {r : RoleRow} {ps : List String} {row : PolicyRow} (h : row ∈ Tables.rowsOf r ps) :
    row.roleId = r.roleId ∧ row.maxRows = r.maxRows := by
  unfold Tables.rowsOf at h
  split_ifs at h
  · rw [List.mem_singleton.mp h]; exact ⟨rfl, rfl⟩
  · obtain ⟨p, -, rfl⟩ := List.mem_map.mp h
    exact ⟨rfl, rfl⟩

theorem rowsOf_perm (r : RoleRow) {ps qs : List String} (h : ps.Perm qs) :
    (Tables.rowsOf r ps).Perm (Tables.rowsOf r qs) := by
  unfold Tables.rowsOf
  by_cases hp : ps = []
  · subst hp
    rw [List.nil_perm.mp h]
  · have hq : qs ≠ [] := by rintro rfl; exact hp (List.perm_nil.mp h)
    rw [if_neg hp, if_neg hq]
    exact h.map _

theorem rowsOf_sorted (r : RoleRow) {ps : List String} (h : ps.Pairwise c.le) :
    (Tables.rowsOf r ps).Pairwise (rowLe c) := by
  unfold Tables.rowsOf
  split_ifs
  · exact List.pairwise_singleton _ _
  · refine List.pairwise_map.mpr (h.imp fun hab => ?_)
    simpa [rowLe, permissionLe] using hab

/-- **The rows of the query** are those of the bound roles in the order of the database, each role
with its permissions in that order. -/
theorem policyRows_eq :
    t.policyRows c s =
      (t.orderedRoles c s).flatMap fun r => Tables.rowsOf r (t.orderedPermissions c r.roleId) := by
  have hmem : ∀ r ∈ t.orderedRoles c s, r ∈ t.roles := fun r hr =>
    (Tables.mem_boundRoles.mp (Tables.orderedRoles_perm.mem_iff.mp hr)).1
  have hperm : (t.policyRows c s).Perm
      ((t.orderedRoles c s).flatMap fun r => Tables.rowsOf r (t.orderedPermissions c r.roleId)) := by
    refine (List.perm_insertionSort _ _).trans ?_
    unfold Tables.joinedRows
    refine (Tables.orderedRoles_perm (c := c).symm.flatMap_right _).trans ?_
    exact List.Perm.flatMap_left _ fun r _ =>
      rowsOf_perm r (Tables.orderedPermissions_perm r.roleId).symm
  refine hperm.eq_of_pairwise ?_ (List.pairwise_insertionSort _ _) ?_
  · intro a b ha hb h1 h2
    obtain ⟨h3, h4⟩ := rowLe_antisymm h1 h2
    simp only [List.mem_flatMap] at hb
    obtain ⟨r, hr, ha⟩ := List.mem_flatMap.mp (hperm.mem_iff.mp ha)
    obtain ⟨r', hr', hb⟩ := hb
    obtain ⟨e1, e2⟩ := mem_rowsOf ha
    obtain ⟨e1', e2'⟩ := mem_rowsOf hb
    have : r = r' := t.role_eq (hmem r hr) (hmem r' hr') (by rw [← e1, ← e1', h3])
    obtain ⟨a1, a2, a3⟩ := a
    obtain ⟨b1, b2, b3⟩ := b
    simp only at h3 h4 e2 e2'
    rw [h3, h4, e2, e2', this]
  · refine List.pairwise_flatMap.mpr ⟨fun r _ =>
      rowsOf_sorted r (List.pairwise_insertionSort _ _), ?_⟩
    have hnd : ((t.orderedRoles c s).map RoleRow.roleId).Nodup :=
      (Tables.orderedRoles_perm.map _).nodup_iff.mpr Tables.nodup_boundRoles
    have hs : (t.orderedRoles c s).Pairwise (roleLe c) := List.pairwise_insertionSort _ _
    refine (hs.and (List.pairwise_map.mp hnd)).imp ?_
    rintro r r' ⟨hle, hne⟩ x hx y hy
    rw [rowLe, (mem_rowsOf hx).1, (mem_rowsOf hy).1, if_neg hne]
    exact hle

end Modary.Rbac.Store
