import Mathlib.Data.Set.Basic
import Modary.Lib.Search
import Modary.Lib.Codec
import Modary.Action.Authz
import Modary.Rbac.Store

/-! # The RBAC authorizer

`Authorize` loads the effective policy of a subject, finds the granting roles by binary search in
each role's permissions and combines their row limits. The row loop is followed role by role:
`loadPolicy_eq_ok_iff` says which policies it accepts and what it makes of them. -/

namespace Modary.Rbac.Authorizer

open Modary.Lib.TextOrder Modary.Lib.GoText Modary.Lib.Search Modary.Lib.Codec Modary.Action.Names Modary.Action.Authz
open Modary.Rbac.Store

/-- The parameters of the policy query. -/
def subject (request : Request) : Subject :=
  ⟨request.actor.id, request.actor.type, request.scope.kind, request.scope.id⟩

/-! ### The stored policy -/

def maxEffectivePolicyRows : ℕ := 4096

/-- `storedRole`. -/
structure StoredRole where
  id : String
  maxRows : ℤ
  permissions : List String
  deriving DecidableEq, Repr

/-- `storedRole.grants`: a binary search that presumes ascending permissions. The stored texts are
UTF-8, so no other string is among them. -/
def StoredRole.grants (role : StoredRole) : GoString → Bool
  | .utf8 permission => contains role.permissions permission
  | .raw _ => false

/-- `policyIdentifierPattern`: a lower-case letter, then at most 126 lower-case letters, digits and
`.`, `_`, `/` or `-`. -/
def validPolicyIdentifier (value : String) : Bool :=
  matchToken isLower
    (fun c => isLower c || isDigit c || c == '.' || c == '_' || c == '/' || c == '-') 126
    value.toList

/-- `validatePermission`. -/
def validPermission (value : GoString) : Bool := validIdentifier value

/-- The group of the row: the last role read, or a new one. -/
def openRole (roles : List StoredRole) (row : PolicyRow) : Except String (List StoredRole) :=
  match roles.getLast? with
  | none => .ok (roles ++ [⟨row.roleId, row.maxRows, []⟩])
  | some last =>
    if last.id ≠ row.roleId then .ok (roles ++ [⟨row.roleId, row.maxRows, []⟩])
    else if last.maxRows ≠ row.maxRows then
      .error ("stored RBAC role " ++ row.roleId ++ " has inconsistent constraints")
    else .ok roles

/-- Appends a permission to the role being read. -/
def addPermission (roles : List StoredRole) (permission : String) :
    Except String (List StoredRole) :=
  match roles.getLast? with
  | none => .ok roles
  | some last =>
    if last.permissions.getLast? = some permission then
      .error ("stored RBAC role " ++ last.id ++ " contains duplicate permission " ++ permission)
    else .ok (roles.dropLast ++ [{ last with permissions := last.permissions ++ [permission] }])

/-- The body of the row loop. -/
def scanRow (roles : List StoredRole) (row : PolicyRow) : Except String (List StoredRole) :=
  if row.maxRows < 0 || !validPolicyIdentifier row.roleId then .error "stored RBAC role is invalid"
  else
    match openRole roles row with
    | .error e => .error e
    | .ok roles =>
      match row.permission with
      | none => .ok roles
      | some permission =>
        if !validPermission permission then
          .error ("permission \"" ++ permission ++ "\" is invalid")
        else addPermission roles permission

/-- The row loop, with the number of rows read so far. -/
def scanRows : ℕ → List StoredRole → List PolicyRow → Except String (List StoredRole)
  | _, roles, [] => .ok roles
  | count, roles, row :: rows =>
    if count = maxEffectivePolicyRows then
      .error "stored RBAC policy exceeds 4096 effective rows"
    else
      match scanRow roles row with
      | .error e => .error e
      | .ok roles => scanRows (count + 1) roles rows

/-! ### The fingerprint -/

/-- The JSON form of one role; a role without permissions has the nil list. -/
def encodeRole (role : StoredRole) : List Char :=
  "\x7b\"id\":".toList ++ encodeString role.id ++ ",\"max_rows\":".toList ++
    encodeInt role.maxRows ++ ",\"permissions\":".toList ++
    (if role.permissions = [] then "null".toList else encodeArray encodeString role.permissions) ++
    "\x7d".toList

/-- The JSON material of a policy fingerprint. -/
def fingerprintMaterial (s : Subject) (roles : List StoredRole) : List Char :=
  "\x7b\"actor_id\":".toList ++ encodeGoString s.actorId ++ ",\"actor_type\":".toList ++
    encodeGoString s.actorType ++ ",\"scope_kind\":".toList ++ encodeGoString s.scopeKind ++
    ",\"scope_id\":".toList ++ encodeGoString s.scopeId ++ ",\"roles\":".toList ++
    encodeArray encodeRole roles ++ "\x7d".toList

/-- `policyFingerprint`; `sha256` is the hexadecimal digest of a text. -/
def policyFingerprint (sha256 : List Char → String) (s : Subject) (roles : List StoredRole) :
    GoString :=
  .utf8 ("sha256:" ++ sha256 (fingerprintMaterial s roles))

/-! ### Authorize -/

/-- `effectiveRowLimit`. -/
def effectiveRowLimit (limits : List ℤ) : ℤ := go 0 limits
where
  go (maximum : ℤ) : List ℤ → ℤ
    | [] => maximum
    | limit :: limits =>
      if limit = 0 then 0 else go (if limit > maximum then limit else maximum) limits

/-- The request passes the checks `Authorize` makes before it reads the policy. -/
def requestValid (request : Request) : Bool :=
  validIdentifier request.operationID &&
    (request.phase == .intent || request.phase == .impact) &&
    0 ≤ request.impact.rows &&
    !(request.phase == .intent &&
      (request.impact.rows != 0 || request.impact.resources.length != 0)) &&
    request.scope.validate.isOk && (validateActor request.actor).isOk &&
    validPermission request.permission

/-- `loadPolicy`: the roles of the effective policy. -/
def loadPolicy (t : Tables) (c : Collation) (s : Subject) : Except String (List StoredRole) :=
  scanRows 0 [] ((t.policyRows c s).take (maxEffectivePolicyRows + 1))

/-- The decision on a loaded policy. -/
def grantDecision (sha256 : List Char → String) (request : Request) (roles : List StoredRole) :
    Decision :=
  let grantingLimits := (roles.filter fun role => role.grants request.permission).map
    StoredRole.maxRows
  let decision : Decision :=
    { requiredPermission := request.permission,
      fingerprint := policyFingerprint sha256 (subject request) roles }
  if grantingLimits.length = 0 then
    { decision with reason := .utf8 "required permission is not granted" }
  else { decision with allowed := true, maxRows := effectiveRowLimit grantingLimits }

/-- `authorizer.Authorize` on the stored policy `t`. -/
def authorize (sha256 : List Char → String) (t : Tables) (c : Collation) (request : Request) :
    Except String Decision :=
  if !requestValid request then
    .ok { reason := .utf8 "authorization request is invalid",
          requiredPermission := request.permission,
          fingerprint := policyFingerprint sha256 (subject request) [] }
  else
    match loadPolicy t c (subject request) with
    | .error e => .error ("resolve RBAC policy: " ++ e)
    | .ok roles => .ok (grantDecision sha256 request roles)

/-! ### The row loop -/

/-- The row passes the checks of the loop on its own. -/
def ValidRow (row : PolicyRow) : Prop :=
  0 ≤ row.maxRows ∧ validPolicyIdentifier row.roleId = true ∧
    ∀ p, row.permission = some p → validPermission p = true

/-- The roles read so far end with another role than `roleId`. -/
def LastNot (roles : List StoredRole) (roleId : String) : Prop :=
  ∀ last, roles.getLast? = some last → last.id ≠ roleId

theorem validRow_of_scanRow {roles out : List StoredRole} {row : PolicyRow}
    (h : scanRow roles row = .ok out) : ValidRow row := by
  unfold scanRow at h
  split_ifs at h with h1
  simp only [Bool.or_eq_true, decide_eq_true_eq, Bool.not_eq_true', not_or, not_lt,
    Bool.not_eq_false] at h1
  refine ⟨h1.1, h1.2, fun p hp => ?_⟩
  rcases h2 : openRole roles row with e | roles'
  · simp [h2] at h
  · simp only [h2, hp] at h
    split_ifs at h with h3
    simpa using h3

/-- A loop that ends well read at most the bound, and valid rows only. -/
theorem scanRows_ok : ∀ (rows : List PolicyRow) (n : ℕ) (roles out : List StoredRole),
    n ≤ maxEffectivePolicyRows → scanRows n roles rows = .ok out →
      n + rows.length ≤ maxEffectivePolicyRows ∧ ∀ row ∈ rows, ValidRow row
  | [], n, roles, out, hn, _ => ⟨by simpa using hn, by simp⟩
  | row :: rows, n, roles, out, hn, h => by
    unfold scanRows at h
    split_ifs at h with h1
    rcases h2 : scanRow roles row with e | roles'
    · simp [h2] at h
    · simp only [h2] at h
      obtain ⟨h3, h4⟩ := scanRows_ok rows (n + 1) roles' out (by omega) h
      refine ⟨by simp only [List.length_cons]; omega, ?_⟩
      intro r hr
      rcases List.mem_cons.mp hr with rfl | hr
      · exact validRow_of_scanRow h2
      · exact h4 r hr

theorem openRole_new {roles : List StoredRole} {row : PolicyRow} (h : LastNot roles row.roleId) :
    openRole roles row = .ok (roles ++ [⟨row.roleId, row.maxRows, []⟩]) := by
  unfold openRole
  cases hl : roles.getLast? with
  | none => rfl
  | some last => simp [h last hl]

theorem openRole_same (roles : List StoredRole) (row : PolicyRow) (ps : List String) :
    openRole (roles ++ [⟨row.roleId, row.maxRows, ps⟩]) row =
      .ok (roles ++ [⟨row.roleId, row.maxRows, ps⟩]) := by
  unfold openRole
  simp

theorem addPermission_last {roles : List StoredRole} {id : String} {m : ℤ} {ps : List String}
    {p : String} (h : p ∉ ps) :
    addPermission (roles ++ [⟨id, m, ps⟩]) p = .ok (roles ++ [⟨id, m, ps ++ [p]⟩]) := by
  unfold addPermission
  have hl : ps.getLast? ≠ some p := fun he => h (List.mem_of_getLast? he)
  simp [hl]

/-- The permissions of the role being read. -/
theorem scanRows_permissions (id : String) (m : ℤ) (hm : 0 ≤ m)
    (hid : validPolicyIdentifier id = true) (roles : List StoredRole) (rest : List PolicyRow) :
    ∀ (ps done : List String) (n : ℕ), (done ++ ps).Nodup →
      (∀ p ∈ ps, validPermission p = true) → n + ps.length ≤ maxEffectivePolicyRows →
      scanRows n (roles ++ [⟨id, m, done⟩]) (ps.map (⟨id, m, some ·⟩) ++ rest) =
        scanRows (n + ps.length) (roles ++ [⟨id, m, done ++ ps⟩]) rest
  | [], done, n, _, _, _ => by simp
  | p :: ps, done, n, hnd, hv, hn => by
    simp only [List.length_cons] at hn
    have hp : p ∉ done := by
      intro h
      exact (List.disjoint_of_nodup_append hnd) h (by simp)
    have hrow : scanRow (roles ++ [⟨id, m, done⟩]) ⟨id, m, some p⟩ =
        .ok (roles ++ [⟨id, m, done ++ [p]⟩]) := by
      unfold scanRow
      rw [if_neg (by simp [hid, hm])]
      rw [openRole_same roles ⟨id, m, some p⟩ done]
      simp only [hv p (by simp), Bool.not_true, Bool.false_eq_true, if_false]
      exact addPermission_last hp
    rw [List.map_cons, List.cons_append, scanRows, if_neg (by omega), hrow]
    simp only
    rw [scanRows_permissions id m hm hid roles rest ps (done ++ [p]) (n + 1) (by simpa using hnd)
      (fun q hq => hv q (by simp [hq])) (by omega)]
    simp only [List.append_assoc, List.singleton_append, List.length_cons]
    rw [show n + 1 + ps.length = n + (ps.length + 1) by omega]

/-- The rows of one role become one stored role. -/
theorem scanRows_role {r : RoleRow} (hm : 0 ≤ r.maxRows)
    (hid : validPolicyIdentifier r.roleId = true) {ps : List String} (hnd : ps.Nodup)
    (hv : ∀ p ∈ ps, validPermission p = true) {roles : List StoredRole}
    (hl : LastNot roles r.roleId) (rest : List PolicyRow) {n : ℕ}
    (hn : n + (Tables.rowsOf r ps).length ≤ maxEffectivePolicyRows) :
    scanRows n roles (Tables.rowsOf r ps ++ rest) =
      scanRows (n + (Tables.rowsOf r ps).length) (roles ++ [⟨r.roleId, r.maxRows, ps⟩]) rest := by
  cases ps with
  | nil =>
    simp only [Tables.rowsOf, if_true, List.length_singleton, List.singleton_append] at hn ⊢
    rw [scanRows, if_neg (by omega), scanRow, if_neg (by simp [hid, hm]), openRole_new hl]
  | cons p ps =>
    simp only [Tables.rowsOf, reduceCtorEq, if_false, List.length_map, List.length_cons] at hn ⊢
    have hrow : scanRow roles ⟨r.roleId, r.maxRows, some p⟩ =
        .ok (roles ++ [⟨r.roleId, r.maxRows, [p]⟩]) := by
      unfold scanRow
      rw [if_neg (by simp [hid, hm]), openRole_new hl]
      simp only [hv p (by simp), Bool.not_true, Bool.false_eq_true, if_false]
      exact addPermission_last (by simp)
    rw [List.map_cons, List.cons_append, scanRows, if_neg (by omega), hrow]
    simp only
    rw [scanRows_permissions r.roleId r.maxRows hm hid roles rest ps [p] (n + 1) hnd
      (fun q hq => hv q (by simp [hq])) (by omega)]
    simp only [List.singleton_append]
    rw [show n + 1 + ps.length = n + (ps.length + 1) by omega]

/-- The loop over the rows of several roles, each with its list of permissions. -/
theorem scanRows_roles (perms : RoleRow → List String) :
    ∀ (rs : List RoleRow) (roles : List StoredRole) (n : ℕ),
      (rs.map RoleRow.roleId).Nodup →
      (∀ r ∈ rs, 0 ≤ r.maxRows ∧ validPolicyIdentifier r.roleId = true ∧ (perms r).Nodup ∧
        ∀ p ∈ perms r, validPermission p = true) →
      (∀ r ∈ rs, LastNot roles r.roleId) →
      n + (rs.flatMap fun r => Tables.rowsOf r (perms r)).length ≤ maxEffectivePolicyRows →
      scanRows n roles (rs.flatMap fun r => Tables.rowsOf r (perms r)) =
        .ok (roles ++ rs.map fun r => ⟨r.roleId, r.maxRows, perms r⟩)
  | [], roles, n, _, _, _, _ => by simp [scanRows]
  | r :: rs, roles, n, hnd, hv, hl, hn => by
    simp only [List.flatMap_cons, List.length_append] at hn ⊢
    simp only [List.map_cons, List.nodup_cons] at hnd
    obtain ⟨hm, hid, hp, hpv⟩ := hv r (by simp)
    rw [scanRows_role hm hid hp hpv (hl r (by simp)) _ (by omega)]
    have hlast : ∀ r' ∈ rs, LastNot (roles ++ [⟨r.roleId, r.maxRows, perms r⟩]) r'.roleId := by
      intro r' hr' last hlast he
      rw [List.getLast?_append_cons, List.getLast?_singleton, Option.some.injEq] at hlast
      subst hlast
      exact hnd.1 (List.mem_map.mpr ⟨r', hr', he.symm⟩)
    rw [scanRows_roles perms rs _ _ hnd.2 (fun r' hr' => hv r' (by simp [hr'])) hlast (by omega)]
    simp

/-! ### The loaded policy -/

variable {t : Tables} {c : Collation} {s : Subject}

/-- The policy `loadPolicy` accepts: at most 4096 effective rows, well-formed identifiers. -/
def Loadable (t : Tables) (s : Subject) : Prop :=
  (t.joinedRows s).length ≤ maxEffectivePolicyRows ∧
    ∀ r ∈ t.boundRoles s, validPolicyIdentifier r.roleId = true ∧
      ∀ p ∈ t.permissionsOf r.roleId, validPermission p = true

/-- The stored form of the effective policy, in the order of the database. -/
def storedRoles (t : Tables) (c : Collation) (s : Subject) : List StoredRole :=
  (t.orderedRoles c s).map fun r => ⟨r.roleId, r.maxRows, t.orderedPermissions c r.roleId⟩

theorem length_policyRows : (t.policyRows c s).length = (t.joinedRows s).length :=
  (List.perm_insertionSort _ _).length_eq

theorem loadPolicy_of_loadable (h : Loadable t s) : loadPolicy t c s = .ok (storedRoles t c s) := by
  unfold loadPolicy
  rw [List.take_of_length_le (by rw [length_policyRows]; have := h.1; omega), policyRows_eq]
  rw [scanRows_roles (fun r => t.orderedPermissions c r.roleId)]
  · rfl
  · exact (Tables.orderedRoles_perm.map _).nodup_iff.mpr Tables.nodup_boundRoles
  · intro r hr
    have hr' := Tables.orderedRoles_perm.mem_iff.mp hr
    obtain ⟨hid, hp⟩ := h.2 r hr'
    refine ⟨t.maxRowsCheck r (Tables.mem_boundRoles.mp hr').1, hid, ?_, fun p hpm => ?_⟩
    · exact (Tables.orderedPermissions_perm _).nodup_iff.mpr (Tables.nodup_permissionsOf _)
    · exact hp p ((Tables.orderedPermissions_perm _).mem_iff.mp hpm)
  · intro r _ last hl
    simp at hl
  · rw [← policyRows_eq, length_policyRows, Nat.zero_add]
    exact h.1

theorem loadable_of_loadPolicy {roles : List StoredRole} (h : loadPolicy t c s = .ok roles) :
    Loadable t s := by
  obtain ⟨h1, h2⟩ := scanRows_ok _ _ _ _ (Nat.zero_le _) h
  rw [List.length_take, Nat.zero_add, length_policyRows] at h1
  have hlen : (t.joinedRows s).length ≤ maxEffectivePolicyRows := by omega
  refine ⟨hlen, fun r hr => ?_⟩
  rw [List.take_of_length_le (by rw [length_policyRows]; omega)] at h2
  have hrow : ∀ row ∈ Tables.rowsOf r (t.permissionsOf r.roleId), ValidRow row := by
    intro row hrow
    refine h2 row ((List.perm_insertionSort _ _).mem_iff.mpr ?_)
    exact List.mem_flatMap.mpr ⟨r, hr, hrow⟩
  unfold Tables.rowsOf at hrow
  split_ifs at hrow with hnil
  · refine ⟨(hrow _ (List.mem_singleton_self _)).2.1, ?_⟩
    simp [hnil]
  · obtain ⟨p, hp⟩ := List.exists_mem_of_ne_nil _ hnil
    refine ⟨(hrow _ (List.mem_map.mpr ⟨p, hp, rfl⟩)).2.1, fun q hq => ?_⟩
    exact (hrow _ (List.mem_map.mpr ⟨q, hq, rfl⟩)).2.2 q rfl

/-- **The loaded policy**: `loadPolicy` succeeds exactly on a loadable policy, with its roles. -/
theorem loadPolicy_eq_ok_iff {roles : List StoredRole} :
    loadPolicy t c s = .ok roles ↔ Loadable t s ∧ roles = storedRoles t c s := by
  constructor
  · intro h
    have hl := loadable_of_loadPolicy h
    rw [loadPolicy_of_loadable hl] at h
    exact ⟨hl, (Except.ok.inj h).symm⟩
  · rintro ⟨h, rfl⟩
    exact loadPolicy_of_loadable h

theorem mem_storedRoles {role : StoredRole} :
    role ∈ storedRoles t c s ↔ ∃ r ∈ t.boundRoles s,
      role = ⟨r.roleId, r.maxRows, t.orderedPermissions c r.roleId⟩ := by
  simp only [storedRoles, List.mem_map, Tables.orderedRoles_perm.mem_iff, eq_comm]

end Modary.Rbac.Authorizer
