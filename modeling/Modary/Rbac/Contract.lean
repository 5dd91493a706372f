import Mathlib.Data.Prod.Lex
import Modary.Rbac.Authorizer

/-! # The authorization contract of the RBAC authorizer

What `Authorize` is for, stated on the tables alone: a request is granted by the active roles bound
to its actor in its scope, the largest of their limits applies unless one is unlimited, and the
fingerprint names the effective policy. The rows come in the order of the database while the binary
search compares as Go does, and a policy over the row bound is refused: the contract holds exactly
of the requests that nothing grants or whose policy can be loaded, and this for every stored policy
exactly when the two orders agree on the permissions in use (`authorize_meets_contract_iff`). -/

namespace Modary.Rbac.Contract

open Modary.Lib.TextOrder Modary.Lib.GoText Modary.Lib.Search Modary.Lib.Codec Modary.Action.Names Modary.Action.Authz
open Modary.Rbac.Store Modary.Rbac.Authorizer

/-! ### The contract -/

/-- The role is active and bound to the subject by an active binding. -/
def Effective (t : Tables) (s : Subject) (r : RoleRow) : Prop :=
  r ∈ t.roles ∧ r.active = true ∧
    ∃ b ∈ t.bindings, b.active = true ∧ b.key.roleId = r.roleId ∧
      s = ⟨b.key.actorId, b.key.actorType, b.key.scopeKind, b.key.scopeId⟩

/-- The role carries the permission. -/
def Carries (t : Tables) (r : RoleRow) (permission : GoString) : Prop :=
  ∃ p ∈ t.permissions, p.roleId = r.roleId ∧ permission = .utf8 p.permission

/-- The roles that grant the permission to the subject. -/
def Granting (t : Tables) (s : Subject) (permission : GoString) (r : RoleRow) : Prop :=
  Effective t s r ∧ Carries t r permission

/-- Some role grants the request. -/
def Granted (t : Tables) (request : Request) : Prop :=
  ∃ r, Granting t (subject request) request.permission r

/-- The identity, limit and permission set of each effective role. -/
def effectivePolicy (t : Tables) (s : Subject) : Set (String × ℤ × Set GoString) :=
  {x | ∃ r, Effective t s r ∧ x = (r.roleId, r.maxRows, {p | Carries t r p})}

/-- The row limit the granting roles give together; `0` stands for no limit. -/
def LimitOf (granting : RoleRow → Prop) (limit : ℤ) : Prop :=
  ((∃ r, granting r ∧ r.maxRows = 0) → limit = 0) ∧
    ((∀ r, granting r → r.maxRows ≠ 0) →
      (∃ r, granting r ∧ r.maxRows = limit) ∧ ∀ r, granting r → r.maxRows ≤ limit)

/-- The decision is the one the stored policy calls for. -/
structure Correct (t : Tables) (request : Request) (d : Decision) : Prop where
  allowed : d.allowed = true ↔ Granted t request
  maxRows : d.allowed = true → LimitOf (Granting t (subject request) request.permission) d.maxRows

/-- The fingerprint of a decision names the actor, the scope and the effective policy: no other
decision made under the same order of the database has it unless these are the same. -/
def NamesPolicy (sha256 : List Char → String) (c : Collation) (t : Tables) (request : Request)
    (d : Decision) : Prop :=
  ∀ t' request' d', requestValid request' = true → authorize sha256 t' c request' = .ok d' →
    (d'.fingerprint = d.fingerprint ↔
      subject request' = subject request ∧
        effectivePolicy t' (subject request') = effectivePolicy t (subject request))

/-- **The contract** for one request: it is allowed exactly when it is granted, and a decision is
correct and names the policy. -/
structure MeetsContract (sha256 : List Char → String) (c : Collation) (t : Tables)
    (request : Request) : Prop where
  allows : (∃ d, authorize sha256 t c request = .ok d ∧ d.allowed = true) ↔ Granted t request
  decides : ∀ d, authorize sha256 t c request = .ok d →
    Correct t request d ∧ NamesPolicy sha256 c t request d

/-- The order of the database is Go's on the set `P`. -/
def AgreesOn (c : Collation) (P : Set String) : Prop := ∀ p ∈ P, ∀ q ∈ P, c.le p q ↔ p ≤ q

/-! ### The effective roles -/

variable {t t' : Tables} {c : Collation} {s : Subject}

theorem effective_iff {r : RoleRow} : Effective t s r ↔ r ∈ t.boundRoles s := by
  rw [Tables.mem_boundRoles]
  unfold Effective Tables.binds
  obtain ⟨a, b, k, i⟩ := s
  simp only [Subject.mk.injEq, Bool.and_eq_true, beq_iff_eq]
  refine and_congr_right fun _ => and_congr_right fun _ => exists_congr fun x => ?_
  refine and_congr_right fun _ => ?_
  constructor
  · rintro ⟨h1, h2, h3, h4, h5, h6⟩
    exact ⟨⟨⟨⟨⟨h3.symm, h4.symm⟩, h5.symm⟩, h6.symm⟩, h1⟩, h2⟩
  · rintro ⟨⟨⟨⟨⟨h3, h4⟩, h5⟩, h6⟩, h1⟩, h2⟩
    exact ⟨h1, h2, h3.symm, h4.symm, h5.symm, h6.symm⟩

theorem carries_utf8 {r : RoleRow} {p : String} :
    Carries t r (.utf8 p) ↔ p ∈ t.permissionsOf r.roleId := by
  simp only [Carries, Tables.permissionsOf, List.mem_map, List.mem_filter, beq_iff_eq,
    GoString.utf8.injEq]
  constructor
  · rintro ⟨x, hx, h1, h2⟩; exact ⟨x, ⟨hx, h1⟩, h2.symm⟩
  · rintro ⟨x, ⟨hx, h1⟩, h2⟩; exact ⟨x, hx, h1, h2.symm⟩

theorem carries_ordered {r : RoleRow} {p : String} :
    Carries t r (.utf8 p) ↔ p ∈ t.orderedPermissions c r.roleId := by
  rw [carries_utf8, (Tables.orderedPermissions_perm r.roleId).mem_iff]

theorem utf8_of_carries {r : RoleRow} {p : GoString} (h : Carries t r p) : ∃ q : String, p = .utf8 q := by
  obtain ⟨x, -, -, hx⟩ := h
  exact ⟨x.permission, hx⟩

theorem ordered_eq_iff {r r' : RoleRow} :
    t.orderedPermissions c r.roleId = t'.orderedPermissions c r'.roleId ↔
      {p | Carries t r p} = {p | Carries t' r' p} := by
  constructor
  · intro h
    ext p
    simp only [Set.mem_ofPred_eq]
    constructor
    · intro hp
      obtain ⟨q, rfl⟩ := utf8_of_carries hp
      rwa [carries_ordered (c := c), h, ← carries_ordered] at hp
    · intro hp
      obtain ⟨q, rfl⟩ := utf8_of_carries hp
      rwa [carries_ordered (c := c), ← h, ← carries_ordered] at hp
  · intro h
    have hmem : ∀ p, p ∈ t.orderedPermissions c r.roleId ↔ p ∈ t'.orderedPermissions c r'.roleId := by
      intro p
      have := Set.ext_iff.mp h (.utf8 p)
      simpa only [Set.mem_ofPred_eq, carries_ordered (c := c)] using this
    have hperm : (t.orderedPermissions c r.roleId).Perm (t'.orderedPermissions c r'.roleId) :=
      (List.perm_ext_iff_of_nodup
        ((Tables.orderedPermissions_perm _).nodup_iff.mpr (Tables.nodup_permissionsOf _))
        ((Tables.orderedPermissions_perm _).nodup_iff.mpr (Tables.nodup_permissionsOf _))).mpr hmem
    exact hperm.eq_of_pairwise (fun a b _ _ => c.antisymm a b) (List.pairwise_insertionSort _ _)
      (List.pairwise_insertionSort _ _)

theorem mem_storedRoles_iff {id : String} {m : ℤ} {ps : List String} :
    ⟨id, m, ps⟩ ∈ storedRoles t c s ↔ ∃ r, Effective t s r ∧ id = r.roleId ∧ m = r.maxRows ∧
      ps = t.orderedPermissions c r.roleId := by
  simp only [mem_storedRoles, StoredRole.mk.injEq, ← effective_iff]

theorem storedRoles_subset {s' : Subject} (h : effectivePolicy t s ⊆ effectivePolicy t' s') :
    ∀ role ∈ storedRoles t c s, role ∈ storedRoles t' c s' := by
  rintro ⟨id, m, ps⟩ hrole
  obtain ⟨r, hr, rfl, rfl, rfl⟩ := mem_storedRoles_iff.mp hrole
  obtain ⟨r', hr', he⟩ := h ⟨r, hr, rfl⟩
  simp only [Prod.mk.injEq] at he
  exact mem_storedRoles_iff.mpr ⟨r', hr', he.1, he.2.1, ordered_eq_iff.mpr he.2.2⟩

theorem effectivePolicy_subset {s' : Subject}
    (h : ∀ role ∈ storedRoles t c s, role ∈ storedRoles t' c s') :
    effectivePolicy t s ⊆ effectivePolicy t' s' := by
  rintro x ⟨r, hr, rfl⟩
  obtain ⟨r', hr', h1, h2, h3⟩ :=
    mem_storedRoles_iff.mp (h _ (mem_storedRoles_iff.mpr ⟨r, hr, rfl, rfl, rfl⟩))
  exact ⟨r', hr', by rw [h1, h2, ordered_eq_iff.mp h3]⟩

theorem nodup_storedRoles : ((storedRoles t c s).map StoredRole.id).Nodup := by
  unfold storedRoles
  rw [List.map_map]
  exact (Tables.orderedRoles_perm.map _).nodup_iff.mpr Tables.nodup_boundRoles

theorem storedRoles_sorted :
    (storedRoles t c s).Pairwise fun a b => c.le a.id b.id :=
  List.pairwise_map.mpr (List.pairwise_insertionSort _ _)

/-- The stored roles are the same lists exactly when the effective policies are the same sets. -/
theorem storedRoles_eq_iff {s' : Subject} :
    storedRoles t c s = storedRoles t' c s' ↔ effectivePolicy t s = effectivePolicy t' s' := by
  constructor
  · intro h
    exact Set.Subset.antisymm (effectivePolicy_subset (c := c) fun role hr => h ▸ hr)
      (effectivePolicy_subset (c := c) fun role hr => h ▸ hr)
  · intro h
    have hmem : ∀ role, role ∈ storedRoles t c s ↔ role ∈ storedRoles t' c s' := fun role =>
      ⟨storedRoles_subset h.le role, storedRoles_subset h.ge role⟩
    have hperm := (List.perm_ext_iff_of_nodup (List.Nodup.of_map _ nodup_storedRoles)
      (List.Nodup.of_map _ nodup_storedRoles)).mpr hmem
    refine hperm.eq_of_pairwise ?_ storedRoles_sorted storedRoles_sorted
    intro a b ha hb h1 h2
    exact List.inj_on_of_nodup_map nodup_storedRoles ha ((hmem b).mpr hb) (c.antisymm _ _ h1 h2)

/-! ### The fingerprint -/

/-- The permissions in the JSON form of a role. -/
theorem encodePermissions_selfDelimiting :
    SelfDelimiting fun ps : List String =>
      if ps = [] then "null".toList else encodeArray encodeString ps := by
  have array : ∀ (p : String) (ps r s), encodeArray encodeString (p :: ps) ++ r ≠ 'n' :: s := by
    intro p ps r s h
    simp [encodeArray] at h
  rintro (_ | ⟨p, ps⟩) (_ | ⟨q, qs⟩) r s h
  · exact ⟨rfl, by simpa using h⟩
  · simp only [if_true, reduceCtorEq, if_false] at h
    exact absurd h.symm (array _ _ _ _)
  · simp only [if_true, reduceCtorEq, if_false] at h
    exact absurd h (array _ _ _ _)
  · simp only [reduceCtorEq, if_false] at h
    exact encodeStrings_selfDelimiting _ _ _ _ h

theorem encodeRole_selfDelimiting : SelfDelimiting encodeRole := by
  rintro ⟨id, m, ps⟩ ⟨id', m', ps'⟩ r s h
  unfold encodeRole at h
  simp only [List.append_assoc, List.append_cancel_left_eq] at h
  obtain ⟨rfl, h1⟩ := encodeString_selfDelimiting _ _ _ _ h
  have hcomma : ",\"permissions\":".toList = ',' :: "\"permissions\":".toList := rfl
  rw [List.append_cancel_left_eq, hcomma, List.cons_append, List.cons_append] at h1
  obtain ⟨rfl, -, h2⟩ := encodeInt_delimitedBy _ _ ',' ',' _ _ ⟨rfl, by decide⟩ ⟨rfl, by decide⟩ h1
  rw [List.append_cancel_left_eq] at h2
  obtain ⟨rfl, h3⟩ := encodePermissions_selfDelimiting _ _ _ _ h2
  rw [List.append_cancel_left_eq] at h3
  exact ⟨rfl, h3⟩

theorem encodeRoles_selfDelimiting : SelfDelimiting (encodeArray encodeRole) :=
  encodeArray_selfDelimiting (encodeRole_selfDelimiting.delimitedBy _)
    fun role => ⟨Char.ofNat 0x7b, _, rfl, by decide⟩

/-- The material of a valid request can be read back. -/
theorem fingerprintMaterial_inj {a b k i a' b' k' i' : String} {roles roles' : List StoredRole}
    (h : fingerprintMaterial ⟨a, b, k, i⟩ roles = fingerprintMaterial ⟨a', b', k', i'⟩ roles') :
    (⟨a, b, k, i⟩ : Subject) = ⟨a', b', k', i'⟩ ∧ roles = roles' := by
  unfold fingerprintMaterial encodeGoString at h
  simp only [List.append_assoc, List.append_cancel_left_eq] at h
  obtain ⟨rfl, h1⟩ := encodeString_selfDelimiting _ _ _ _ h
  rw [List.append_cancel_left_eq] at h1
  obtain ⟨rfl, h2⟩ := encodeString_selfDelimiting _ _ _ _ h1
  rw [List.append_cancel_left_eq] at h2
  obtain ⟨rfl, h3⟩ := encodeString_selfDelimiting _ _ _ _ h2
  rw [List.append_cancel_left_eq] at h3
  obtain ⟨rfl, h4⟩ := encodeString_selfDelimiting _ _ _ _ h3
  rw [List.append_cancel_left_eq] at h4
  obtain ⟨rfl, -⟩ := encodeRoles_selfDelimiting _ _ _ _ h4
  exact ⟨rfl, rfl⟩

/-- What the checks on a request leave. -/
theorem requestValid_iff {request : Request} :
    requestValid request = true ↔ validIdentifier request.operationID = true ∧
      (request.phase = .intent ∨ request.phase = .impact) ∧ 0 ≤ request.impact.rows ∧
      (request.phase = .intent → request.impact.rows = 0 ∧ request.impact.resources = []) ∧
      request.scope.validate.isOk = true ∧ (validateActor request.actor).isOk = true ∧
      validPermission request.permission = true := by
  simp only [requestValid, Bool.and_eq_true, Bool.or_eq_true, beq_iff_eq, decide_eq_true_eq,
    Bool.not_eq_true', Bool.and_eq_false_iff, Bool.or_eq_false_iff, and_assoc]
  refine and_congr_right fun _ => and_congr_right fun _ => and_congr_right fun _ => ?_
  refine and_congr_left fun _ => ?_
  by_cases hp : request.phase = .intent <;> simp [hp]

theorem isOk_unit {x : Except String Unit} (h : x.isOk = true) : x = .ok () := by
  cases x with
  | error e => simp [Except.isOk, Except.toBool] at h
  | ok u => rfl

/-- The subject of a valid request is text. -/
theorem subject_utf8 {request : Request} (h : requestValid request = true) :
    ∃ a b k i : String, subject request = ⟨a, b, k, i⟩ := by
  obtain ⟨-, -, -, -, hs, ha, -⟩ := requestValid_iff.mp h
  obtain ⟨⟨k, hk⟩, ⟨i, hi⟩⟩ := utf8_of_scope_validate (isOk_unit hs)
  obtain ⟨⟨a, ha'⟩, ⟨b, hb⟩⟩ := utf8_of_validateActor (isOk_unit ha)
  exact ⟨a, b, k, i, by rw [subject, ha', hb, hk, hi]⟩

theorem policyFingerprint_inj {sha256 : List Char → String} (hsha : Function.Injective sha256)
    {request request' : Request} (h : requestValid request = true)
    (h' : requestValid request' = true) {roles roles' : List StoredRole}
    (he : policyFingerprint sha256 (subject request) roles =
      policyFingerprint sha256 (subject request') roles') :
    subject request = subject request' ∧ roles = roles' := by
  obtain ⟨a, b, k, i, hs⟩ := subject_utf8 h
  obtain ⟨a', b', k', i', hs'⟩ := subject_utf8 h'
  simp only [policyFingerprint, GoString.utf8.injEq] at he
  have hm := hsha ((String.append_right_inj _).mp he)
  rw [hs, hs'] at hm ⊢
  exact fingerprintMaterial_inj hm

/-! ### The decision -/

variable {sha256 : List Char → String} {request : Request}

theorem authorize_eq (h : requestValid request = true) {d : Decision} :
    authorize sha256 t c request = .ok d ↔
      Loadable t (subject request) ∧
        d = grantDecision sha256 request (storedRoles t c (subject request)) := by
  unfold authorize
  rw [if_neg (by simp [h])]
  by_cases hl : Loadable t (subject request)
  · rw [loadPolicy_of_loadable hl]
    simp [hl, eq_comm]
  · rcases hp : loadPolicy t c (subject request) with e | roles
    · simp [hl]
    · exact absurd (loadable_of_loadPolicy hp) hl

theorem grantDecision_fingerprint (roles : List StoredRole) :
    (grantDecision sha256 request roles).fingerprint =
      policyFingerprint sha256 (subject request) roles := by
  unfold grantDecision
  simp only
  split_ifs <;> rfl

theorem namesPolicy (hsha : Function.Injective sha256) (h : requestValid request = true)
    {d : Decision} (hd : authorize sha256 t c request = .ok d) :
    NamesPolicy sha256 c t request d := by
  intro t' request' d' h' hd'
  obtain ⟨-, rfl⟩ := (authorize_eq h).mp hd
  obtain ⟨-, rfl⟩ := (authorize_eq h').mp hd'
  rw [grantDecision_fingerprint, grantDecision_fingerprint]
  constructor
  · intro he
    obtain ⟨h1, h2⟩ := policyFingerprint_inj hsha h' h he
    exact ⟨h1, storedRoles_eq_iff.mp h2⟩
  · rintro ⟨h1, h2⟩
    rw [storedRoles_eq_iff.mpr h2, h1]

theorem effectiveRowLimit_go : ∀ (limits : List ℤ) (m : ℤ),
    (0 ∈ limits → effectiveRowLimit.go m limits = 0) ∧
      (0 ∉ limits → (effectiveRowLimit.go m limits = m ∨ effectiveRowLimit.go m limits ∈ limits) ∧
        m ≤ effectiveRowLimit.go m limits ∧ ∀ l ∈ limits, l ≤ effectiveRowLimit.go m limits)
  | [], m => by simp [effectiveRowLimit.go]
  | l :: limits, m => by
    unfold effectiveRowLimit.go
    by_cases hl : l = 0
    · simp [hl]
    rw [if_neg hl]
    obtain ⟨h1, h2⟩ := effectiveRowLimit_go limits (if l > m then l else m)
    have hm : m ≤ if l > m then l else m := by split_ifs <;> omega
    have hle : l ≤ if l > m then l else m := by split_ifs <;> omega
    have hor : (if l > m then l else m) = m ∨ (if l > m then l else m) = l := by
      split_ifs <;> simp
    refine ⟨fun h => h1 ?_, fun h => ?_⟩
    · rcases List.mem_cons.mp h with h | h
      · exact absurd h.symm hl
      · exact h
    · obtain ⟨h3, h4, h5⟩ := h2 fun h0 => h (List.mem_cons_of_mem _ h0)
      refine ⟨?_, hm.trans h4, ?_⟩
      · rcases h3 with h3 | h3
        · rw [h3]
          rcases hor with ho | ho
          · exact Or.inl ho
          · exact Or.inr (by simp [ho])
        · exact Or.inr (List.mem_cons_of_mem _ h3)
      · intro x hx
        rcases List.mem_cons.mp hx with rfl | hx
        · exact hle.trans h4
        · exact h5 x hx

/-- The combined limit of granting roles with nonnegative limits. -/
theorem limitOf_effectiveRowLimit {granting : RoleRow → Prop} {limits : List ℤ}
    (hmem : ∀ m, m ∈ limits ↔ ∃ r, granting r ∧ r.maxRows = m) (hne : limits ≠ [])
    (hpos : ∀ r, granting r → 0 ≤ r.maxRows) : LimitOf granting (effectiveRowLimit limits) := by
  obtain ⟨h1, h2⟩ := effectiveRowLimit_go limits 0
  refine ⟨fun h => h1 ((hmem 0).mpr h), fun h => ?_⟩
  have h0 : (0 : ℤ) ∉ limits := by
    intro hz
    obtain ⟨r, hr, hr0⟩ := (hmem 0).mp hz
    exact h r hr hr0
  obtain ⟨h3, -, h5⟩ := h2 h0
  refine ⟨(hmem _).mp ?_, fun r hr => h5 _ ((hmem _).mpr ⟨r, hr, rfl⟩)⟩
  rcases h3 with h3 | h3
  · obtain ⟨l, hl⟩ := List.exists_mem_of_ne_nil _ hne
    obtain ⟨r, hr, hrl⟩ := (hmem l).mp hl
    have hle := h5 l hl
    have hlpos := hpos r hr
    have hlne := h r hr
    omega
  · exact h3

/-! ### When the search is complete -/

/-- Every permission of every effective role is found by the search. -/
def SearchComplete (t : Tables) (c : Collation) (s : Subject) : Prop :=
  ∀ r, Effective t s r → ∀ p ∈ t.orderedPermissions c r.roleId,
    contains (t.orderedPermissions c r.roleId) p = true

theorem searchComplete_of_agreesOn {P : Set String} (hc : AgreesOn c P)
    (hP : ∀ x ∈ t.permissions, x.permission ∈ P) : SearchComplete t c s := by
  intro r _
  have hnd : (t.orderedPermissions c r.roleId).Nodup :=
    (Tables.orderedPermissions_perm _).nodup_iff.mpr (Tables.nodup_permissionsOf _)
  refine (search_finds_iff hnd).mpr ?_
  have hs : (t.orderedPermissions c r.roleId).Pairwise c.le := List.pairwise_insertionSort _ _
  have hin : ∀ p ∈ t.orderedPermissions c r.roleId, p ∈ P := by
    intro p hp
    rw [← carries_ordered] at hp
    obtain ⟨x, hx, -, he⟩ := hp
    rw [GoString.utf8.inj he]
    exact hP x hx
  refine (hs.and hnd).imp_of_mem ?_
  rintro p q hp hq ⟨hle, hne⟩
  exact lt_of_le_of_ne ((hc p (hin p hp) q (hin q hq)).mp hle) hne

theorem mem_grantingLimits (hs : SearchComplete t c s) {p : String} {m : ℤ} :
    m ∈ ((storedRoles t c s).filter fun role => role.grants (.utf8 p)).map StoredRole.maxRows ↔
      ∃ r, Granting t s (.utf8 p) r ∧ r.maxRows = m := by
  simp only [List.mem_map, List.mem_filter]
  constructor
  · rintro ⟨⟨id, m', ps⟩, ⟨hrole, hg⟩, rfl⟩
    obtain ⟨r, hr, rfl, rfl, rfl⟩ := mem_storedRoles_iff.mp hrole
    exact ⟨r, ⟨hr, carries_ordered.mpr (mem_of_contains hg)⟩, rfl⟩
  · rintro ⟨r, ⟨hr, hp⟩, rfl⟩
    exact ⟨_, ⟨mem_storedRoles_iff.mpr ⟨r, hr, rfl, rfl, rfl⟩,
      hs r hr p (carries_ordered.mp hp)⟩, rfl⟩

/-- A complete search decides correctly. -/
theorem correct_of_searchComplete (h : requestValid request = true)
    (hs : SearchComplete t c (subject request)) :
    Correct t request (grantDecision sha256 request (storedRoles t c (subject request))) := by
  obtain ⟨p, hp⟩ := utf8_of_validIdentifier (requestValid_iff.mp h).2.2.2.2.2.2
  have hmem := fun m => mem_grantingLimits (m := m) (p := p) hs
  rw [← hp] at hmem
  unfold grantDecision
  simp only [List.length_eq_zero_iff]
  by_cases hnil : ((storedRoles t c (subject request)).filter
      fun role => role.grants request.permission).map StoredRole.maxRows = []
  · rw [if_pos hnil]
    rw [hnil] at hmem
    refine ⟨⟨fun h => absurd h (by simp), ?_⟩, fun h => absurd h (by simp)⟩
    rintro ⟨r, hr⟩
    exact absurd ((hmem _).mpr ⟨r, hr, rfl⟩) (by simp)
  · rw [if_neg hnil]
    refine ⟨⟨fun _ => ?_, fun _ => rfl⟩, fun _ => limitOf_effectiveRowLimit hmem hnil ?_⟩
    · obtain ⟨m, hm⟩ := List.exists_mem_of_ne_nil _ hnil
      obtain ⟨r, hr, -⟩ := (hmem m).mp hm
      exact ⟨r, hr⟩
    · rintro r ⟨hr, -⟩
      exact t.maxRowsCheck r hr.1

/-- Under agreeing orders only a granted request whose policy cannot be loaded breaks the contract. -/
theorem meetsContract_iff (hsha : Function.Injective sha256) {P : Set String}
    (hc : AgreesOn c P) (hP : ∀ x ∈ t.permissions, x.permission ∈ P)
    (h : requestValid request = true) :
    MeetsContract sha256 c t request ↔ (Granted t request → Loadable t (subject request)) := by
  have correct : ∀ d, authorize sha256 t c request = .ok d → Correct t request d := by
    intro d hd
    obtain ⟨-, rfl⟩ := (authorize_eq h).mp hd
    exact correct_of_searchComplete h (searchComplete_of_agreesOn hc hP)
  constructor
  · intro hm hg
    obtain ⟨d, hd, -⟩ := hm.allows.mpr hg
    exact ((authorize_eq h).mp hd).1
  · intro hl
    refine ⟨⟨?_, fun hg => ?_⟩, fun d hd => ⟨correct d hd, namesPolicy hsha h hd⟩⟩
    · rintro ⟨d, hd, hallowed⟩
      exact (correct d hd).allowed.mp hallowed
    · have hd := (@authorize_eq _ c sha256 _ h _).mpr ⟨hl hg, rfl⟩
      exact ⟨_, hd, (correct _ hd).allowed.mpr hg⟩

/-! ### The orders have to agree -/

/-- Two permission identifiers that a role may carry. -/
structure PermissionPair where
  fst : String
  snd : String
  ne : fst ≠ snd
  fst_valid : validPermission (.utf8 fst) = true
  snd_valid : validPermission (.utf8 snd) = true

/-- The policy of one unlimited role with two permissions, bound to one actor. -/
def twoPermissions (x : PermissionPair) : Tables where
  roles := [⟨"a", 0, true⟩]
  permissions := [⟨"a", x.fst⟩, ⟨"a", x.snd⟩]
  bindings := [⟨⟨"a", "a", "a", "a", "a"⟩, true⟩]
  roleKey := by simp
  roleCheck := by simp only [List.mem_singleton, forall_eq]; exact ⟨by decide, by decide⟩
  maxRowsCheck := by simp
  permissionKey := by simp [x.ne]
  permissionCheck := by
    intro p hp
    rcases List.mem_pair.mp hp with rfl | rfl
    · exact length_of_validIdentifier x.fst_valid
    · exact length_of_validIdentifier x.snd_valid
  permissionRole := by simp
  bindingKey := by simp
  bindingCheck := by
    simp only [List.mem_singleton, forall_eq, BindingKey.Check, LengthCheck]
    decide
  bindingRole := by simp

/-- A request of the bound actor. -/
def boundRequest (permission : String) : Request where
  actor := ⟨.utf8 "a", .utf8 "a", .utf8 ""⟩
  operationID := .utf8 "a"
  permission := .utf8 permission
  scope := ⟨.utf8 "a", .utf8 "a"⟩
  phase := .intent
  impact := {}

theorem boundRequest_valid {p : String} (h : validPermission (.utf8 p) = true) :
    requestValid (boundRequest p) = true :=
  requestValid_iff.mpr ⟨show validIdentifier (.utf8 "a") = true by decide, Or.inl rfl, le_rfl,
    fun _ => ⟨rfl, rfl⟩, show (Execution.mk (.utf8 "a") (.utf8 "a")).validate.isOk = true by decide,
    show (validateActor ⟨.utf8 "a", .utf8 "a", .utf8 ""⟩).isOk = true by decide, h⟩

section TwoPermissions

variable (x : PermissionPair)

theorem boundRoles_two (p : String) :
    (twoPermissions x).boundRoles (subject (boundRequest p)) = [⟨"a", 0, true⟩] := rfl

theorem permissionsOf_two : (twoPermissions x).permissionsOf "a" = [x.fst, x.snd] := rfl

theorem orderedPermissions_two (h : c.le x.snd x.fst) :
    (twoPermissions x).orderedPermissions c "a" = [x.snd, x.fst] := by
  refine List.Perm.eq_of_pairwise (fun a b _ _ => c.antisymm a b)
    (List.pairwise_insertionSort _ _) (by simpa using h) ?_
  exact (Tables.orderedPermissions_perm "a").trans (List.Perm.swap x.snd x.fst [])

theorem loadable_two (p : String) : Loadable (twoPermissions x) (subject (boundRequest p)) := by
  refine ⟨?_, ?_⟩
  · rw [Tables.joinedRows, boundRoles_two]
    simp [permissionsOf_two, Tables.rowsOf, maxEffectivePolicyRows]
  · rw [boundRoles_two]
    intro r hr
    rw [List.mem_singleton.mp hr, permissionsOf_two]
    refine ⟨by decide, fun y hy => ?_⟩
    rcases List.mem_pair.mp hy with rfl | rfl
    · exact x.fst_valid
    · exact x.snd_valid

theorem granting_two {p : String} (hp : p ∈ [x.fst, x.snd]) :
    Granting (twoPermissions x) (subject (boundRequest p)) (.utf8 p) ⟨"a", 0, true⟩ := by
  refine ⟨effective_iff.mpr (by rw [boundRoles_two]; simp), carries_utf8.mpr ?_⟩
  rw [permissionsOf_two]
  exact hp

/-- A request on this policy that is decided correctly was found by the search. -/
theorem contains_of_correct {p : String} (hp : p ∈ [x.fst, x.snd])
    (h : Correct (twoPermissions x) (boundRequest p) (grantDecision sha256 (boundRequest p)
      (storedRoles (twoPermissions x) c (subject (boundRequest p))))) :
    contains ((twoPermissions x).orderedPermissions c "a") p = true := by
  have ha := h.allowed.mpr ⟨_, granting_two x hp⟩
  have hroles : storedRoles (twoPermissions x) c (subject (boundRequest p)) =
      [⟨"a", 0, (twoPermissions x).orderedPermissions c "a"⟩] := rfl
  unfold grantDecision at ha
  simp only [hroles] at ha
  by_contra hc
  rw [List.filter_cons_of_neg (by simpa [StoredRole.grants, boundRequest] using hc)] at ha
  simp at ha

end TwoPermissions

theorem agreesOn_of_meetsContract {P : Set String} (hP : ∀ p ∈ P, validPermission (.utf8 p) = true)
    (h : ∀ t : Tables, (∀ x ∈ t.permissions, x.permission ∈ P) →
      ∀ request, requestValid request = true → Loadable t (subject request) →
        MeetsContract sha256 c t request) :
    AgreesOn c P := by
  -- A pair listed against Go's order would make a policy whose search is not complete.
  have bad : ∀ p ∈ P, ∀ q ∈ P, p < q → ¬ c.le q p := by
    intro p hp q hq hlt hle
    let x : PermissionPair := ⟨p, q, ne_of_lt hlt, hP p hp, hP q hq⟩
    have hord : (twoPermissions x).orderedPermissions c "a" = [q, p] := orderedPermissions_two x hle
    have hin : ∀ y ∈ (twoPermissions x).permissions, y.permission ∈ P := by
      intro y hy
      rcases List.mem_pair.mp hy with rfl | rfl
      · exact hp
      · exact hq
    have hfind : ∀ y ∈ [q, p], contains [q, p] y = true := by
      intro y hy
      have hy' : y ∈ [p, q] := List.mem_pair.mpr (List.mem_pair.mp hy).symm
      have hv : validPermission (.utf8 y) = true := by
        rcases List.mem_pair.mp hy' with rfl | rfl
        · exact hP _ hp
        · exact hP _ hq
      have hd := (@authorize_eq _ c sha256 _ (boundRequest_valid hv) _).mpr
        ⟨loadable_two x y, rfl⟩
      have hmeets := h _ hin _ (boundRequest_valid hv) (loadable_two x y)
      rw [← hord]
      exact contains_of_correct x hy' (hmeets.decides _ hd).1
    have hasc := (search_finds_iff (by simpa using (ne_of_lt hlt).symm)).mp hfind
    have hqp : q < p := by simpa using hasc
    exact absurd hlt (lt_asymm hqp)
  intro p hp q hq
  constructor
  · intro hle
    by_contra hlt
    exact bad q hq p hp (not_le.mp hlt) hle
  · intro hle
    rcases eq_or_lt_of_le hle with rfl | hlt
    · exact (c.total p p).elim id id
    · exact (c.total p q).resolve_right (bad p hp q hq hlt)

/-- **When the contract holds**: for every set `P` of permission identifiers, the requests that meet
the contract under a policy over `P` are those that nothing grants or whose policy can be loaded, if
and only if the database orders the members of `P` as Go does. -/
theorem authorize_meets_contract_iff (sha256 : List Char → String)
    (hsha : Function.Injective sha256) (c : Collation) (P : Set String)
    (hP : ∀ p ∈ P, validPermission (.utf8 p) = true) :
    (∀ t : Tables, (∀ x ∈ t.permissions, x.permission ∈ P) →
        ∀ request, requestValid request = true →
          (MeetsContract sha256 c t request ↔
            (Granted t request → Loadable t (subject request)))) ↔
      AgreesOn c P := by
  constructor
  · intro h
    exact agreesOn_of_meetsContract hP fun t ht request hr hl => (h t ht request hr).mpr fun _ => hl
  · intro hc t ht request hr
    exact meetsContract_iff hsha hc ht hr

/-- A digest without collisions that is the SHA-256 digest of one policy. -/
def sampleDigest (material : List Char) : String :=
  if material = fingerprintMaterial (subject (boundRequest "salesa"))
      [⟨"a", 0, ["sales.b", "salesa"]⟩] then
    "d2f5382e7917a0c3e472dca88256ccacdbc30772de59deb97514ab8d6db7dfeb"
  else String.ofList ('x' :: material)

theorem sampleDigest_injective : Function.Injective sampleDigest := by
  have other : ∀ m : List Char, String.ofList ('x' :: m) ≠
      "d2f5382e7917a0c3e472dca88256ccacdbc30772de59deb97514ab8d6db7dfeb" := by
    intro m h
    have := congrArg String.toList h
    rw [String.toList_ofList] at this
    exact absurd (congrArg List.head? this) (by simp)
  intro a b h
  unfold sampleDigest at h
  split_ifs at h with h1 h2 h2
  · rw [h1, h2]
  · exact absurd h.symm (other b)
  · exact absurd h (other a)
  · have := congrArg String.toList h
    simpa using this

theorem authorize_meets_contract_iff_sales :
    (∀ t : Tables, (∀ x ∈ t.permissions, x.permission ∈ ({"sales.b", "salesa"} : Set String)) →
        ∀ request, requestValid request = true →
          (MeetsContract sampleDigest byteOrder t request ↔
            (Granted t request → Loadable t (subject request)))) ↔
      AgreesOn byteOrder {"sales.b", "salesa"} :=
  authorize_meets_contract_iff sampleDigest sampleDigest_injective byteOrder _ (by
    rintro p (rfl | rfl) <;> decide)

/-- Two permissions that byte order and the order above list differently. -/
def salesPair : PermissionPair := ⟨"sales.b", "salesa", by decide, by decide, by decide⟩

/-- Under an order that looks at punctuation last, a permission the actor has is denied. -/
theorem granted_permission_denied :
    Granted (twoPermissions salesPair) (boundRequest "salesa") ∧
      Loadable (twoPermissions salesPair) (subject (boundRequest "salesa")) ∧
      requestValid (boundRequest "salesa") = true ∧
      (authorize sampleDigest (twoPermissions salesPair) punctuationLast
        (boundRequest "salesa")).map Decision.allowed = .ok false := by
  have hv : requestValid (boundRequest "salesa") = true := boundRequest_valid salesPair.snd_valid
  refine ⟨⟨_, granting_two _ (by simp [salesPair])⟩, loadable_two _ _, hv, ?_⟩
  rw [(authorize_eq hv).mpr ⟨loadable_two salesPair _, rfl⟩]
  have hord : (twoPermissions salesPair).orderedPermissions punctuationLast "a" =
      ["salesa", "sales.b"] := orderedPermissions_two _ (by decide)
  have hroles : storedRoles (twoPermissions salesPair) punctuationLast
      (subject (boundRequest "salesa")) = [⟨"a", 0, ["salesa", "sales.b"]⟩] := by
    rw [← hord]; rfl
  have hmiss : contains ["salesa", "sales.b"] "salesa" = false := by decide
  rw [hroles]
  simp [grantDecision, StoredRole.grants, boundRequest, hmiss, Except.map]

end Modary.Rbac.Contract
