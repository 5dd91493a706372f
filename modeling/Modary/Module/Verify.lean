import Mathlib.Data.Prod.Lex
import Mathlib.Data.List.Lex
import Mathlib.Data.List.Pairwise
import Modary.Lib.Sorting
import Modary.Lib.TopoSort
import Modary.Module.Manifests

/-! # The module graph

`Verify` resolves the capabilities that modules require to the modules that provide them, and lists
the modules so that every provider comes before its dependents. It succeeds exactly on the sound
sets of manifests, in whatever order they are given (`verify_contract`). -/

namespace Modary.Module.Verify

open Relation
open Modary.Lib.GoText Modary.Lib.Sorting Modary.Lib.TopoSort Modary.Module.Manifests

/-! ### Verify -/

/-- An edge from a requiring module to the provider of one capability. -/
structure GraphEdge where
  source : GoString
  target : GoString
  capability : GoString
  deriving DecidableEq, Repr

/-- The resolved graph. -/
structure Graph where
  modules : List GoString
  edges : List GraphEdge
  order : List GoString
  provides : GoString → Option GoString

/-- What `Verify` refuses, with the values its message shows. -/
inductive VerifyError
  | manifest (refusal : Refusal)
  | duplicateModule (id previous version : GoString)
  | multipleProviders (capability owner id : GoString)
  | missingCapability (id capability : GoString)
  | dependencyCycle (stop : Stop GoString)
  deriving Repr

/-- The tables the first loop fills: the manifests by their id, the providers by their capability. -/
structure Tables where
  byID : GoString → Option Manifest
  providers : GoString → Option GoString

/-- Enter one provided capability. -/
def provide (id : GoString) (providers : GoString → Option GoString) (capability : GoString) :
    Except VerifyError (GoString → Option GoString) :=
  match providers capability with
  | some owner => .error (.multipleProviders capability owner id)
  | none => .ok (Function.update providers capability (some id))

/-- One round of the first loop. -/
def register (isValid : GoString → Bool) (tables : Tables) (manifest : Manifest) :
    Except VerifyError Tables := do
  (validateManifest isValid manifest).mapError .manifest
  match tables.byID manifest.id with
  | some previous => .error (.duplicateModule manifest.id previous.version manifest.version)
  | none =>
    let providers ← manifest.provides.foldlM (provide manifest.id) tables.providers
    .ok ⟨Function.update tables.byID manifest.id (some manifest), providers⟩

/-- One round of the second loop: the edges of a module, in the order of its requirements. -/
def resolve (providers : GoString → Option GoString) (manifest : Manifest) :
    Except VerifyError (List GraphEdge) :=
  manifest.requires.mapM fun requirement =>
    match providers requirement with
    | none => .error (.missingCapability manifest.id requirement)
    | some provider => .ok ⟨manifest.id, provider, requirement⟩

/-- The order of the edges of one module: by target, then by capability. -/
def dependencyKey (edge : GraphEdge) : List Char ×ₗ List Char :=
  toLex (edge.target.runes, edge.capability.runes)

/-- The order of all edges: by source, target and capability. -/
def edgeKey (edge : GraphEdge) : List Char ×ₗ (List Char ×ₗ List Char) :=
  toLex (edge.source.runes, dependencyKey edge)

/-- The modules a module waits for, in the order they are visited. The edges of a module are those
the second loop appended under its id. -/
def dependencies (edges : List GraphEdge) (id : GoString) : List GoString :=
  (sortOn dependencyKey (edges.filter fun edge => edge.source = id)).map GraphEdge.target

/-- `Verify`. The ids of `byID` are those of the manifests, each of which was entered once. -/
def verify (isValid : GoString → Bool) (manifests : List Manifest) :
    Except VerifyError Graph := do
  let tables ← manifests.foldlM (register isValid) ⟨fun _ => none, fun _ => none⟩
  let resolved ← manifests.mapM (resolve tables.providers)
  let edges := resolved.flatten
  let moduleIDs := sortOn GoString.runes (manifests.map Manifest.id)
  let order ← (sort (dependencies edges) moduleIDs).mapError .dependencyCycle
  .ok ⟨moduleIDs, sortOn edgeKey edges, order, tables.providers⟩

/-! ### What a sound set of manifests is -/

/-- The first module requires a capability that the second provides. -/
def DependsOn (manifests : List Manifest) (a b : GoString) : Prop :=
  ∃ m ∈ manifests, m.id = a ∧ ∃ p ∈ manifests, p.id = b ∧ ∃ c ∈ m.requires, c ∈ p.provides

/-- Unique modules, one provider for each capability, nothing missing, no cycle. -/
structure Resolvable (manifests : List Manifest) : Prop where
  ids : (manifests.map Manifest.id).Nodup
  providers : ∀ m ∈ manifests, ∀ p ∈ manifests, ∀ c ∈ m.provides, c ∈ p.provides → m.id = p.id
  required : ∀ m ∈ manifests, ∀ c ∈ m.requires, ∃ p ∈ manifests, c ∈ p.provides
  acyclic : ∀ a, ¬ TransGen (DependsOn manifests) a a

/-! ### The tables -/

/-- Two modules may stand in one graph. -/
def Compatible (m p : Manifest) : Prop := m.id ≠ p.id ∧ ∀ c ∈ m.provides, c ∉ p.provides

theorem Compatible.symm {m p : Manifest} (h : Compatible m p) : Compatible p m :=
  ⟨h.1.symm, fun c hp hm => h.2 c hm hp⟩

/-- The tables hold exactly the manifests entered. -/
structure Holds (entered : List Manifest) (tables : Tables) : Prop where
  byID : ∀ id m, tables.byID id = some m ↔ m ∈ entered ∧ m.id = id
  providers : ∀ c id, tables.providers c = some id ↔ ∃ m ∈ entered, m.id = id ∧ c ∈ m.provides

theorem foldlM_provide {id : GoString} : ∀ {capabilities : List GoString}
    {providers : GoString → Option GoString}, capabilities.Nodup →
      (∀ c ∈ capabilities, providers c = none) →
      capabilities.foldlM (provide id) providers =
        .ok fun c => if c ∈ capabilities then some id else providers c
  | [], _, _, _ => by simp [pure, Except.pure]
  | c :: rest, providers, hnd, hnone => by
    obtain ⟨hc, hrest⟩ := List.nodup_cons.mp hnd
    have hstep : provide id providers c = .ok (Function.update providers c (some id)) := by
      simp [provide, hnone c List.mem_cons_self]
    have hnone' : ∀ d ∈ rest, Function.update providers c (some id) d = none := by
      intro d hd
      have hdc : d ≠ c := fun h => hc (h ▸ hd)
      rw [Function.update_of_ne hdc]
      exact hnone d (List.mem_cons_of_mem _ hd)
    rw [List.foldlM_cons, hstep]
    refine (foldlM_provide hrest hnone').trans (congrArg Except.ok (funext fun d => ?_))
    by_cases hdc : d = c
    · subst hdc
      simp [hc]
    · simp [hdc]

theorem foldlM_provide_ok {id : GoString} : ∀ {capabilities : List GoString}
    {providers result : GoString → Option GoString},
      capabilities.foldlM (provide id) providers = .ok result →
      ∀ c ∈ capabilities, providers c = none
  | [], _, _, _ => by simp
  | c :: rest, providers, result, h => by
    rw [List.foldlM_cons] at h
    obtain ⟨next, hstep, hrest⟩ := bind_eq_ok.mp h
    unfold provide at hstep
    cases hc : providers c with
    | some owner =>
      rw [hc] at hstep
      cases hstep
    | none =>
      rw [hc] at hstep
      cases hstep
      intro d hd
      by_cases hdc : d = c
      · exact hdc ▸ hc
      · have hd' : d ∈ rest := (List.mem_cons.mp hd).resolve_left hdc
        have := foldlM_provide_ok hrest d hd'
        rwa [Function.update_of_ne hdc] at this

section
variable {isValid : GoString → Bool} {entered manifests : List Manifest} {tables : Tables}

/-- One round enters a manifest exactly when it is valid and compatible with those before it. -/
theorem register_ok_iff (h : Holds entered tables) (m : Manifest) (next : Tables) :
    register isValid tables m = .ok next ↔
      validateManifest isValid m = .ok () ∧ (∀ p ∈ entered, Compatible p m) ∧
        next = ⟨Function.update tables.byID m.id (some m),
          fun c => if c ∈ m.provides then some m.id else tables.providers c⟩ := by
  have hfree : (∀ c ∈ m.provides, tables.providers c = none) ↔
      ∀ p ∈ entered, ∀ c ∈ p.provides, c ∉ m.provides := by
    constructor
    · intro hn p hp c hcp hcm
      have := (h.providers c p.id).mpr ⟨p, hp, rfl, hcp⟩
      rw [hn c hcm] at this
      cases this
    · intro hd c hc
      cases ho : tables.providers c with
      | none => rfl
      | some id =>
        obtain ⟨p, hp, -, hcp⟩ := (h.providers c id).mp ho
        exact absurd hc (hd p hp c hcp)
  unfold register
  rw [bind_eq_ok]
  constructor
  · rintro ⟨_, hv, hm⟩
    have hvalid : validateManifest isValid m = .ok () := by
      cases hx : validateManifest isValid m with
      | error err =>
        rw [hx] at hv
        cases hv
      | ok _ => rfl
    cases hb : tables.byID m.id with
    | some previous =>
      simp [hb] at hm
    | none =>
      simp only [hb] at hm
      obtain ⟨providers, hp, hm⟩ := bind_eq_ok.mp hm
      have hnone := foldlM_provide_ok hp
      rw [foldlM_provide (named_of_validateManifest hvalid).provides_nodup hnone] at hp
      cases hp
      cases hm
      refine ⟨hvalid, ?_, rfl⟩
      intro p hpe
      refine ⟨?_, hfree.mp hnone p hpe⟩
      intro hid
      have := (h.byID m.id p).mpr ⟨hpe, hid⟩
      rw [hb] at this
      cases this
  · rintro ⟨hvalid, hcompat, rfl⟩
    refine ⟨(), by rw [hvalid]; rfl, ?_⟩
    have hb : tables.byID m.id = none := by
      cases hx : tables.byID m.id with
      | none => rfl
      | some p =>
        obtain ⟨hp, hid⟩ := (h.byID m.id p).mp hx
        exact absurd hid (hcompat p hp).1
    have hnone := hfree.mpr fun p hp => (hcompat p hp).2
    simp only [hb, foldlM_provide (named_of_validateManifest hvalid).provides_nodup hnone]
    rfl

theorem Holds.register (h : Holds entered tables) {m : Manifest} {next : Tables}
    (hr : register isValid tables m = .ok next) : Holds (entered ++ [m]) next := by
  obtain ⟨-, hcompat, rfl⟩ := (register_ok_iff h m next).mp hr
  constructor
  · intro id p
    by_cases hid : id = m.id
    · subst hid
      have hnot : ¬ (p ∈ entered ∧ p.id = m.id) := fun hp => (hcompat p hp.1).1 hp.2
      simp only [Function.update_self, Option.some.injEq, List.mem_append, List.mem_singleton]
      constructor
      · rintro rfl
        exact ⟨Or.inr rfl, rfl⟩
      · rintro ⟨hp | hp, hpid⟩
        · exact absurd ⟨hp, hpid⟩ hnot
        · exact hp.symm
    · have hbefore : Function.update tables.byID m.id (some m) id = tables.byID id :=
        Function.update_of_ne hid _ _
      simp only [hbefore, h.byID, List.mem_append, List.mem_singleton]
      constructor
      · rintro ⟨hp, hpid⟩
        exact ⟨Or.inl hp, hpid⟩
      · rintro ⟨hp | hp, hpid⟩
        · exact ⟨hp, hpid⟩
        · exact absurd (hp ▸ hpid).symm hid
  · intro c id
    by_cases hc : c ∈ m.provides
    · simp only [hc, if_true, Option.some.injEq, List.mem_append, List.mem_singleton]
      constructor
      · rintro rfl
        exact ⟨m, Or.inr rfl, rfl, hc⟩
      · rintro ⟨p, hp | rfl, hid, hcp⟩
        · exact absurd hc ((hcompat p hp).2 c hcp)
        · exact hid
    · simp only [hc, if_false, h.providers, List.mem_append, List.mem_singleton]
      constructor
      · rintro ⟨p, hp, hid, hcp⟩
        exact ⟨p, Or.inl hp, hid, hcp⟩
      · rintro ⟨p, hp | rfl, hid, hcp⟩
        · exact ⟨p, hp, hid, hcp⟩
        · exact absurd hcp hc

/-- The first loop. -/
theorem foldlM_register_ok : ∀ {manifests entered : List Manifest} {tables result : Tables},
    Holds entered tables → manifests.foldlM (register isValid) tables = .ok result →
      Holds (entered ++ manifests) result ∧
      (∀ m ∈ manifests, validateManifest isValid m = .ok ()) ∧
      (∀ p ∈ entered, ∀ m ∈ manifests, Compatible p m) ∧ manifests.Pairwise Compatible
  | [], entered, tables, result, h, hr => by
    cases hr
    refine ⟨by simpa using h, by simp, by simp, List.Pairwise.nil⟩
  | m :: rest, entered, tables, result, h, hr => by
    rw [List.foldlM_cons] at hr
    obtain ⟨next, hstep, hrest⟩ := bind_eq_ok.mp hr
    obtain ⟨hvalid, hcompat, -⟩ := (register_ok_iff h m next).mp hstep
    obtain ⟨hholds, hv, hc, hp⟩ := foldlM_register_ok (h.register hstep) hrest
    refine ⟨by simpa using hholds, ?_, ?_, List.pairwise_cons.mpr ⟨?_, hp⟩⟩
    · intro q hq
      rcases List.mem_cons.mp hq with rfl | hq
      · exact hvalid
      · exact hv q hq
    · intro p hpe q hq
      rcases List.mem_cons.mp hq with rfl | hq
      · exact hcompat p hpe
      · exact hc p (List.mem_append_left _ hpe) q hq
    · intro q hq
      exact hc m (by simp) q hq

theorem foldlM_register : ∀ {manifests entered : List Manifest} {tables : Tables},
    Holds entered tables → (∀ m ∈ manifests, validateManifest isValid m = .ok ()) →
      (∀ p ∈ entered, ∀ m ∈ manifests, Compatible p m) → manifests.Pairwise Compatible →
      ∃ result, manifests.foldlM (register isValid) tables = .ok result
  | [], _, tables, _, _, _, _ => ⟨tables, rfl⟩
  | m :: rest, entered, tables, h, hv, hc, hp => by
    obtain ⟨hm, hrest⟩ := List.pairwise_cons.mp hp
    have hstep := (register_ok_iff h m _).mpr
      ⟨hv m List.mem_cons_self, fun p hpe => hc p hpe m List.mem_cons_self, rfl⟩
    obtain ⟨result, hr⟩ := foldlM_register (h.register hstep)
      (fun q hq => hv q (List.mem_cons_of_mem _ hq))
      (by
        intro p hpe q hq
        rcases List.mem_append.mp hpe with hpe | hpe
        · exact hc p hpe q (List.mem_cons_of_mem _ hq)
        · rw [List.mem_singleton] at hpe
          exact hpe ▸ hm q hq)
      hrest
    exact ⟨result, by rw [List.foldlM_cons, hstep]; exact hr⟩

theorem holds_nil : Holds [] ⟨fun _ => none, fun _ => none⟩ := ⟨by simp, by simp⟩

/-- Compatible modules are those with unique ids and one provider a capability. -/
theorem pairwise_compatible_iff : manifests.Pairwise Compatible ↔
    (manifests.map Manifest.id).Nodup ∧
      ∀ m ∈ manifests, ∀ p ∈ manifests, ∀ c ∈ m.provides, c ∈ p.provides → m.id = p.id := by
  constructor
  · intro h
    refine ⟨?_, ?_⟩
    · rw [List.Nodup, List.pairwise_map]
      exact h.imp fun hc => hc.1
    · intro m hm p hp c hcm hcp
      by_contra hne
      have hmp : m ≠ p := fun heq => hne (congrArg Manifest.id heq)
      have : Std.Symm Compatible := ⟨fun _ _ => Compatible.symm⟩
      exact (h.forall hm hp hmp).2 c hcm hcp
  · rintro ⟨hids, hprov⟩
    rw [List.Nodup, List.pairwise_map] at hids
    refine hids.imp_of_mem ?_
    intro m p hm hp hne
    exact ⟨hne, fun c hcm hcp => hne (hprov m hm p hp c hcm hcp)⟩

end

/-! ### The edges -/

/-- The edges of a module whose requirements all have a provider. -/
def edgesOf (providers : GoString → Option GoString) (m : Manifest) : List GraphEdge :=
  m.requires.map fun c => ⟨m.id, (providers c).getD default, c⟩

section
variable {isValid : GoString → Bool} {manifests : List Manifest} {tables : Tables}

theorem resolve_eq_ok {providers : GoString → Option GoString} {m : Manifest}
    {edges : List GraphEdge} : resolve providers m = .ok edges ↔
      (∀ c ∈ m.requires, providers c ≠ none) ∧ edges = edgesOf providers m := by
  unfold resolve
  rw [mapM_eq_ok (g := fun c => ⟨m.id, (providers c).getD default, c⟩)]
  · refine and_congr (forall₂_congr fun c _ => ?_) Iff.rfl
    cases providers c with
    | none => simp
    | some id => simp
  · intro c _ edge he
    cases hc : providers c with
    | none =>
      rw [hc] at he
      cases he
    | some id =>
      rw [hc] at he
      cases he
      rfl

theorem mapM_resolve_eq_ok {providers : GoString → Option GoString}
    {resolved : List (List GraphEdge)} : manifests.mapM (resolve providers) = .ok resolved ↔
      (∀ m ∈ manifests, ∀ c ∈ m.requires, providers c ≠ none) ∧
        resolved = manifests.map (edgesOf providers) := by
  rw [mapM_eq_ok (g := edgesOf providers)]
  · refine and_congr (forall₂_congr fun m _ => ?_) Iff.rfl
    rw [resolve_eq_ok]
    exact and_iff_left rfl
  · intro m _ edges he
    exact (resolve_eq_ok.mp he).2

/-- An edge leads from a module to the provider of a capability it requires. -/
theorem mem_edgesOf {providers : GoString → Option GoString} {edge : GraphEdge}
    (hall : ∀ m ∈ manifests, ∀ c ∈ m.requires, providers c ≠ none) :
    edge ∈ manifests.flatMap (edgesOf providers) ↔
      ∃ m ∈ manifests, m.id = edge.source ∧ edge.capability ∈ m.requires ∧
        providers edge.capability = some edge.target := by
  simp only [edgesOf, List.mem_flatMap, List.mem_map]
  constructor
  · rintro ⟨m, hm, c, hc, rfl⟩
    obtain ⟨id, hid⟩ := Option.ne_none_iff_exists'.mp (hall m hm c hc)
    exact ⟨m, hm, rfl, hc, by simp [hid]⟩
  · rintro ⟨m, hm, hs, hc, ht⟩
    refine ⟨m, hm, edge.capability, hc, ?_⟩
    rw [hs, ht]
    rfl

/-- The graph that a success returns. -/
def graphOf (tables : Tables) (manifests : List Manifest) (order : List GoString) : Graph :=
  ⟨sortOn GoString.runes (manifests.map Manifest.id),
    sortOn edgeKey (manifests.flatMap (edgesOf tables.providers)), order, tables.providers⟩

/-- The order in which the modules are visited, and where each search leads. -/
def sortModules (tables : Tables) (manifests : List Manifest) :
    Except (Stop GoString) (List GoString) :=
  sort (dependencies (manifests.flatMap (edgesOf tables.providers)))
    (sortOn GoString.runes (manifests.map Manifest.id))

/-- **What a success has passed.** -/
theorem verify_eq_ok {graph : Graph} : verify isValid manifests = .ok graph ↔
    ∃ tables order, manifests.foldlM (register isValid) ⟨fun _ => none, fun _ => none⟩ = .ok tables ∧
      (∀ m ∈ manifests, ∀ c ∈ m.requires, tables.providers c ≠ none) ∧
      sortModules tables manifests = .ok order ∧ graph = graphOf tables manifests order := by
  unfold verify
  rw [bind_eq_ok]
  refine exists_congr fun tables => ?_
  constructor
  · rintro ⟨ht, h⟩
    obtain ⟨resolved, hr, h⟩ := bind_eq_ok.mp h
    obtain ⟨hall, rfl⟩ := mapM_resolve_eq_ok.mp hr
    obtain ⟨order, ho, h⟩ := bind_eq_ok.mp h
    rw [← List.flatMap_def] at ho h
    refine ⟨order, ht, hall, ?_, ?_⟩
    · unfold sortModules
      cases hs : sort (dependencies (manifests.flatMap (edgesOf tables.providers)))
          (sortOn GoString.runes (manifests.map Manifest.id)) with
      | error stop =>
        rw [hs] at ho
        cases ho
      | ok order' =>
        rw [hs] at ho
        cases ho
        rfl
    · cases h
      rfl
  · rintro ⟨order, ht, hall, ho, rfl⟩
    refine ⟨ht, bind_eq_ok.mpr ⟨_, mapM_resolve_eq_ok.mpr ⟨hall, rfl⟩, ?_⟩⟩
    refine bind_eq_ok.mpr ⟨order, ?_, ?_⟩
    · rw [← List.flatMap_def]
      unfold sortModules at ho
      rw [ho]
      rfl
    · rw [← List.flatMap_def]
      rfl

/-- The edges the search follows are the dependencies of the modules. -/
theorem mem_dependencies (h : Holds manifests tables)
    (hall : ∀ m ∈ manifests, ∀ c ∈ m.requires, tables.providers c ≠ none) {a b : GoString} :
    b ∈ dependencies (manifests.flatMap (edgesOf tables.providers)) a ↔
      DependsOn manifests a b := by
  simp only [dependencies, List.mem_map, mem_sortOn, List.mem_filter, decide_eq_true_eq,
    mem_edgesOf hall]
  constructor
  · rintro ⟨edge, ⟨⟨m, hm, hs, hc, ht⟩, rfl⟩, rfl⟩
    obtain ⟨p, hp, hid, hcp⟩ := (h.providers _ _).mp ht
    exact ⟨m, hm, hs, p, hp, hid, edge.capability, hc, hcp⟩
  · rintro ⟨m, hm, rfl, p, hp, rfl, c, hc, hcp⟩
    exact ⟨⟨m.id, p.id, c⟩, ⟨⟨m, hm, rfl, hc, (h.providers _ _).mpr ⟨p, hp, rfl, hcp⟩⟩, rfl⟩, rfl⟩

/-- Nothing is missing when every required capability is provided by one of the modules. -/
theorem providers_ne_none_iff (h : Holds manifests tables) :
    (∀ m ∈ manifests, ∀ c ∈ m.requires, tables.providers c ≠ none) ↔
      ∀ m ∈ manifests, ∀ c ∈ m.requires, ∃ p ∈ manifests, c ∈ p.provides := by
  refine forall₂_congr fun m _ => forall₂_congr fun c _ => ?_
  rw [Option.ne_none_iff_exists']
  constructor
  · rintro ⟨id, hid⟩
    obtain ⟨p, hp, -, hcp⟩ := (h.providers c id).mp hid
    exact ⟨p, hp, hcp⟩
  · rintro ⟨p, hp, hcp⟩
    exact ⟨p.id, (h.providers c p.id).mpr ⟨p, hp, rfl, hcp⟩⟩

theorem mem_moduleIDs {id : GoString} :
    id ∈ sortOn GoString.runes (manifests.map Manifest.id) ↔ ∃ m ∈ manifests, m.id = id := by
  simp

/-- The search over the modules ends well exactly when no module depends on itself. -/
theorem sortModules_ok_iff (h : Holds manifests tables)
    (hall : ∀ m ∈ manifests, ∀ c ∈ m.requires, tables.providers c ≠ none)
    (hids : (manifests.map Manifest.id).Nodup) :
    (∃ order, sortModules tables manifests = .ok order) ↔
      ∀ a, ¬ TransGen (DependsOn manifests) a a := by
  have hedge : Edge (dependencies (manifests.flatMap (edgesOf tables.providers))) =
      DependsOn manifests := by
    funext a b
    exact propext (mem_dependencies h hall)
  unfold sortModules
  rw [sort_ok_iff, hedge]
  · intro a b hb
    obtain ⟨-, -, -, p, hp, rfl, -⟩ := (mem_dependencies h hall).mp hb
    exact mem_moduleIDs.mpr ⟨p, hp, rfl⟩
  · intro a b hb
    obtain ⟨m, hm, rfl, -⟩ := (mem_dependencies h hall).mp hb
    exact mem_moduleIDs.mpr ⟨m, hm, rfl⟩
  · exact (sortOn_perm _ _).nodup_iff.mpr hids

/-- **Verify succeeds exactly on valid manifests that can be resolved.** -/
theorem verify_ok_iff : (∃ graph, verify isValid manifests = .ok graph) ↔
    (∀ m ∈ manifests, validateManifest isValid m = .ok ()) ∧ Resolvable manifests := by
  constructor
  · rintro ⟨graph, h⟩
    obtain ⟨tables, order, ht, hall, ho, -⟩ := verify_eq_ok.mp h
    obtain ⟨hholds, hv, -, hp⟩ := foldlM_register_ok holds_nil ht
    rw [List.nil_append] at hholds
    obtain ⟨hids, hprov⟩ := pairwise_compatible_iff.mp hp
    exact ⟨hv, hids, hprov, (providers_ne_none_iff hholds).mp hall,
      (sortModules_ok_iff hholds hall hids).mp ⟨order, ho⟩⟩
  · rintro ⟨hv, hres⟩
    have hp := pairwise_compatible_iff.mpr ⟨hres.ids, hres.providers⟩
    obtain ⟨tables, ht⟩ := foldlM_register holds_nil hv (by simp) hp
    obtain ⟨hholds, -⟩ := foldlM_register_ok holds_nil ht
    rw [List.nil_append] at hholds
    have hall := (providers_ne_none_iff hholds).mpr hres.required
    obtain ⟨order, ho⟩ := (sortModules_ok_iff hholds hall hres.ids).mpr hres.acyclic
    exact ⟨_, verify_eq_ok.mpr ⟨tables, order, ht, hall, ho, rfl⟩⟩

/-- **The order of a graph** lists every module once, behind the modules it depends on. -/
theorem verify_order {graph : Graph} (h : verify isValid manifests = .ok graph) :
    graph.order.Perm (manifests.map Manifest.id) ∧
      ∀ a b, DependsOn manifests a b → graph.order.idxOf b < graph.order.idxOf a := by
  obtain ⟨tables, order, ht, hall, ho, rfl⟩ := verify_eq_ok.mp h
  obtain ⟨hholds, -, -, hp⟩ := foldlM_register_ok holds_nil ht
  rw [List.nil_append] at hholds
  obtain ⟨hids, -⟩ := pairwise_compatible_iff.mp hp
  have hsorted := sortOn_perm GoString.runes (manifests.map Manifest.id)
  obtain ⟨hperm, hordered⟩ := sort_ordered
    (by
      intro a b hb
      obtain ⟨-, -, -, p, hp, rfl, -⟩ := (mem_dependencies hholds hall).mp hb
      exact mem_moduleIDs.mpr ⟨p, hp, rfl⟩)
    (hsorted.nodup_iff.mpr hids) ho
  refine ⟨hperm.trans hsorted, ?_⟩
  intro a b hab
  obtain ⟨m, hm, rfl, -⟩ := id hab
  have ha : m.id ∈ order := hperm.mem_iff.mpr (mem_moduleIDs.mpr ⟨m, hm, rfl⟩)
  exact hordered.idxOf_lt ha ((mem_dependencies hholds hall).mpr hab)

end

/-! ### The order of the manifests -/

theorem Resolvable.perm {l₁ l₂ : List Manifest} (hp : l₁.Perm l₂) (h : Resolvable l₁) :
    Resolvable l₂ := by
  have hdep : DependsOn l₁ = DependsOn l₂ := by
    funext a b
    simp only [DependsOn, hp.mem_iff]
  refine ⟨(hp.map _).nodup_iff.mp h.ids, ?_, ?_, hdep ▸ h.acyclic⟩
  · simpa only [hp.mem_iff] using h.providers
  · simpa only [hp.mem_iff] using h.required

theorem Holds.unique {l₁ l₂ : List Manifest} {t₁ t₂ : Tables} (hp : l₁.Perm l₂)
    (h₁ : Holds l₁ t₁) (h₂ : Holds l₂ t₂) : t₁.providers = t₂.providers := by
  funext c
  refine Option.ext fun id => ?_
  rw [h₁.providers, h₂.providers]
  simp only [hp.mem_iff]

/-- Sorting tells the edges of a graph apart. -/
theorem edge_ext {e₁ e₂ : GraphEdge} (hs : IsText e₁.source ∧ IsText e₂.source)
    (ht : IsText e₁.target ∧ IsText e₂.target) (hc : IsText e₁.capability ∧ IsText e₂.capability)
    (h₁ : e₁.source.runes = e₂.source.runes) (h₂ : dependencyKey e₁ = dependencyKey e₂) :
    e₁ = e₂ := by
  obtain ⟨h₃, h₄⟩ := Prod.mk.inj (toLex.injective h₂)
  have e₁' := hs.1.eq_of_runes hs.2 h₁
  have e₂' := ht.1.eq_of_runes ht.2 h₃
  have e₃' := hc.1.eq_of_runes hc.2 h₄
  cases e₁
  cases e₂
  simp_all

/-- **Verify does not depend on the order of the manifests.** -/
theorem verify_perm {isValid : GoString → Bool} {l₁ l₂ : List Manifest} (hp : l₁.Perm l₂)
    {graph : Graph} (h : verify isValid l₁ = .ok graph) : verify isValid l₂ = .ok graph := by
  obtain ⟨hvalid, hres⟩ := verify_ok_iff.mp ⟨graph, h⟩
  obtain ⟨graph₂, h₂⟩ : ∃ graph₂, verify isValid l₂ = .ok graph₂ :=
    verify_ok_iff.mpr ⟨fun m hm => hvalid m (hp.mem_iff.mpr hm), hres.perm hp⟩
  obtain ⟨t₁, o₁, ht₁, hall₁, ho₁, rfl⟩ := verify_eq_ok.mp h
  obtain ⟨t₂, o₂, ht₂, -, ho₂, rfl⟩ := verify_eq_ok.mp h₂
  have hh₁ := (foldlM_register_ok holds_nil ht₁).1
  have hh₂ := (foldlM_register_ok holds_nil ht₂).1
  rw [List.nil_append] at hh₁ hh₂
  have hprov := hh₁.unique hp hh₂
  have hnamed : ∀ m ∈ l₁, Named m := fun m hm => named_of_validateManifest (hvalid m hm)
  -- the names on an edge are names of manifests, so they are text
  have htext : ∀ e ∈ l₁.flatMap (edgesOf t₁.providers),
      IsText e.source ∧ IsText e.target ∧ IsText e.capability := by
    intro e he
    obtain ⟨m, hm, hs, hc, ht⟩ := (mem_edgesOf hall₁).mp he
    obtain ⟨p, hp', hid, -⟩ := (hh₁.providers _ _).mp ht
    exact ⟨hs ▸ (hnamed m hm).id, hid ▸ (hnamed p hp').id, (hnamed m hm).requires _ hc⟩
  have hedges : (l₁.flatMap (edgesOf t₁.providers)).Perm (l₂.flatMap (edgesOf t₂.providers)) := by
    rw [← hprov]
    exact hp.flatMap_right _
  have hids : sortOn GoString.runes (l₁.map Manifest.id) =
      sortOn GoString.runes (l₂.map Manifest.id) := by
    refine sortOn_congr (hp.map _) ?_
    intro a ha b hb hab
    obtain ⟨m, hm, rfl⟩ := List.mem_map.mp ha
    obtain ⟨p, hp', rfl⟩ := List.mem_map.mp hb
    exact (hnamed m hm).id.eq_of_runes (hnamed p hp').id hab
  have hsorted : sortOn edgeKey (l₁.flatMap (edgesOf t₁.providers)) =
      sortOn edgeKey (l₂.flatMap (edgesOf t₂.providers)) := by
    refine sortOn_congr hedges ?_
    intro a ha b hb hab
    obtain ⟨hs₁, ht₁, hc₁⟩ := htext a ha
    obtain ⟨hs₂, ht₂, hc₂⟩ := htext b hb
    obtain ⟨hk₁, hk₂⟩ := Prod.mk.inj (toLex.injective hab)
    exact edge_ext ⟨hs₁, hs₂⟩ ⟨ht₁, ht₂⟩ ⟨hc₁, hc₂⟩ hk₁ hk₂
  have hdeps : dependencies (l₁.flatMap (edgesOf t₁.providers)) =
      dependencies (l₂.flatMap (edgesOf t₂.providers)) := by
    funext id
    unfold dependencies
    refine congrArg _ (sortOn_congr (hedges.filter _) ?_)
    intro a ha b hb hab
    obtain ⟨ha, hida⟩ := List.mem_filter.mp ha
    obtain ⟨hb, hidb⟩ := List.mem_filter.mp hb
    obtain ⟨hs₁, ht₁, hc₁⟩ := htext a ha
    obtain ⟨hs₂, ht₂, hc₂⟩ := htext b hb
    have hsource : a.source = b.source := by
      rw [of_decide_eq_true hida, of_decide_eq_true hidb]
    exact edge_ext ⟨hs₁, hs₂⟩ ⟨ht₁, ht₂⟩ ⟨hc₁, hc₂⟩ (congrArg _ hsource) hab
  have horder : o₁ = o₂ := by
    unfold sortModules at ho₁ ho₂
    rw [hdeps, hids, ho₂] at ho₁
    cases ho₁
    rfl
  rw [h₂]
  unfold graphOf
  rw [hids, hsorted, hprov, horder]

/-- **The contract of Verify.** It succeeds exactly on valid manifests with unique ids, one provider
for each capability, nothing missing and no cycle; on success every module comes once, behind the
providers it depends on; the verdict and the graph do not depend on the order of the manifests. -/
theorem verify_contract (isValid : GoString → Bool) (manifests : List Manifest) :
    ((∃ graph, verify isValid manifests = .ok graph) ↔
      (∀ m ∈ manifests, validateManifest isValid m = .ok ()) ∧ Resolvable manifests) ∧
    (∀ graph, verify isValid manifests = .ok graph →
      graph.order.Perm (manifests.map Manifest.id) ∧
        ∀ a b, DependsOn manifests a b → graph.order.idxOf b < graph.order.idxOf a) ∧
    ∀ others, manifests.Perm others → ∀ graph,
      verify isValid manifests = .ok graph ↔ verify isValid others = .ok graph :=
  ⟨verify_ok_iff, fun _ h => verify_order h,
    fun _ hp _ => ⟨fun h => verify_perm hp h, fun h => verify_perm hp.symm h⟩⟩

/-- A module without capabilities. -/
def loner : Manifest :=
  { schemaVersion := .utf8 "modary.module/v1", id := .utf8 "a", version := .utf8 "1.0.0"
    type := moduleTypeFeature, requires := [], provides := [] }

/-- A manifest of another schema version is refused, however well it could be resolved. -/
theorem resolvable_manifest_refused : Resolvable [loner] ∧
    ∀ isValid : GoString → Bool, ¬ ∃ graph, verify isValid [loner] = .ok graph := by
  constructor
  · refine ⟨by simp, by simp [loner], by simp [loner], ?_⟩
    intro a h
    have hno : ∀ x y, ¬ DependsOn [loner] x y := by
      rintro x y ⟨m, hm, -, -, -, -, c, hc, -⟩
      obtain rfl := List.mem_singleton.mp hm
      simp [loner] at hc
    cases h with
    | single h => exact hno _ _ h
    | tail _ h => exact hno _ _ h
  · intro isValid h
    obtain ⟨hvalid, -⟩ := verify_ok_iff.mp h
    have := hvalid loner List.mem_cons_self
    obtain ⟨_, hschema, -⟩ := bind_eq_ok.mp this
    exact refuseIf_eq_ok.mp hschema (by decide)

end Modary.Module.Verify
