import Modary.Schema.Walk

/-! # What preparation changes

`RootClone` gives back the document that preparation walked over. Its `$schema` are canonical, also
those of values that only a reference made schemas. -/

namespace Modary.Schema.Frame

open Modary.Lib.GoText Modary.Lib.JsonValue Modary.Lib.JsonPlace Modary.Schema.Profile
open Modary.Schema.Graph Modary.Schema.Walk

variable {document : Value}

/-! ### What a prepared graph gives back -/

/-- A JSON document: no object has two members of one name. -/
abbrev Document := {value : Value // distinct value = true}

/-- The document with the canonical `$schema` at its structural schema positions. -/
noncomputable def canonicalised (document : Document) : Value :=
  rewrite (seals (Structural document.1)) document.1

theorem cloneJSON_ok {value clone : Value} (h : cloneJSON value = .ok clone) :
    clone = value ∧ nodes value ≤ maxFrozenValueNodes ∧ depth value ≤ maxFrozenContainerDepth := by
  unfold cloneJSON at h
  split at h
  · cases h
  · split at h
    · cases h
    · cases h
      exact ⟨rfl, by omega, by omega⟩

/-- A rewritten document is cloned when the document is. -/
theorem cloneJSON_rewrite {value clone : Value} (h : cloneJSON value = .ok clone)
    (texts : Place → Option String) :
    cloneJSON (rewrite texts value) = .ok (rewrite texts value) := by
  obtain ⟨-, hnodes, hdepth⟩ := cloneJSON_ok h
  unfold cloneJSON
  rw [nodes_rewrite, depth_rewrite, if_neg (by omega), if_neg (by omega)]

/-- The walk starts at the root. -/
theorem walked_first {limits : CompileLimits} {id : ℕ} {first : SchemaGraph}
    (h : SchemaGraph.addNode ⟨document, limits, [], [], 0, false⟩ document [] [] 1 =
      .ok (id, first)) : Walked document 0 first ∧ first.limits = limits := by
  have hadds : Adds document (fun p => p = []) ⟨document, limits, [], [], 0, false⟩ first :=
    adds_addNode rfl h
  obtain ⟨hlocated, hgrows⟩ := hadds ⟨by simp, by simp, by simp⟩
  obtain ⟨added, hadded, hnew⟩ := hgrows.more
  have hplaces : places first = added := hadded
  have hnone : (seals fun p => p ∈ (places first).take 0) = fun _ => none := by
    funext q
    refine if_neg ?_
    rintro ⟨p, hp, -⟩
    simp at hp
  refine ⟨⟨hlocated, ?_, Nat.zero_le _, hgrows.covers [] rfl, ?_, by simp⟩, hgrows.limits⟩
  · rw [hgrows.root, hnone, rewrite_none]
  · intro p hp
    rw [hplaces] at hp
    rw [hnew p hp]
    exact .refl

theorem root_validateMetaschema {setting : Setting} {graph next : SchemaGraph}
    (h : graph.validateMetaschema setting = .ok next) : next.root = graph.root := by
  unfold SchemaGraph.validateMetaschema at h
  split at h
  · cases h
    rfl
  · cases h
  · cases h

/-- **What preparation makes of a document**: the `$schema` of all that is reached is canonical. -/
theorem rootClone_eq {setting : Setting} {limits : CompileLimits} {document : Document}
    {graph : SchemaGraph} (h : prepareWithLimits setting limits document.1 = .ok graph) :
    graph.rootClone = some (rewrite (seals (Reached document.1)) document.1) := by
  obtain ⟨_, -, h⟩ := bind_eq_ok.mp h
  obtain ⟨frozen, hclone, h⟩ := bind_eq_ok.mp h
  obtain ⟨_, -, h⟩ := bind_eq_ok.mp h
  obtain ⟨⟨id, first⟩, hfirst, h⟩ := bind_eq_ok.mp h
  obtain ⟨walked, hwalk, h⟩ := bind_eq_ok.mp h
  obtain ⟨_, -, h⟩ := bind_eq_ok.mp h
  obtain ⟨checked, hchecked, h⟩ := bind_eq_ok.mp h
  obtain ⟨_, -, h⟩ := bind_eq_ok.mp h
  cases h
  have hfrozen : frozen = document.1 := (cloneJSON_ok hclone).1
  rw [hfrozen] at hfirst
  obtain ⟨hstart, hlimits⟩ := walked_first hfirst
  have hend := (inspectAll_run document.2 (fun hwalked => hwalked) (walked_inspectNode document.2)
    limits.maxSchemaNodes hstart (by rw [hlimits]; omega) hwalk).1
  have hroot : graph.root = rewrite (seals (Reached document.1)) document.1 :=
    (root_validateMetaschema hchecked).trans hend.root_eq
  unfold SchemaGraph.rootClone
  rw [hroot, cloneJSON_rewrite hclone]
  rfl

/-- What is prepared is a schema. -/
theorem isSchemaValue_of_prepare {setting : Setting} {limits : CompileLimits} {graph : SchemaGraph}
    (h : prepareWithLimits setting limits document = .ok graph) : isSchemaValue document = true := by
  obtain ⟨_, -, h⟩ := bind_eq_ok.mp h
  obtain ⟨frozen, hclone, h⟩ := bind_eq_ok.mp h
  obtain ⟨_, hschema, -⟩ := bind_eq_ok.mp h
  rw [refuseIf_eq_ok, Bool.not_eq_false] at hschema
  rw [← (cloneJSON_ok hclone).1]
  exact hschema

/-- What is reached by reference alone holds no `$schema` but the canonical one. -/
def OnlyStructural (document : Document) : Prop :=
  ∀ place declaration, Reached document.1 place →
    get document.1 (place ++ [.key "$schema"]) = some (.str declaration) →
    declaration ≠ canonicalDraft7URI → Structural document.1 place

/-- **The frame of preparation**: the document comes back with its structural `$schema` canonical
and everything else as it was, when and only when no `$schema` but the canonical one is in a value
that is reached by reference alone. -/
theorem rootClone_canonicalised_iff {setting : Setting} {limits : CompileLimits}
    {document : Document} {graph : SchemaGraph}
    (h : prepareWithLimits setting limits document.1 = .ok graph) :
    graph.rootClone = some (canonicalised document) ↔ OnlyStructural document := by
  rw [rootClone_eq h, Option.some_inj, canonicalised, rewrite_eq_iff document.2]
  constructor
  · intro hsame place declaration hreached hget hne
    by_contra hnot
    have hplace := hsame (place ++ [.key "$schema"]) declaration hget
    rw [seals_at hreached, seals_not_at hnot] at hplace
    exact hne hplace.symm
  · intro honly place s hget
    by_cases hschema : ∃ p, Reached document.1 p ∧ place = p ++ [.key "$schema"]
    · obtain ⟨p, hreached, rfl⟩ := hschema
      rw [seals_at hreached]
      by_cases hstructural : Structural document.1 p
      · rw [seals_at hstructural]
      · rw [seals_not_at hstructural]
        by_contra hne
        exact hstructural (honly p s hreached hget fun heq => hne heq.symm)
    · have hstructural : ¬ ∃ p, Structural document.1 p ∧ place = p ++ [.key "$schema"] := by
        rintro ⟨p, hp, heq⟩
        exact hschema ⟨p, hp.reached, heq⟩
      rw [seals, seals, if_neg hschema, if_neg hstructural]

/-- A setting for documents without patterns, whose locations are all in order. -/
def lenient : Setting := ⟨fun _ => true, fun _ => .valid⟩

/-- A document with one `$schema`, at its root. -/
def plain : Document :=
  ⟨.obj [("$schema", .str "https://json-schema.org/draft-07/schema"), ("type", .str "object")],
    by decide +kernel⟩

/-- `rootClone_canonicalised_iff` at a document that is accepted. -/
theorem rootClone_canonicalised_plain : ∃ graph,
    prepareWithLimits lenient defaultCompileLimits plain.1 = .ok graph ∧
      (graph.rootClone = some (canonicalised plain) ↔ OnlyStructural plain) := by
  have haccepted : (prepareWithLimits lenient defaultCompileLimits plain.1).isOk = true := by
    decide +kernel
  cases hprepare : prepareWithLimits lenient defaultCompileLimits plain.1 with
  | error err =>
    rw [hprepare] at haccepted
    cases haccepted
  | ok graph => exact ⟨graph, rfl, rootClone_canonicalised_iff hprepare⟩

/-- A document that refers to its own literal. -/
def hidden : Document :=
  ⟨.obj [("const", .obj [("$schema", .str "http://json-schema.org/draft-07/schema")]),
    ("properties", .obj [("a", .obj [("$ref", .str "#/const")])])], by decide +kernel⟩

/-- The text at the literal's `$schema`. -/
def literalText (value : Value) : Option String :=
  (get value [.key "const", .key "$schema"]).bind text?

theorem not_structural_const : ¬ Structural document [.key "const"] := by
  intro h
  rcases Relation.ReflTransGen.cases_tail h with h | ⟨p, -, members, path, -, hchild, heq⟩
  · cases h
  · cases p with
    | cons step p =>
      have hnil := (List.append_eq_nil_iff.mp (List.cons.inj heq).2.symm).2
      rw [hnil] at hchild
      cases hchild
    | nil =>
      rw [List.nil_append] at heq
      cases hchild with
      | single hkeyword h =>
        have hconst := Step.key.inj (List.cons.inj heq).1
        rw [← hconst] at hkeyword
        exact absurd hkeyword (by decide)
      | _ => simp at heq

/-- **A literal is changed**: a reference into a `const` makes it a node, and its `$schema` is
overwritten. -/
theorem const_overwritten : ∃ graph, prepare lenient hidden.1 = .ok graph ∧
    graph.rootClone ≠ some (canonicalised hidden) ∧
    graph.rootClone.bind literalText ≠ literalText hidden.1 := by
  have hchanged : (prepare lenient hidden.1).toOption.bind
      (fun graph => graph.rootClone.bind literalText) = some canonicalDraft7URI := by
    decide +kernel
  have htext : get hidden.1 [.key "const", .key "$schema"] =
      some (.str "http://json-schema.org/draft-07/schema") := rfl
  have hkept : literalText (canonicalised hidden) =
      some "http://json-schema.org/draft-07/schema" := by
    have hnone : seals (Structural hidden.1) [.key "const", .key "$schema"] = none :=
      seals_not_at (p := [.key "const"]) not_structural_const
    have hget := get_str_rewrite (seals (Structural hidden.1)) htext
    rw [hnone] at hget
    rw [literalText, canonicalised, hget]
    rfl
  have hne : (some canonicalDraft7URI : Option String) ≠
      some "http://json-schema.org/draft-07/schema" := by decide
  obtain ⟨graph, hgraph, hroot⟩ := Option.bind_eq_some_iff.mp hchanged
  refine ⟨graph, ?_, ?_, ?_⟩
  · cases hprepare : prepare lenient hidden.1 with
    | error err => rw [hprepare] at hgraph; cases hgraph
    | ok other =>
      rw [hprepare] at hgraph
      cases hgraph
      rfl
  · intro heq
    rw [heq, Option.bind_some, hkept] at hroot
    exact hne hroot.symm
  · rw [hroot]
    exact hne

end Modary.Schema.Frame
