import Modary.Runtime.Rejection
import Modary.Transport.Arguments

/-! # Two transports

One JSON object as the body of an execution over HTTP and as the arguments of a tool over MCP: what
each of the two decoders hands to `Engine.Execute`, and when the two agree. -/

namespace Modary.Transport.Parity

open Modary.Lib.GoText Modary.Lib.Prog Modary.Lib.JsonValue
open Modary.Action.Names Modary.Action.Errors Modary.Action.Types Modary.Action.Persistence
open Modary.Runtime.Environment Modary.Runtime.Engine Modary.Runtime.Traces Modary.Runtime.Runs
open Modary.Runtime.Consulting Modary.Runtime.Rejection
open Modary.Transport.Arguments

/-! ### What an execution has passed -/

section Passing

variable {e : Engine} {given : Action.Types.Request}

/-- The request passes the checks that `Execute` makes of it by itself, under some request id. -/
def Passes (e : Engine) (registered : Registration) (request : Action.Types.Request) : Prop :=
  ∃ id admitted hash, validated e { request with requestID := id } (some registered) = .ok admitted ∧
    checkExecute e admitted registered = .ok hash

/-- The registration that the lease of this history found lets the request pass. -/
def Licensed (e : Engine) (given : Action.Types.Request) (h : History) : Prop :=
  ∃ registered, ⟨.acquire given.actionID, .found registered⟩ ∈ h ∧ Passes e registered given

theorem Licensed.snoc {h : History} (hl : Licensed e given h) (c : Runtime.Environment.Call) :
    Licensed e given (h ++ [c]) := by
  obtain ⟨registered, hmem, hp⟩ := hl
  exact ⟨registered, List.mem_append_left _ hmem, hp⟩

theorem isExecute_of_quiet {op : Op} (hq : quiet op = true) : isExecute op = false := by
  cases op <;> first | rfl | cases hq

/-- **The handler is executed for a request that passed the checks.** -/
theorem meets_execute_licensed (hasContext : Bool) :
    Prog.Meets (fun h op => isExecute op = true → Licensed e given h) (fun _ _ => True)
      (execute e hasContext given) [] := by
  have hquiet : ∀ (h : History) (op : Op), quiet op = true → isExecute op = true →
      Licensed e given h := by
    intro h op hq hx
    rw [isExecute_of_quiet hq] at hx
    cases hx
  refine meets_governed_of (E := fun _ _ _ => True)
    (fun h op ho => hquiet h op (quiet_of_opening ho)) (fun _ _ _ _ => trivial)
    (fun _ _ _ _ _ _ _ _ _ _ => trivial) ?_ ?_
  · intro h nanos id request registered _ _ ha hv
    cases hc : checkExecute e request registered with
    | ok hash =>
      have hlicensed : Licensed e given h := ⟨registered, ha.acquired, id, request, hash, hv, hc⟩
      refine Attempt.Meets.mono (Attempt.Meets.under Attempt.meets_true
        (fun _ op hl r => hl.snoc ⟨op, r⟩) (fun _ _ hl _ _ => hl) hlicensed)
        (fun _ _ _ => trivial) fun _ _ _ => trivial
    | error err =>
      have hspared : Spared (executeAdmitted e { nanos } request registered) := by
        unfold executeAdmitted
        refine Spared.bind (confined_authorizeWithFallback e spares).adapt fun intent => ?_
        rw [hc]
        exact Attempt.confined_throw
      refine (hspared h).weaken fun _ op hop hx => ?_
      rw [hop] at hx
      cases hx
  · intro h startedAt exit _
    exact (meets_fail hquiet).mono fun _ _ _ => trivial

/-- What the checks of `Execute` say of the plan hash and the idempotency key. -/
structure Regular (descriptor : Descriptor) (planHash key : GoString) : Prop where
  keyed : key = .utf8 "" ∨ validateIdempotencyKey key = .ok ()
  hashed : planHash = .utf8 "" ∨ (validatePlanHash planHash).isOk = true
  requiredKey : descriptor.requiresIdempotency = true → key ≠ .utf8 ""
  requiredPlan : descriptor.preview = .required → planHash ≠ .utf8 ""

theorem validated_envelope {acquired : Option Registration} {request admitted : Action.Types.Request}
    (h : validated e request acquired = .ok admitted) :
    validateRequestEnvelope request = .ok () ∧ admitted.planHash = request.planHash ∧
      admitted.idempotencyKey = request.idempotencyKey := by
  unfold validated at h
  split at h
  · cases h
  unfold validateAcquired at h
  dsimp only at h
  split at h
  · cases h
  next henvelope =>
  split at h
  · cases h
  split at h
  · cases h
  split at h
  · cases h
  split at h
  · cases h
  · obtain rfl := Except.ok.inj h
    exact ⟨henvelope, rfl, rfl⟩

theorem Passes.regular {registered : Registration} {request : Action.Types.Request}
    (h : Passes e registered request) :
    Regular registered.descriptor request.planHash request.idempotencyKey := by
  obtain ⟨id, admitted, hash, hv, hc⟩ := h
  obtain ⟨henvelope, hplan, hkey⟩ := validated_envelope hv
  simp only [validateRequestEnvelope, bind_eq_ok] at henvelope
  obtain ⟨_, -, _, -, _, -, _, -, _, hkeyed, hhash⟩ := henvelope
  unfold checkExecute at hc
  obtain ⟨_, hrequired, hc⟩ := bind_eq_ok.mp hc
  obtain ⟨_, hpolicy, -⟩ := bind_eq_ok.mp hc
  rw [hplan] at hpolicy
  rw [hkey] at hrequired
  refine ⟨?_, ?_, ?_, ?_⟩
  · by_cases hempty : request.idempotencyKey = .utf8 ""
    · exact .inl hempty
    · rw [if_neg hempty] at hkeyed
      exact .inr hkeyed
  · by_cases hempty : request.planHash = .utf8 ""
    · exact .inl hempty
    · have hvalid := refuseIf_eq_ok.mp hhash
      exact .inr (by simpa [hempty] using hvalid)
  · intro hreq hempty
    exact refuseIf_eq_ok.mp hrequired ⟨hreq, hempty⟩
  · intro hreq hempty
    unfold validateExecutionPlanPolicy at hpolicy
    rw [if_pos ⟨hreq, hempty⟩] at hpolicy
    cases hpolicy

/-- What a transport makes of an object leads to no execution of the handler, whatever the
environment replies: there is no request, or no run of `Execute` on it calls the handler. A lease on
the action finds its own registration. -/
def Harmless (e : Engine) (registered : Registration) : Except String Action.Types.Request → Prop
  | .error _ => True
  | .ok request => ∀ hasContext h r, (execute e hasContext request).Runs h r →
    (∀ other, ⟨.acquire request.actionID, .found other⟩ ∈ h → other = registered) →
    ∀ c ∈ h, isExecute c.op = false

theorem harmless_of_not_passes {registered : Registration} {request : Action.Types.Request}
    (hp : ¬ Passes e registered request) : Harmless e registered (.ok request) := by
  intro hasContext h r hr hlease c hc
  obtain ⟨before, after, rfl⟩ := List.append_of_mem hc
  by_contra hx
  obtain ⟨other, hmem, hpasses⟩ :=
    (meets_execute_licensed hasContext).calls hr.calls (Bool.not_eq_false _ ▸ hx)
  obtain rfl := hlease other (List.mem_append_left _ hmem)
  exact hp hpasses

end Passing

/-! ### The two decoders -/

section Decoders

variable {ν : Type}

/-- The fields of `executeRequest`. -/
def executeFields : List String := ["input", "plan_hash", "idempotency_key"]

/-- `executeRequest`; an absent input is nil. -/
structure ExecuteRequest (ν : Type) where
  input : Option (Json ν)
  planHash : String
  idempotencyKey : String

/-- `protocolJSONLimits(server.maxBodyBytes)`. -/
def httpLimits (maxBodyBytes : ℕ) : Limits := { mcpLimits with maxBytes := maxBodyBytes }

/-- `errInvalidJSON`. -/
def errInvalidJSON : String := "request body must contain exactly one JSON object"

/-- `errBodyTooLarge`. -/
def errBodyTooLarge : String := "request body exceeds the configured limit"

/-- `validateExactTopLevelFields`. -/
def validateExactTopLevelFields (members : List (String × Json ν)) (fields : List String) :
    Except String Unit :=
  refuseIf (members.any (fun member => member.1 ∉ fields) = true) errInvalidJSON

/-- A `string` field. -/
def stringField (values : List (Json ν)) : Except String String :=
  match decodeString values with
  | some value => .ok value
  | none => .error errInvalidJSON

/-- `decodeRequestJSON` into an `executeRequest`. -/
def decodeRequestJSON (maxBodyBytes : ℕ) (raw : Raw ν) : Except String (ExecuteRequest ν) := do
  refuseIf (maxBodyBytes < raw.bytes) errBodyTooLarge
  match raw.value with
  | .obj members =>
    refuseIf ((httpLimits maxBodyBytes).validate raw = false) errInvalidJSON
    validateExactTopLevelFields members executeFields
    let values := assigned executeFields members
    let planHash ← stringField (values "plan_hash")
    let idempotencyKey ← stringField (values "idempotency_key")
    return { input := (values "input").getLast?, planHash, idempotencyKey }
  | _ => throw errInvalidJSON

/-- Who calls which action in which scope. -/
structure Caller where
  actor : Actor
  scope : Execution
  actionID : GoString

variable (text : Json ν → RawMessage)

/-- The request of a caller for `Execute`; `text` is the text that a value has in the object. -/
def requestOf (caller : Caller) (channel : String) (requestID : GoString) (input : Json ν)
    (planHash key : String) : Action.Types.Request where
  requestID := requestID
  actor := caller.actor
  channel := .utf8 channel
  actionID := caller.actionID
  scope := caller.scope
  input := text input
  planHash := .utf8 planHash
  idempotencyKey := .utf8 key

/-- `apiServer.execute`, up to the call of `Execute`. -/
def executeHTTP (maxBodyBytes : ℕ) (caller : Caller) (requestID : GoString) (raw : Raw ν) :
    Except String Action.Types.Request := do
  let call ← decodeRequestJSON maxBodyBytes raw
  match call.input with
  | none => throw "Action execution input is required"
  | some input =>
    return requestOf text caller "http" requestID input call.planHash call.idempotencyKey

/-- `mcpHandler.callTool`, up to the call of `Execute`. -/
def callTool (tool : Tool) (caller : Caller) (raw : Raw ν) : Except String Action.Types.Request := do
  let arguments ← (decodeMCPActionArguments tool raw).mapError fun _ => "tool arguments are invalid"
  return requestOf text caller "mcp" (.utf8 "") arguments.input arguments.planHash
    arguments.idempotencyKey

/-- The tool that executes an action. -/
def executeTool (descriptor : Descriptor) : Tool where
  operation := .execute
  previewPolicy := descriptor.preview
  requiresIdempotency := descriptor.requiresIdempotency

end Decoders

/-! ### What the decoders accept -/

section Accepted

variable {ν : Type} {text : Json ν → RawMessage} {members : List (String × Json ν)} {bytes : ℕ}
  {caller : Caller} {requestID : GoString} {maxBodyBytes : ℕ} {descriptor : Descriptor}

/-- What HTTP accepts: exact names, texts or `null`, and an input. -/
structure Plain (members : List (String × Json ν)) : Prop where
  known : ∀ member ∈ members, member.1 ∈ executeFields
  planHash : (members.lookup "plan_hash").toList.all textual = true
  idempotencyKey : (members.lookup "idempotency_key").toList.all textual = true

theorem Plain.exact (hp : Plain members) :
    ∀ member ∈ members, fieldOf executeFields member.1 = some member.1 :=
  fun member hmember => fieldOf_of_mem (hp.known member hmember)

theorem stringField_eq_ok {found : Option (Json ν)} {value : String} :
    stringField found.toList = .ok value ↔
      found.toList.all textual = true ∧ value = (found.bind text?).getD "" := by
  unfold stringField
  rw [decodeString_toList]
  by_cases h : found.toList.all textual = true
  · simp [h, eq_comm]
  · simp [h]

/-- **What HTTP makes of an object.** -/
theorem executeHTTP_eq_ok (hv : (httpLimits maxBodyBytes).validate ⟨.obj members, bytes⟩ = true)
    {request : Action.Types.Request} :
    executeHTTP text maxBodyBytes caller requestID ⟨.obj members, bytes⟩ = .ok request ↔
      Plain members ∧ ∃ input, members.lookup "input" = some input ∧
        request = requestOf text caller "http" requestID input (memberText members "plan_hash")
          (memberText members "idempotency_key") := by
  have hnodup := nodup_of_validate hv
  have hbytes : ¬ maxBodyBytes < bytes := by
    have hle := (Bool.and_eq_true_iff.mp (Bool.and_eq_true_iff.mp
      (Bool.and_eq_true_iff.mp hv).1).1).1
    exact not_lt.mpr (of_decide_eq_true hle)
  have hnames : validateExactTopLevelFields members executeFields = .ok () ↔
      ∀ member ∈ members, member.1 ∈ executeFields := by
    rw [validateExactTopLevelFields, refuseIf_eq_ok]
    simp
  constructor
  · intro h
    obtain ⟨call, hd, hrequest⟩ := bind_eq_ok.mp h
    unfold decodeRequestJSON at hd
    obtain ⟨_, -, hd⟩ := bind_eq_ok.mp hd
    obtain ⟨_, -, hd⟩ := bind_eq_ok.mp hd
    obtain ⟨_, hexact, hd⟩ := bind_eq_ok.mp hd
    have hknown := hnames.mp hexact
    have hassigned := assigned_eq_lookup hnodup fun member hmember =>
      fieldOf_of_mem (hknown member hmember)
    simp only [hassigned] at hd
    obtain ⟨planHash, hplan, hd⟩ := bind_eq_ok.mp hd
    obtain ⟨key, hkey, hd⟩ := bind_eq_ok.mp hd
    obtain ⟨hplans, rfl⟩ := stringField_eq_ok.mp hplan
    obtain ⟨hkeys, rfl⟩ := stringField_eq_ok.mp hkey
    obtain rfl := Except.ok.inj hd
    refine ⟨⟨hknown, hplans, hkeys⟩, ?_⟩
    cases hinput : members.lookup "input" with
    | none => simp [hinput] at hrequest
    | some input =>
      refine ⟨input, rfl, ?_⟩
      simp only [hinput, Option.toList_some, List.getLast?_singleton] at hrequest
      exact (Except.ok.inj hrequest).symm
  · rintro ⟨hp, input, hinput, rfl⟩
    have hassigned := assigned_eq_lookup hnodup hp.exact
    refine bind_eq_ok.mpr ⟨⟨some input, memberText members "plan_hash",
      memberText members "idempotency_key"⟩, ?_, rfl⟩
    unfold decodeRequestJSON
    refine bind_eq_ok.mpr ⟨(), refuseIf_eq_ok.mpr hbytes, ?_⟩
    refine bind_eq_ok.mpr ⟨(), refuseIf_eq_ok.mpr (by simp [hv]), ?_⟩
    refine bind_eq_ok.mpr ⟨(), hnames.mpr hp.known, ?_⟩
    simp only [hassigned]
    refine bind_eq_ok.mpr ⟨_, stringField_eq_ok.mpr ⟨hp.planHash, rfl⟩, ?_⟩
    refine bind_eq_ok.mpr ⟨_, stringField_eq_ok.mpr ⟨hp.idempotencyKey, rfl⟩, ?_⟩
    rw [hinput]
    rfl

/-- **What MCP makes of an object.** -/
theorem callTool_eq_ok {tool : Tool} (hv : mcpLimits.validate ⟨.obj members, bytes⟩ = true)
    {request : Action.Types.Request} :
    callTool text tool caller ⟨.obj members, bytes⟩ = .ok request ↔
      Lenient tool members ∧ ∃ arguments, Yields tool members arguments ∧
        request = requestOf text caller "mcp" (.utf8 "") arguments.input arguments.planHash
          arguments.idempotencyKey := by
  unfold callTool
  constructor
  · intro h
    obtain ⟨arguments, hd, hrequest⟩ := bind_eq_ok.mp h
    obtain ⟨hl, hy⟩ := (decode_eq_ok hv).mp (mapError_eq_ok.mp hd)
    exact ⟨hl, arguments, hy, (Except.ok.inj hrequest).symm⟩
  · rintro ⟨hl, arguments, hy, rfl⟩
    exact bind_eq_ok.mpr ⟨arguments, mapError_eq_ok.mpr ((decode_eq_ok hv).mpr ⟨hl, hy⟩), rfl⟩

/-! ### One reading of an object -/

theorem mem_executeFields {tool : Tool} {field : String} (h : field ∈ argumentFields tool) :
    field ∈ executeFields := by
  unfold executeFields
  rcases fields_cases h with rfl | rfl | rfl <;> decide

theorem fold_executeFields : (executeFields.map foldName).Nodup := by decide +kernel

theorem fold_argumentFields (tool : Tool) : ((argumentFields tool).map foldName).Nodup := by
  unfold argumentFields
  split_ifs <;> decide +kernel

/-- A field that a tool has gets the same members over HTTP. -/
theorem fieldOf_argumentFields {tool : Tool} {name field : String} :
    fieldOf (argumentFields tool) name = some field ↔
      field ∈ argumentFields tool ∧ fieldOf executeFields name = some field := by
  rw [fieldOf_eq_some_iff (fold_argumentFields tool), fieldOf_eq_some_iff fold_executeFields]
  constructor
  · rintro ⟨hmem, heq⟩
    exact ⟨hmem, mem_executeFields hmem, heq⟩
  · rintro ⟨hmem, -, heq⟩
    exact ⟨hmem, heq⟩

theorem assigned_argumentFields {tool : Tool} {field : String} (h : field ∈ argumentFields tool) :
    assigned (argumentFields tool) members field = assigned executeFields members field := by
  unfold assigned
  congr 2
  funext member
  simp only [fieldOf_argumentFields, h, true_and]

theorem lastText_argumentFields {tool : Tool} {field : String} (h : field ∈ argumentFields tool) :
    lastText (argumentFields tool) members field = lastText executeFields members field := by
  rw [lastText, assigned_argumentFields h, lastText]

/-- A text when names are folded and the last member counts. -/
def foldedText (members : List (String × Json ν)) (field : String) : String :=
  (lastText executeFields members field).getD ""

/-- What MCP yields is the folded reading. -/
theorem Yields.folded {tool : Tool} {arguments : ActionArguments ν} (hl : Lenient tool members)
    (hy : Yields tool members arguments) :
    (assigned executeFields members "input").getLast? = some arguments.input ∧
      arguments.planHash = foldedText members "plan_hash" ∧
      arguments.idempotencyKey = foldedText members "idempotency_key" := by
  have hfolded : ∀ field, (if field ∈ argumentFields tool then
      (lastText (argumentFields tool) members field).getD "" else "") =
        foldedText members field := by
    intro field
    unfold foldedText lastText
    split_ifs with hfield
    · rw [assigned_argumentFields hfield]
    · have hnil : assigned executeFields members field = [] := by
        unfold assigned
        rw [List.map_eq_nil_iff, List.filter_eq_nil_iff]
        intro member hmember heq
        obtain ⟨other, hother⟩ := Option.isSome_iff_exists.mp (hl.known member hmember)
        obtain ⟨hmem, hother⟩ := fieldOf_argumentFields.mp hother
        rw [hother] at heq
        exact hfield (Option.some.inj (of_decide_eq_true heq) ▸ hmem)
      rw [hnil]
      rfl
  refine ⟨?_, hy.planHash.trans (hfolded _), hy.idempotencyKey.trans (hfolded _)⟩
  rw [← assigned_argumentFields (input_mem_argumentFields tool)]
  exact hy.input

/-- What HTTP yields is the folded reading too. -/
theorem Plain.folded (hp : Plain members) (hnodup : (members.map Prod.fst).Nodup)
    {field : String} (hfield : field ∈ executeFields) :
    memberText members field = foldedText members field := by
  rw [← lastText_of_exact hnodup hp.exact, if_pos hfield, foldedText]

/-- The request that the folded reading of an object makes. -/
def reading (text : Json ν → RawMessage) (caller : Caller) (channel : String)
    (members : List (String × Json ν)) : Option Action.Types.Request :=
  (assigned executeFields members "input").getLast?.map fun input =>
    requestOf text caller channel (.utf8 "") input (foldedText members "plan_hash")
      (foldedText members "idempotency_key")

/-! ### Where the decoders differ -/

/-- Both decoders can read the object when names are folded. -/
structure Legible (members : List (String × Json ν)) : Prop where
  known : ∀ member ∈ members, (fieldOf executeFields member.1).isSome = true
  textual : ∀ field ∈ executeFields, field ≠ "input" →
    (assigned executeFields members field).all textual = true

/-- A name is not that of a field but folds to one. -/
def Folded (members : List (String × Json ν)) : Prop :=
  ∃ member ∈ members, ∃ field, fieldOf executeFields member.1 = some field ∧ field ≠ member.1

/-- A text is empty, or a plan hash is there although the action has no preview. -/
structure Unblank (descriptor : Descriptor) (members : List (String × Json ν)) : Prop where
  planHash : lastText executeFields members "plan_hash" ≠ some ""
  idempotencyKey : lastText executeFields members "idempotency_key" ≠ some ""
  preview : descriptor.preview = .none → assigned executeFields members "plan_hash" = []

theorem exact_of_not_folded (hl : Legible members) (hf : ¬ Folded members) :
    ∀ member ∈ members, fieldOf executeFields member.1 = some member.1 := by
  intro member hmember
  obtain ⟨field, hfield⟩ := Option.isSome_iff_exists.mp (hl.known member hmember)
  have heq : field = member.1 := by
    by_contra hne
    exact hf ⟨member, hmember, field, hfield, hne⟩
  rw [hfield, heq]

/-- HTTP reads what can be read without folding. -/
theorem plain_iff (hnodup : (members.map Prod.fst).Nodup) :
    Plain members ↔ Legible members ∧ ¬ Folded members := by
  constructor
  · intro hp
    have hassigned := assigned_eq_lookup hnodup hp.exact
    refine ⟨⟨fun member hmember => ?_, fun field hfield hne => ?_⟩, ?_⟩
    · rw [hp.exact member hmember]
      rfl
    · rw [hassigned]
      simp only [executeFields, List.mem_cons, List.not_mem_nil, or_false] at hfield
      rcases hfield with rfl | rfl | rfl
      · exact absurd rfl hne
      · exact hp.planHash
      · exact hp.idempotencyKey
    · rintro ⟨member, hmember, field, hfield, hne⟩
      rw [hp.exact member hmember] at hfield
      exact hne (Option.some.inj hfield).symm
  · rintro ⟨hl, hf⟩
    have hexact := exact_of_not_folded hl hf
    have hassigned := assigned_eq_lookup hnodup hexact
    refine ⟨fun member hmember => mem_of_fieldOf (hexact member hmember), ?_, ?_⟩
    · rw [← hassigned]
      exact hl.textual _ (by decide) (by decide)
    · rw [← hassigned]
      exact hl.textual _ (by decide) (by decide)

theorem fits_of_text {pattern : List Char → Bool} {required : Bool} {found : Option String}
    (hpattern : ∀ s, found = some s → pattern s.toList = true)
    (hrequired : required = true → found ≠ none) : fits pattern required found = true := by
  cases found with
  | some s => exact hpattern s rfl
  | none =>
    cases required with
    | false => rfl
    | true => exact absurd rfl (hrequired rfl)

theorem matchDigest_of_validatePlanHash {hash : String}
    (h : (validatePlanHash (.utf8 hash)).isOk = true) : matchDigest hash.toList = true := by
  unfold validatePlanHash at h
  split at h
  · next hmatch => exact hmatch
  · cases h

theorem idempotencyKeyPattern_of_validate {key : String}
    (h : validateIdempotencyKey (.utf8 key) = .ok ()) : idempotencyKeyPattern key.toList = true := by
  unfold validateIdempotencyKey at h
  split at h
  · next hmatch => exact hmatch
  · cases h

theorem mem_argumentFields {field : String} (hfield : field ∈ executeFields)
    (hpreview : descriptor.preview = .none → field ≠ "plan_hash") :
    field ∈ argumentFields (executeTool descriptor) := by
  unfold executeFields at hfield
  unfold argumentFields executeTool
  by_cases hnone : descriptor.preview = .none
  · simpa [hnone, hpreview hnone] using hfield
  · simpa [hnone] using hfield

theorem planHash_mem_iff :
    "plan_hash" ∈ argumentFields (executeTool descriptor) ↔ descriptor.preview ≠ .none := by
  unfold argumentFields executeTool
  by_cases hnone : descriptor.preview = .none <;> simp [hnone]

/-- MCP reads what can be read and has no blank text, if the texts meet the checks of `Execute`. -/
theorem lenient_iff (hr : Regular descriptor (.utf8 (foldedText members "plan_hash"))
      (.utf8 (foldedText members "idempotency_key")))
    (hinput : assigned executeFields members "input" ≠ []) :
    Lenient (executeTool descriptor) members ↔ Legible members ∧ Unblank descriptor members := by
  have hkeymem : "idempotency_key" ∈ argumentFields (executeTool descriptor) :=
    mem_argumentFields (by decide) fun _ => by decide
  constructor
  · intro hl
    have hnil : descriptor.preview = .none → assigned executeFields members "plan_hash" = [] := by
      intro hnone
      unfold assigned
      rw [List.map_eq_nil_iff, List.filter_eq_nil_iff]
      intro member hmember heq
      obtain ⟨field, hfield⟩ := Option.isSome_iff_exists.mp (hl.known member hmember)
      obtain ⟨hmem, hfield⟩ := fieldOf_argumentFields.mp hfield
      rw [hfield] at heq
      obtain rfl := Option.some.inj (of_decide_eq_true heq)
      exact planHash_mem_iff.mp hmem hnone
    refine ⟨⟨fun member hmember => ?_, fun field hfield hne => ?_⟩, ?_, ?_, hnil⟩
    · obtain ⟨field, hfield⟩ := Option.isSome_iff_exists.mp (hl.known member hmember)
      rw [(fieldOf_argumentFields.mp hfield).2]
      rfl
    · by_cases hmem : field ∈ argumentFields (executeTool descriptor)
      · rw [← assigned_argumentFields hmem]
        exact hl.textual field hmem hne
      · obtain ⟨hnone, rfl⟩ : descriptor.preview = .none ∧ field = "plan_hash" := by
          by_contra hcon
          exact hmem (mem_argumentFields hfield fun hnone heq => hcon ⟨hnone, heq⟩)
        rw [hnil hnone]
        rfl
    · intro hempty
      by_cases hnone : descriptor.preview = .none
      · rw [lastText, hnil hnone] at hempty
        cases hempty
      · have hmem := planHash_mem_iff.mpr hnone
        have hfits := hl.planHash hmem
        rw [lastText_argumentFields hmem, hempty] at hfits
        have hmatch : matchDigest "".toList = true := hfits
        exact absurd hmatch (by decide)
    · intro hempty
      have hfits := hl.idempotencyKey hkeymem
      rw [lastText_argumentFields hkeymem, hempty] at hfits
      have hmatch : idempotencyKeyPattern "".toList = true := hfits
      exact absurd hmatch (by decide)
  · rintro ⟨hl, hb⟩
    refine ⟨fun member hmember => ?_, fun field hmem hne => ?_, ?_, fun hmem => ?_, fun hmem => ?_⟩
    · obtain ⟨field, hfield⟩ := Option.isSome_iff_exists.mp (hl.known member hmember)
      have hmem := mem_argumentFields (mem_of_fieldOf hfield) fun hnone heq => by
        have hin : member.2 ∈ assigned executeFields members "plan_hash" :=
          List.mem_map_of_mem (List.mem_filter.mpr ⟨hmember, by simp [hfield, heq]⟩)
        rw [hb.preview hnone] at hin
        cases hin
      rw [fieldOf_argumentFields.mpr ⟨hmem, hfield⟩]
      rfl
    · rw [assigned_argumentFields hmem]
      exact hl.textual field (mem_executeFields hmem) hne
    · rw [assigned_argumentFields (input_mem_argumentFields _)]
      exact hinput
    · rw [lastText_argumentFields hmem]
      refine fits_of_text (fun s hs => ?_) fun hrequired hnone => ?_
      · have hhashed := hr.hashed
        rw [foldedText, hs] at hhashed
        refine matchDigest_of_validatePlanHash (hhashed.resolve_left fun hempty => ?_)
        exact hb.planHash (hs.trans (congrArg some (GoString.utf8.inj hempty)))
      · refine hr.requiredPlan (of_decide_eq_true hrequired) ?_
        rw [foldedText, hnone]
        rfl
    · rw [lastText_argumentFields hmem]
      refine fits_of_text (fun s hs => ?_) fun hrequired hnone => ?_
      · have hkeyed := hr.keyed
        rw [foldedText, hs] at hkeyed
        refine idempotencyKeyPattern_of_validate (hkeyed.resolve_left fun hempty => ?_)
        exact hb.idempotencyKey (hs.trans (congrArg some (GoString.utf8.inj hempty)))
      · refine hr.requiredKey hrequired ?_
        rw [foldedText, hnone]
        rfl

end Accepted

/-! ### Parity -/

section Parity

variable {ν : Type} {text : Json ν → RawMessage} {members : List (String × Json ν)} {bytes : ℕ}
  {caller : Caller} {requestID : GoString} {maxBodyBytes : ℕ} {e : Engine}
  {registered : Registration}

/-- Both transports call `Execute` with the same input, plan hash and idempotency key, or neither
leads to an execution of the handler. -/
def Equivalent (e : Engine) (registered : Registration)
    (http mcp : Except String Action.Types.Request) : Prop :=
  (∃ a b, http = .ok a ∧ mcp = .ok b ∧ a.input = b.input ∧ a.planHash = b.planHash ∧
    a.idempotencyKey = b.idempotencyKey) ∨
  (Harmless e registered http ∧ Harmless e registered mcp)

/-- Exactly one of the transports makes a request, and it passes the checks of `Execute`. -/
def Divided (e : Engine) (registered : Registration)
    (http mcp : Except String Action.Types.Request) : Prop :=
  (∃ a err, http = .ok a ∧ mcp = .error err ∧ Passes e registered a) ∨
  (∃ b err, http = .error err ∧ mcp = .ok b ∧ Passes e registered b)

/-- The request of the folded reading is there and passes the checks of `Execute`. -/
def ReadingPasses (e : Engine) (registered : Registration) (text : Json ν → RawMessage)
    (caller : Caller) (channel : String) (members : List (String × Json ν)) : Prop :=
  ∃ request, reading text caller channel members = some request ∧ Passes e registered request

/-- The object can be read, its request passes, and either only a name is folded or only a text is
blank. -/
def Diverges (e : Engine) (registered : Registration) (text : Json ν → RawMessage) (caller : Caller)
    (members : List (String × Json ν)) : Prop :=
  Legible members ∧
    ((Folded members ∧ Unblank registered.descriptor members ∧
        ReadingPasses e registered text caller "mcp" members) ∨
      (¬ Folded members ∧ ¬ Unblank registered.descriptor members ∧
        ReadingPasses e registered text caller "http" members))

theorem reading_regular {channel : String} {request : Action.Types.Request}
    (hr : reading text caller channel members = some request) (hp : Passes e registered request) :
    assigned executeFields members "input" ≠ [] ∧
      Regular registered.descriptor (.utf8 (foldedText members "plan_hash"))
        (.utf8 (foldedText members "idempotency_key")) := by
  obtain ⟨input, hinput, rfl⟩ := Option.map_eq_some_iff.mp hr
  refine ⟨fun hnil => ?_, hp.regular⟩
  rw [hnil] at hinput
  cases hinput

theorem executeHTTP_reading {a : Action.Types.Request}
    (hhttp : (httpLimits maxBodyBytes).validate ⟨.obj members, bytes⟩ = true)
    (h : executeHTTP text maxBodyBytes caller requestID ⟨.obj members, bytes⟩ = .ok a) :
    Plain members ∧ ∃ request, reading text caller "http" members = some request ∧
      a = { request with requestID := requestID } := by
  have hnodup := nodup_of_validate hhttp
  obtain ⟨hp, input, hfound, rfl⟩ := (executeHTTP_eq_ok hhttp).mp h
  have hinput : (assigned executeFields members "input").getLast? = some input := by
    rw [assigned_eq_lookup hnodup hp.exact, hfound]
    rfl
  refine ⟨hp, _, by rw [reading, hinput]; rfl, ?_⟩
  rw [hp.folded hnodup (by decide), hp.folded hnodup (by decide)]
  rfl

theorem executeHTTP_of_plain
    (hhttp : (httpLimits maxBodyBytes).validate ⟨.obj members, bytes⟩ = true) (hp : Plain members)
    (hinput : assigned executeFields members "input" ≠ []) :
    ∃ a, executeHTTP text maxBodyBytes caller requestID ⟨.obj members, bytes⟩ = .ok a := by
  rw [assigned_eq_lookup (nodup_of_validate hhttp) hp.exact] at hinput
  cases hfound : members.lookup "input" with
  | none => simp [hfound] at hinput
  | some input => exact ⟨_, (executeHTTP_eq_ok hhttp).mpr ⟨hp, input, hfound, rfl⟩⟩

theorem callTool_reading {tool : Tool} {b : Action.Types.Request}
    (hmcp : mcpLimits.validate ⟨.obj members, bytes⟩ = true)
    (h : callTool text tool caller ⟨.obj members, bytes⟩ = .ok b) :
    Lenient tool members ∧ reading text caller "mcp" members = some b := by
  obtain ⟨hl, arguments, hy, rfl⟩ := (callTool_eq_ok hmcp).mp h
  obtain ⟨hinput, hplan, hkey⟩ := Yields.folded hl hy
  refine ⟨hl, ?_⟩
  rw [reading, hinput, hplan, hkey]
  rfl

theorem callTool_of_lenient {tool : Tool}
    (hmcp : mcpLimits.validate ⟨.obj members, bytes⟩ = true) (hl : Lenient tool members) :
    ∃ b, callTool text tool caller ⟨.obj members, bytes⟩ = .ok b :=
  ⟨_, (callTool_eq_ok hmcp).mpr ⟨hl, _, yields_of_lenient hl, rfl⟩⟩

/-- An object that does not diverge. -/
theorem equivalent_of_not_diverges (hmcp : mcpLimits.validate ⟨.obj members, bytes⟩ = true)
    (hhttp : (httpLimits maxBodyBytes).validate ⟨.obj members, bytes⟩ = true)
    (h : ¬ Diverges e registered text caller members) :
    Equivalent e registered
      (executeHTTP text maxBodyBytes caller requestID ⟨.obj members, bytes⟩)
      (callTool text (executeTool registered.descriptor) caller ⟨.obj members, bytes⟩) := by
  have hnodup := nodup_of_validate hmcp
  cases hh : executeHTTP text maxBodyBytes caller requestID ⟨.obj members, bytes⟩ with
  | error err =>
    refine .inr ⟨trivial, ?_⟩
    cases hm : callTool text (executeTool registered.descriptor) caller ⟨.obj members, bytes⟩ with
    | error err => trivial
    | ok b =>
      refine harmless_of_not_passes fun hpasses => h ?_
      obtain ⟨hl, hread⟩ := callTool_reading hmcp hm
      obtain ⟨hinput, hregular⟩ := reading_regular hread hpasses
      obtain ⟨hlegible, hunblank⟩ := (lenient_iff hregular hinput).mp hl
      refine ⟨hlegible, .inl ⟨?_, hunblank, b, hread, hpasses⟩⟩
      by_contra hf
      obtain ⟨a, ha⟩ := executeHTTP_of_plain hhttp ((plain_iff hnodup).mpr ⟨hlegible, hf⟩) hinput
      cases hh.symm.trans ha
  | ok a =>
    obtain ⟨hp, request, hread, rfl⟩ := executeHTTP_reading hhttp hh
    cases hm : callTool text (executeTool registered.descriptor) caller ⟨.obj members, bytes⟩ with
    | error err =>
      refine .inr ⟨harmless_of_not_passes fun hpasses => h ?_, trivial⟩
      have hpasses : Passes e registered request := hpasses
      obtain ⟨hinput, hregular⟩ := reading_regular hread hpasses
      obtain ⟨hlegible, hf⟩ := (plain_iff hnodup).mp hp
      refine ⟨hlegible, .inr ⟨hf, fun hunblank => ?_, request, hread, hpasses⟩⟩
      obtain ⟨b, hb⟩ := callTool_of_lenient hmcp
        ((lenient_iff hregular hinput).mpr ⟨hlegible, hunblank⟩)
      cases hm.symm.trans hb
    | ok b =>
      obtain ⟨-, hread'⟩ := callTool_reading hmcp hm
      obtain ⟨input, hinput, rfl⟩ := Option.map_eq_some_iff.mp hread
      obtain ⟨input', hinput', rfl⟩ := Option.map_eq_some_iff.mp hread'
      obtain rfl := Option.some.inj (hinput.symm.trans hinput')
      exact .inl ⟨_, _, rfl, rfl, rfl, rfl, rfl⟩

/-- An object that diverges. -/
theorem divided_of_diverges (hmcp : mcpLimits.validate ⟨.obj members, bytes⟩ = true)
    (hhttp : (httpLimits maxBodyBytes).validate ⟨.obj members, bytes⟩ = true)
    (h : Diverges e registered text caller members) :
    Divided e registered
      (executeHTTP text maxBodyBytes caller requestID ⟨.obj members, bytes⟩)
      (callTool text (executeTool registered.descriptor) caller ⟨.obj members, bytes⟩) := by
  have hnodup := nodup_of_validate hmcp
  obtain ⟨hlegible, ⟨hf, hunblank, request, hread, hpasses⟩ | ⟨hf, hblank, request, hread, hpasses⟩⟩
    := h
  · obtain ⟨hinput, hregular⟩ := reading_regular hread hpasses
    obtain ⟨b, hb⟩ := callTool_of_lenient hmcp
      ((lenient_iff hregular hinput).mpr ⟨hlegible, hunblank⟩)
    obtain ⟨-, hread'⟩ := callTool_reading hmcp hb
    obtain rfl := Option.some.inj (hread.symm.trans hread')
    cases hh : executeHTTP text maxBodyBytes caller requestID ⟨.obj members, bytes⟩ with
    | error err => exact .inr ⟨request, err, rfl, hb, hpasses⟩
    | ok a => exact absurd hf ((plain_iff hnodup).mp (executeHTTP_reading hhttp hh).1).2
  · obtain ⟨hinput, hregular⟩ := reading_regular hread hpasses
    obtain ⟨a, ha⟩ := executeHTTP_of_plain hhttp ((plain_iff hnodup).mpr ⟨hlegible, hf⟩) hinput
    obtain ⟨-, request', hread', rfl⟩ := executeHTTP_reading hhttp ha
    obtain rfl := Option.some.inj (hread.symm.trans hread')
    cases hm : callTool text (executeTool registered.descriptor) caller ⟨.obj members, bytes⟩ with
    | error err => exact .inl ⟨_, err, ha, rfl, hpasses⟩
    | ok b =>
      exact absurd ((lenient_iff hregular hinput).mp (callTool_reading hmcp hm).1).2 hblank

/-- An object outside the JSON limits of a transport makes no request over it. -/
theorem refused_of_limits :
    ((httpLimits maxBodyBytes).validate ⟨.obj members, bytes⟩ = false →
      ∃ err, executeHTTP text maxBodyBytes caller requestID ⟨.obj members, bytes⟩ = .error err) ∧
    (mcpLimits.validate ⟨.obj members, bytes⟩ = false → ∃ err,
      callTool text (executeTool registered.descriptor) caller ⟨.obj members, bytes⟩ = .error err) := by
  constructor
  · intro hlimits
    cases hh : executeHTTP text maxBodyBytes caller requestID ⟨.obj members, bytes⟩ with
    | error err => exact ⟨err, rfl⟩
    | ok request =>
      obtain ⟨call, hcall, -⟩ := bind_eq_ok.mp hh
      obtain ⟨_, -, hcall⟩ := bind_eq_ok.mp hcall
      obtain ⟨_, hvalid, -⟩ := bind_eq_ok.mp hcall
      exact absurd hlimits (refuseIf_eq_ok.mp hvalid)
  · intro hlimits
    cases hm : callTool text (executeTool registered.descriptor) caller ⟨.obj members, bytes⟩ with
    | error err => exact ⟨err, rfl⟩
    | ok request =>
      obtain ⟨arguments, harguments, -⟩ := bind_eq_ok.mp hm
      obtain ⟨_, hparams, -⟩ := bind_eq_ok.mp (mapError_eq_ok.mp harguments)
      unfold decodeMCPParams at hparams
      dsimp only at hparams
      rw [if_pos hlimits] at hparams
      cases hparams

/-- **One object over the two transports**: they are equivalent on every object that does not
diverge, and divided on every object that does. -/
theorem transports_equivalent (hmcp : mcpLimits.validate ⟨.obj members, bytes⟩ = true)
    (hhttp : (httpLimits maxBodyBytes).validate ⟨.obj members, bytes⟩ = true) :
    (¬ Diverges e registered text caller members → Equivalent e registered
      (executeHTTP text maxBodyBytes caller requestID ⟨.obj members, bytes⟩)
      (callTool text (executeTool registered.descriptor) caller ⟨.obj members, bytes⟩)) ∧
    (Diverges e registered text caller members → Divided e registered
      (executeHTTP text maxBodyBytes caller requestID ⟨.obj members, bytes⟩)
      (callTool text (executeTool registered.descriptor) caller ⟨.obj members, bytes⟩)) :=
  ⟨equivalent_of_not_diverges hmcp hhttp, divided_of_diverges hmcp hhttp⟩

/-- An action that is published on both channels. -/
def sharedRegistration : Registration :=
  { sampleRegistration with
    descriptor := { sampleRegistration.descriptor with channels := [.utf8 "http", .utf8 "mcp"] } }

/-- A caller of it. -/
def sampleCaller : Caller where
  actor := sampleRequest.actor
  scope := sampleRequest.scope
  actionID := sampleRequest.actionID

/-- `1` is the only value of the samples whose text counts. -/
def sampleText : Json ℕ → RawMessage := fun _ => .utf8 "1"

/-- `{"input":1,"idempotency_key":"a1"}` -/
def tidyMembers : List (String × Json ℕ) := [("input", .num 1), ("idempotency_key", .str "a1")]

/-- Both transports make the same of an ordinary object. -/
theorem transports_equivalent_sample :
    mcpLimits.validate ⟨.obj tidyMembers, 36⟩ = true ∧
      (httpLimits 2097152).validate ⟨.obj tidyMembers, 36⟩ = true ∧
      ¬ Diverges sampleEngine sharedRegistration sampleText sampleCaller tidyMembers ∧
      Equivalent sampleEngine sharedRegistration
        (executeHTTP sampleText 2097152 sampleCaller (.utf8 "r") ⟨.obj tidyMembers, 36⟩)
        (callTool sampleText (executeTool sharedRegistration.descriptor) sampleCaller
          ⟨.obj tidyMembers, 36⟩) := by
  have hmcp : mcpLimits.validate ⟨.obj tidyMembers, 36⟩ = true := by decide +kernel
  have hhttp : (httpLimits 2097152).validate ⟨.obj tidyMembers, 36⟩ = true := by decide +kernel
  have hd : ¬ Diverges sampleEngine sharedRegistration sampleText sampleCaller tidyMembers := by
    rintro ⟨-, ⟨⟨member, hmember, field, hfield, hne⟩, -⟩ | ⟨-, hblank, -⟩⟩
    · have hexact : ∀ member ∈ tidyMembers, member.1 ∈ executeFields := by decide +kernel
      rw [fieldOf_of_mem (hexact member hmember)] at hfield
      exact hne (Option.some.inj hfield).symm
    · exact hblank ⟨by decide +kernel, by decide +kernel, fun hnone => absurd hnone (by decide)⟩
  exact ⟨hmcp, hhttp, hd, (transports_equivalent hmcp hhttp).1 hd⟩

/-- `{"INPUT":1}` -/
def misspeltMembers : List (String × Json ℕ) := [("INPUT", .num 1)]

/-- The request that MCP makes of it. -/
def misspeltRequest : Action.Types.Request :=
  requestOf sampleText sampleCaller "mcp" (.utf8 "") (.num 1) "" ""

/-- An environment in which nothing fails. -/
def sharedOracle : (op : Op) → op.Response
  | .acquire _ => .found sharedRegistration
  | op => ({} : Scenario).oracle op

/-- The run of the request. -/
def misspeltRun : History × Except Err Result :=
  (execute sampleEngine true misspeltRequest).play sharedOracle

theorem misspeltRun_executes : misspeltRun.1.any (fun c => isExecute c.op) = true := by
  decide +kernel

theorem misspelt_decoded :
    (executeHTTP sampleText 2097152 sampleCaller (.utf8 "r") ⟨.obj misspeltMembers, 11⟩).isOk =
        false ∧
      callTool sampleText (executeTool sharedRegistration.descriptor) sampleCaller
        ⟨.obj misspeltMembers, 11⟩ = .ok misspeltRequest :=
  ⟨by decide +kernel, rfl⟩

/-- **A misspelt input is refused over HTTP and executed over MCP.** -/
theorem misspelt_not_equivalent :
    mcpLimits.validate ⟨.obj misspeltMembers, 11⟩ = true ∧
      (httpLimits 2097152).validate ⟨.obj misspeltMembers, 11⟩ = true ∧
      ¬ Equivalent sampleEngine sharedRegistration
        (executeHTTP sampleText 2097152 sampleCaller (.utf8 "r") ⟨.obj misspeltMembers, 11⟩)
        (callTool sampleText (executeTool sharedRegistration.descriptor) sampleCaller
          ⟨.obj misspeltMembers, 11⟩) := by
  refine ⟨by decide +kernel, by decide +kernel, ?_⟩
  obtain ⟨hhttp, hmcp⟩ := misspelt_decoded
  rintro (⟨a, b, ha, -⟩ | ⟨-, hharmless⟩)
  · rw [ha] at hhttp
    cases hhttp
  · rw [hmcp] at hharmless
    obtain ⟨c, hc, hx⟩ := List.any_eq_true.mp misspeltRun_executes
    have hlease : ∀ other, ⟨.acquire misspeltRequest.actionID, .found other⟩ ∈ misspeltRun.1 →
        other = sharedRegistration := by
      intro other hmem
      have hreply := Prog.reply_of_mem_play sharedOracle hmem
      exact (Acquired.found.inj hreply)
    have hfalse := hharmless true _ _ (Prog.runs_play sharedOracle _) hlease c hc
    rw [hfalse] at hx
    cases hx

end Parity

end Modary.Transport.Parity
