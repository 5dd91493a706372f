import Modary.Lib.JsonNumber
import Modary.Transport.Arguments

/-! # The JSON-RPC envelope

The body of a POST to the MCP endpoint, which `decodeMCPRequest` reads twice: as a map of raw
members, for the id of a refusal, and into a struct whose field names `encoding/json` folds. Every
reply of the endpoint carries the id of one of the two readings. -/

namespace Modary.Transport.Envelope

open Modary.Lib.GoText Modary.Lib.JsonNumber Modary.Lib.JsonValue Modary.Transport.Arguments

variable {ρ : Type}

/-! ### Requests and replies -/

/-- The body of a request: its length, the white space that `bytes.TrimSpace` takes off at its two
ends, and the document between them, if that is one in UTF-8. -/
structure Body where
  bytes : ℕ
  space : List Char := []
  document : Option (Json Number)

/-- Why the body could not be read. -/
inductive ReadFailure
  | tooLarge
  | deadline
  | canceled
  | other
  deriving DecidableEq, Repr

/-- How a body arrives: whole, with its length announced or in chunks, or cut short. -/
inductive Upload
  | complete (body : Body) (chunked : Bool)
  | interrupted (announced : ℤ) (failure : ReadFailure)

/-- `request.ContentLength`. -/
def Upload.contentLength : Upload → ℤ
  | .complete body chunked => if chunked then -1 else body.bytes
  | .interrupted announced _ => announced

/-- `mcpRPCRequest`, with the length of the body, which bounds that of its parameters. -/
structure RPCRequest where
  jsonrpc : String := ""
  id : Option (Json Number) := none
  method : String := ""
  params : Option (Json Number) := none
  bytes : ℕ := 0

/-- `mcpRPCError`, with the versions that its data lists. -/
structure RPCError where
  code : ℤ
  message : String
  supported : List String := []
  deriving DecidableEq, Repr

/-- What a response carries beside its id. -/
inductive Content (ρ : Type)
  | result (value : ρ)
  | error (err : RPCError)

/-- `mcpRPCResponse`; without an id it has no such member. -/
structure RPCResponse (ρ : Type) where
  id : Option (Json Number) := none
  content : Content ρ

/-- A reply: a status on its own, or one with a JSON-RPC response. -/
inductive Reply (ρ : Type)
  | status (code : ℕ)
  | rpc (code : ℕ) (response : RPCResponse ρ)

/-! ### The decoder -/

/-- `validMCPInteger`. -/
def validMCPInteger (value : List Char) : Bool :=
  let value := if value.head? = some '-' then value.tail else value
  match value with
  | [] => false
  | c :: cs => value = ['0'] || ('1' ≤ c && c ≤ '9' && cs.all isDigit)

/-- `validMCPID`; an absent one is valid. -/
def validMCPID : Option (Json Number) → Bool
  | none => true
  | some (.str _) => true
  | some (.num n) => validMCPInteger n.text
  | some _ => false

/-- `validMCPConcreteID`. -/
def validMCPConcreteID (id : Option (Json Number)) : Bool := id.isSome && validMCPID id

/-- The fields of `mcpRPCRequest`. -/
def envelopeFields : List String := ["jsonrpc", "id", "method", "params"]

/-- The struct decoder of the envelope. -/
def decodeStruct (bytes : ℕ) (members : List (String × Json Number)) : Option RPCRequest := do
  let values := assigned envelopeFields members
  if members.all (fun member => (fieldOf envelopeFields member.1).isSome) then
    let jsonrpc ← decodeString (values "jsonrpc")
    let method ← decodeString (values "method")
    return { jsonrpc, id := (values "id").getLast?, method, params := (values "params").getLast?,
             bytes }
  else none

/-- What `decodeMCPRequest` returns with an error. -/
structure Refusal where
  status : ℕ
  id : Option (Json Number) := none
  err : RPCError

def bodyTooLarge : Refusal := { status := 413, err := ⟨-32600, "request body is too large", []⟩ }

def invalidJSON : Refusal := { status := 400, err := ⟨-32700, "invalid JSON-RPC request", []⟩ }

def invalidRequest (id : Option (Json Number)) : Refusal :=
  { status := 400, id, err := ⟨-32600, "invalid JSON-RPC request", []⟩ }

/-- The refusal of a body that could not be read. -/
def ReadFailure.refusal : ReadFailure → Refusal
  | .tooLarge => bodyTooLarge
  | .deadline => { status := 504, err := ⟨-32000, "request timed out", []⟩ }
  | .canceled => { status := 503, err := ⟨-32000, "request was canceled", []⟩ }
  | .other => { status := 400, err := ⟨-32700, "read JSON-RPC request", []⟩ }

/-- `protocolJSONLimits`; a number token is bounded by the document. -/
def protocolJSONLimits (maxBytes : ℕ) : Limits where
  maxBytes
  maxDepth := 512
  maxNodes := 131072

/-- The two readings of the members of the body. -/
def decodeMembers (bytes : ℕ) (members : List (String × Json Number)) :
    Except Refusal RPCRequest :=
  let responseID := (members.lookup "id").filter fun candidate => validMCPID (some candidate)
  match decodeStruct bytes members with
  | none => .error (invalidRequest responseID)
  | some rpc =>
    if rpc.jsonrpc ≠ "2.0" ∨ rpc.method = "" ∨ validMCPID rpc.id = false then
      .error (invalidRequest (if validMCPID rpc.id = false then none else rpc.id))
    else .ok rpc

/-- What `decodeMCPRequest` does with a body it has read. -/
def decodeBody (limit : ℕ) (body : Body) : Except Refusal RPCRequest :=
  match body.document with
  | none => .error invalidJSON
  | some value =>
    if (protocolJSONLimits limit).validate ⟨value, body.bytes⟩ = false then .error invalidJSON
    else
      match value with
      | .obj members => decodeMembers body.bytes members
      | _ => .error (invalidRequest none)

/-- `decodeMCPRequest`. -/
def decodeMCPRequest (limit : ℕ) (upload : Upload) : Except Refusal RPCRequest :=
  if limit < upload.contentLength then .error bodyTooLarge
  else
    match upload with
    | .interrupted _ failure => .error failure.refusal
    | .complete body _ => if limit < body.bytes then .error bodyTooLarge else decodeBody limit body

/-! ### The endpoint -/

/-- What `AuthenticateToken` leads to. -/
inductive Authentication
  | actor (valid : Bool)
  | unavailable (status : ℕ) (message : String)
  | refused
  | failed

/-- A request, by what `serveHTTP` looks at. -/
structure Request where
  originAllowed : Bool := true
  post : Bool := true
  acceptsJSON : Bool := true
  acceptsStream : Bool := true
  contentType : Except String Unit := .ok ()
  bearerToken : Bool := true
  authentication : Authentication := .actor true
  scopeValid : Bool := true
  protocolVersions : List String := ["2025-11-25"]
  upload : Upload

/-- `MCPProtocolVersion`. -/
def mcpProtocolVersion : String := "2025-11-25"

/-- `mcpHandler`: its limit, its fixed results and its tools. A call that panics has no content. -/
structure Handler (ρ : Type) where
  maxBodyBytes : ℕ
  initialized : ρ
  pong : ρ
  toolList : ρ
  tools : List String
  call : String → Json Number → Option (Content ρ)

/-- `decodeMCPParams` on the parameters of a request, which may be absent. -/
def requestParams (rpc : RPCRequest) (fields : List String) :
    Option (List (String × Json Number)) :=
  (decodeMCPParams ⟨rpc.params.getD (.obj []), rpc.bytes⟩ fields).toOption

/-- The text that a `string` field is decoded to. -/
def paramText (fields : List String) (params : List (String × Json Number)) (field : String) :
    Option String :=
  decodeString (assigned fields params field)

/-- The raw value that a field is decoded to. -/
def paramRaw (fields : List String) (params : List (String × Json Number)) (field : String) :
    Option (Json Number) :=
  (assigned fields params field).getLast?

/-- `isJSONObject`. -/
def isJSONObject : Option (Json Number) → Bool
  | some (.obj _) => true
  | _ => false

/-- `validMCPImplementation`. -/
def validMCPImplementation (bytes : ℕ) : Option (Json Number) → Bool
  | some (.obj members) =>
    mcpLimits.validate ⟨.obj members, bytes⟩ &&
      ((members.lookup "name").bind text?).any (· ≠ "") &&
      ((members.lookup "version").bind text?).any (· ≠ "")
  | _ => false

/-- `invalidRequest`. -/
def replyInvalidRequest (id : Option (Json Number)) (message : String) : Reply ρ :=
  .rpc 400 { id, content := .error ⟨-32600, message, []⟩ }

/-- `invalidParams`. -/
def replyInvalidParams (id : Option (Json Number)) (message : String) : Reply ρ :=
  .rpc 200 { id, content := .error ⟨-32602, message, []⟩ }

/-- `initialize`. -/
def initializeSession (handler : Handler ρ) (rpc : RPCRequest) : Reply ρ :=
  let fields := ["protocolVersion", "capabilities", "clientInfo", "_meta"]
  let accepted := (requestParams rpc fields).any fun params =>
    (paramText fields params "protocolVersion").any (· ≠ "") &&
      isJSONObject (paramRaw fields params "capabilities") &&
      validMCPImplementation rpc.bytes (paramRaw fields params "clientInfo")
  if accepted then .rpc 200 { id := rpc.id, content := .result handler.initialized }
  else replyInvalidParams rpc.id "invalid initialize parameters"

/-- `listTools`. -/
def listTools (handler : Handler ρ) (rpc : RPCRequest) : Reply ρ :=
  let fields := ["cursor", "_meta"]
  if (requestParams rpc fields).any (fun params => paramText fields params "cursor" = some "") then
    .rpc 200 { id := rpc.id, content := .result handler.toolList }
  else replyInvalidParams rpc.id "invalid tools/list parameters"

/-- `callTool`. -/
def callTool (handler : Handler ρ) (rpc : RPCRequest) : Option (Reply ρ) :=
  let fields := ["name", "arguments", "_meta"]
  match requestParams rpc fields with
  | none => some (replyInvalidParams rpc.id "invalid tools/call parameters")
  | some params =>
    let name := (paramText fields params "name").getD ""
    if name = "" then some (replyInvalidParams rpc.id "invalid tools/call parameters")
    else if name ∉ handler.tools then some (replyInvalidParams rpc.id "unknown tool")
    else
      (handler.call name ((paramRaw fields params "arguments").getD (.obj []))).map fun content =>
        .rpc 200 { id := rpc.id, content }

/-- `dispatch`; a panic leaves no reply. -/
def dispatch (handler : Handler ρ) (rpc : RPCRequest) : Option (Reply ρ) :=
  let notification := rpc.id.isNone
  if rpc.method = "initialize" then
    if notification then some (.status 400) else some (initializeSession handler rpc)
  else if rpc.method = "notifications/initialized" then
    if notification then
      some (.status (if (requestParams rpc ["_meta"]).isSome then 202 else 400))
    else some (replyInvalidRequest rpc.id (rpc.method ++ " must be a notification"))
  else if rpc.method = "notifications/cancelled" then
    if notification then
      let fields := ["requestId", "reason", "_meta"]
      some (.status (if (requestParams rpc fields).any (fun params =>
        (paramText fields params "reason").isSome &&
          validMCPConcreteID (paramRaw fields params "requestId")) then 202 else 400))
    else some (replyInvalidRequest rpc.id (rpc.method ++ " must be a notification"))
  else if rpc.method = "ping" then
    if notification then some (.status 400)
    else if (requestParams rpc ["_meta"]).isSome then
      some (.rpc 200 { id := rpc.id, content := .result handler.pong })
    else some (replyInvalidParams rpc.id "invalid ping parameters")
  else if rpc.method = "tools/list" then
    if notification then some (.status 400) else some (listTools handler rpc)
  else if rpc.method = "tools/call" then
    if notification then some (.status 400) else callTool handler rpc
  else if notification then some (.status 202)
  else some (.rpc 200 { id := rpc.id, content := .error ⟨-32601, "method not found", []⟩ })

/-- A response to a request that was not looked at: it has no id. -/
def replyBefore (status : ℕ) (code : ℤ) (message : String) : Reply ρ :=
  .rpc status { content := .error ⟨code, message, []⟩ }

/-- What `serveHTTP` checks before it reads the body. -/
def beforeBody (request : Request) : Option (Reply ρ) :=
  if request.originAllowed = false then some (replyBefore 403 (-32003) "origin is not allowed")
  else if request.post = false then
    some (replyBefore 405 (-32600) "MCP endpoint accepts POST requests only")
  else if (request.acceptsJSON && request.acceptsStream) = false then
    some (replyBefore 406 (-32600)
      "Accept must include application/json and text/event-stream")
  else
    match request.contentType with
    | .error message => some (replyBefore 415 (-32600) message)
    | .ok () =>
      if request.bearerToken = false then
        some (replyBefore 401 (-32001) "bearer authentication is required")
      else
        match request.authentication with
        | .unavailable status message => some (replyBefore status (-32000) message)
        | .refused => some (replyBefore 401 (-32001) "bearer credential is invalid or expired")
        | .failed => some (replyBefore 500 (-32603) "internal server error")
        | .actor valid =>
          if valid = false then some (replyBefore 500 (-32603) "internal server error")
          else if request.scopeValid = false then
            some (replyBefore 400 (-32602) "execution scope is invalid")
          else none

/-- `serveHTTP`; a panic leaves no reply. -/
def serveHTTP (handler : Handler ρ) (request : Request) : Option (Reply ρ) :=
  match beforeBody request with
  | some reply => some reply
  | none =>
    match decodeMCPRequest handler.maxBodyBytes request.upload with
    | .error refusal =>
      some (.rpc refusal.status { id := refusal.id, content := .error refusal.err })
    | .ok rpc =>
      if rpc.method ≠ "initialize" ∧ request.protocolVersions ≠ [mcpProtocolVersion] then
        some (.rpc 400
          { id := rpc.id
            content := .error
              ⟨-32600, "unsupported or missing MCP-Protocol-Version", [mcpProtocolVersion]⟩ })
      else dispatch handler rpc

/-- `ServeHTTP`. -/
def serve (handler : Handler ρ) (request : Request) : Reply ρ :=
  (serveHTTP handler request).getD (replyBefore 500 (-32603) "internal server error")

/-! ### Ids -/

section Ids

theorem tail_head {cs rest : List Char} (h : ∀ d ds, rest = d :: ds → isDigit d = false)
    (hcs : cs.all isDigit = true) : (cs ++ rest).all isDigit = true ↔ rest = [] := by
  rw [List.all_append, hcs, Bool.true_and]
  constructor
  · intro hall
    cases hrest : rest with
    | nil => rfl
    | cons d ds =>
      have hd := h d ds hrest
      rw [hrest, List.all_cons, hd, Bool.false_and] at hall
      cases hall
  · rintro rfl
    rfl

theorem validMCPInteger_whole {whole rest : List Char} (hwhole : wholeNumber whole = true)
    (hrest : ∀ d ds, rest = d :: ds → isDigit d = false) (negative : Bool) :
    validMCPInteger ((if negative then ['-'] else []) ++ whole ++ rest) = true ↔ rest = [] := by
  cases whole with
  | nil => cases hwhole
  | cons c cs =>
    have hsign : validMCPInteger ((if negative then ['-'] else []) ++ (c :: cs) ++ rest) =
        (decide (c :: (cs ++ rest) = ['0']) ||
          ('1' ≤ c && c ≤ '9' && (cs ++ rest).all isDigit)) := by
      have hminus : c ≠ '-' := by
        rintro rfl
        revert hwhole
        simp [wholeNumber]
      cases negative <;> simp [validMCPInteger, hminus]
    rw [hsign]
    unfold wholeNumber at hwhole
    rcases Bool.or_eq_true_iff.mp hwhole with h | h
    · obtain ⟨rfl, rfl⟩ : c = '0' ∧ cs = [] := by simpa using h
      simp
    · obtain ⟨⟨hlow, hhigh⟩, hcs⟩ : ('1' ≤ c ∧ c ≤ '9') ∧ cs.all isDigit = true := by simpa using h
      have hzero : c ≠ '0' := by
        rintro rfl
        exact absurd hlow (by decide)
      have hdigits : decide (c :: (cs ++ rest) = ['0']) = false := by simp [hzero]
      rw [hdigits, decide_eq_true hlow, decide_eq_true hhigh]
      exact tail_head hrest hcs

/-- The check on the text of a number is one on its parts. -/
theorem validMCPInteger_text (n : Number) : validMCPInteger n.text = true ↔ n.integer = true := by
  unfold Number.text
  rw [validMCPInteger_whole n.whole_valid (fun d ds => n.rest_head) n.negative,
    n.rest_eq_nil_iff]

/-- **A valid id is absent, a text or an integer.** -/
theorem validMCPID_iff (id : Option (Json Number)) :
    validMCPID id = true ↔
      ∀ value, id = some value → (∃ s, value = .str s) ∨ ∃ n, value = .num n ∧ n.integer = true := by
  cases id with
  | none => simp [validMCPID]
  | some value => cases value <;> simp [validMCPID, validMCPInteger_text]

/-- Every response of `dispatch` carries the id of the request. -/
theorem dispatch_id {handler : Handler ρ} {rpc : RPCRequest} {code : ℕ} {response : RPCResponse ρ}
    (h : dispatch handler rpc = some (.rpc code response)) : response.id = rpc.id := by
  have hparams : ∀ {message : String},
      some (replyInvalidParams rpc.id message : Reply ρ) = some (.rpc code response) →
        response.id = rpc.id := by
    rintro message ⟨⟩
    rfl
  have hrequest : ∀ {message : String},
      some (replyInvalidRequest rpc.id message : Reply ρ) = some (.rpc code response) →
        response.id = rpc.id := by
    rintro message ⟨⟩
    rfl
  have hrpc : ∀ {content : Content ρ},
      some (Reply.rpc 200 { id := rpc.id, content }) = some (.rpc code response) →
        response.id = rpc.id := by
    rintro content ⟨⟩
    rfl
  have hcall : callTool handler rpc = some (.rpc code response) → response.id = rpc.id := by
    intro hcall
    unfold callTool at hcall
    dsimp only at hcall
    cases hp : requestParams rpc ["name", "arguments", "_meta"] with
    | none => rw [hp] at hcall; exact hparams hcall
    | some params =>
      simp only [hp] at hcall
      by_cases hname : (paramText ["name", "arguments", "_meta"] params "name").getD "" = ""
      · rw [if_pos hname] at hcall
        exact hparams hcall
      · rw [if_neg hname] at hcall
        split at hcall
        · exact hparams hcall
        · obtain ⟨content, -, heq⟩ := Option.map_eq_some_iff.mp hcall
          exact hrpc (congrArg some heq)
  unfold dispatch initializeSession listTools at h
  dsimp only at h
  split_ifs at h
  all_goals first
    | exact hcall h
    | exact hparams h
    | exact hrequest h
    | exact hrpc h
    | cases h

/-- Nothing that is answered before the body is read carries an id. -/
theorem beforeBody_id {request : Request} {code : ℕ} {response : RPCResponse ρ}
    (h : beforeBody request = some (.rpc code response)) : response.id = none := by
  have hbefore : ∀ {status : ℕ} {number : ℤ} {message : String},
      some (replyBefore status number message : Reply ρ) = some (.rpc code response) →
        response.id = none := by
    rintro status number message ⟨⟩
    rfl
  unfold beforeBody at h
  -- every branch but the last is one such reply
  repeat' first | exact hbefore h | split at h
  cases h

/-- **The id of a response is that of the decoded request, or of its refusal.** -/
theorem serve_id {handler : Handler ρ} {request : Request} {code : ℕ} {response : RPCResponse ρ}
    (h : serve handler request = .rpc code response) {value : Json Number}
    (hid : response.id = some value) :
    (∃ rpc, decodeMCPRequest handler.maxBodyBytes request.upload = .ok rpc ∧
        rpc.id = some value) ∨
      ∃ refusal, decodeMCPRequest handler.maxBodyBytes request.upload = .error refusal ∧
        refusal.id = some value := by
  unfold serve at h
  cases hs : serveHTTP handler request with
  | none =>
    rw [hs] at h
    cases h
    cases hid
  | some reply =>
    rw [hs, Option.getD_some] at h
    subst h
    unfold serveHTTP at hs
    cases hb : beforeBody (ρ := ρ) request with
    | some reply =>
      rw [hb] at hs
      cases hs
      have hnone := beforeBody_id hb
      rw [hnone] at hid
      cases hid
    | none =>
      rw [hb] at hs
      cases hd : decodeMCPRequest handler.maxBodyBytes request.upload with
      | error refusal =>
        rw [hd] at hs
        cases hs
        exact .inr ⟨refusal, rfl, hid⟩
      | ok rpc =>
        rw [hd] at hs
        dsimp only at hs
        split_ifs at hs
        · cases hs
          exact .inl ⟨rpc, rfl, hid⟩
        · have heq := dispatch_id hs
          exact .inl ⟨rpc, rfl, heq ▸ hid⟩

end Ids

/-! ### What the decoder accepts -/

section Decoding

variable {members : List (String × Json Number)} {bytes limit : ℕ} {body : Body}

/-- The id that the struct decoder is left with: that of the last member that goes to it. -/
def foldedID (members : List (String × Json Number)) : Option (Json Number) :=
  (assigned envelopeFields members "id").getLast?

/-- Members that the struct decoder takes, once names are folded. -/
structure Readable (members : List (String × Json Number)) : Prop where
  known : ∀ member ∈ members, (fieldOf envelopeFields member.1).isSome = true
  jsonrpc : (decodeString (assigned envelopeFields members "jsonrpc")).isSome = true
  method : (decodeString (assigned envelopeFields members "method")).isSome = true

/-- Members that make an envelope, once names are folded. -/
structure Lenient (members : List (String × Json Number)) : Prop where
  known : ∀ member ∈ members, (fieldOf envelopeFields member.1).isSome = true
  jsonrpc : decodeString (assigned envelopeFields members "jsonrpc") = some "2.0"
  method : ∃ method, decodeString (assigned envelopeFields members "method") = some method ∧
    method ≠ ""
  id : validMCPID (foldedID members) = true

theorem Lenient.readable (h : Lenient members) : Readable members := by
  obtain ⟨method, hmethod, -⟩ := h.method
  exact ⟨h.known, by rw [h.jsonrpc]; rfl, by rw [hmethod]; rfl⟩

theorem decodeStruct_eq_none : decodeStruct bytes members = none ↔ ¬ Readable members := by
  unfold decodeStruct
  constructor
  · intro h hr
    obtain ⟨jsonrpc, hj⟩ := Option.isSome_iff_exists.mp hr.jsonrpc
    obtain ⟨method, hm⟩ := Option.isSome_iff_exists.mp hr.method
    have hall := List.all_eq_true.mpr hr.known
    simp [hall, hj, hm] at h
  · intro h
    by_contra hne
    apply h
    dsimp only at hne
    split_ifs at hne with hall
    · refine ⟨List.all_eq_true.mp hall, ?_, ?_⟩
      · cases hj : decodeString (assigned envelopeFields members "jsonrpc") with
        | none => simp [hj] at hne
        | some jsonrpc => rfl
      · cases hm : decodeString (assigned envelopeFields members "method") with
        | none =>
          cases hj : decodeString (assigned envelopeFields members "jsonrpc") <;>
            simp [hj, hm] at hne
        | some method => rfl
    · exact absurd rfl hne

theorem decodeStruct_eq_some {rpc : RPCRequest} (h : decodeStruct bytes members = some rpc) :
    Readable members ∧ decodeString (assigned envelopeFields members "jsonrpc") = some rpc.jsonrpc ∧
      decodeString (assigned envelopeFields members "method") = some rpc.method ∧
      rpc.id = foldedID members := by
  have hr : Readable members := by
    by_contra hnot
    rw [decodeStruct_eq_none.mpr hnot] at h
    cases h
  obtain ⟨jsonrpc, hj⟩ := Option.isSome_iff_exists.mp hr.jsonrpc
  obtain ⟨method, hm⟩ := Option.isSome_iff_exists.mp hr.method
  have hall := List.all_eq_true.mpr hr.known
  simp [decodeStruct, hall, hj, hm] at h
  subst h
  exact ⟨hr, hj, hm, rfl⟩

theorem decodeMembers_of_not_readable (h : ¬ Readable members) :
    decodeMembers bytes members =
      .error (invalidRequest ((members.lookup "id").filter fun id => validMCPID (some id))) := by
  unfold decodeMembers
  rw [decodeStruct_eq_none.mpr h]

/-- What the second check lets through. -/
theorem lenient_iff_of_readable (hr : Readable members) {rpc : RPCRequest}
    (hs : decodeStruct bytes members = some rpc) :
    Lenient members ↔
      ¬ (rpc.jsonrpc ≠ "2.0" ∨ rpc.method = "" ∨ validMCPID rpc.id = false) := by
  obtain ⟨-, hj, hm, hid⟩ := decodeStruct_eq_some hs
  constructor
  · intro h hbad
    rcases hbad with hne | hempty | hinvalid
    · have heq := hj.symm.trans h.jsonrpc
      exact hne (Option.some.inj heq)
    · obtain ⟨method, hmethod, hne⟩ := h.method
      have heq := hm.symm.trans hmethod
      exact hne ((Option.some.inj heq).symm.trans hempty)
    · rw [hid, h.id] at hinvalid
      cases hinvalid
  · intro hok
    have hversion : rpc.jsonrpc = "2.0" := by
      by_contra hne
      exact hok (.inl hne)
    have hvalid : validMCPID (foldedID members) = true := by
      rw [← hid]
      by_contra hne
      exact hok (.inr (.inr (Bool.eq_false_iff.mpr hne)))
    exact ⟨hr.known, hversion ▸ hj, ⟨rpc.method, hm, fun hempty => hok (.inr (.inl hempty))⟩, hvalid⟩

theorem exists_decodeStruct (bytes : ℕ) (hr : Readable members) :
    ∃ rpc, decodeStruct bytes members = some rpc := by
  cases hs : decodeStruct bytes members with
  | none => exact absurd hr (decodeStruct_eq_none.mp hs)
  | some rpc => exact ⟨rpc, rfl⟩

theorem decodeMembers_of_lenient (bytes : ℕ) (h : Lenient members) :
    ∃ rpc, decodeMembers bytes members = .ok rpc ∧ rpc.id = foldedID members := by
  obtain ⟨rpc, hs⟩ := exists_decodeStruct bytes h.readable
  have hok := (lenient_iff_of_readable h.readable hs).mp h
  have hid := (decodeStruct_eq_some hs).2.2.2
  refine ⟨rpc, ?_, hid⟩
  unfold decodeMembers
  rw [hs]
  exact if_neg hok

theorem decodeMembers_of_not_lenient (hr : Readable members) (h : ¬ Lenient members) :
    decodeMembers bytes members =
      .error (invalidRequest
        (if validMCPID (foldedID members) = false then none else foldedID members)) := by
  obtain ⟨rpc, hs⟩ := exists_decodeStruct bytes hr
  have hbad := not_not.mp (mt (lenient_iff_of_readable hr hs).mpr h)
  have hid := (decodeStruct_eq_some hs).2.2.2
  unfold decodeMembers
  rw [hs]
  dsimp only
  rw [if_pos hbad, hid]

/-- Members that the decoder looks at. -/
def Looked (limit : ℕ) (body : Body) (members : List (String × Json Number)) : Prop :=
  body.document = some (.obj members) ∧
    (protocolJSONLimits limit).validate ⟨.obj members, body.bytes⟩ = true

theorem Looked.bytes_le (h : Looked limit body members) : body.bytes ≤ limit := by
  have hv := h.2
  unfold Limits.validate at hv
  simp only [Bool.and_eq_true, decide_eq_true_eq] at hv
  exact hv.1.1.1

theorem decodeMCPRequest_of_looked (h : Looked limit body members) (chunked : Bool) :
    decodeMCPRequest limit (.complete body chunked) = decodeMembers body.bytes members := by
  have hle := h.bytes_le
  have hlength : ¬ (limit : ℤ) < (Upload.complete body chunked).contentLength := by
    cases chunked
    · simpa [Upload.contentLength] using hle
    · simp only [Upload.contentLength, if_true]
      omega
  unfold decodeMCPRequest decodeBody
  rw [if_neg hlength]
  dsimp only
  rw [if_neg (by omega), h.1]
  dsimp only
  rw [h.2]
  rfl

/-- Every other body is refused without an id. -/
theorem decodeMCPRequest_of_not_looked (h : ∀ members, ¬ Looked limit body members)
    (chunked : Bool) :
    ∃ refusal, decodeMCPRequest limit (.complete body chunked) = .error refusal ∧
      refusal.id = none := by
  unfold decodeMCPRequest
  split_ifs
  · exact ⟨_, rfl, rfl⟩
  · dsimp only
    split_ifs
    · exact ⟨_, rfl, rfl⟩
    · unfold decodeBody
      cases hd : body.document with
      | none => exact ⟨_, rfl, rfl⟩
      | some value =>
        dsimp only
        split_ifs with hv
        · exact ⟨_, rfl, rfl⟩
        · cases value with
          | obj members => exact absurd ⟨hd, Bool.not_eq_false _ ▸ hv⟩ (h members)
          | _ => exact ⟨_, rfl, rfl⟩

end Decoding

/-! ### The two readings -/

section Readings

variable {members : List (String × Json Number)} {body : Body}

/-- The white space of JSON. -/
def isJSONSpace (c : Char) : Bool := c = ' ' || c = '\t' || c = '\n' || c = '\r'

/-- The value of the member that has a name exactly. -/
def Body.member (body : Body) (name : String) : Option (Json Number) :=
  match body.document with
  | some (.obj members) => members.lookup name
  | _ => none

/-- One JSON object without duplicate names that is a JSON-RPC request or notification. -/
structure WellFormed (body : Body) (members : List (String × Json Number)) : Prop where
  document : body.document = some (.obj members)
  space : body.space.all isJSONSpace = true
  distinct : distinct (.obj members) = true
  named : ∀ member ∈ members, member.1 ∈ envelopeFields
  version : members.lookup "jsonrpc" = some (.str "2.0")
  method : ∃ method, members.lookup "method" = some (.str method) ∧ method ≠ ""
  id : ∀ value, members.lookup "id" = some value →
    (∃ s, value = .str s) ∨ ∃ n, value = .num n ∧ n.integer = true

/-- A body within the limits on its bytes, its nesting and its values. -/
structure Within (limit : ℕ) (body : Body) : Prop where
  bytes : body.bytes ≤ limit
  document : ∀ value, body.document = some value →
    depth value ≤ (protocolJSONLimits limit).maxDepth ∧
      nodes value ≤ (protocolJSONLimits limit).maxNodes

/-- The endpoint accepts the bodies that are well formed, and answers under the id that the body
has, if it answers under one. -/
structure Faithful (handler : Handler ρ) (body : Body) : Prop where
  accepts : Within handler.maxBodyBytes body → ∀ chunked,
    (decodeMCPRequest handler.maxBodyBytes (.complete body chunked)).isOk = true ↔
      ∃ members, WellFormed body members
  ids : ∀ request chunked, request.upload = .complete body chunked → ∀ code response,
    serve handler request = .rpc code response → ∀ value, response.id = some value →
      body.member "id" = some value

/-- The struct decoder does not mix names up: what it takes for an envelope has no member under
another name and no white space around it but JSON's, and the id it refuses another body under is
that of the member named `id`. -/
structure Unmixed (limit : ℕ) (body : Body) : Prop where
  accepted : ∀ members, Looked limit body members → Lenient members →
    body.space.all isJSONSpace = true ∧ ∀ member ∈ members, member.1 ∈ envelopeFields
  refused : ∀ members, Looked limit body members → Readable members → ¬ Lenient members →
    validMCPID (foldedID members) = true →
      foldedID members = none ∨ foldedID members = members.lookup "id"

theorem Looked.within {limit : ℕ} (h : Looked limit body members) : Within limit body := by
  have hv := h.2
  unfold Limits.validate at hv
  simp only [Bool.and_eq_true, decide_eq_true_eq] at hv
  refine ⟨hv.1.1.1, fun value hvalue => ?_⟩
  cases h.1.symm.trans hvalue
  exact ⟨hv.1.1.2, hv.1.2⟩

theorem WellFormed.looked {limit : ℕ} (h : WellFormed body members) (hw : Within limit body) :
    Looked limit body members := by
  obtain ⟨hdepth, hnodes⟩ := hw.document _ h.document
  refine ⟨h.document, ?_⟩
  unfold Limits.validate
  simp only [Bool.and_eq_true, decide_eq_true_eq]
  exact ⟨⟨⟨hw.bytes, hdepth⟩, hnodes⟩, h.distinct⟩

theorem exact_of_named (h : ∀ member ∈ members, member.1 ∈ envelopeFields) :
    ∀ member ∈ members, fieldOf envelopeFields member.1 = some member.1 :=
  fun member hmember => fieldOf_of_mem (h member hmember)

theorem foldedID_of_named (hnodup : (members.map Prod.fst).Nodup)
    (h : ∀ member ∈ members, member.1 ∈ envelopeFields) :
    foldedID members = members.lookup "id" := by
  unfold foldedID
  rw [assigned_eq_lookup hnodup (exact_of_named h)]
  cases members.lookup "id" <;> rfl

/-- A text that is not empty is that of the member. -/
theorem decodeString_toList_eq {found : Option (Json Number)} {s : String} (hs : s ≠ "") :
    decodeString found.toList = some s ↔ found = some (.str s) := by
  rw [decodeString_toList]
  cases found with
  | none => simp [hs.symm]
  | some value => cases value <;> simp [textual, text?, hs.symm]

/-- Without folding, the struct decoder takes for an envelope what is one. -/
theorem lenient_iff_wellFormed {limit : ℕ} (hl : Looked limit body members)
    (hspace : body.space.all isJSONSpace = true)
    (hnamed : ∀ member ∈ members, member.1 ∈ envelopeFields) :
    Lenient members ↔ WellFormed body members := by
  have hnodup := nodup_of_validate hl.2
  have hassigned := assigned_eq_lookup hnodup (exact_of_named hnamed)
  have hid := foldedID_of_named hnodup hnamed
  have hdistinct : distinct (.obj members) = true := (Bool.and_eq_true_iff.mp hl.2).2
  constructor
  · intro h
    have hversion := h.jsonrpc
    rw [hassigned, decodeString_toList_eq (by decide)] at hversion
    obtain ⟨method, hmethod, hne⟩ := h.method
    rw [hassigned, decodeString_toList_eq hne] at hmethod
    have hvalid := h.id
    rw [hid, validMCPID_iff] at hvalid
    exact ⟨hl.1, hspace, hdistinct, hnamed, hversion, ⟨method, hmethod, hne⟩, hvalid⟩
  · intro h
    have hknown : ∀ member ∈ members, (fieldOf envelopeFields member.1).isSome = true := by
      intro member hmember
      rw [exact_of_named hnamed member hmember]
      rfl
    obtain ⟨method, hmethod, hne⟩ := h.method
    refine ⟨hknown, ?_, ⟨method, ?_, hne⟩, ?_⟩
    · rw [hassigned, decodeString_toList_eq (by decide)]
      exact h.version
    · rw [hassigned, decodeString_toList_eq hne]
      exact hmethod
    · rw [hid, validMCPID_iff]
      exact h.id

theorem Looked.member {limit : ℕ} (h : Looked limit body members) :
    body.member "id" = members.lookup "id" := by
  unfold Body.member
  rw [h.1]

theorem Looked.unique {limit : ℕ} {others : List (String × Json Number)}
    (h : Looked limit body members) (h' : Looked limit body others) : members = others := by
  cases h.1.symm.trans h'.1
  rfl

/-- A request that passes everything before its body. -/
def plainRequest (body : Body) : Request := { upload := .complete body false }

theorem serve_plainRequest {handler : Handler ρ} {refusal : Refusal}
    (h : decodeMCPRequest handler.maxBodyBytes (.complete body false) = .error refusal) :
    serve handler (plainRequest body) =
      .rpc refusal.status { id := refusal.id, content := .error refusal.err } := by
  unfold serve serveHTTP
  have hbefore : beforeBody (ρ := ρ) (plainRequest body) = none := rfl
  have hupload : (plainRequest body).upload = .complete body false := rfl
  rw [hbefore, hupload, h]
  rfl

theorem isOk_decode_iff {limit : ℕ} (hl : Looked limit body members) (chunked : Bool) :
    (decodeMCPRequest limit (.complete body chunked)).isOk = true ↔ Lenient members := by
  rw [decodeMCPRequest_of_looked hl]
  by_cases hlenient : Lenient members
  · obtain ⟨rpc, hd, -⟩ := decodeMembers_of_lenient body.bytes hlenient
    rw [hd]
    exact iff_of_true rfl hlenient
  · refine iff_of_false ?_ hlenient
    by_cases hr : Readable members
    · rw [decodeMembers_of_not_lenient hr hlenient]
      exact Bool.false_ne_true
    · rw [decodeMembers_of_not_readable hr]
      exact Bool.false_ne_true

theorem unmixed_of_faithful {handler : Handler ρ} (h : Faithful handler body) :
    Unmixed handler.maxBodyBytes body := by
  constructor
  · intro members hl hlenient
    have hok := (isOk_decode_iff hl false).mpr hlenient
    obtain ⟨others, hw⟩ := (h.accepts hl.within false).mp hok
    cases hl.unique (hw.looked hl.within)
    exact ⟨hw.space, hw.named⟩
  · intro members hl hr hlenient hvalid
    have hd := (decodeMCPRequest_of_looked hl false).trans (decodeMembers_of_not_lenient hr hlenient)
    rw [if_neg (by simp [hvalid])] at hd
    have hserve := serve_plainRequest hd
    cases hid : foldedID members with
    | none => exact .inl rfl
    | some value =>
      have hmember := h.ids (plainRequest body) false rfl _ _ hserve value hid
      rw [hl.member] at hmember
      exact .inr hmember.symm

theorem faithful_of_unmixed {handler : Handler ρ} (h : Unmixed handler.maxBodyBytes body) :
    Faithful handler body := by
  constructor
  · intro hwithin chunked
    by_cases hlooked : ∃ members, Looked handler.maxBodyBytes body members
    · obtain ⟨members, hl⟩ := hlooked
      rw [isOk_decode_iff hl]
      constructor
      · intro hlenient
        obtain ⟨hspace, hnamed⟩ := h.accepted members hl hlenient
        exact ⟨members, (lenient_iff_wellFormed hl hspace hnamed).mp hlenient⟩
      · rintro ⟨others, hw⟩
        cases hl.unique (hw.looked hwithin)
        exact (lenient_iff_wellFormed hl hw.space hw.named).mpr hw
    · obtain ⟨refusal, hd, -⟩ :=
        decodeMCPRequest_of_not_looked (fun members hl => hlooked ⟨members, hl⟩) chunked
      rw [hd]
      refine iff_of_false Bool.false_ne_true ?_
      rintro ⟨members, hw⟩
      exact hlooked ⟨members, hw.looked hwithin⟩
  · intro request chunked hupload code response hserve value hid
    have hcases := serve_id hserve hid
    rw [hupload] at hcases
    by_cases hlooked : ∃ members, Looked handler.maxBodyBytes body members
    · obtain ⟨members, hl⟩ := hlooked
      have hnodup := nodup_of_validate hl.2
      rw [decodeMCPRequest_of_looked hl] at hcases
      rw [hl.member]
      by_cases hlenient : Lenient members
      · obtain ⟨rpc, hd, hfolded⟩ := decodeMembers_of_lenient body.bytes hlenient
        have hnamed := (h.accepted members hl hlenient).2
        rw [foldedID_of_named hnodup hnamed] at hfolded
        rw [hd] at hcases
        rcases hcases with ⟨found, hfound, hvalue⟩ | ⟨refusal, herror, -⟩
        · cases hfound
          exact hfolded ▸ hvalue
        · cases herror
      · by_cases hr : Readable members
        · rw [decodeMembers_of_not_lenient hr hlenient] at hcases
          rcases hcases with ⟨found, hfound, -⟩ | ⟨refusal, herror, hvalue⟩
          · cases hfound
          · cases herror
            by_cases hvalid : validMCPID (foldedID members) = true
            · rw [if_neg (by simp [hvalid])] at hvalue
              have hvalue : foldedID members = some value := hvalue
              rcases h.refused members hl hr hlenient hvalid with hnone | heq
              · cases hnone.symm.trans hvalue
              · exact heq ▸ hvalue
            · rw [if_pos (by simpa using hvalid)] at hvalue
              cases hvalue
        · rw [decodeMembers_of_not_readable hr] at hcases
          rcases hcases with ⟨found, hfound, -⟩ | ⟨refusal, herror, hvalue⟩
          · cases hfound
          · cases herror
            exact (Option.filter_eq_some_iff.mp hvalue).1
    · obtain ⟨refusal, hd, hnone⟩ :=
        decodeMCPRequest_of_not_looked (fun members hl => hlooked ⟨members, hl⟩) chunked
      rw [hd] at hcases
      rcases hcases with ⟨found, hfound, -⟩ | ⟨found, herror, hvalue⟩
      · cases hfound
      · cases herror
        cases hnone.symm.trans hvalue

/-- **The endpoint reads an envelope as it stands, and answers under its own id, exactly when its
struct decoder mixes no names up.** -/
theorem envelope_faithful_iff (handler : Handler ρ) (body : Body) :
    Faithful handler body ↔ Unmixed handler.maxBodyBytes body :=
  ⟨unmixed_of_faithful, faithful_of_unmixed⟩

/-- The number `7`. -/
def seven : Number where
  negative := false
  whole := ['7']
  fraction := none
  exponent := none
  whole_valid := rfl
  fraction_valid := Number.fraction_none
  exponent_valid := Number.exponent_none

/-- `{"jsonrpc":"2.0","method":"ping","ID":7}`. -/
def shoutedID : Body where
  bytes := 40
  document := some (.obj [("jsonrpc", .str "2.0"), ("method", .str "ping"), ("ID", .num seven)])

/-- An endpoint with the default limit and no tools. -/
def sampleHandler : Handler Unit := ⟨2097152, (), (), (), [], fun _ _ => none⟩

/-- A request without a member `id` is answered under the id of its member `ID`. -/
theorem folded_id_answered :
    serve sampleHandler (plainRequest shoutedID) =
        .rpc 200 { id := some (.num seven), content := .result () } ∧
      ¬ Faithful sampleHandler shoutedID := by
  have hserve : serve sampleHandler (plainRequest shoutedID) =
      .rpc 200 { id := some (.num seven), content := .result () } := by rfl
  refine ⟨hserve, fun h => ?_⟩
  have hmember := h.ids _ _ rfl _ _ hserve _ rfl
  cases hmember

end Readings

end Modary.Transport.Envelope
