import Modary.Lib.JsonText
import Modary.Lib.Timestamp

/-! # Enqueuing tasks

A task request from `NormalizeRequest` to the job that a handler is given. River is a parameter: the
numbers that its column takes, and the text that it reads back for a stored document. -/

namespace Modary.Governed.Enqueue

open Modary.Lib.GoText Modary.Lib.JsonNumber Modary.Lib.JsonValue Modary.Lib.JsonText
open Modary.Lib.Timestamp

/-! ### Requests -/

def maxPayloadBytes : ℕ := 1048576

def defaultQueue : GoString := "default"

def defaultMaxAttempts : ℤ := 3

/-- A `time.Time`: its instant, and the offset of its location in seconds. -/
structure Time where
  nanos : ℤ
  offset : ℤ
  deriving DecidableEq, Repr

namespace Time

variable (t : Time)

/-- `Year`. -/
def year : ℤ := (civil ((t.nanos / nanosPerSecond + t.offset) / secondsPerDay)).year

/-- `UTC`. -/
def utc : Time := { t with offset := 0 }

end Time

/-- `Request`. -/
structure Request where
  kind : GoString
  payload : GoString
  queue : GoString
  maxAttempts : ℤ
  scheduledAt : Time
  uniqueKey : GoString
  deriving DecidableEq

/-- The errors of a request. -/
inductive RequestError
  | message (text : String)
  | quoted (before : String) (value : GoString) (after : String)
  | payloadExceeds (bytes : ℕ)
  deriving DecidableEq

/-- `[a-z0-9._-]`. -/
def kindRune (c : Char) : Bool := isLower c || isDigit c || c = '.' || c = '_' || c = '-'

/-- `validKind`; the pattern is `^[a-z][a-z0-9._-]{0,126}$`. -/
def validKind (value : GoString) : Bool :=
  value.validString && matchToken isLower kindRune 126 value.runes

/-- `[a-z0-9]`. -/
def queueRune (c : Char) : Bool := isLower c || isDigit c

/-- `(?:[_-]?[a-z0-9]+)*$`. -/
def matchQueueTail : List Char → Bool
  | [] => true
  | [c] => queueRune c
  | c :: d :: cs =>
    if c = '_' ∨ c = '-' then queueRune d && matchQueueTail cs
    else queueRune c && matchQueueTail (d :: cs)

/-- `^[a-z0-9]+(?:[_-]?[a-z0-9]+)*$`. -/
def matchQueue : List Char → Bool
  | [] => false
  | c :: cs => queueRune c && matchQueueTail cs

/-- `len`. -/
def len (value : GoString) : ℕ := byteSize (runesOf value)

/-- `validQueue`. -/
def validQueue (value : GoString) : Bool :=
  value.validString && len value ≤ 64 && matchQueue value.runes

/-- The check of a unique key. -/
def validUniqueKey (value : GoString) : Bool :=
  value.validString && len value ≤ 256 && trimSpace value.runes = value.runes &&
    !value.runes.any isControl

/-- `NormalizeRequest`. -/
def normalizeRequest (request : Request) : Except RequestError Request := do
  refuseIf (validKind request.kind = false) (.quoted "task kind " request.kind " is invalid")
  let request := { request with
    queue := if len request.queue = 0 then defaultQueue else request.queue }
  refuseIf (validQueue request.queue = false) (.quoted "task queue " request.queue " is invalid")
  refuseIf (request.maxAttempts < 0) (.message "task maximum attempts cannot be negative")
  let request := { request with
    maxAttempts := if request.maxAttempts = 0 then defaultMaxAttempts else request.maxAttempts }
  refuseIf (1000 < request.maxAttempts) (.message "task maximum attempts cannot exceed 1000")
  refuseIf (request.scheduledAt.year < 0 ∨ 9999 < request.scheduledAt.year)
    (.message "task schedule is outside the supported time range")
  refuseIf (validUniqueKey request.uniqueKey = false)
    (.message ("task unique key must be valid UTF-8, at most 256 bytes, and contain no control " ++
      "or surrounding whitespace"))
  let request := { request with
    payload := if len request.payload = 0 then "\x7b\x7d" else request.payload }
  refuseIf (maxPayloadBytes < len request.payload) (.payloadExceeds maxPayloadBytes)
  refuseIf ((parse request.payload).isNone) (.message "task payload must be valid JSON")
  return { request with scheduledAt := request.scheduledAt.utc }

/-! ### Envelopes -/

/-- The names of the fields of `taskEnvelope`. -/
def envelopeFields : List String := ["kind", "payload", "unique_key"]

/-- `json.Marshal` of a `taskEnvelope` whose payload is the text of this document. -/
def marshal (kind : GoString) (payload : Doc) (uniqueKey : GoString) : Doc :=
  .obj ([(encodeText "kind", .str (encodeText kind)), (encodeText "payload", compact payload)] ++
    if len uniqueKey = 0 then [] else [(encodeText "unique_key", .str (encodeText uniqueKey))])

/-- `taskEnvelope` as it is read back; its payload is nil when it has no such member. -/
structure TaskEnvelope where
  taskKind : String := ""
  payload : Option Doc := none
  uniqueKey : String := ""

/-- One member of the document goes to its field. -/
def assignMember (envelope : TaskEnvelope) (member : List Item × Doc) : Option TaskEnvelope :=
  match fieldOf envelopeFields (textOf member.1) with
  | some "kind" =>
    (assignString envelope.taskKind (meaning member.2)).map fun kind =>
      { envelope with taskKind := kind }
  | some "payload" => some { envelope with payload := some member.2 }
  | some "unique_key" =>
    (assignString envelope.uniqueKey (meaning member.2)).map fun key =>
      { envelope with uniqueKey := key }
  | _ => some envelope

/-- `json.Unmarshal` into a `taskEnvelope`. -/
def unmarshal (doc : Doc) : Option TaskEnvelope :=
  if maxNestingDepth < doc.depth then none
  else
    match doc with
    | .null => some {}
    | .obj members => members.foldlM assignMember {}
    | _ => none

/-! ### River -/

/-- River over PostgreSQL: the numbers that a `jsonb` column takes, and the text it gives back. -/
structure River where
  inRange : Number → Bool
  readBack : Doc → Doc

/-- What a column of type `jsonb` keeps of a document: its value, in a text with one member of each
name that nests as deep as the value. -/
structure River.Keeps (river : River) : Prop where
  value : ∀ doc, storable river.inRange doc = true →
    alike (meaning (river.readBack doc)) (meaning doc) = true
  names : ∀ doc members, storable river.inRange doc = true → river.readBack doc = .obj members →
    (members.map fun member => textOf member.1).Nodup
  depth : ∀ doc, storable river.inRange doc = true →
    (river.readBack doc).depth = depth (meaning doc)

/-- A row of the job table. -/
structure JobRow where
  id : ℤ
  args : Doc
  queue : GoString
  maxAttempts : ℤ
  scheduledAt : Time

/-- `InsertOpts`. -/
structure InsertOpts where
  queue : GoString
  maxAttempts : ℤ
  scheduledAt : Time
  byArgs : Bool

/-- The table that a job is inserted into: its next id, and the job that the unique index holds for
the same kind and key. -/
structure Table where
  nextID : ℤ
  held : Option ℤ

/-- `Receipt`. -/
structure Receipt where
  id : ℤ
  duplicateSuppressed : Bool
  deriving DecidableEq, Repr

/-- `InsertTx`: the receipt and the row that is inserted; `none` when the database refuses it. -/
def insertTx (river : River) (table : Table) (args : Doc) (opts : InsertOpts) :
    Option (Receipt × Option JobRow) :=
  if storable river.inRange args then
    match opts.byArgs, table.held with
    | true, some id => some (⟨id, true⟩, none)
    | _, _ =>
      some (⟨table.nextID, false⟩,
        some ⟨table.nextID, args, opts.queue, opts.maxAttempts, opts.scheduledAt⟩)
  else none

/-! ### The service -/

/-- What `Enqueue` finds: its context, the service, and the transaction of the context. -/
structure Site where
  context : Bool
  installed : Bool
  closed : Bool
  /-- the error of `backend.transaction`, and whether it is `ErrTransactionRequired` -/
  transaction : Except Bool Unit

/-- A governed transaction on a service that is open. -/
def Site.healthy : Site := ⟨true, true, false, .ok ()⟩

/-- The errors of `Enqueue`. -/
inductive EnqueueError
  | message (text : String)
  | unavailable
  | request (err : RequestError)
  | transactionRequired
  | resolveTransaction
  | insert
  deriving DecidableEq

/-- `Enqueue`. -/
def enqueue (river : River) (table : Table) (site : Site) (request : Request) :
    Except EnqueueError (Receipt × Option JobRow) := do
  refuseIf (site.context = false) (.message "task enqueue context is required")
  refuseIf (site.installed = false ∨ site.closed = true) .unavailable
  let normalized ← (normalizeRequest request).mapError .request
  site.transaction.mapError fun required =>
    if required then .transactionRequired else .resolveTransaction
  let opts : InsertOpts :=
    { queue := normalized.queue, maxAttempts := normalized.maxAttempts,
      scheduledAt := normalized.scheduledAt, byArgs := len normalized.uniqueKey ≠ 0 }
  let inserted := (parse normalized.payload).bind fun payload =>
    insertTx river table (marshal normalized.kind payload normalized.uniqueKey) opts
  match inserted with
  | some result => return result
  | none => .error .insert

/-- `Job`. -/
structure Job where
  id : ℤ
  kind : String
  payload : Option Doc
  queue : GoString
  attempt : ℤ
  maxAttempts : ℤ

/-- `envelopeWorker.Work` on an attempt of a row: the job that the handler is given, if River can
read the arguments. -/
def work (river : River) (row : JobRow) (attempt : ℤ) : Option Job :=
  (unmarshal (river.readBack row.args)).map fun envelope =>
    { id := row.id, kind := envelope.taskKind, payload := envelope.payload, queue := row.queue,
      attempt := attempt, maxAttempts := row.maxAttempts }

/-! ### Accepted requests -/

theorem normalizeRequest_ok {request normalized : Request}
    (h : normalizeRequest request = .ok normalized) :
    validKind request.kind = true ∧ validUniqueKey request.uniqueKey = true ∧
      (parse normalized.payload).isSome = true ∧ normalized.kind = request.kind ∧
      normalized.queue = (if len request.queue = 0 then defaultQueue else request.queue) ∧
      normalized.maxAttempts =
        (if request.maxAttempts = 0 then defaultMaxAttempts else request.maxAttempts) ∧
      normalized.payload = (if len request.payload = 0 then .utf8 "\x7b\x7d" else request.payload) ∧
      normalized.uniqueKey = request.uniqueKey := by
  simp only [normalizeRequest, bind_eq_ok] at h
  obtain ⟨_, hkind, _, -, _, -, _, -, _, -, _, hunique, _, -, _, hparse, h⟩ := h
  cases h
  have hkind := refuseIf_eq_ok.mp hkind
  have hunique := refuseIf_eq_ok.mp hunique
  have hparse := refuseIf_eq_ok.mp hparse
  refine ⟨by simpa using hkind, by simpa using hunique, ?_, rfl, rfl, rfl, rfl, rfl⟩
  simpa [Option.isSome_iff_ne_none] using hparse

/-- A rune without control characters is not the null character. -/
theorem toNat_ne_zero_of_not_isControl {c : Char} (h : isControl c = false) : c.toNat ≠ 0 := by
  intro hzero
  rw [isControl, hzero] at h
  simp at h

theorem toNat_ne_zero_of_kindRune {c : Char} (h : kindRune c = true) : c.toNat ≠ 0 := by
  intro hzero
  have hc : c = Char.ofNat 0 := by
    rw [← hzero]
    exact (Char.ofNat_toNat c).symm
  rw [hc] at h
  exact absurd h (by decide)

/-- The kind of an accepted request is text without null characters. -/
theorem storableString_kind {kind : GoString} (h : validKind kind = true) :
    ∃ s : String, kind = s ∧ storableString (encodeText kind) = true := by
  cases kind with
  | raw units => simp [validKind, GoString.validString] at h
  | utf8 s =>
    refine ⟨s, rfl, storableString_encodeText ?_⟩
    intro c hc
    rw [validKind, Bool.and_eq_true] at h
    have htoken : matchToken isLower kindRune 126 s.toList = true := h.2
    cases hs : s.toList with
    | nil => rw [hs] at hc; cases hc
    | cons first rest =>
      rw [hs] at hc htoken
      simp only [matchToken, Bool.and_eq_true, List.all_eq_true] at htoken
      rcases List.mem_cons.mp hc with rfl | hrest
      · have hlower : kindRune c = true := by
          rw [kindRune, htoken.1.1]
          rfl
        exact toNat_ne_zero_of_kindRune hlower
      · exact toNat_ne_zero_of_kindRune (htoken.1.2 c hrest)

/-- The unique key of an accepted request is text without null characters. -/
theorem storableString_uniqueKey {key : GoString} (h : validUniqueKey key = true) :
    storableString (encodeText key) = true := by
  cases key with
  | raw units => simp [validUniqueKey, GoString.validString] at h
  | utf8 s =>
    rw [validUniqueKey, Bool.and_eq_true] at h
    refine storableString_encodeText ?_
    intro c hc
    have hall : s.toList.any isControl = false := by simpa [GoString.runes] using h.2
    have hcontrol : isControl c = false := by
      rw [List.any_eq_false] at hall
      simpa using hall c hc
    exact toNat_ne_zero_of_not_isControl hcontrol

/-- The envelope of an accepted request is stored when its payload is. -/
theorem storable_marshal (inRange : Number → Bool) (payload : Doc) {kind uniqueKey : GoString}
    (hkind : validKind kind = true) (hkey : validUniqueKey uniqueKey = true) :
    storable inRange (marshal kind payload uniqueKey) = storable inRange payload := by
  obtain ⟨_, -, hkind⟩ := storableString_kind hkind
  have hkey := storableString_uniqueKey hkey
  have hnames : storableString (encodeText "kind") = true ∧
      storableString (encodeText "payload") = true ∧
      storableString (encodeText "unique_key") = true := by decide
  unfold marshal
  split_ifs
  · simp only [storable, storableMembers, List.append_nil, hkind, hnames.1, hnames.2.1,
      storable_compact, Bool.true_and, Bool.and_true]
  · simp only [storable, storableMembers, List.cons_append, List.nil_append, hkind, hkey, hnames.1,
      hnames.2.1, hnames.2.2, storable_compact, Bool.true_and, Bool.and_true]

/-! ### Envelopes that are read back -/

/-- What the members that are read so far have made of an envelope: each field has the last member
of its name. -/
theorem unmarshal_fields {members : List (List Item × Doc)} {envelope : TaskEnvelope}
    (hnames : ∀ member ∈ members, textOf member.1 ∈ envelopeFields)
    (h : members.foldlM assignMember {} = some envelope) :
    envelope.payload = ((members.filter fun member => textOf member.1 = "payload").map
        Prod.snd).getLast? ∧
      ∀ doc s, ((members.filter fun member => textOf member.1 = "kind").map Prod.snd).getLast? =
        some doc → meaning doc = .str s → envelope.taskKind = s := by
  induction members using List.reverseRecOn generalizing envelope with
  | nil =>
    cases h
    exact ⟨rfl, fun doc s hdoc => by cases hdoc⟩
  | append_singleton members member ih =>
    rw [List.foldlM_append] at h
    obtain ⟨before, hbefore, hmember⟩ := Option.bind_eq_some_iff.mp h
    have hmember : assignMember before member = some envelope := by simpa using hmember
    have ih := ih (fun other hother => hnames other (List.mem_append_left _ hother)) hbefore
    have hname := hnames member (List.mem_append_right _ List.mem_cons_self)
    rw [assignMember, fieldOf_of_mem hname] at hmember
    simp only [List.filter_append, List.map_append]
    simp only [envelopeFields, List.mem_cons, List.not_mem_nil, or_false] at hname
    rcases hname with heq | heq | heq
    · simp only [heq] at hmember
      obtain ⟨kind, hkind, rfl⟩ := Option.map_eq_some_iff.mp hmember
      refine ⟨by simpa [heq] using ih.1, ?_⟩
      intro doc s hdoc hs
      have hdoc : member.2 = doc := by simpa [heq] using hdoc
      rw [hdoc, hs] at hkind
      exact (Option.some.inj hkind).symm
    · simp only [heq] at hmember
      cases hmember
      refine ⟨by simp [heq], ?_⟩
      intro doc s hdoc hs
      exact ih.2 doc s (by simpa [heq] using hdoc) hs
    · simp only [heq] at hmember
      obtain ⟨key, -, rfl⟩ := Option.map_eq_some_iff.mp hmember
      refine ⟨by simpa [heq] using ih.1, ?_⟩
      intro doc s hdoc hs
      exact ih.2 doc s (by simpa [heq] using hdoc) hs

/-- The members that `marshal` writes are those of the fields, all but the payload texts. -/
theorem names_marshal (kind uniqueKey : GoString) (payload : Doc) :
    ∃ others, meaning (marshal kind payload uniqueKey) = .obj others ∧
      others.lookup "kind" = some (.str (textOf (encodeText kind))) ∧
      others.lookup "payload" = some (meaning payload) ∧
      depthOfMembers others = depth (meaning payload) ∧
      ∀ member ∈ others, member.1 ∈ envelopeFields ∧
        (member.1 = "payload" ∨ ∃ s, member.2 = .str s) := by
  have htexts : textOf (encodeText "kind") = "kind" ∧ textOf (encodeText "payload") = "payload" ∧
      textOf (encodeText "unique_key") = "unique_key" :=
    ⟨textOf_encodeText _, textOf_encodeText _, textOf_encodeText _⟩
  unfold marshal
  split_ifs
  · refine ⟨_, rfl, ?_⟩
    simp [memberMeanings, meaning, htexts, lastMembers, meaning_compact, lookup_cons_if,
      envelopeFields, depthOfMembers, depth]
  · refine ⟨_, rfl, ?_⟩
    simp [memberMeanings, meaning, htexts, lastMembers, meaning_compact, lookup_cons_if,
      envelopeFields, depthOfMembers, depth]

/-- Members whose texts stand where a text belongs are assigned. -/
theorem exists_assignMember : ∀ {members : List (List Item × Doc)} (envelope : TaskEnvelope),
    (∀ member ∈ members, textOf member.1 ∈ envelopeFields ∧
      (textOf member.1 = "payload" ∨ ∃ s, meaning member.2 = .str s)) →
    ∃ read, members.foldlM assignMember envelope = some read
  | [], envelope, _ => ⟨envelope, rfl⟩
  | member :: members, envelope, h => by
    obtain ⟨hname, htext⟩ := h member List.mem_cons_self
    obtain ⟨next, hnext⟩ : ∃ next, assignMember envelope member = some next := by
      rw [assignMember, fieldOf_of_mem hname]
      simp only [envelopeFields, List.mem_cons, List.not_mem_nil, or_false] at hname
      rcases hname with heq | heq | heq <;> rw [heq]
      · obtain ⟨s, hs⟩ := htext.resolve_left (by rw [heq]; decide)
        exact ⟨_, by rw [hs]; rfl⟩
      · exact ⟨_, rfl⟩
      · obtain ⟨s, hs⟩ := htext.resolve_left (by rw [heq]; decide)
        exact ⟨_, by rw [hs]; rfl⟩
    obtain ⟨read, hread⟩ := exists_assignMember next
      fun other hother => h other (List.mem_cons_of_mem _ hother)
    exact ⟨read, by rw [List.foldlM_cons, hnext]; exact hread⟩

/-- A member of a document with the value of an envelope stands for one of the envelope. -/
theorem exists_member_of_alike {members : List (List Item × Doc)} {others : List (String × Json ℚ)}
    (halike : alike (.obj (lastMembers (memberMeanings members))) (.obj others) = true)
    {member : List Item × Doc} (hmember : member ∈ members) :
    ∃ value other, (textOf member.1, value) ∈ lastMembers (memberMeanings members) ∧
      (textOf member.1, other) ∈ others ∧ alike value other = true := by
  have hmem : textOf member.1 ∈ (lastMembers (memberMeanings members)).map Prod.fst := by
    rw [mem_names_lastMembers, memberMeanings_eq_map, List.map_map]
    exact List.mem_map_of_mem hmember
  obtain ⟨⟨name, value⟩, hvalue, rfl⟩ := List.mem_map.mp hmem
  have hmembers : alikeMembers _ others = true := (Bool.and_eq_true_iff.mp halike).1
  obtain ⟨other, hother, hlike⟩ := lookup_of_alikeMembers hmembers hvalue
  exact ⟨value, other, hvalue, mem_of_lookup hother, hlike⟩

/-- A text with the value of an envelope and one member of each name is read when it does not nest
too deep. -/
theorem unmarshal_isSome {doc payload : Doc} {kind uniqueKey : GoString}
    (halike : alike (meaning doc) (meaning (marshal kind payload uniqueKey)) = true)
    (hnames : ∀ members, doc = .obj members →
      (members.map fun member => textOf member.1).Nodup)
    (hdepth : doc.depth ≤ maxNestingDepth) : ∃ envelope, unmarshal doc = some envelope := by
  obtain ⟨others, hothers, -, -, -, hfields⟩ := names_marshal kind uniqueKey payload
  rw [hothers] at halike
  unfold unmarshal
  rw [if_neg (not_lt.mpr hdepth)]
  cases doc with
  | obj members =>
    refine exists_assignMember {} fun member hmember => ?_
    obtain ⟨value, other, hvalue, hother, hlike⟩ := exists_member_of_alike halike hmember
    obtain ⟨hfield, htext⟩ := hfields _ hother
    refine ⟨hfield, htext.imp_right ?_⟩
    rintro ⟨s, rfl⟩
    have hin := (lastMembers_sublist _).subset hvalue
    rw [memberMeanings_eq_map] at hin
    obtain ⟨found, hfound, heq⟩ := List.mem_map.mp hin
    obtain ⟨hname, rfl⟩ := Prod.mk.inj heq
    have hsame : found = member :=
      List.inj_on_of_nodup_map (hnames members rfl) hfound hmember hname
    rw [← hsame]
    exact ⟨s, eq_of_alike_str hlike⟩
  | _ =>
    obtain ⟨members, hmembers⟩ := exists_of_alike_obj halike
    cases hmembers

/-- **A document with the value of an envelope is read as that envelope.** -/
theorem unmarshal_of_alike {doc payload : Doc} {kind : String} {uniqueKey : GoString}
    {envelope : TaskEnvelope}
    (halike : alike (meaning doc) (meaning (marshal kind payload uniqueKey)) = true)
    (h : unmarshal doc = some envelope) :
    envelope.taskKind = kind ∧
      ∃ read, envelope.payload = some read ∧ alike (meaning read) (meaning payload) = true := by
  obtain ⟨others, hothers, hkind, hpayload, -, hfields⟩ :=
    names_marshal kind uniqueKey payload
  rw [hothers] at halike
  unfold unmarshal at h
  split_ifs at h
  cases doc with
  | obj members =>
    have hread : members.foldlM assignMember {} = some envelope := h
    rw [meaning] at halike
    have hnames : ∀ member ∈ members, textOf member.1 ∈ envelopeFields := by
      intro member hmember
      obtain ⟨value, other, -, hother, -⟩ := exists_member_of_alike halike hmember
      exact (hfields _ hother).1
    obtain ⟨hlastPayload, hlastKind⟩ := unmarshal_fields hnames hread
    obtain ⟨kindValue, hkindValue, hkindAlike⟩ := lookup_of_alike halike hkind
    obtain ⟨payloadValue, hpayloadValue, hpayloadAlike⟩ := lookup_of_alike halike hpayload
    rw [lookup_meaning, Option.map_eq_some_iff] at hkindValue hpayloadValue
    obtain ⟨kindDoc, hkindDoc, rfl⟩ := hkindValue
    obtain ⟨payloadDoc, hpayloadDoc, rfl⟩ := hpayloadValue
    have hkindText := eq_of_alike_str hkindAlike
    rw [textOf_encodeText] at hkindText
    exact ⟨hlastKind kindDoc kind hkindDoc hkindText, payloadDoc,
      hlastPayload.trans hpayloadDoc, hpayloadAlike⟩
  | _ =>
    obtain ⟨members, hmembers⟩ := exists_of_alike_obj halike
    cases hmembers

/-! ### Delivery -/

/-- The request is enqueued in a healthy governed transaction, and the handler is given for its row,
on every attempt, the job of the normalized request. -/
def Delivered (river : River) (table : Table) (request normalized : Request) : Prop :=
  ∃ receipt row, enqueue river table .healthy request = .ok (receipt, row) ∧
    ∀ inserted, row = some inserted → ∀ attempt, ∃ job, work river inserted attempt = some job ∧
      job.kind = normalized.kind ∧ job.queue = normalized.queue ∧
        job.maxAttempts = normalized.maxAttempts ∧
        ∃ payload requested, job.payload = some payload ∧
          parse normalized.payload = some requested ∧
          alike (meaning payload) (meaning requested) = true

/-- The payload is JSON that a `jsonb` column takes. -/
def payloadStorable (river : River) (request : Request) : Bool :=
  (parse request.payload).any (storable river.inRange)

/-- A job of the same kind and key is there already. -/
def suppressed (table : Table) (request : Request) : Bool :=
  len request.uniqueKey ≠ 0 && table.held.isSome

/-- The value of the payload can stand in an envelope that `json.Unmarshal` reads. -/
def payloadReadable (request : Request) : Bool :=
  (parse request.payload).any fun payload => depth (meaning payload) < maxNestingDepth

/-- `Enqueue` in a healthy transaction is the insertion of the envelope. -/
theorem enqueue_healthy {river : River} {table : Table} {request normalized : Request}
    {payload : Doc} (h : normalizeRequest request = .ok normalized)
    (hpayload : parse normalized.payload = some payload) :
    enqueue river table .healthy request =
      match insertTx river table (marshal normalized.kind payload normalized.uniqueKey)
        { queue := normalized.queue, maxAttempts := normalized.maxAttempts,
          scheduledAt := normalized.scheduledAt, byArgs := len normalized.uniqueKey ≠ 0 } with
      | some result => .ok result
      | none => .error .insert := by
  unfold enqueue
  rw [h]
  simp only [Site.healthy, refuseIf, Bool.true_eq_false, Bool.false_eq_true, or_self, if_false,
    Except.mapError, bind, Except.bind, hpayload, Option.bind_some]
  rfl

/-- The row that is inserted for a stored envelope, unless the job is there already. -/
theorem insertTx_storable (river : River) (table : Table) {args : Doc} (opts : InsertOpts)
    (h : storable river.inRange args = true) :
    ∃ receipt, insertTx river table args opts = some (receipt,
      if opts.byArgs && table.held.isSome then none
      else some ⟨table.nextID, args, opts.queue, opts.maxAttempts, opts.scheduledAt⟩) := by
  unfold insertTx
  rw [if_pos h]
  cases opts.byArgs <;> cases table.held <;> exact ⟨_, rfl⟩

/-- The value of an envelope nests one deeper than that of its payload. -/
theorem depth_marshal (kind uniqueKey : GoString) (payload : Doc) :
    depth (meaning (marshal kind payload uniqueKey)) = 1 + depth (meaning payload) := by
  obtain ⟨others, hothers, -, -, hdepth, -⟩ := names_marshal kind uniqueKey payload
  rw [hothers, depth, hdepth]

/-- The arguments of a row nest no deeper than `json.Unmarshal` allows when a job is given. -/
theorem depth_of_work {river : River} {row : JobRow} {attempt : ℤ} {job : Job}
    (h : work river row attempt = some job) : (river.readBack row.args).depth ≤ maxNestingDepth := by
  obtain ⟨envelope, henvelope, -⟩ := Option.map_eq_some_iff.mp h
  unfold unmarshal at henvelope
  split_ifs at henvelope with hdepth
  exact not_lt.mp hdepth

/-- The job that a handler is given for the row of an accepted request. -/
theorem work_row {river : River} (hkeeps : river.Keeps) {normalized : Request} {payload : Doc}
    (hkind : validKind normalized.kind = true) {row : JobRow}
    (hargs : row.args = marshal normalized.kind payload normalized.uniqueKey)
    (hstored : storable river.inRange row.args = true)
    (hdepth : depth (meaning payload) < maxNestingDepth) (attempt : ℤ) :
    ∃ job, work river row attempt = some job ∧ job.kind = normalized.kind ∧
      job.queue = row.queue ∧ job.maxAttempts = row.maxAttempts ∧
      ∃ read, job.payload = some read ∧ alike (meaning read) (meaning payload) = true := by
  obtain ⟨s, hs, -⟩ := storableString_kind hkind
  have halike := hkeeps.value _ hstored
  rw [hargs] at halike hstored
  have hnest : (river.readBack row.args).depth ≤ maxNestingDepth := by
    rw [hargs, hkeeps.depth _ hstored, depth_marshal]
    omega
  obtain ⟨envelope, henvelope⟩ := unmarshal_isSome (by rw [hargs]; exact halike)
    (fun members => hkeeps.names _ members (by rw [hargs]; exact hstored)) hnest
  have hread := henvelope
  rw [hargs, hs] at hread
  rw [hs] at halike
  obtain ⟨htask, read, hpayload, hlike⟩ := unmarshal_of_alike halike hread
  refine ⟨_, by rw [work, henvelope]; rfl, ?_, rfl, rfl, read, hpayload, hlike⟩
  rw [hs]
  exact congrArg GoString.utf8 htask

/-- **An accepted request is delivered exactly when its payload is storable** and, unless its job is
there already, can be read in its envelope. -/
theorem delivered_iff_payloadStorable (river : River) (hkeeps : river.Keeps) (table : Table)
    (request normalized : Request) (h : normalizeRequest request = .ok normalized) :
    Delivered river table request normalized ↔ payloadStorable river normalized = true ∧
      (suppressed table normalized = true ∨ payloadReadable normalized = true) := by
  obtain ⟨hkind, hkey, hparse, hsameKind, -, -, -, hsameKey⟩ := normalizeRequest_ok h
  obtain ⟨payload, hpayload⟩ := Option.isSome_iff_exists.mp hparse
  rw [← hsameKind] at hkind
  rw [← hsameKey] at hkey
  have hstorable := storable_marshal river.inRange payload hkind hkey
  rw [payloadStorable, payloadReadable, hpayload, Option.any_some, Option.any_some, ← hstorable,
    Delivered, enqueue_healthy h hpayload, decide_eq_true_eq]
  by_cases hstored : storable river.inRange
      (marshal normalized.kind payload normalized.uniqueKey) = true
  · obtain ⟨receipt, hinserted⟩ := insertTx_storable river table
      { queue := normalized.queue, maxAttempts := normalized.maxAttempts,
        scheduledAt := normalized.scheduledAt, byArgs := len normalized.uniqueKey ≠ 0 } hstored
    rw [hinserted, hstored]
    have hsame : (decide (len normalized.uniqueKey ≠ 0) && table.held.isSome) =
        suppressed table normalized := rfl
    simp only [hsame, true_and]
    by_cases hsup : suppressed table normalized = true
    · simp only [hsup, if_true, true_or, iff_true]
      refine ⟨receipt, none, rfl, ?_⟩
      intro inserted hrow
      cases hrow
    · simp only [hsup, Bool.false_eq_true, if_false, false_or]
      constructor
      · rintro ⟨_, row, hrow, hjob⟩
        obtain ⟨-, rfl⟩ := Prod.mk.inj (Except.ok.inj hrow)
        obtain ⟨job, hwork, -⟩ := hjob _ rfl 1
        have hdepth := depth_of_work hwork
        rw [hkeeps.depth _ hstored, depth_marshal] at hdepth
        omega
      · intro hdepth
        refine ⟨receipt, _, rfl, ?_⟩
        rintro inserted hrow attempt
        obtain rfl := Option.some.inj hrow
        obtain ⟨job, hwork, hjobKind, hqueue, hattempts, read, hread, hlike⟩ :=
          @work_row river hkeeps normalized payload hkind ⟨table.nextID, _, normalized.queue,
            normalized.maxAttempts, normalized.scheduledAt⟩ rfl hstored hdepth attempt
        exact ⟨job, hwork, hjobKind, hqueue, hattempts, read, payload, hread, hpayload, hlike⟩
  · have hnone : insertTx river table (marshal normalized.kind payload normalized.uniqueKey)
        { queue := normalized.queue, maxAttempts := normalized.maxAttempts,
          scheduledAt := normalized.scheduledAt, byArgs := len normalized.uniqueKey ≠ 0 } = none :=
      if_neg hstored
    rw [hnone]
    constructor
    · rintro ⟨_, _, hrow, -⟩
      cases hrow
    · intro hcondition
      exact absurd hcondition.1 hstored

/-! ### A column that drops members -/

mutual

/-- The document with the last of the members of each name. -/
def dropped : Doc → Doc
  | .arr docs => .arr (droppedDocs docs)
  | .obj members => .obj (droppedMembers members)
  | doc => doc

def droppedDocs : List Doc → List Doc
  | [] => []
  | doc :: docs => dropped doc :: droppedDocs docs

def droppedMembers : List (List Item × Doc) → List (List Item × Doc)
  | [] => []
  | (name, doc) :: members =>
    if textOf name ∈ (memberMeanings members).map Prod.fst then droppedMembers members
    else (name, dropped doc) :: droppedMembers members

end

theorem lastMembers_idem {ν : Type} (members : List (String × ν)) :
    lastMembers (lastMembers members) = lastMembers members := by
  induction members with
  | nil => rfl
  | cons member members ih =>
    by_cases hmem : member.1 ∈ members.map Prod.fst
    · rw [lastMembers, if_pos hmem, ih]
    · rw [lastMembers, if_neg hmem, lastMembers,
        if_neg (fun h => hmem (mem_names_lastMembers.mp h)), ih]

mutual

theorem dropped_spec : ∀ doc, meaning (dropped doc) = meaning doc ∧
    (dropped doc).depth = depth (meaning doc)
  | .null | .bool _ | .num _ | .str _ => ⟨rfl, rfl⟩
  | .arr docs => by
    obtain ⟨hmeaning, hdepth⟩ := droppedDocs_spec docs
    exact ⟨congrArg Json.arr hmeaning, congrArg (1 + ·) hdepth⟩
  | .obj members => by
    obtain ⟨hmeaning, hdepth⟩ := droppedMembers_spec members
    refine ⟨?_, congrArg (1 + ·) hdepth⟩
    rw [dropped, meaning, hmeaning, lastMembers_idem, meaning]

theorem droppedDocs_spec : ∀ docs, meanings (droppedDocs docs) = meanings docs ∧
    depthOfDocs (droppedDocs docs) = depthOfItems (meanings docs)
  | [] => ⟨rfl, rfl⟩
  | doc :: docs => by
    obtain ⟨hmeaning, hdepth⟩ := dropped_spec doc
    obtain ⟨hmeanings, hdepths⟩ := droppedDocs_spec docs
    rw [droppedDocs, meanings, meanings, depthOfDocs, depthOfItems, hmeaning, hdepth, hmeanings,
      hdepths]
    exact ⟨rfl, rfl⟩

theorem droppedMembers_spec : ∀ members,
    memberMeanings (droppedMembers members) = lastMembers (memberMeanings members) ∧
      depthOfNamed (droppedMembers members) = depthOfMembers (lastMembers (memberMeanings members))
  | [] => ⟨rfl, rfl⟩
  | (name, doc) :: members => by
    obtain ⟨hmeaning, hdepth⟩ := dropped_spec doc
    obtain ⟨hmeanings, hdepths⟩ := droppedMembers_spec members
    by_cases hmem : textOf name ∈ (memberMeanings members).map Prod.fst
    · rw [droppedMembers, if_pos hmem, memberMeanings, lastMembers, if_pos hmem]
      exact ⟨hmeanings, hdepths⟩
    · rw [droppedMembers, if_neg hmem, memberMeanings, memberMeanings, lastMembers, if_neg hmem,
        depthOfNamed, depthOfMembers, hmeaning, hdepth, hmeanings, hdepths]
      exact ⟨rfl, rfl⟩

end

/-- A column that takes every number and keeps the last of the members of each name. -/
def lastKept : River := ⟨fun _ => true, dropped⟩

theorem lastKept_keeps : lastKept.Keeps where
  value doc _ := by
    rw [lastKept, (dropped_spec doc).1]
    exact alike_meaning_self doc
  names doc members _ h := by
    cases doc with
    | obj others =>
      obtain rfl := Doc.obj.inj h
      have hnames := nodup_lastMembers (memberMeanings others)
      rw [← (droppedMembers_spec others).1, memberMeanings_eq_map, List.map_map] at hnames
      exact hnames
    | _ => cases h
  depth doc _ := (dropped_spec doc).2

/-- A request of kind `a` with this payload and nothing else. -/
def plainRequest (payload : GoString) : Request :=
  { kind := "a", payload := payload, queue := "", maxAttempts := 0, scheduledAt := ⟨0, 0⟩,
    uniqueKey := "" }

/-- The request that `NormalizeRequest` makes of it. -/
def normalizedRequest (payload : GoString) : Request :=
  { plainRequest payload with queue := defaultQueue, maxAttempts := defaultMaxAttempts }

/-- A payload with a pair and members of one name is delivered; one with half a pair is not. -/
theorem delivered_iff_pairs :
    (Delivered lastKept ⟨1, none⟩ (plainRequest "\x7b\"a\":\"\\ud83d\\ude00\",\"a\":1e2\x7d")
        (normalizedRequest "\x7b\"a\":\"\\ud83d\\ude00\",\"a\":1e2\x7d")) ∧
      ¬ Delivered lastKept ⟨1, none⟩ (plainRequest "[\"\\ud83d\"]")
        (normalizedRequest "[\"\\ud83d\"]") := by
  constructor
  · exact (delivered_iff_payloadStorable lastKept lastKept_keeps _ _ _ (by decide +kernel)).mpr
      ⟨by decide +kernel, Or.inr (by decide +kernel)⟩
  · intro h
    have hstorable := ((delivered_iff_payloadStorable lastKept lastKept_keeps _ _ _
      (by decide +kernel)).mp h).1
    exact absurd hstorable (by decide +kernel)

/-- **The escape of the null character is accepted and not stored.** -/
theorem null_escape_not_delivered :
    ¬ ∀ (river : River), river.Keeps → ∀ (table : Table) (request normalized : Request),
      normalizeRequest request = .ok normalized → Delivered river table request normalized := by
  intro hall
  have hnormal : normalizeRequest (plainRequest "\"\\u0000\"") =
      .ok (normalizedRequest "\"\\u0000\"") := by decide +kernel
  obtain ⟨receipt, row, hinserted, -⟩ :=
    hall lastKept lastKept_keeps ⟨1, none⟩ _ _ hnormal
  have hrefused : (enqueue lastKept ⟨1, none⟩ .healthy
      (plainRequest "\"\\u0000\"")).isOk = false := by decide +kernel
  rw [hinserted] at hrefused
  cases hrefused

end Modary.Governed.Enqueue
