import Modary.Action.Names
import Modary.Lib.Keyed
import Modary.Lib.Machine

/-! # The identity store

The tables of the PostgreSQL identity store, and its transactions statement by statement under READ
COMMITTED: a statement sees what is committed when it runs, under the transaction's own writes. A
statement that writes a row another open transaction has written waits for it; a `DELETE` takes the
rows its snapshot shows, and waiting for one of them only delays what follows. Every statement may
also fail, which rolls its transaction back. -/

namespace Modary.Identity.Store

open Modary.Lib.GoText Modary.Lib.Keyed Modary.Action.Names

/-! ### Tables -/

structure PrincipalRow where
  actorID : String
  actorType : String
  displayName : String
  active : Bool
  deriving DecidableEq, Repr

structure PasswordRow where
  username : String
  actorID : String
  passwordHash : String
  updatedAt : String
  deriving DecidableEq, Repr

structure BearerRow where
  tokenID : String
  tokenHash : String
  actorID : String
  active : Bool
  deriving DecidableEq, Repr

/-- A session; `expiresAt` is the instant its text names. -/
structure SessionRow where
  sessionID : String
  tokenHash : String
  actorID : String
  csrfToken : String
  expiresAt : ℤ
  deriving DecidableEq, Repr

structure Tables where
  principals : List PrincipalRow
  passwords : List PasswordRow
  bearers : List BearerRow
  sessions : List SessionRow
  deriving DecidableEq, Repr

def Tables.principal (t : Tables) (actorID : String) : Option PrincipalRow :=
  lookup PrincipalRow.actorID actorID t.principals

def Tables.password (t : Tables) (actorID : String) : Option PasswordRow :=
  lookup PasswordRow.actorID actorID t.passwords

/-- What a transaction has written: its versions of rows, the sessions it inserted, and the ids of
those it deleted. -/
structure Writes where
  principals : List PrincipalRow
  passwords : List PasswordRow
  bearers : List BearerRow
  inserted : List SessionRow
  deleted : List String
  deriving DecidableEq, Repr

/-- The tables under the writes of a transaction: what it sees, and what it commits. -/
def Tables.under (t : Tables) (writes : Writes) : Tables where
  principals := overlay PrincipalRow.actorID writes.principals t.principals
  passwords := overlay PasswordRow.actorID writes.passwords t.passwords
  bearers := overlay BearerRow.tokenID writes.bearers t.bearers
  sessions := (t.sessions.filter fun row => row.sessionID ∉ writes.deleted) ++ writes.inserted

/-- `DELETE FROM modary_identity_session WHERE ..`. -/
def Writes.deleteSessions (writes : Writes) (view : Tables) (goes : SessionRow → Bool) : Writes :=
  { writes with
    inserted := writes.inserted.filter fun row => !goes row
    deleted := writes.deleted ++ (view.sessions.filter goes).map SessionRow.sessionID }

/-! ### Creating a session -/

inductive AuthenticationMethod
  | password
  | oidc
  | unknown
  deriving DecidableEq, Repr

structure Authentication where
  actor : Actor
  method : AuthenticationMethod
  credentialVersion : GoString
  deriving DecidableEq, Repr

def maxCredentialVersionRunes : ℕ := 256

/-- `identity.ValidateAuthentication`. -/
def validateAuthentication (authentication : Authentication) : Except String Unit := do
  validateActor authentication.actor
  match authentication.method with
  | .password =>
    validateActorText "credential version" authentication.credentialVersion true
      maxCredentialVersionRunes
  | .oidc =>
    refuseIf (authentication.credentialVersion ≠ .utf8 "")
      "OIDC authentication cannot contain a password credential version"
  | .unknown => .error "authentication method is invalid"

/-- What ends a transaction, or a read, with an error. -/
inductive Failure
  | actorNotFound
  | authenticationFailed
  | sessionInvalid
  | storedActor (message : String)
  | storedCSRFToken
  | unknownPrincipal (credentialKind : String)
  | inactivePrincipal (credentialKind : String)
  | storedPassword
  | uniqueViolation
  deriving DecidableEq, Repr

/-- SHA-256 of a token, the check of a password against its Argon2 text, and whether the text parses. -/
structure Crypto where
  credentialHash : GoString → String
  verifyPassword : String → String → Bool
  parsePasswordHash : String → Bool

/-- `storedActorColumns.decode`. -/
def decodeActor (row : PrincipalRow) : Except Failure Actor :=
  let actor : Actor := ⟨.utf8 row.actorID, .utf8 row.actorType, .utf8 row.displayName⟩
  match validateActor actor with
  | .error message => .error (.storedActor message)
  | .ok () => .ok actor

/-- `loadActor`; without an active row it ends in `sql.ErrNoRows`. -/
def loadActor (t : Tables) (actorID : String) : Except Failure Actor :=
  match t.principal actorID with
  | none => .error .actorNotFound
  | some row => if row.active then decodeActor row else .error .actorNotFound

/-- A call of `CreateSession`, with the random texts and the clock it reads. -/
structure Creation where
  authentication : Authentication
  sessionToken : String
  csrfToken : String
  sessionID : String
  now : ℤ
  sessionTTL : ℤ
  deriving DecidableEq, Repr

def Creation.actorID (creation : Creation) : String :=
  String.ofList creation.authentication.actor.id.runes

/-- The row `CreateSession` inserts. -/
def Creation.row (creation : Creation) (crypto : Crypto) : SessionRow where
  sessionID := "ses_" ++ creation.sessionID
  tokenHash := crypto.credentialHash (.utf8 creation.sessionToken)
  actorID := creation.actorID
  csrfToken := creation.csrfToken
  expiresAt := creation.now + creation.sessionTTL

/-- The next statement of a `CreateSession` transaction. -/
inductive CreationPoint
  | loadActor
  | checkCredential
  | removeExpired
  | insert
  | commit
  deriving DecidableEq, Repr

/-- One statement of `CreateSession`. -/
def Creation.exec (creation : Creation) (crypto : Crypto) (view : Tables) (writes : Writes) :
    CreationPoint → Except Failure (CreationPoint × Writes)
  | .loadActor => do
    let current ← Store.loadActor view creation.actorID
    refuseIf (current.type ≠ creation.authentication.actor.type) .actorNotFound
    .ok (if creation.authentication.method = .password then .checkCredential else .removeExpired,
      writes)
  | .checkCredential =>
    match view.password creation.actorID, view.principal creation.actorID with
    | some credential, some principal =>
      if principal.active ∧ .utf8 credential.updatedAt = creation.authentication.credentialVersion
      then .ok (.removeExpired, writes)
      else .error .authenticationFailed
    | _, _ => .error .authenticationFailed
  | .removeExpired =>
    .ok (.insert, writes.deleteSessions view fun row => row.expiresAt ≤ creation.now)
  | .insert =>
    if ∃ row ∈ view.sessions, row.sessionID = (creation.row crypto).sessionID ∨
        row.tokenHash = (creation.row crypto).tokenHash then .error .uniqueViolation
    else .ok (.commit, { writes with inserted := writes.inserted ++ [creation.row crypto] })
  | .commit => .ok (.commit, writes)

/-! ### Provisioning -/

structure Principal where
  actorID : String
  actorType : String
  displayName : String
  deriving DecidableEq, Repr

/-- A password to provision, and the text `hashPassword` makes of it with a fresh salt. -/
structure PasswordCredential where
  actorID : String
  username : String
  password : String
  hashed : String
  deriving DecidableEq, Repr

structure BearerToken where
  tokenID : String
  actorID : String
  token : String
  deriving DecidableEq, Repr

structure Options where
  principals : List Principal
  passwordCredentials : List PasswordCredential
  bearerTokens : List BearerToken
  revokedActorIDs : List String
  revokedTokenIDs : List String
  deriving DecidableEq, Repr

/-- A statement of `provision`, with what earlier statements read. -/
inductive Task
  | selectType (principal : Principal)
  | upsertPrincipal (principal : Principal) (existingType : Option String)
  | deleteSessions (actorID : String)
  | deactivateBearers (actorID : String)
  | selectActive (actorID credentialKind : String)
  | selectHash (credential : PasswordCredential)
  | upsertPassword (credential : PasswordCredential) (existingHash : Option String)
  | upsertBearer (token : BearerToken)
  | deactivatePrincipal (actorID : String)
  | deactivateToken (tokenID : String)
  deriving DecidableEq, Repr

/-- The loops of `provision`, before anything was read. -/
def provision (options : Options) : List Task :=
  options.principals.map .selectType ++
  options.passwordCredentials.flatMap (fun credential =>
    [.selectActive credential.actorID "password credential", .selectHash credential]) ++
  options.bearerTokens.flatMap (fun token =>
    [.selectActive token.actorID "bearer credential", .upsertBearer token]) ++
  options.revokedActorIDs.map .deactivatePrincipal ++
  options.revokedTokenIDs.map .deactivateToken

/-- `!passwordMatches`; nothing matches a password that is not stored. -/
def passwordChanged (crypto : Crypto) (credential : PasswordCredential)
    (existingHash : Option String) : Bool :=
  !crypto.verifyPassword (existingHash.getD "") credential.password

/-- The row the upsert of a password leaves; a version lasts as long as its hash. -/
def upsertedPassword (crypto : Crypto) (now : String) (credential : PasswordCredential)
    (existingHash : Option String) (stored : Option PasswordRow) : PasswordRow :=
  let encoded :=
    if passwordChanged crypto credential existingHash then credential.hashed
    else existingHash.getD ""
  { username := credential.username
    actorID := credential.actorID
    passwordHash := encoded
    updatedAt :=
      match stored with
      | none => now
      | some row => if row.passwordHash = encoded then row.updatedAt else now }

/-- One statement of `provision`: what it writes, and the statements that follow from what it read
or found. -/
def Task.exec (crypto : Crypto) (now : String) (view : Tables) (writes : Writes) :
    Task → Except Failure (Writes × List Task)
  | .selectType principal =>
    .ok (writes,
      [.upsertPrincipal principal ((view.principal principal.actorID).map PrincipalRow.actorType)])
  | .upsertPrincipal principal existingType =>
    let securityContextChanged := existingType.any fun existing => existing != principal.actorType
    .ok ({ writes with
      principals := put PrincipalRow.actorID
        ⟨principal.actorID, principal.actorType, principal.displayName, true⟩ writes.principals },
      if securityContextChanged then
        [.deleteSessions principal.actorID, .deactivateBearers principal.actorID]
      else [])
  | .deleteSessions actorID =>
    .ok (writes.deleteSessions view fun row => row.actorID = actorID, [])
  | .deactivateBearers actorID =>
    .ok ({ writes with
      bearers := (view.bearers.filter fun row => row.actorID = actorID).foldl
        (fun own row => put BearerRow.tokenID { row with active := false } own) writes.bearers }, [])
  | .selectActive actorID credentialKind =>
    match view.principal actorID with
    | none => .error (.unknownPrincipal credentialKind)
    | some row => if row.active then .ok (writes, []) else .error (.inactivePrincipal credentialKind)
  | .selectHash credential => do
    let existingHash := (view.password credential.actorID).map PasswordRow.passwordHash
    refuseIf (existingHash.any (fun existing => !crypto.parsePasswordHash existing) = true)
      .storedPassword
    .ok (writes, [.upsertPassword credential existingHash])
  | .upsertPassword credential existingHash => do
    refuseIf (∃ row ∈ view.passwords,
      row.username = credential.username ∧ row.actorID ≠ credential.actorID) .uniqueViolation
    .ok ({ writes with
      passwords := put PasswordRow.actorID (upsertedPassword crypto now credential existingHash
        (view.password credential.actorID)) writes.passwords },
      if passwordChanged crypto credential existingHash && existingHash.isSome then
        [.deleteSessions credential.actorID]
      else [])
  | .upsertBearer token => do
    let tokenHash := crypto.credentialHash (.utf8 token.token)
    refuseIf (∃ row ∈ view.bearers, row.tokenHash = tokenHash ∧ row.tokenID ≠ token.tokenID)
      .uniqueViolation
    .ok ({ writes with
      bearers := put BearerRow.tokenID ⟨token.tokenID, tokenHash, token.actorID, true⟩
        writes.bearers }, [])
  | .deactivatePrincipal actorID =>
    .ok (match view.principal actorID with
      | none => writes
      | some row => { writes with
          principals := put PrincipalRow.actorID { row with active := false } writes.principals },
      [.deleteSessions actorID, .deactivateBearers actorID])
  | .deactivateToken tokenID =>
    .ok (match lookup BearerRow.tokenID tokenID view.bearers with
      | none => writes
      | some row => { writes with
          bearers := put BearerRow.tokenID { row with active := false } writes.bearers }, [])

/-! ### Transactions -/

/-- What a transaction is for and how far it is. `RevokeSession`, and `ResolveSession` on an expired
session, delete one token. -/
inductive Job
  | createSession (creation : Creation) (point : CreationPoint)
  | provision (now : String) (done todo : List Task)
  | deleteToken (tokenHash : String) (finished : Bool)
  deriving DecidableEq, Repr

inductive Status
  | running
  | committed
  | rolledBack
  deriving DecidableEq, Repr

structure Tx where
  job : Job
  writes : Writes
  status : Status
  deriving DecidableEq, Repr

/-- The committed tables and every transaction that was begun. -/
structure World where
  tables : Tables
  txs : List Tx
  deriving DecidableEq, Repr

/-- Whether the next statement waits for a row that an open transaction has written. -/
def Task.waits (view : Tables) (other : Writes) : Task → Bool
  | .upsertPrincipal principal _ =>
    principal.actorID ∈ other.principals.map PrincipalRow.actorID
  | .deactivatePrincipal actorID => actorID ∈ other.principals.map PrincipalRow.actorID
  | .upsertPassword credential _ =>
    other.passwords.any fun row =>
      row.actorID == credential.actorID || row.username == credential.username
  | .upsertBearer token => token.tokenID ∈ other.bearers.map BearerRow.tokenID
  | .deactivateBearers actorID =>
    view.bearers.any fun row =>
      row.actorID == actorID && row.tokenID ∈ other.bearers.map BearerRow.tokenID
  | .deactivateToken tokenID => tokenID ∈ other.bearers.map BearerRow.tokenID
  | _ => false

def Job.waits (crypto : Crypto) (view : Tables) (other : Writes) : Job → Bool
  | .createSession creation .insert =>
    other.inserted.any fun row => row.sessionID == (creation.row crypto).sessionID ||
      row.tokenHash == (creation.row crypto).tokenHash
  | .provision _ _ (task :: _) => task.waits view other
  | _ => false

/-- The transactions open beside one of them. -/
def World.others (w : World) (i : ℕ) : List Tx :=
  (w.txs.eraseIdx i).filter fun tx => tx.status = .running

/-- The job and the writes after the next statement, or the failure that ends the transaction. -/
def Job.exec (crypto : Crypto) (view : Tables) (writes : Writes) :
    Job → Option (Except Failure (Job × Writes))
  | .createSession _ .commit => none
  | .createSession creation point =>
    some ((creation.exec crypto view writes point).map fun (point, writes) =>
      (.createSession creation point, writes))
  | .provision _ _ [] => none
  | .provision now done (task :: todo) =>
    some ((task.exec crypto now view writes).map fun (writes, more) =>
      (.provision now (task :: done) (more ++ todo), writes))
  | .deleteToken _ true => none
  | .deleteToken tokenHash false =>
    some (.ok (.deleteToken tokenHash true,
      writes.deleteSessions view fun row => row.tokenHash = tokenHash))

inductive Event
  | createSession (creation : Creation)
  | provision (options : Options) (now : String)
  | deleteToken (tokenHash : String)
  | exec (i : ℕ)
  | commit (i : ℕ)
  | rollback (i : ℕ)
  deriving DecidableEq, Repr

def Tx.start (job : Job) : Tx := ⟨job, ⟨[], [], [], [], []⟩, .running⟩

def World.begin (w : World) (job : Job) : World := { w with txs := w.txs ++ [Tx.start job] }

def World.set (w : World) (i : ℕ) (tx : Tx) : World := { w with txs := w.txs.set i tx }

def World.rollback (w : World) (i : ℕ) (tx : Tx) : World :=
  w.set i { tx with status := .rolledBack }

def World.commit (w : World) (i : ℕ) (tx : Tx) : World where
  tables := w.tables.under tx.writes
  txs := w.txs.set i { tx with status := .committed }

/-- One step of the store. -/
def step (crypto : Crypto) (w : World) : Event → Option World
  | .createSession creation =>
    match validateAuthentication creation.authentication with
    | .error _ => none
    | .ok () => some (w.begin (.createSession creation .loadActor))
  | .provision options now => some (w.begin (.provision now [] (provision options)))
  | .deleteToken tokenHash => some (w.begin (.deleteToken tokenHash false))
  | .exec i =>
    match w.txs[i]? with
    | none => none
    | some tx =>
      let view := w.tables.under tx.writes
      if tx.status ≠ .running ∨ ∃ other ∈ w.others i, tx.job.waits crypto view other.writes then
        none
      else
        match tx.job.exec crypto view tx.writes with
        | none => none
        | some (.error _) => some (w.rollback i tx)
        | some (.ok (job, writes)) => some (w.set i ⟨job, writes, .running⟩)
  | .commit i =>
    match w.txs[i]? with
    | none => none
    | some tx =>
      if tx.status ≠ .running ∨ tx.job.exec crypto w.tables tx.writes ≠ none then none
      else some (w.commit i tx)
  | .rollback i =>
    match w.txs[i]? with
    | none => none
    | some tx =>
      if tx.status ≠ .running then none else some (w.rollback i tx)

def World.initial : World := ⟨⟨[], [], [], []⟩, []⟩

/-! ### Resolving a session -/

structure Session where
  token : GoString
  csrfToken : String
  actor : Actor
  expiresAt : ℤ
  deriving DecidableEq, Repr

/-- `validCredentialToken`. -/
def validCredentialToken (token : GoString) : Bool :=
  token != .utf8 "" && token.validString && byteLength token.runes ≤ 4096 &&
    !token.runes.any fun c => isSpace c || isControl c

/-- `validLowerHex`. -/
def validLowerHex (value : String) (size : ℕ) : Bool :=
  byteLength value.toList == size && value.toList.all fun c => isDigit c || ('a' ≤ c && c ≤ 'f')

/-- `ResolveSession`; that it also deletes an expired session is a transaction of its own. -/
def resolveSession (crypto : Crypto) (t : Tables) (now : ℤ) (token : GoString) :
    Except Failure Session := do
  refuseIf (validCredentialToken token = false) .sessionInvalid
  match t.sessions.find? fun row => row.tokenHash = crypto.credentialHash token with
  | none => .error .sessionInvalid
  | some row =>
    match t.principal row.actorID with
    | none => .error .sessionInvalid
    | some principal => do
      refuseIf (principal.active = false) .sessionInvalid
      refuseIf (row.expiresAt ≤ now) .sessionInvalid
      refuseIf (validLowerHex row.csrfToken 64 = false) .storedCSRFToken
      let actor ← decodeActor principal
      .ok ⟨token, row.csrfToken, actor, row.expiresAt⟩

end Modary.Identity.Store
