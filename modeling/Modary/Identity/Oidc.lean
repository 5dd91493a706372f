import Modary.Identity.Store
import Modary.Lib.Machine
import Modary.Lib.Slots

/-! # OpenID Connect logins

The redirect ceremony of `components/oidc` behind its two HTTP routes. A login leaves a pending flow
under a random state, which also becomes the flow cookie of the browser; a callback takes the flow
out of the table and completes it outside the lock. Requests meet at every point between the clock,
the lock and the provider. -/

namespace Modary.Identity.Oidc

open Modary.Lib.GoText Modary.Lib.Machine Modary.Lib.Slots Modary.Action.Names Modary.Identity.Store

/-! ### The authenticator -/

/-- `pendingFlow`. -/
structure PendingFlow where
  verifier : String
  nonce : String
  expires : ℕ
  deriving DecidableEq, Repr

/-- `SubjectMapping`. -/
structure SubjectMapping where
  subject : String
  actorID : GoString
  actorType : GoString
  deriving DecidableEq, Repr

/-- The options of the component that the ceremony uses. -/
structure Config where
  mappings : List (String × SubjectMapping)
  flowTTL : ℕ
  maxPendingFlows : ℕ

/-- An ID token that the verifier has let through, with the subject that its claims yield. -/
structure IDToken where
  nonce : String
  subject : Option String
  deriving DecidableEq, Repr

/-- The provider and the identity store, whose answers change with time: the raw ID token of a code
and a verifier, the token behind it, and the actor of an identifier. -/
structure Environment where
  authCodeURL : String → String → String → String
  exchange : ℕ → GoString → String → Option String
  verify : ℕ → String → Option IDToken
  resolveByID : ℕ → GoString → Option Actor

/-- The table of pending flows and the flag, which the mutex guards. -/
structure Service where
  stopped : Bool := false
  pending : List (GoString × PendingFlow) := []
  deriving DecidableEq, Repr

/-- The three calls of `randomToken`. -/
structure Draws where
  state : String
  nonce : String
  verifier : String
  deriving DecidableEq, Repr

/-- `identity.BrowserFlow`. -/
structure BrowserFlow where
  authorizationURL : String
  state : String
  expiresAt : ℕ
  deriving DecidableEq, Repr

/-- The number of bytes of a Go string. -/
def byteCount : GoString → ℕ
  | .utf8 s => byteLength s.toList
  | .raw units => (units.map fun unit => unit.elim Char.utf8Size fun _ => 1).sum

/-- `validateBoundedText`. -/
def validateBoundedText (name : String) (value : GoString) (maximum : ℕ) (required : Bool) :
    Except String Unit :=
  if value.validString = false ∨ maximum < byteCount value ∨ trimSpace value.runes ≠ value.runes ∨
      value.runes.any isControl = true then .error (name ++ " is invalid")
  else if required = true ∧ value = .utf8 "" then .error (name ++ " is required")
  else .ok ()

/-- The locked part of `Begin`. -/
def Service.begin (config : Config) (env : Environment) (service : Service) (draws : Draws)
    (now : ℕ) : Service × Option BrowserFlow :=
  if service.stopped then (service, none)
  else
    let live := service.pending.filter fun entry => now < entry.2.expires
    if config.maxPendingFlows ≤ live.length then ({ service with pending := live }, none)
    else
      let expires := now + config.flowTTL
      let flow : PendingFlow := { verifier := draws.verifier, nonce := draws.nonce, expires }
      let kept := live.filter fun entry => entry.1 ≠ .utf8 draws.state
      ({ service with pending := kept ++ [(GoString.utf8 draws.state, flow)] },
        some { authorizationURL := env.authCodeURL draws.state draws.nonce draws.verifier
               state := draws.state
               expiresAt := expires })

/-- The locked part of `consume`. -/
def Service.consume (service : Service) (state : GoString) (now : ℕ) :
    Service × Option PendingFlow :=
  if service.stopped then (service, none)
  else
    let rest := { service with pending := service.pending.filter fun entry => entry.1 ≠ state }
    match service.pending.lookup state with
    | none => (rest, none)
    | some flow => if now < flow.expires then (rest, some flow) else (rest, none)

/-- `stop`. -/
def Service.stop (service : Service) : Service := { service with stopped := true, pending := [] }

/-- `maximumIDTokenBytes`. -/
def maximumIDTokenBytes : ℕ := 32768

/-- `Complete` after its flow has been consumed, with the token it verified. -/
def complete (config : Config) (env : Environment) (moment : ℕ) (code : GoString)
    (flow : PendingFlow) (canceled : Bool) : Option (IDToken × Authentication) := do
  guard (canceled = false)
  let rawIDToken ← env.exchange moment code flow.verifier
  guard (rawIDToken ≠ "" ∧ byteLength rawIDToken.toList ≤ maximumIDTokenBytes)
  let idToken ← env.verify moment rawIDToken
  guard (idToken.nonce = flow.nonce)
  let subject ← idToken.subject
  guard ((validateBoundedText "subject" (.utf8 subject) 512 true).isOk = true)
  let mapping ← config.mappings.lookup subject
  let actor ← env.resolveByID moment mapping.actorID
  guard (actor.type = mapping.actorType ∧ (validateActor actor).isOk = true)
  let authentication : Authentication := ⟨actor, .oidc, .utf8 ""⟩
  guard ((validateAuthentication authentication).isOk = true)
  return (idToken, authentication)

/-! ### The routes -/

/-- What `writePublicError` writes. -/
structure PublicError where
  status : ℕ
  code : String
  message : String
  deriving DecidableEq, Repr

/-- A request of the login route: its query, whether its context is done, the random tokens if the
source yields them, and the clock. -/
structure LoginRequest where
  rawQuery : String
  contextDone : Bool
  draws : Option Draws
  now : ℕ

/-- A request of the callback route: the flow cookie, the length of its query, the query if it
parses, and the clock when `consume` reads it. -/
structure CallbackRequest where
  cookie : Option GoString
  queryLength : ℕ
  values : Option (List (String × List GoString))
  now : ℕ

/-- What a browser is answered. -/
inductive Reply
  | failed (err : PublicError)
  | redirect (flowCookie : Option String) (location : Option String)

def invalidLogin : PublicError := ⟨400, "VALIDATION_FAILED", "登录请求无效"⟩

def loginUnavailable : PublicError := ⟨503, "AUTHENTICATION_UNAVAILABLE", "暂时无法开始登录"⟩

def invalidCallback : PublicError := ⟨400, "VALIDATION_FAILED", "登录回调无效"⟩

def flowExpired : PublicError := ⟨401, "AUTHENTICATION_FAILED", "登录已失效，请重试"⟩

def loginFailed : PublicError := ⟨401, "AUTHENTICATION_FAILED", "登录失败，请重试"⟩

def sessionUnavailable : PublicError := ⟨503, "AUTHENTICATION_UNAVAILABLE", "暂时无法建立会话"⟩

/-- The checks of `callback` and of `validateCallback`: the cookie, the state and the code. -/
def callbackParameters (request : CallbackRequest) :
    Except PublicError (GoString × GoString × GoString) :=
  if 16384 < request.queryLength then .error invalidCallback
  else
    match request.values with
    | none => .error invalidCallback
    | some values =>
      match values.lookup "state", values.lookup "code" with
      | some [state], some [code] =>
        if values.length ≠ 2 then .error invalidCallback
        else
          match request.cookie with
          | none => .error flowExpired
          | some cookie =>
            if byteCount state = 0 ∨ 256 < byteCount state ∨ byteCount code = 0 ∨
                8192 < byteCount code ∨ cookie ≠ state then .error flowExpired
            else if (validateBoundedText "state" state 256 true).isOk = false ∨
                (validateBoundedText "code" code 8192 true).isOk = false then .error loginFailed
            else .ok (cookie, state, code)
      | _, _ => .error invalidCallback

/-! ### Interleavings -/

/-- Where the handler of a request stands. -/
inductive Thread
  | beginning (draws : Draws) (now : ℕ)
  | redirecting (flow : BrowserFlow)
  | consuming (cookie state code : GoString) (now : ℕ)
  | completing (cookie state code : GoString) (flow : PendingFlow)
  | establishing (cookie state : GoString) (token : IDToken) (authentication : Authentication)
  | answered (reply : Reply)

/-- A session that a callback has established. -/
structure Session where
  cookie : GoString
  state : GoString
  token : IDToken
  actor : Actor
  deriving DecidableEq, Repr

/-- What is remembered of a run. -/
inductive Event
  | begun (state : GoString) (flow : PendingFlow)
  | consumed (state : GoString) (flow : PendingFlow) (reading : ℕ)
  | established (session : Session)
  | stopped
  deriving DecidableEq, Repr

/-- The service, the handlers of all requests so far, and the history. -/
structure World where
  service : Service := {}
  threads : List Thread := []
  history : List Event := []

/-- What happens next. A handler is named by its place among the requests. -/
inductive Action
  | login (request : LoginRequest)
  | begin (thread : ℕ)
  | redirect (thread : ℕ) (now : ℕ)
  | callback (request : CallbackRequest)
  | consume (thread : ℕ)
  | complete (thread : ℕ) (moment : ℕ) (canceled : Bool)
  | establish (thread : ℕ) (created delivered : Bool)
  | stop

/-- The world with a handler in its next place and what has happened there. -/
def World.advance (world : World) (thread : ℕ) (next : Thread) (events : List Event) : World :=
  { world with threads := world.threads.set thread next, history := world.history ++ events }

/-- The first part of `login`: up to the lock of `Begin`. -/
def loginThread (request : LoginRequest) : Thread :=
  if request.rawQuery ≠ "" then .answered (.failed invalidLogin)
  else if request.contextDone then .answered (.failed loginUnavailable)
  else
    match request.draws with
    | none => .answered (.failed loginUnavailable)
    | some draws => .beginning draws request.now

/-- The first part of `callback`: up to the lock of `consume`. -/
def callbackThread (request : CallbackRequest) : Thread :=
  match callbackParameters request with
  | .error err => .answered (.failed err)
  | .ok (cookie, state, code) => .consuming cookie state code request.now

/-- One step; an action on a handler that does not stand there is not enabled. -/
def step (config : Config) (env : Environment) (world : World) : Action → Option World
  | .login request => some { world with threads := world.threads ++ [loginThread request] }
  | .begin thread =>
    match world.threads[thread]? with
    | some (.beginning draws now) =>
      let (service, flow) := world.service.begin config env draws now
      match flow with
      | none => some ({ world with service }.advance thread (.answered (.failed loginUnavailable)) [])
      | some flow =>
        some ({ world with service }.advance thread (.redirecting flow)
          [.begun (.utf8 draws.state) ⟨draws.verifier, draws.nonce, now + config.flowTTL⟩])
    | _ => none
  | .redirect thread now =>
    match world.threads[thread]? with
    | some (.redirecting flow) =>
      if flow.state = "" ∨ flow.authorizationURL = "" ∨ flow.expiresAt ≤ now then
        some (world.advance thread (.answered (.failed loginUnavailable)) [])
      else
        some (world.advance thread
          (.answered (.redirect (some flow.state) (some flow.authorizationURL))) [])
    | _ => none
  | .callback request => some { world with threads := world.threads ++ [callbackThread request] }
  | .consume thread =>
    match world.threads[thread]? with
    | some (.consuming cookie state code now) =>
      let (service, flow) := world.service.consume state now
      match flow with
      | none => some ({ world with service }.advance thread (.answered (.failed loginFailed)) [])
      | some flow =>
        some ({ world with service }.advance thread (.completing cookie state code flow)
          [.consumed state flow now])
    | _ => none
  | .complete thread moment canceled =>
    match world.threads[thread]? with
    | some (.completing cookie state code flow) =>
      match complete config env moment code flow canceled with
      | none => some (world.advance thread (.answered (.failed loginFailed)) [])
      | some (token, authentication) =>
        some (world.advance thread (.establishing cookie state token authentication) [])
    | _ => none
  | .establish thread created delivered =>
    match world.threads[thread]? with
    | some (.establishing cookie state token authentication) =>
      if created = false then
        some (world.advance thread (.answered (.failed sessionUnavailable)) [])
      else
        -- the manager may return a session that `Establish` then refuses to hand out
        some (world.advance thread
          (.answered (if delivered then .redirect none none else .failed sessionUnavailable))
          [.established ⟨cookie, state, token, authentication.actor⟩])
    | _ => none
  | .stop =>
    some { world with service := world.service.stop, history := world.history ++ [.stopped] }

/-! ### Accounts of states -/

/-- The state that a handler has drawn and not yet put into the table. -/
def Thread.drawn : Thread → List GoString
  | .beginning draws _ => [.utf8 draws.state]
  | _ => []

/-- The state of the flow that a handler has consumed and not yet answered for. -/
def Thread.held : Thread → List GoString
  | .completing _ state _ _ => [state]
  | .establishing _ state _ _ => [state]
  | _ => []

def Event.begunState : Event → List GoString
  | .begun state _ => [state]
  | _ => []

def Event.consumedState : Event → List GoString
  | .consumed state _ _ => [state]
  | _ => []

def Event.sessionState : Event → List GoString
  | .established session => [session.state]
  | _ => []

/-- The states of some events of the history and of some handlers. -/
def World.account (world : World) (f : Event → List GoString) (g : Thread → List GoString) :
    List GoString :=
  world.history.flatMap f ++ world.threads.flatMap g

/-- The states that an action draws. -/
def Action.drawn : Action → List GoString
  | .login request => (loginThread request).drawn
  | _ => []

/-- The states drawn in a run. -/
def drawn (actions : List Action) : List GoString := actions.flatMap Action.drawn

section Accounts

variable {world : World} {thread : ℕ} {old : Thread}

/-- What a handler leaves an account with when it takes its next place. -/
theorem account_advance (f : Event → List GoString) (g : Thread → List GoString) (next : Thread)
    (events : List Event) (service : Service) (h : world.threads[thread]? = some old) :
    ∃ rest, (world.account f g).Perm (g old ++ rest) ∧
      (({ world with service }.advance thread next events).account f g).Perm
        (events.flatMap f ++ g next ++ rest) := by
  obtain ⟨threads, hold, hnew⟩ := flatMap_set_perm g h
  refine ⟨world.history.flatMap f ++ threads, ?_, ?_⟩
  · unfold World.account
    rw [← List.append_assoc]
    refine (hold.append_left _).trans ?_
    rw [← List.append_assoc]
    exact List.perm_append_comm.append_right _
  · unfold World.account World.advance
    refine ((hnew next).append_left _).trans ?_
    rw [List.flatMap_append, List.perm_iff_count]
    intro state
    simp only [List.count_append]
    omega

/-- An account from which a handler has taken its part, or that it has left as it was. -/
theorem account_shrinks {α : Type} {l l' a b rest : List α} (h : l.Perm (a ++ rest))
    (h' : l'.Perm (b ++ rest)) (hb : b = [] ∨ b = a) : (l.Nodup → l'.Nodup) ∧ l' ⊆ l := by
  have hsub : List.Sublist (b ++ rest) (a ++ rest) := by
    rcases hb with rfl | rfl
    · exact List.sublist_append_right a rest
    · exact List.Sublist.refl _
  constructor
  · intro hnodup
    exact h'.nodup_iff.mpr (hsub.nodup (h.nodup_iff.mp hnodup))
  · intro x hx
    exact h.symm.subset (hsub.subset (h'.subset hx))

end Accounts

/-! ### The invariant -/

section Invariant

/-- The subject of a token is mapped to an actor. -/
def Mapped (config : Config) (token : IDToken) (actor : Actor) : Prop :=
  ∃ subject mapping, token.subject = some subject ∧
    config.mappings.lookup subject = some mapping ∧ actor.id = mapping.actorID ∧
      actor.type = mapping.actorType

/-- What a handler must show for a session: a consumed flow of the state, which is the cookie, with
the nonce of its token, and an actor mapped to the subject. -/
structure Licensed (config : Config) (history : List Event) (cookie state : GoString)
    (token : IDToken) (actor : Actor) : Prop where
  cookie : cookie = state
  flow : ∃ flow reading, .consumed state flow reading ∈ history ∧ flow.nonce = token.nonce
  mapped : Mapped config token actor

/-- What holds of the place where a handler stands. -/
def Thread.sound (config : Config) (history : List Event) : Thread → Prop
  | .consuming cookie state _ _ => cookie = state
  | .completing cookie state _ flow =>
    cookie = state ∧ ∃ reading, .consumed state flow reading ∈ history
  | .establishing cookie state token authentication =>
    Licensed config history cookie state token authentication.actor
  | _ => True

/-- **The invariant of the ceremony.** -/
structure Inv (config : Config) (actions : List Action) (world : World) : Prop where
  states_nodup : (world.account Event.begunState Thread.drawn).Nodup
  states_drawn : ∀ state ∈ world.account Event.begunState Thread.drawn, state ∈ drawn actions
  claims_nodup : (world.account Event.sessionState Thread.held).Nodup
  claims_consumed : ∀ state ∈ world.account Event.sessionState Thread.held,
    state ∈ world.history.flatMap Event.consumedState
  consumed_nodup : (world.history.flatMap Event.consumedState).Nodup
  consumed : ∀ state flow reading, .consumed state flow reading ∈ world.history →
    reading < flow.expires ∧ .begun state flow ∈ world.history
  pending : ∀ entry ∈ world.service.pending, .begun entry.1 entry.2 ∈ world.history ∧
    entry.1 ∉ world.history.flatMap Event.consumedState
  threads : ∀ thread ∈ world.threads, thread.sound config world.history
  sessions : ∀ session, .established session ∈ world.history →
    Licensed config world.history session.cookie session.state session.token session.actor
  stopped : .stopped ∈ world.history → world.service.stopped = true
  quiet : world.history.Pairwise fun earlier later =>
    earlier = .stopped → later.consumedState = []
  bounded : world.service.pending.length ≤ config.maxPendingFlows

variable {config : Config} {env : Environment} {actions : List Action} {world : World}

theorem Licensed.mono {history later : List Event} (hsub : history ⊆ later)
    {cookie state : GoString} {token : IDToken} {actor : Actor}
    (h : Licensed config history cookie state token actor) :
    Licensed config later cookie state token actor := by
  obtain ⟨flow, reading, hconsumed, hnonce⟩ := h.flow
  exact ⟨h.cookie, ⟨flow, reading, hsub hconsumed, hnonce⟩, h.mapped⟩

theorem Thread.sound_mono {history later : List Event} (hsub : history ⊆ later) {thread : Thread}
    (h : thread.sound config history) : thread.sound config later := by
  cases thread with
  | completing cookie state code flow =>
    obtain ⟨hcookie, reading, hconsumed⟩ := h
    exact ⟨hcookie, reading, hsub hconsumed⟩
  | establishing cookie state token authentication => exact Licensed.mono hsub h
  | consuming cookie state code now => exact h
  | beginning | redirecting | answered => trivial

theorem mem_begunState {state : GoString} {flow : PendingFlow} {history : List Event}
    (h : .begun state flow ∈ history) : state ∈ history.flatMap Event.begunState :=
  List.mem_flatMap.mpr ⟨_, h, List.mem_singleton_self _⟩

theorem mem_consumedState {state : GoString} {history : List Event} :
    state ∈ history.flatMap Event.consumedState ↔
      ∃ flow reading, .consumed state flow reading ∈ history := by
  rw [List.mem_flatMap]
  constructor
  · rintro ⟨event, hmem, hstate⟩
    cases event with
    | consumed other flow reading =>
      obtain rfl := List.mem_singleton.mp hstate
      exact ⟨flow, reading, hmem⟩
    | begun | established | stopped => cases hstate
  · rintro ⟨flow, reading, hmem⟩
    exact ⟨_, hmem, List.mem_singleton_self _⟩

theorem inv_initial (config : Config) : Inv config [] {} where
  states_nodup := List.nodup_nil
  states_drawn := fun _ h => by cases h
  claims_nodup := List.nodup_nil
  claims_consumed := fun _ h => by cases h
  consumed_nodup := List.nodup_nil
  consumed := fun _ _ _ h => by cases h
  pending := fun _ h => by cases h
  threads := fun _ h => by cases h
  sessions := fun _ h => by cases h
  stopped := fun h => by cases h
  quiet := List.Pairwise.nil
  bounded := Nat.zero_le _

/-- A new request: its handler draws a state that no handler has drawn before, if it draws one. -/
theorem Inv.arrive (h : Inv config actions world) {action : Action} {thread : Thread}
    (hdrawn : thread.drawn = action.drawn) (hheld : thread.held = [])
    (hsound : thread.sound config world.history)
    (hdistinct : (drawn (actions ++ [action])).Nodup) :
    Inv config (actions ++ [action]) { world with threads := world.threads ++ [thread] } := by
  have hall : drawn (actions ++ [action]) = drawn actions ++ thread.drawn := by
    simp [drawn, hdrawn]
  have hstates : World.account { world with threads := world.threads ++ [thread] }
      Event.begunState Thread.drawn =
        world.account Event.begunState Thread.drawn ++ thread.drawn := by
    simp [World.account]
  have hclaims : World.account { world with threads := world.threads ++ [thread] }
      Event.sessionState Thread.held = world.account Event.sessionState Thread.held := by
    simp [World.account, hheld]
  rw [hall] at hdistinct
  obtain ⟨-, hnew, hapart⟩ := List.nodup_append.mp hdistinct
  refine { h with
    states_nodup := ?_
    states_drawn := ?_
    claims_nodup := hclaims ▸ h.claims_nodup
    claims_consumed := hclaims ▸ h.claims_consumed
    threads := ?_ }
  · rw [hstates]
    refine List.nodup_append.mpr ⟨h.states_nodup, hnew, ?_⟩
    intro state hstate other hother
    exact hapart state (h.states_drawn state hstate) other hother
  · intro state hstate
    rw [hall]
    rw [hstates] at hstate
    rcases List.mem_append.mp hstate with hold | hfresh
    · exact List.mem_append_left _ (h.states_drawn state hold)
    · exact List.mem_append_right _ hfresh
  · intro other hother
    rcases List.mem_append.mp hother with hold | hfresh
    · exact h.threads other hold
    · obtain rfl := List.mem_singleton.mp hfresh
      exact hsound

/-- An action that draws nothing adds nothing to what a run has drawn. -/
theorem drawn_append {action : Action} (h : action.drawn = []) :
    drawn (actions ++ [action]) = drawn actions := by
  simp [drawn, h]

/-- A handler that takes its next place without leaving a trace in the history. -/
theorem Inv.advance (h : Inv config actions world) {action : Action} (haction : action.drawn = [])
    {thread : ℕ} {old next : Thread} (hold : world.threads[thread]? = some old)
    (hdrawn : next.drawn = []) (hheld : next.held = [] ∨ next.held = old.held)
    (hsound : next.sound config world.history) {service : Service}
    (hstopped : service.stopped = world.service.stopped)
    (hpending : List.Sublist service.pending world.service.pending) :
    Inv config (actions ++ [action]) ({ world with service }.advance thread next []) := by
  obtain ⟨states, hstates, hstates'⟩ := account_advance Event.begunState Thread.drawn
    next [] service hold
  obtain ⟨claims, hclaims, hclaims'⟩ := account_advance Event.sessionState Thread.held
    next [] service hold
  obtain ⟨hstatesNodup, hstatesSub⟩ := account_shrinks hstates hstates' (.inl (by simp [hdrawn]))
  obtain ⟨hclaimsNodup, hclaimsSub⟩ := account_shrinks hclaims hclaims' (by simpa using hheld)
  have hhistory : (({ world with service } : World).advance thread next []).history =
      world.history := List.append_nil _
  constructor
  · exact hstatesNodup h.states_nodup
  · intro state hstate
    rw [drawn_append haction]
    exact h.states_drawn state (hstatesSub hstate)
  · exact hclaimsNodup h.claims_nodup
  · intro state hstate
    rw [hhistory]
    exact h.claims_consumed state (hclaimsSub hstate)
  · rw [hhistory]
    exact h.consumed_nodup
  · rw [hhistory]
    exact h.consumed
  · rw [hhistory]
    intro entry hentry
    exact h.pending entry (hpending.subset hentry)
  · rw [hhistory]
    intro other hother
    rcases mem_of_mem_set hother with rfl | hmem
    · exact hsound
    · exact h.threads other hmem
  · rw [hhistory]
    exact h.sessions
  · rw [hhistory]
    intro hmem
    exact hstopped.trans (h.stopped hmem)
  · rw [hhistory]
    exact h.quiet
  · exact hpending.length_le.trans h.bounded

/-- A handler that answers, with no trace in the history. -/
theorem Inv.answer (h : Inv config actions world) {action : Action} (haction : action.drawn = [])
    {thread : ℕ} {old : Thread} (hold : world.threads[thread]? = some old) (reply : Reply)
    {service : Service} (hstopped : service.stopped = world.service.stopped)
    (hpending : List.Sublist service.pending world.service.pending) :
    Inv config (actions ++ [action])
      ({ world with service }.advance thread (.answered reply) []) := by
  have hsound : Thread.sound config world.history (.answered reply) := trivial
  exact h.advance haction hold rfl (.inl rfl) hsound hstopped hpending

/-- A history that grows by one event that is no consumption keeps what it says of consumptions. -/
theorem consumed_append (history : List Event) {event : Event} (h : event.consumedState = []) :
    (history ++ [event]).flatMap Event.consumedState = history.flatMap Event.consumedState := by
  simp [h]

theorem mem_history {history : List Event} {event last : Event}
    (h : event ∈ history ++ [last]) (hne : event ≠ last) : event ∈ history := by
  rcases List.mem_append.mp h with h | h
  · exact h
  · exact absurd (List.mem_singleton.mp h) hne

theorem quiet_append {history : List Event} {event : Event}
    (h : history.Pairwise fun earlier later => earlier = .stopped → later.consumedState = [])
    (hevent : .stopped ∈ history → event.consumedState = []) :
    (history ++ [event]).Pairwise fun earlier later =>
      earlier = .stopped → later.consumedState = [] := by
  refine List.pairwise_append.mpr ⟨h, List.pairwise_singleton _ _, ?_⟩
  rintro earlier hearlier later hlater rfl
  obtain rfl := List.mem_singleton.mp hlater
  exact hevent hearlier

/-- A handler puts its flow into the table. -/
theorem Inv.begun (h : Inv config actions world) {thread : ℕ} {draws : Draws} {now : ℕ}
    (hold : world.threads[thread]? = some (.beginning draws now)) {flow : PendingFlow}
    {next : BrowserFlow} {kept : List (GoString × PendingFlow)}
    (hstopped : world.service.stopped = false)
    (hkept : List.Sublist kept world.service.pending)
    (hroom : kept.length < config.maxPendingFlows) :
    Inv config (actions ++ [.begin thread])
      ({ world with service :=
          { world.service with pending := kept ++ [(GoString.utf8 draws.state, flow)] } }.advance thread
        (.redirecting next) [.begun (.utf8 draws.state) flow]) := by
  have hnothing : (Action.begin thread).drawn = [] := rfl
  obtain ⟨states, hstates, hstates'⟩ := account_advance Event.begunState Thread.drawn
    (.redirecting next) [.begun (.utf8 draws.state) flow]
    { world.service with pending := kept ++ [(GoString.utf8 draws.state, flow)] } hold
  obtain ⟨claims, hclaims, hclaims'⟩ := account_advance Event.sessionState Thread.held
    (.redirecting next) [.begun (.utf8 draws.state) flow]
    { world.service with pending := kept ++ [(GoString.utf8 draws.state, flow)] } hold
  have hperm := hstates'.trans hstates.symm
  have hperm' := hclaims'.trans hclaims.symm
  -- the state moves from the handler to the history: it has not been begun before
  have hfresh : GoString.utf8 draws.state ∉ world.history.flatMap Event.begunState := by
    intro hmem
    have hdrawn : GoString.utf8 draws.state ∈ world.threads.flatMap Thread.drawn :=
      List.mem_flatMap.mpr ⟨_, List.mem_of_getElem? hold, List.mem_singleton_self _⟩
    exact (List.nodup_append.mp h.states_nodup).2.2 _ hmem _ hdrawn rfl
  have hunconsumed : GoString.utf8 draws.state ∉ world.history.flatMap Event.consumedState := by
    intro hmem
    obtain ⟨other, reading, hconsumed⟩ := mem_consumedState.mp hmem
    exact hfresh (mem_begunState (h.consumed _ _ _ hconsumed).2)
  have hconsumed := consumed_append world.history
    (show (Event.begun (.utf8 draws.state) flow).consumedState = [] from rfl)
  have hsub : world.history ⊆ world.history ++ [.begun (.utf8 draws.state) flow] :=
    List.subset_append_left _ _
  constructor
  · exact hperm.nodup_iff.mpr h.states_nodup
  · intro state hstate
    rw [drawn_append hnothing]
    exact h.states_drawn state (hperm.subset hstate)
  · exact hperm'.nodup_iff.mpr h.claims_nodup
  · intro state hstate
    exact hconsumed.symm ▸ h.claims_consumed state (hperm'.subset hstate)
  · exact hconsumed.symm ▸ h.consumed_nodup
  · intro state other reading hmem
    obtain ⟨hlt, hbegun⟩ := h.consumed state other reading (mem_history hmem (by simp))
    exact ⟨hlt, hsub hbegun⟩
  · intro entry hentry
    rcases List.mem_append.mp hentry with hentry | hentry
    · obtain ⟨hbegun, hnot⟩ := h.pending entry (hkept.subset hentry)
      exact ⟨hsub hbegun, hconsumed.symm ▸ hnot⟩
    · obtain rfl := List.mem_singleton.mp hentry
      exact ⟨List.mem_append_right _ (List.mem_singleton_self _), hconsumed.symm ▸ hunconsumed⟩
  · intro other hother
    rcases mem_of_mem_set hother with rfl | hmem
    · trivial
    · exact Thread.sound_mono hsub (h.threads other hmem)
  · intro session hmem
    exact Licensed.mono hsub (h.sessions session (mem_history hmem (by simp)))
  · intro hmem
    exact h.stopped (mem_history hmem (by simp))
  · exact quiet_append h.quiet fun hmem =>
      absurd (h.stopped hmem) (by simp [hstopped])
  · change (kept ++ [(GoString.utf8 draws.state, flow)]).length ≤ config.maxPendingFlows
    rw [List.length_append, List.length_singleton]
    omega

/-- A handler consumes a flow: it is gone from the table. -/
theorem Inv.consume (h : Inv config actions world) {thread : ℕ} {cookie state code : GoString}
    {now : ℕ} (hold : world.threads[thread]? = some (.consuming cookie state code now))
    {flow : PendingFlow} (hstopped : world.service.stopped = false)
    (hlookup : world.service.pending.lookup state = some flow) (hlive : now < flow.expires) :
    Inv config (actions ++ [.consume thread])
      ({ world with service :=
          { world.service with
            pending := world.service.pending.filter fun entry => entry.1 ≠ state } }.advance thread
        (.completing cookie state code flow) [.consumed state flow now]) := by
  have hnothing : (Action.consume thread).drawn = [] := rfl
  obtain ⟨states, hstates, hstates'⟩ := account_advance Event.begunState Thread.drawn
    (.completing cookie state code flow) [.consumed state flow now]
    { world.service with
      pending := world.service.pending.filter fun entry => entry.1 ≠ state } hold
  obtain ⟨claims, hclaims, hclaims'⟩ := account_advance Event.sessionState Thread.held
    (.completing cookie state code flow) [.consumed state flow now]
    { world.service with
      pending := world.service.pending.filter fun entry => entry.1 ≠ state } hold
  have hperm := hstates'.trans hstates.symm
  have hmem : (state, flow) ∈ world.service.pending := by
    obtain ⟨before, after, heq, -⟩ := List.lookup_eq_some_iff.mp hlookup
    simp [heq]
  obtain ⟨hbegun, hfresh⟩ := h.pending _ hmem
  have hconsumed : (world.history ++ [Event.consumed state flow now]).flatMap
      Event.consumedState = world.history.flatMap Event.consumedState ++ [state] := by
    rw [List.flatMap_append]
    rfl
  have hsub : world.history ⊆ world.history ++ [.consumed state flow now] :=
    List.subset_append_left _ _
  have hold' : cookie = state := h.threads _ (List.mem_of_getElem? hold)
  constructor
  · exact hperm.nodup_iff.mpr h.states_nodup
  · intro state' hstate
    rw [drawn_append hnothing]
    exact h.states_drawn state' (hperm.subset hstate)
  · -- the handler now answers for a state that nobody has answered for
    have hclaims : (world.account Event.sessionState Thread.held).Perm claims := hclaims
    refine hclaims'.nodup_iff.mpr (List.nodup_cons.mpr ⟨fun hstate => ?_, ?_⟩)
    · exact hfresh (h.claims_consumed state (hclaims.symm.subset hstate))
    · exact hclaims.nodup_iff.mp h.claims_nodup
  · intro other hother
    have hclaims : (world.account Event.sessionState Thread.held).Perm claims := hclaims
    have hother : other ∈ state :: claims := hclaims'.subset hother
    refine hconsumed.symm ▸ List.mem_append.mpr ?_
    rcases List.mem_cons.mp hother with rfl | hother
    · exact .inr (List.mem_singleton_self _)
    · exact .inl (h.claims_consumed other (hclaims.symm.subset hother))
  · refine hconsumed.symm ▸ List.nodup_append.mpr ⟨h.consumed_nodup, List.nodup_singleton _, ?_⟩
    rintro other hother _ hstate rfl
    obtain rfl := List.mem_singleton.mp hstate
    exact hfresh hother
  · intro other flow' reading hevent
    rcases List.mem_append.mp hevent with hevent | hevent
    · obtain ⟨hlt, hbegun'⟩ := h.consumed other flow' reading hevent
      exact ⟨hlt, hsub hbegun'⟩
    · cases List.mem_singleton.mp hevent
      exact ⟨hlive, hsub hbegun⟩
  · intro entry hentry
    obtain ⟨hentry, hne⟩ := List.mem_filter.mp hentry
    obtain ⟨hbegun', hnot⟩ := h.pending entry hentry
    refine ⟨hsub hbegun', hconsumed.symm ▸ fun hstate => ?_⟩
    rcases List.mem_append.mp hstate with hstate | hstate
    · exact hnot hstate
    · exact of_decide_eq_true hne (List.mem_singleton.mp hstate)
  · intro other hother
    rcases mem_of_mem_set hother with rfl | hother
    · exact ⟨hold', now, List.mem_append_right _ (List.mem_singleton_self _)⟩
    · exact Thread.sound_mono hsub (h.threads other hother)
  · intro session hevent
    exact Licensed.mono hsub (h.sessions session (mem_history hevent (by simp)))
  · intro hevent
    exact h.stopped (mem_history hevent (by simp))
  · exact quiet_append h.quiet fun hevent =>
      absurd (h.stopped hevent) (by simp [hstopped])
  · exact (List.length_filter_le _ _).trans h.bounded

/-- A handler establishes its session. -/
theorem Inv.establish (h : Inv config actions world) {thread : ℕ} {cookie state : GoString}
    {token : IDToken} {authentication : Authentication}
    (hold : world.threads[thread]? = some (.establishing cookie state token authentication))
    {action : Action} (haction : action.drawn = []) (reply : Reply) :
    Inv config (actions ++ [action])
      (world.advance thread (.answered reply)
        [.established ⟨cookie, state, token, authentication.actor⟩]) := by
  have hold' : Licensed config world.history cookie state token authentication.actor :=
    h.threads _ (List.mem_of_getElem? hold)
  generalize hsession : (⟨cookie, state, token, authentication.actor⟩ : Session) = session
  have hlicensed : Licensed config world.history session.cookie session.state session.token
      session.actor := by
    rw [← hsession]
    exact hold'
  have hstate : session.state = state := by rw [← hsession]
  obtain ⟨states, hstates, hstates'⟩ := account_advance Event.begunState Thread.drawn
    (.answered reply) [.established session] world.service hold
  obtain ⟨claims, hclaims, hclaims'⟩ := account_advance Event.sessionState Thread.held
    (.answered reply) [.established session] world.service hold
  have hperm := hstates'.trans hstates.symm
  have hperm' : ((world.advance thread (.answered reply) [.established session]).account
      Event.sessionState Thread.held).Perm (world.account Event.sessionState Thread.held) := by
    have hclaims'' : ((world.advance thread (.answered reply) [.established session]).account
        Event.sessionState Thread.held).Perm ([session.state] ++ claims) := hclaims'
    rw [hstate] at hclaims''
    exact hclaims''.trans hclaims.symm
  have hconsumed := consumed_append world.history
    (show (Event.established session).consumedState = [] from rfl)
  have hsub : world.history ⊆ world.history ++ [.established session] :=
    List.subset_append_left _ _
  constructor
  · exact hperm.nodup_iff.mpr h.states_nodup
  · intro other hother
    rw [drawn_append haction]
    exact h.states_drawn other (hperm.subset hother)
  · exact hperm'.nodup_iff.mpr h.claims_nodup
  · intro other hother
    exact hconsumed.symm ▸ h.claims_consumed other (hperm'.subset hother)
  · exact hconsumed.symm ▸ h.consumed_nodup
  · intro other flow reading hevent
    obtain ⟨hlt, hbegun⟩ := h.consumed other flow reading (mem_history hevent (by simp))
    exact ⟨hlt, hsub hbegun⟩
  · intro entry hentry
    obtain ⟨hbegun, hnot⟩ := h.pending entry hentry
    exact ⟨hsub hbegun, hconsumed.symm ▸ hnot⟩
  · intro other hother
    rcases mem_of_mem_set hother with rfl | hother
    · trivial
    · exact Thread.sound_mono hsub (h.threads other hother)
  · intro other hevent
    rcases List.mem_append.mp hevent with hevent | hevent
    · exact Licensed.mono hsub (h.sessions other hevent)
    · cases List.mem_singleton.mp hevent
      exact Licensed.mono hsub hlicensed
  · intro hevent
    exact h.stopped (mem_history hevent (by simp))
  · exact quiet_append h.quiet fun _ => rfl
  · exact h.bounded

/-- The service stops. -/
theorem Inv.stop (h : Inv config actions world) :
    Inv config (actions ++ [.stop])
      { world with service := world.service.stop, history := world.history ++ [.stopped] } := by
  have hconsumed := consumed_append world.history
    (show Event.stopped.consumedState = [] from rfl)
  have hsub : world.history ⊆ world.history ++ [.stopped] := List.subset_append_left _ _
  have hstates : World.account
      { world with service := world.service.stop, history := world.history ++ [.stopped] }
      Event.begunState Thread.drawn = world.account Event.begunState Thread.drawn := by
    simp [World.account, Event.begunState]
  have hclaims : World.account
      { world with service := world.service.stop, history := world.history ++ [.stopped] }
      Event.sessionState Thread.held = world.account Event.sessionState Thread.held := by
    simp [World.account, Event.sessionState]
  constructor
  · exact hstates ▸ h.states_nodup
  · intro state hstate
    rw [drawn_append rfl]
    exact h.states_drawn state (hstates ▸ hstate)
  · exact hclaims ▸ h.claims_nodup
  · intro state hstate
    exact hconsumed.symm ▸ h.claims_consumed state (hclaims ▸ hstate)
  · exact hconsumed.symm ▸ h.consumed_nodup
  · intro other flow reading hevent
    obtain ⟨hlt, hbegun⟩ := h.consumed other flow reading (mem_history hevent (by simp))
    exact ⟨hlt, hsub hbegun⟩
  · intro entry hentry
    cases hentry
  · intro other hother
    exact Thread.sound_mono hsub (h.threads other hother)
  · intro session hevent
    exact Licensed.mono hsub (h.sessions session (mem_history hevent (by simp)))
  · intro _
    rfl
  · exact quiet_append h.quiet fun _ => rfl
  · exact Nat.zero_le _

/-- What `Complete` has checked when it succeeds. -/
theorem complete_eq_some
    (hresolve : ∀ moment id actor, env.resolveByID moment id = some actor → actor.id = id)
    {moment : ℕ} {code : GoString} {flow : PendingFlow} {canceled : Bool} {token : IDToken}
    {authentication : Authentication}
    (h : complete config env moment code flow canceled = some (token, authentication)) :
    flow.nonce = token.nonce ∧ Mapped config token authentication.actor := by
  unfold complete at h
  simp only [Option.bind_eq_bind, Option.bind_eq_some_iff, Option.guard_eq_some', Option.pure_def,
    Option.some.injEq, Prod.mk.injEq] at h
  obtain ⟨_, -, rawIDToken, -, _, -, idToken, -, _, hnonce, subject, hsubject, _, -, mapping,
    hmapping, actor, hactor, _, ⟨htype, -⟩, _, -, rfl, rfl⟩ := h
  have hid := hresolve moment mapping.actorID actor hactor
  exact ⟨hnonce.symm, subject, mapping, hsubject, hmapping, hid, htype⟩

theorem pending_sublist (service : Service) (config : Config) (env : Environment) (draws : Draws)
    (now : ℕ) (h : (service.begin config env draws now).2 = none) :
    (service.begin config env draws now).1.stopped = service.stopped ∧
      List.Sublist (service.begin config env draws now).1.pending service.pending := by
  unfold Service.begin at h ⊢
  by_cases hstopped : service.stopped = true
  · simp only [hstopped, if_true] at h ⊢
    exact ⟨trivial, List.Sublist.refl _⟩
  · simp only [hstopped] at h ⊢
    by_cases hfull : config.maxPendingFlows ≤
        (service.pending.filter fun entry => now < entry.2.expires).length
    · simp only [hfull, if_true] at h ⊢
      exact ⟨by simp, List.filter_sublist⟩
    · simp [hfull] at h

theorem callbackParameters_eq_ok {request : CallbackRequest} {cookie state code : GoString}
    (h : callbackParameters request = .ok (cookie, state, code)) : cookie = state := by
  unfold callbackParameters at h
  repeat' first | (cases h; done) | split at h
  next hcheck _ =>
    cases h
    by_contra hne
    exact hcheck (.inr (.inr (.inr (.inr hne))))

theorem begin_eq_some {service : Service} {draws : Draws} {now : ℕ} {flow : BrowserFlow}
    (h : (service.begin config env draws now).2 = some flow) :
    service.stopped = false ∧ ∃ kept, List.Sublist kept service.pending ∧
      kept.length < config.maxPendingFlows ∧
      (service.begin config env draws now).1 =
        { service with
          pending := kept ++ [(GoString.utf8 draws.state,
            ⟨draws.verifier, draws.nonce, now + config.flowTTL⟩)] } := by
  unfold Service.begin at h ⊢
  by_cases hstopped : service.stopped = true
  · simp [hstopped] at h
  · simp only [hstopped] at h ⊢
    by_cases hfull : config.maxPendingFlows ≤
        (service.pending.filter fun entry => now < entry.2.expires).length
    · simp [hfull] at h
    · simp only [hfull, if_false, Bool.false_eq_true] at h ⊢
      refine ⟨trivial, _, ?_, ?_, rfl⟩
      · exact List.filter_sublist.trans List.filter_sublist
      · have hle := List.length_filter_le (fun entry => decide (entry.1 ≠ .utf8 draws.state))
          (service.pending.filter fun entry => decide (now < entry.2.expires))
        omega

theorem consume_shrinks (service : Service) (state : GoString) (now : ℕ) :
    (service.consume state now).1.stopped = service.stopped ∧
      List.Sublist (service.consume state now).1.pending service.pending := by
  unfold Service.consume
  by_cases hstopped : service.stopped = true
  · rw [if_pos hstopped]
    exact ⟨rfl, List.Sublist.refl _⟩
  · rw [if_neg hstopped]
    dsimp only
    split
    · exact ⟨rfl, List.filter_sublist⟩
    · split
      · exact ⟨rfl, List.filter_sublist⟩
      · exact ⟨rfl, List.filter_sublist⟩

theorem consume_eq_some {service : Service} {state : GoString} {now : ℕ} {flow : PendingFlow}
    (h : (service.consume state now).2 = some flow) :
    service.stopped = false ∧ service.pending.lookup state = some flow ∧ now < flow.expires ∧
      (service.consume state now).1 =
        { service with pending := service.pending.filter fun entry => entry.1 ≠ state } := by
  unfold Service.consume at h ⊢
  by_cases hstopped : service.stopped = true
  · simp [hstopped] at h
  · rw [if_neg hstopped] at h ⊢
    cases hlookup : service.pending.lookup state with
    | none => simp [hlookup] at h
    | some found =>
      simp only [hlookup] at h ⊢
      by_cases hlive : now < found.expires
      · rw [if_pos hlive] at h ⊢
        obtain rfl := Option.some.inj h
        exact ⟨by simpa using hstopped, rfl, hlive, rfl⟩
      · simp [hlive] at h

/-- A step keeps the invariant, as long as no state is drawn twice. -/
theorem Inv.keep (h : Inv config actions world)
    (hresolve : ∀ moment id actor, env.resolveByID moment id = some actor → actor.id = id)
    {action : Action} {next : World} (hstep : step config env world action = some next)
    (hdistinct : (drawn (actions ++ [action])).Nodup) : Inv config (actions ++ [action]) next := by
  cases action with
  | login request =>
    cases hstep
    refine h.arrive rfl ?_ ?_ hdistinct
    · unfold loginThread
      split_ifs <;> first | rfl | (cases request.draws <;> rfl)
    · unfold loginThread
      split_ifs <;> first | trivial | (cases request.draws <;> trivial)
  | callback request =>
    cases hstep
    cases hp : callbackParameters request with
    | error err =>
      refine h.arrive ?_ ?_ ?_ hdistinct <;> simp only [callbackThread, hp]
      · rfl
      · rfl
      · trivial
    | ok parameters =>
      obtain ⟨cookie, state, code⟩ := parameters
      refine h.arrive ?_ ?_ ?_ hdistinct <;> simp only [callbackThread, hp]
      · rfl
      · rfl
      · exact callbackParameters_eq_ok hp
  | begin thread =>
    dsimp only [step] at hstep
    split at hstep
    · next draws now hthread =>
      split at hstep
      · next hnone =>
        cases hstep
        obtain ⟨hstopped, hpending⟩ := pending_sublist _ _ _ _ _ hnone
        exact h.answer rfl hthread _ hstopped hpending
      · next flow hsome =>
        cases hstep
        obtain ⟨hstopped, kept, hkept, hroom, hservice⟩ := begin_eq_some hsome
        rw [hservice]
        exact h.begun hthread hstopped hkept hroom
    · cases hstep
  | redirect thread now =>
    dsimp only [step] at hstep
    split at hstep
    · next flow hthread =>
      split at hstep
      · cases hstep
        exact h.answer rfl hthread _ rfl (List.Sublist.refl _)
      · cases hstep
        exact h.answer rfl hthread _ rfl (List.Sublist.refl _)
    · cases hstep
  | consume thread =>
    dsimp only [step] at hstep
    split at hstep
    · next cookie state code now hthread =>
      split at hstep
      · cases hstep
        obtain ⟨hstopped, hpending⟩ := consume_shrinks world.service state now
        exact h.answer rfl hthread _ hstopped hpending
      · next flow hsome =>
        cases hstep
        obtain ⟨hstopped, hlookup, hlive, hservice⟩ := consume_eq_some hsome
        rw [hservice]
        exact h.consume hthread hstopped hlookup hlive
    · cases hstep
  | complete thread moment canceled =>
    dsimp only [step] at hstep
    split at hstep
    · next cookie state code flow hthread =>
      split at hstep
      · cases hstep
        exact h.answer rfl hthread _ rfl (List.Sublist.refl _)
      · next token authentication hcomplete =>
        cases hstep
        obtain ⟨hcookie, reading, hconsumed⟩ := h.threads _ (List.mem_of_getElem? hthread)
        obtain ⟨hnonce, hmapped⟩ := complete_eq_some hresolve hcomplete
        have hlicensed : Thread.sound config world.history
            (.establishing cookie state token authentication) :=
          ⟨hcookie, ⟨flow, reading, hconsumed, hnonce⟩, hmapped⟩
        have hnothing : (Action.complete thread moment canceled).drawn = [] := rfl
        have hdrawn : (Thread.establishing cookie state token authentication).drawn = [] := rfl
        exact h.advance hnothing hthread hdrawn (.inr rfl) hlicensed rfl (List.Sublist.refl _)
    · cases hstep
  | establish thread created delivered =>
    dsimp only [step] at hstep
    split at hstep
    · next cookie state token authentication hthread =>
      split at hstep
      · cases hstep
        exact h.answer rfl hthread _ rfl (List.Sublist.refl _)
      · cases hstep
        exact h.establish hthread rfl _
    · cases hstep
  | stop =>
    cases hstep
    exact h.stop

/-- **The invariant holds in every run that draws no state twice.** -/
theorem inv_of_run
    (hresolve : ∀ moment id actor, env.resolveByID moment id = some actor → actor.id = id)
    (hrun : run (step config env) actions {} = some world) (hdistinct : (drawn actions).Nodup) :
    Inv config actions world := by
  revert hdistinct
  refine run_induction (P := fun actions world => (drawn actions).Nodup → Inv config actions world)
    (fun _ => inv_initial config) ?_ hrun
  intro actions action before after ih hstep hdistinct
  have hprefix : (drawn actions).Nodup := by
    have happend : drawn (actions ++ [action]) = drawn actions ++ action.drawn := by simp [drawn]
    rw [happend] at hdistinct
    exact (List.nodup_append.mp hdistinct).1
  exact (ih hprefix).keep hresolve hstep hdistinct

end Invariant

/-! ### The identity store -/

section Resolver

/-- `ResolveByID` of the PostgreSQL identity store; the actor id is text if it is valid. -/
def resolveByID (t : Tables) (id : GoString) : Option Actor :=
  match id with
  | .raw _ => none
  | .utf8 actorID =>
    if (validateActorID id).isOk then (loadActor t actorID).toOption else none

/-- **The store resolves an identifier to the actor of that identifier.** -/
theorem resolveByID_id {t : Tables} {id : GoString} {actor : Actor}
    (h : resolveByID t id = some actor) : actor.id = id := by
  unfold resolveByID at h
  split at h
  · cases h
  · next actorID =>
    split at h
    · unfold loadActor at h
      cases hrow : t.principal actorID with
      | none => rw [hrow] at h; cases h
      | some row =>
        have hkey := (Lib.Keyed.lookup_some hrow).2
        simp only [hrow] at h
        split at h
        · unfold decodeActor at h
          dsimp only at h
          split at h
          · cases h
          · cases h
            exact congrArg GoString.utf8 hkey
        · cases h
    · cases h

end Resolver

/-! ### The ceremony -/

section Ceremony

variable {config : Config} {env : Environment} {actions : List Action} {world : World}

/-- What the history of a ceremony shows: the sessions and the flows they come from, and the life
of a flow. -/
structure Sound (config : Config) (world : World) : Prop where
  sessions : ∀ session, .established session ∈ world.history →
    (∃! flow, .begun session.cookie flow ∈ world.history) ∧
      ∃ flow reading, .begun session.cookie flow ∈ world.history ∧
        .consumed session.cookie flow reading ∈ world.history ∧
        flow.nonce = session.token.nonce ∧ Mapped config session.token session.actor
  sessionOnce : (world.history.flatMap Event.sessionState).Nodup
  once : (world.history.flatMap Event.consumedState).Nodup
  unexpired : ∀ state flow reading, .consumed state flow reading ∈ world.history →
    .begun state flow ∈ world.history ∧ reading < flow.expires
  unstopped : ∀ before after, world.history = before ++ .stopped :: after →
    ∀ state flow reading, .consumed state flow reading ∉ after
  bounded : world.service.pending.length ≤ config.maxPendingFlows

theorem begun_unique {history : List Event} (h : (history.flatMap Event.begunState).Nodup)
    {state : GoString} {flow other : PendingFlow} (hflow : .begun state flow ∈ history)
    (hother : .begun state other ∈ history) : flow = other := by
  induction history with
  | nil => cases hflow
  | cons event history ih =>
    rw [List.flatMap_cons] at h
    obtain ⟨-, hrest, hapart⟩ := List.nodup_append.mp h
    rcases List.mem_cons.mp hflow with heq | hflow <;> rcases List.mem_cons.mp hother with heq' | hother
    · cases heq.trans heq'.symm
      rfl
    · exact absurd rfl (hapart state (heq ▸ List.mem_singleton_self _) state (mem_begunState hother))
    · exact absurd rfl (hapart state (heq' ▸ List.mem_singleton_self _) state (mem_begunState hflow))
    · exact ih hrest hflow hother

/-- **Every session comes from one flow of its cookie, and a flow is consumed once, in time and
before the service stops**, in every interleaving of logins, callbacks and stops. -/
theorem ceremony_sound
    (hresolve : ∀ moment id actor, env.resolveByID moment id = some actor → actor.id = id)
    (hrun : run (step config env) actions {} = some world) (hdistinct : (drawn actions).Nodup) :
    Sound config world := by
  have h := inv_of_run hresolve hrun hdistinct
  constructor
  · intro session hsession
    have hlicensed := h.sessions session hsession
    obtain ⟨flow, reading, hconsumed, hnonce⟩ := hlicensed.flow
    rw [← hlicensed.cookie] at hconsumed
    have hbegun := (h.consumed _ _ _ hconsumed).2
    have hstates := (List.nodup_append.mp h.states_nodup).1
    refine ⟨⟨flow, hbegun, fun other hother => begun_unique hstates hother hbegun⟩, ?_⟩
    exact ⟨flow, reading, hbegun, hconsumed, hnonce, hlicensed.mapped⟩
  · exact (List.nodup_append.mp h.claims_nodup).1
  · exact h.consumed_nodup
  · intro state flow reading hconsumed
    exact (h.consumed state flow reading hconsumed).symm
  · intro before after hhistory state flow reading hconsumed
    have hquiet := h.quiet
    rw [hhistory, List.pairwise_append] at hquiet
    have hlater := (List.pairwise_cons.mp hquiet.2.1).1 _ hconsumed rfl
    cases hlater
  · exact h.bounded

/-- One mapped subject and one flow at a time. -/
def sampleConfig : Config where
  mappings := [("s", ⟨"s", .utf8 "a", .utf8 "user"⟩)]
  flowTTL := 600
  maxPendingFlows := 1

/-- A store with one principal. -/
def sampleTables : Tables where
  principals := [⟨"a", "user", "", true⟩]
  passwords := []
  bearers := []
  sessions := []

/-- A provider that answers the code `c` with a token of the nonce `n`, and the store. -/
def sampleEnvironment : Environment where
  authCodeURL := fun state _ _ => state
  exchange := fun _ code _ => if code = .utf8 "c" then some "t" else none
  verify := fun _ _ => some ⟨"n", some "s"⟩
  resolveByID := fun _ id => Oidc.resolveByID sampleTables id

/-- A login, its callback, a second callback with the same cookie, and the stop of the service. -/
def sampleActions : List Action :=
  [.login ⟨"", false, some ⟨"x", "n", "v"⟩, 0⟩, .begin 0, .redirect 0 1,
    .callback ⟨some (.utf8 "x"), 16, some [("state", [.utf8 "x"]), ("code", [.utf8 "c"])], 2⟩,
    .callback ⟨some (.utf8 "x"), 16, some [("state", [.utf8 "x"]), ("code", [.utf8 "c"])], 3⟩,
    .consume 1, .consume 2, .complete 1 4 false, .establish 1 true true, .stop]

/-- The run goes through, and its history is one login with one session. -/
theorem ceremony_sound_sample :
    ∃ world, run (step sampleConfig sampleEnvironment) sampleActions {} = some world ∧
      world.history = [.begun (.utf8 "x") ⟨"v", "n", 600⟩, .consumed (.utf8 "x") ⟨"v", "n", 600⟩ 2,
        .established ⟨.utf8 "x", .utf8 "x", ⟨"n", some "s"⟩, ⟨.utf8 "a", .utf8 "user", .utf8 ""⟩⟩,
        .stopped] ∧
      Sound sampleConfig world := by
  have hresolve : ∀ moment id actor,
      sampleEnvironment.resolveByID moment id = some actor → actor.id = id := by
    intro moment id actor h
    exact resolveByID_id h
  have hsome : ((run (step sampleConfig sampleEnvironment) sampleActions {}).map
      World.history) = some
        [.begun (.utf8 "x") ⟨"v", "n", 600⟩, .consumed (.utf8 "x") ⟨"v", "n", 600⟩ 2,
          .established ⟨.utf8 "x", .utf8 "x", ⟨"n", some "s"⟩, ⟨.utf8 "a", .utf8 "user", .utf8 ""⟩⟩,
          .stopped] := by decide +kernel
  obtain ⟨world, hrun, hhistory⟩ := Option.map_eq_some_iff.mp hsome
  exact ⟨world, hrun, hhistory, ceremony_sound hresolve hrun (by decide +kernel)⟩

end Ceremony

end Modary.Identity.Oidc
