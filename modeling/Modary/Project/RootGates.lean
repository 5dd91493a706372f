import Mathlib.Data.Int.Notation
import Mathlib.Data.List.Nodup
import Mathlib.Tactic.SplitIfs
import Modary.Lib.Machine
import Modary.Lib.Slots

/-! # Project root gates

`acquireProjectRoot` of `projecttool`: operations on one directory are let in one at a time. Every
directory that is in use has a gate, found by the identity of the directory, shared by reference
count, and deleted with its last reference. Callers meet at the lock of the gates, at the semaphore
of a gate, and where their contexts are done. -/

namespace Modary.Project.RootGates

open Modary.Lib.Machine Modary.Lib.Slots

variable {D : Type}

/-- `fs.FileInfo`, as far as it is used; `os.SameFile` compares what it is the information of. -/
structure FileInfo (D : Type) where
  file : D
  isDir : Bool
  deriving DecidableEq

/-- `os.SameFile`. -/
def sameFile [DecidableEq D] (a b : FileInfo D) : Bool := a.file = b.file

/-- The arguments of `acquireProjectRoot`. -/
structure Request (D : Type) where
  hasContext : Bool
  root : String
  identity : Option (FileInfo D)

inductive AcquireError
  | contextRequired
  | done
  | identityUnavailable (root : String)
  deriving DecidableEq, Repr

/-- Where a call stands. Once it has a reference to a gate it waits, has put its token into the
semaphore, takes it back because its context is done, holds the gate, or gives its reference back,
with the error that it returns or after its release. -/
inductive Phase (D : Type)
  | called
  | checked (identity : FileInfo D)
  | waiting (gate : ℕ)
  | taken (gate : ℕ)
  | refused (gate : ℕ)
  | holding (gate : ℕ)
  | leaving (gate : ℕ) (err : Option AcquireError)
  | failed (err : AcquireError)
  | released

/-- The gate that a call has a reference to. -/
def Phase.gate? : Phase D → Option ℕ
  | .waiting gate => some gate
  | .taken gate => some gate
  | .refused gate => some gate
  | .holding gate => some gate
  | .leaving gate _ => some gate
  | _ => none

/-- The gate in whose semaphore the token of a call is. -/
def Phase.token? : Phase D → Option ℕ
  | .taken gate => some gate
  | .refused gate => some gate
  | .holding gate => some gate
  | _ => none

/-- A call, its context and where it stands. -/
structure Call (D : Type) where
  request : Request D
  done : Bool
  phase : Phase D

/-- `projectRootGate`; the channel of its semaphore has room for one token. -/
structure Gate (D : Type) where
  identity : FileInfo D
  semaphore : Bool
  references : ℤ

/-- All gates so far, those in `projectRootGates.entries`, and all calls. -/
structure State (D : Type) where
  gates : List (Gate D)
  entries : List ℕ
  calls : List (Call D)

def start : State D := ⟨[], [], []⟩

/-! ### Steps -/

/-- What the checks at the start of a call say. -/
def Call.check (call : Call D) : Phase D :=
  if call.request.hasContext = false then .failed .contextRequired
  else if call.done then .failed .done
  else
    match call.request.identity with
    | none => .failed (.identityUnavailable call.request.root)
    | some identity =>
      if identity.isDir then .checked identity
      else .failed (.identityUnavailable call.request.root)

/-- A call moves on and leaves its gate as it is. -/
def State.put (s : State D) (i : ℕ) (call : Call D) (phase : Phase D) : State D :=
  { s with calls := s.calls.set i { call with phase := phase } }

/-- A call moves on and changes its gate, which is deleted with its last reference. -/
def State.write (s : State D) (i : ℕ) (call : Call D) (phase : Phase D) (g : ℕ) (gate : Gate D) :
    State D where
  gates := s.gates.set g gate
  entries := if gate.references = 0 then s.entries.erase g else s.entries
  calls := s.calls.set i { call with phase := phase }

/-- The first entry of a directory. -/
def State.find [DecidableEq D] (s : State D) (identity : FileInfo D) : Option ℕ :=
  s.entries.find? fun g => (s.gates[g]?).any fun gate => sameFile identity gate.identity

/-- The section of `acquireProjectRoot` under the lock. -/
def State.enter [DecidableEq D] (s : State D) (i : ℕ) (call : Call D) (identity : FileInfo D) : Option (State D) :=
  match s.find identity with
  | some g => do
    let gate ← s.gates[g]?
    return s.write i call (.waiting g) g { gate with references := gate.references + 1 }
  | none => some {
      gates := s.gates ++ [⟨identity, false, 1⟩]
      entries := s.entries ++ [s.gates.length]
      calls := s.calls.set i { call with phase := .waiting s.gates.length } }

/-- `<-gate.semaphore`, which waits for a token. -/
def State.drain (s : State D) (i : ℕ) (call : Call D) (g : ℕ) (err : Option AcquireError) :
    Option (State D) := do
  let gate ← s.gates[g]?
  if gate.semaphore then some (s.write i call (.leaving g err) g { gate with semaphore := false })
  else none

/-- What a call returns when it has given its reference back. -/
def ended : Option AcquireError → Phase D
  | some err => .failed err
  | none => .released

/-- The next step of a call that has one. -/
def State.advance [DecidableEq D] (s : State D) (i : ℕ) (call : Call D) : Option (State D) :=
  match call.phase with
  | .called => some (s.put i call call.check)
  | .checked identity => s.enter i call identity
  | .waiting g => do
    let gate ← s.gates[g]?
    if gate.semaphore then none
    else some (s.write i call (.taken g) g { gate with semaphore := true })
  | .taken g => some (s.put i call (if call.done then .refused g else .holding g))
  | .refused g => s.drain i call g (some .done)
  | .leaving g err => do
    let gate ← s.gates[g]?
    return s.write i call (ended err) g { gate with references := gate.references - 1 }
  | _ => none

/-- The other case of the `select`. -/
def State.abandon (s : State D) (i : ℕ) (call : Call D) : Option (State D) :=
  match call.phase with
  | .waiting g => if call.done then some (s.put i call (.leaving g (some .done))) else none
  | _ => none

/-- The function that a call has returned; `once` makes all but its first call empty. -/
def State.release (s : State D) (i : ℕ) (call : Call D) : Option (State D) :=
  match call.phase with
  | .holding g => s.drain i call g none
  | .leaving _ none => some s
  | .released => some s
  | _ => none

/-- What happens next: a new call, the end of a context, or a step of a call. -/
inductive Event (D : Type)
  | call (request : Request D)
  | done (i : ℕ)
  | advance (i : ℕ)
  | abandon (i : ℕ)
  | release (i : ℕ)

def step [DecidableEq D] (s : State D) : Event D → Option (State D)
  | .call request => some { s with calls := s.calls ++ [⟨request, false, .called⟩] }
  | .done i => (s.calls[i]?).map fun call =>
      { s with calls := s.calls.set i { call with done := true } }
  | .advance i => (s.calls[i]?).bind (s.advance i)
  | .abandon i => (s.calls[i]?).bind (s.abandon i)
  | .release i => (s.calls[i]?).bind (s.release i)

/-! ### The invariant -/

/-- A call has a reference to a gate. -/
def Call.uses (g : ℕ) (call : Call D) : Bool := call.phase.gate? = some g

/-- The token of a call is in the semaphore of a gate. -/
def Call.possesses (g : ℕ) (call : Call D) : Bool := call.phase.token? = some g

/-- The directory of a call. -/
def Call.directory (call : Call D) : Option D := call.request.identity.map FileInfo.file

/-- **The invariant**: the entries are the gates with references, one for each directory; the
references of a gate are counted, and its token is that of one call. -/
structure Inv (s : State D) : Prop where
  nodup : s.entries.Nodup
  distinct : ∀ g ∈ s.entries, ∀ h ∈ s.entries, ∀ a b : Gate D, s.gates[g]? = some a → s.gates[h]? = some b →
    a.identity.file = b.identity.file → g = h
  valid : ∀ g ∈ s.entries, ∃ gate, s.gates[g]? = some gate ∧ 0 < gate.references
  engaged : ∀ call ∈ s.calls, ∀ g, call.phase.gate? = some g →
    g ∈ s.entries ∧ ∃ gate, s.gates[g]? = some gate ∧ call.directory = some gate.identity.file
  checked : ∀ call ∈ s.calls, ∀ identity, call.phase = .checked identity →
    call.request.identity = some identity
  references : ∀ g (gate : Gate D), s.gates[g]? = some gate →
    gate.references = (s.calls.countP (Call.uses g) : ℕ)
  semaphore : ∀ g (gate : Gate D), s.gates[g]? = some gate →
    s.calls.countP (Call.possesses g) = if gate.semaphore then 1 else 0

theorem inv_start : Inv (start : State D) := by
  refine ⟨List.nodup_nil, ?_, ?_, ?_, ?_, ?_, ?_⟩ <;> simp [start]

variable {s t : State D} {i g : ℕ} {call new : Call D} {gate : Gate D}

theorem set_self {g' : Gate D} (hgate : s.gates[g]? = some gate) :
    (s.gates.set g g')[g]? = some g' := by
  have hlt : g < s.gates.length := (List.getElem?_eq_some_iff.mp hgate).1
  rw [List.getElem?_set_self hlt]

/-- A call that keeps its reference and its token. -/
theorem Inv.put (h : Inv s) (hcall : s.calls[i]? = some call)
    (hrequest : new.request = call.request) (hgate : new.phase.gate? = call.phase.gate?)
    (htoken : new.phase.token? = call.phase.token?)
    (hchecked : ∀ identity, new.phase = .checked identity → call.request.identity = some identity) :
    Inv { s with calls := s.calls.set i new } := by
  have hmem := List.mem_of_getElem? hcall
  have huses : ∀ g, Call.uses g new = Call.uses g call := fun g => by
    unfold Call.uses
    rw [hgate]
  have hpossesses : ∀ g, Call.possesses g new = Call.possesses g call := fun g => by
    unfold Call.possesses
    rw [htoken]
  have hdirectory : new.directory = call.directory := by
    unfold Call.directory
    rw [hrequest]
  refine ⟨h.nodup, h.distinct, h.valid, ?_, ?_, ?_, ?_⟩
  · intro c hc g hg
    rcases mem_of_mem_set hc with rfl | hc
    · rw [hgate] at hg
      rw [hdirectory]
      exact h.engaged call hmem g hg
    · exact h.engaged c hc g hg
  · intro c hc identity hidentity
    rcases mem_of_mem_set hc with rfl | hc
    · rw [hrequest]
      exact hchecked identity hidentity
    · exact h.checked c hc identity hidentity
  · intro g gate hg
    have hcount := countP_set (Call.uses g) hcall new
    have hreferences := h.references g gate hg
    rw [huses] at hcount
    show gate.references = ((s.calls.set i new).countP (Call.uses g) : ℕ)
    omega
  · intro g gate hg
    have hcount := countP_set (Call.possesses g) hcall new
    have hsemaphore := h.semaphore g gate hg
    rw [hpossesses] at hcount
    show (s.calls.set i new).countP (Call.possesses g) = _
    omega

/-- A call that changes the counts of a gate. -/
theorem Inv.write (h : Inv s) (hcall : s.calls[i]? = some call) (hgate : s.gates[g]? = some gate)
    {g' : Gate D} {phase : Phase D} (hidentity : g'.identity = gate.identity)
    (hentry : g ∈ s.entries) (hdirectory : call.directory = some gate.identity.file)
    (hchecked : ∀ identity, phase ≠ .checked identity)
    (hbefore : ∀ h, call.phase.gate? = some h → h = g) (hafter : ∀ h, phase.gate? = some h → h = g)
    (htoken : ∀ h, call.phase.token? = some h → h = g) (htoken' : ∀ h, phase.token? = some h → h = g)
    (hreferences : g'.references + (if call.uses g then 1 else 0) =
      gate.references + if phase.gate? = some g then 1 else 0)
    (hsemaphore : (if g'.semaphore then 1 else 0) + (if call.possesses g then 1 else 0) =
      (if gate.semaphore then 1 else 0) + if phase.token? = some g then 1 else 0) :
    Inv (s.write i call phase g g') := by
  have hmem := List.mem_of_getElem? hcall
  have hset : (s.gates.set g g')[g]? = some g' := set_self hgate
  have hne : ∀ {k}, k ≠ g → (s.gates.set g g')[k]? = s.gates[k]? := fun hk =>
    List.getElem?_set_ne fun heq => hk heq.symm
  -- the identities of the gates stay
  have hfile : ∀ (k : ℕ) (a : Gate D), (s.gates.set g g')[k]? = some a →
      ∃ b : Gate D, s.gates[k]? = some b ∧ b.identity = a.identity := by
    intro k a ha
    by_cases hk : k = g
    · subst hk
      rw [hset] at ha
      cases ha
      exact ⟨gate, hgate, hidentity.symm⟩
    · rw [hne hk] at ha
      exact ⟨a, ha, rfl⟩
  have hcount : ∀ (k : ℕ) (a : Gate D), (s.gates.set g g')[k]? = some a →
      a.references = ((s.calls.set i { call with phase := phase }).countP (Call.uses k) : ℕ) := by
    intro k a ha
    have hcounted := countP_set (Call.uses k) hcall { call with phase := phase }
    by_cases hk : k = g
    · subst hk
      rw [hset] at ha
      cases ha
      have hold := h.references k gate hgate
      simp only [Call.uses, decide_eq_true_eq] at hcounted hreferences
      split_ifs at hcounted hreferences <;> omega
    · rw [hne hk] at ha
      have hold := h.references k a ha
      have hcall' : ¬ Call.uses k call = true := by
        rw [Call.uses, decide_eq_true_eq]
        exact fun heq => hk (hbefore k heq)
      have hnew : ¬ Call.uses k { call with phase := phase } = true := by
        rw [Call.uses, decide_eq_true_eq]
        exact fun heq => hk (hafter k heq)
      rw [if_neg hcall', if_neg hnew] at hcounted
      omega
  have hentries : ∀ k, k ∈ (if g'.references = 0 then s.entries.erase g else s.entries) ↔
      k ∈ s.entries ∧ ¬ (k = g ∧ g'.references = 0) := by
    intro k
    by_cases hzero : g'.references = 0
    · rw [if_pos hzero, h.nodup.mem_erase_iff]
      constructor
      · rintro ⟨hk, hkmem⟩
        exact ⟨hkmem, fun hboth => hk hboth.1⟩
      · rintro ⟨hkmem, hk⟩
        exact ⟨fun heq => hk ⟨heq, hzero⟩, hkmem⟩
    · rw [if_neg hzero]
      exact ⟨fun hk => ⟨hk, fun hboth => hzero hboth.2⟩, And.left⟩
  have hnonneg : 0 ≤ g'.references := by
    rw [hcount g g' hset]
    exact Int.natCast_nonneg _
  refine ⟨?_, ?_, ?_, ?_, ?_, hcount, ?_⟩
  · show (if g'.references = 0 then s.entries.erase g else s.entries).Nodup
    split_ifs
    · exact h.nodup.erase g
    · exact h.nodup
  · intro k hk l hl a b ha hb heq
    obtain ⟨a', ha', hafile⟩ := hfile k a ha
    obtain ⟨b', hb', hbfile⟩ := hfile l b hb
    refine h.distinct k ((hentries k).mp hk).1 l ((hentries l).mp hl).1 a' b' ha' hb' ?_
    rw [hafile, hbfile]
    exact heq
  · intro k hk
    obtain ⟨hkmem, hkept⟩ := (hentries k).mp hk
    by_cases hkg : k = g
    · subst hkg
      refine ⟨g', hset, ?_⟩
      have hnonzero : g'.references ≠ 0 := fun hzero => hkept ⟨rfl, hzero⟩
      omega
    · obtain ⟨a, ha, hpos⟩ := h.valid k hkmem
      exact ⟨a, (hne hkg).trans ha, hpos⟩
  · intro c hc k hk
    have huses : 0 < (s.calls.set i { call with phase := phase }).countP (Call.uses k) :=
      List.countP_pos_iff.mpr ⟨c, hc, decide_eq_true hk⟩
    have hgates : k ∈ s.entries ∧ ∃ a, s.gates[k]? = some a ∧ c.directory = some a.identity.file := by
      rcases mem_of_mem_set hc with rfl | hc
      · cases hafter k hk
        exact ⟨hentry, gate, hgate, hdirectory⟩
      · exact h.engaged c hc k hk
    obtain ⟨hkmem, a, ha, hdir⟩ := hgates
    refine ⟨(hentries k).mpr ⟨hkmem, ?_⟩, ?_⟩
    · rintro ⟨rfl, hzero⟩
      have hcounted := hcount k g' hset
      omega
    · by_cases hkg : k = g
      · subst hkg
        rw [hgate] at ha
        cases ha
        exact ⟨g', hset, by rw [hidentity]; exact hdir⟩
      · exact ⟨a, (hne hkg).trans ha, hdir⟩
  · intro c hc identity heq
    rcases mem_of_mem_set hc with rfl | hc
    · exact absurd heq (hchecked identity)
    · exact h.checked c hc identity heq
  · intro k a ha
    have hcounted := countP_set (Call.possesses k) hcall { call with phase := phase }
    show (s.calls.set i { call with phase := phase }).countP (Call.possesses k) = _
    by_cases hk : k = g
    · subst hk
      rw [show (s.write i call phase k g').gates[k]? = some g' from hset] at ha
      cases ha
      have hold := h.semaphore k gate hgate
      simp only [Call.possesses, decide_eq_true_eq] at hcounted hsemaphore
      omega
    · have ha : s.gates[k]? = some a := (hne hk).symm.trans ha
      have hold := h.semaphore k a ha
      have hcall' : ¬ Call.possesses k call = true := by
        rw [Call.possesses, decide_eq_true_eq]
        exact fun heq => hk (htoken k heq)
      have hnew : ¬ Call.possesses k { call with phase := phase } = true := by
        rw [Call.possesses, decide_eq_true_eq]
        exact fun heq => hk (htoken' k heq)
      rw [if_neg hcall', if_neg hnew] at hcounted
      omega

/-- A call whose gate stays in use. -/
theorem Inv.keep (h : Inv s) (hcall : s.calls[i]? = some call) (hgate : s.gates[g]? = some gate)
    {g' : Gate D} {phase : Phase D} (hphase : call.phase.gate? = some g) (hafter : phase.gate? = some g)
    (hidentity : g'.identity = gate.identity) (hreferences : g'.references = gate.references)
    (hchecked : ∀ identity, phase ≠ .checked identity)
    (htoken : ∀ h, call.phase.token? = some h → h = g) (htoken' : ∀ h, phase.token? = some h → h = g)
    (hsemaphore : (if g'.semaphore then 1 else 0) + (if call.phase.token? = some g then 1 else 0) =
      (if gate.semaphore then 1 else 0) + if phase.token? = some g then 1 else 0) :
    Inv (s.write i call phase g g') := by
  obtain ⟨hentry, other, hother, hdirectory⟩ := h.engaged call (List.mem_of_getElem? hcall) g hphase
  rw [hgate] at hother
  cases hother
  refine h.write hcall hgate hidentity hentry hdirectory hchecked ?_ ?_ htoken htoken' ?_ ?_
  · intro k hk
    rw [hphase] at hk
    exact (Option.some.inj hk).symm
  · intro k hk
    rw [hafter] at hk
    exact (Option.some.inj hk).symm
  · rw [hreferences, Call.uses, hphase, hafter]
    simp
  · rw [Call.possesses]
    simpa using hsemaphore

/-- A call that is the first one of its directory. -/
theorem Inv.open (h : Inv s) (hcall : s.calls[i]? = some call) {identity : FileInfo D}
    (hnone : call.phase.gate? = none) (hnone' : call.phase.token? = none)
    (hidentity : call.request.identity = some identity)
    (hfree : ∀ g ∈ s.entries, ∀ gate : Gate D, s.gates[g]? = some gate →
      gate.identity.file ≠ identity.file) :
    Inv { gates := s.gates ++ [⟨identity, false, 1⟩]
          entries := s.entries ++ [s.gates.length]
          calls := s.calls.set i { call with phase := .waiting s.gates.length } : State D } := by
  have hbound : ∀ g ∈ s.entries, g < s.gates.length := by
    intro g hg
    obtain ⟨gate, hgate, -⟩ := h.valid g hg
    exact (List.getElem?_eq_some_iff.mp hgate).1
  have hnew : (s.gates ++ [⟨identity, false, 1⟩])[s.gates.length]? = some ⟨identity, false, 1⟩ :=
    List.getElem?_concat_length
  have hold : ∀ {k}, k < s.gates.length →
      (s.gates ++ [⟨identity, false, 1⟩])[k]? = s.gates[k]? := fun hk =>
    List.getElem?_append_left hk
  have hcases : ∀ (k : ℕ) (a : Gate D), (s.gates ++ [⟨identity, false, 1⟩])[k]? = some a →
      s.gates[k]? = some a ∧ k < s.gates.length ∨ k = s.gates.length ∧ a = ⟨identity, false, 1⟩ := by
    intro k a ha
    by_cases hk : k < s.gates.length
    · exact .inl ⟨(hold hk).symm.trans ha, hk⟩
    · have hlt := (List.getElem?_eq_some_iff.mp ha).1
      rw [List.length_append, List.length_singleton] at hlt
      have hlast : k = s.gates.length := by omega
      subst hlast
      rw [hnew] at ha
      cases ha
      exact .inr ⟨rfl, rfl⟩
  have hunused : s.calls.countP (Call.uses s.gates.length) = 0 := by
    rw [List.countP_eq_zero]
    intro c hc huses
    obtain ⟨hentry, -⟩ := h.engaged c hc _ (of_decide_eq_true huses)
    exact absurd (hbound _ hentry) (Nat.lt_irrefl _)
  have htokens : s.calls.countP (Call.possesses s.gates.length) = 0 := by
    rw [List.countP_eq_zero]
    intro c hc hpossesses
    have htoken := of_decide_eq_true hpossesses
    have hgate : c.phase.gate? = some s.gates.length := by
      cases hphase : c.phase <;> rw [hphase] at htoken <;> first | exact htoken | cases htoken
    obtain ⟨hentry, -⟩ := h.engaged c hc _ hgate
    exact absurd (hbound _ hentry) (Nat.lt_irrefl _)
  refine ⟨?_, ?_, ?_, ?_, ?_, ?_, ?_⟩
  · refine List.nodup_append.mpr ⟨h.nodup, List.nodup_singleton _, ?_⟩
    intro g hg k hk heq
    rw [List.mem_singleton] at hk
    have hlt := hbound g hg
    omega
  · intro g hg k hk a b ha hb heq
    rw [List.mem_append, List.mem_singleton] at hg hk
    rcases hcases g a ha with ⟨ha, hglt⟩ | ⟨rfl, rfl⟩
    · rcases hcases k b hb with ⟨hb, hklt⟩ | ⟨rfl, rfl⟩
      · exact h.distinct g (hg.resolve_right (by omega)) k (hk.resolve_right (by omega)) a b ha hb heq
      · exact absurd heq (hfree g (hg.resolve_right (by omega)) a ha)
    · rcases hcases k b hb with ⟨hb, hklt⟩ | ⟨rfl, rfl⟩
      · exact absurd heq.symm (hfree k (hk.resolve_right (by omega)) b hb)
      · rfl
  · intro g hg
    rw [List.mem_append, List.mem_singleton] at hg
    rcases hg with hg | rfl
    · obtain ⟨gate, hgate, hpos⟩ := h.valid g hg
      exact ⟨gate, (hold (hbound g hg)).trans hgate, hpos⟩
    · exact ⟨_, hnew, Int.one_pos⟩
  · intro c hc g hg
    rcases mem_of_mem_set hc with rfl | hc
    · cases hg
      refine ⟨List.mem_append_right _ (List.mem_singleton.mpr rfl), _, hnew, ?_⟩
      show call.request.identity.map FileInfo.file = some identity.file
      rw [hidentity]
      rfl
    · obtain ⟨hentry, gate, hgate, hdirectory⟩ := h.engaged c hc g hg
      exact ⟨List.mem_append_left _ hentry, gate, (hold (hbound g hentry)).trans hgate, hdirectory⟩
  · intro c hc identity' heq
    rcases mem_of_mem_set hc with rfl | hc
    · cases heq
    · exact h.checked c hc identity' heq
  · intro g gate hgate
    have hcount := countP_set (Call.uses g) hcall { call with phase := .waiting s.gates.length }
    have hbefore : ¬ Call.uses g call = true := by
      rw [Call.uses, hnone, decide_eq_true_eq]
      exact fun heq => by cases heq
    rw [if_neg hbefore] at hcount
    rcases hcases g gate hgate with ⟨hgate, hlt⟩ | ⟨rfl, rfl⟩
    · have hafter : ¬ Call.uses g { call with phase := .waiting s.gates.length } = true := by
        rw [Call.uses, decide_eq_true_eq]
        intro heq
        cases heq
        exact Nat.lt_irrefl _ hlt
      have hreferences := h.references g gate hgate
      rw [if_neg hafter] at hcount
      show gate.references = ((s.calls.set i _).countP (Call.uses g) : ℕ)
      omega
    · have hafter : Call.uses s.gates.length { call with phase := .waiting s.gates.length } = true :=
        decide_eq_true rfl
      rw [if_pos hafter, hunused] at hcount
      show (1 : ℤ) = ((s.calls.set i _).countP (Call.uses s.gates.length) : ℕ)
      omega
  · intro g gate hgate
    have hcount := countP_set (Call.possesses g) hcall { call with phase := .waiting s.gates.length }
    have hbefore : ¬ Call.possesses g call = true := by
      rw [Call.possesses, hnone', decide_eq_true_eq]
      exact fun heq => by cases heq
    have hafter : ¬ Call.possesses g { call with phase := .waiting s.gates.length } = true := by
      rw [Call.possesses, decide_eq_true_eq]
      exact fun heq => by cases heq
    rw [if_neg hbefore, if_neg hafter] at hcount
    show (s.calls.set i _).countP (Call.possesses g) = _
    rcases hcases g gate hgate with ⟨hgate, -⟩ | ⟨rfl, rfl⟩
    · have hsemaphore := h.semaphore g gate hgate
      omega
    · rw [if_neg Bool.false_ne_true]
      omega

/-! ### Steps keep the invariant -/

theorem Call.check_phase (call : Call D) :
    call.check.gate? = none ∧ call.check.token? = none ∧
      ∀ identity, call.check = .checked identity → call.request.identity = some identity := by
  unfold Call.check
  by_cases hcontext : call.request.hasContext = false
  · rw [if_pos hcontext]
    exact ⟨rfl, rfl, fun _ h => by cases h⟩
  · rw [if_neg hcontext]
    by_cases hdone : call.done = true
    · rw [if_pos hdone]
      exact ⟨rfl, rfl, fun _ h => by cases h⟩
    · rw [if_neg hdone]
      cases hidentity : call.request.identity with
      | none => exact ⟨rfl, rfl, fun _ h => by cases h⟩
      | some identity =>
        by_cases hdir : identity.isDir = true
        · simp only [if_pos hdir]
          exact ⟨rfl, rfl, fun _ h => by cases h; rfl⟩
        · simp only [if_neg hdir]
          exact ⟨rfl, rfl, fun _ h => by cases h⟩

theorem Inv.drain (h : Inv s) (hcall : s.calls[i]? = some call) {err : Option AcquireError}
    (hphase : call.phase.gate? = some g) (htoken : call.phase.token? = some g)
    (hstep : s.drain i call g err = some t) : Inv t := by
  obtain ⟨gate, hgate, hstep⟩ := Option.bind_eq_some_iff.mp hstep
  by_cases hfull : gate.semaphore = true
  · rw [if_pos hfull] at hstep
    cases hstep
    refine h.keep hcall hgate hphase rfl rfl rfl (fun _ heq => by cases heq) ?_ ?_ ?_
    · intro k hk
      rw [htoken] at hk
      exact (Option.some.inj hk).symm
    · intro k hk
      cases hk
    · rw [hfull, htoken]
      simp [Phase.token?]
  · rw [if_neg hfull] at hstep
    cases hstep

theorem Inv.abandon (h : Inv s) (hcall : s.calls[i]? = some call)
    (hstep : s.abandon i call = some t) : Inv t := by
  unfold State.abandon at hstep
  split at hstep
  · next g hphase =>
    by_cases hdone : call.done = true
    · rw [if_pos hdone] at hstep
      cases hstep
      exact h.put hcall rfl (by rw [hphase]; rfl) (by rw [hphase]; rfl) fun _ heq => by cases heq
    · rw [if_neg hdone] at hstep
      cases hstep
  · cases hstep

theorem Inv.release (h : Inv s) (hcall : s.calls[i]? = some call)
    (hstep : s.release i call = some t) : Inv t := by
  unfold State.release at hstep
  split at hstep
  · next g hphase => exact h.drain hcall (by rw [hphase]; rfl) (by rw [hphase]; rfl) hstep
  · cases hstep
    exact h
  · cases hstep
    exact h
  · cases hstep

theorem Inv.called (h : Inv s) (request : Request D) :
    Inv { s with calls := s.calls ++ [⟨request, false, .called⟩] } := by
  have hcases : ∀ {c : Call D}, c ∈ s.calls ++ [⟨request, false, .called⟩] →
      c ∈ s.calls ∨ c = ⟨request, false, .called⟩ := fun hc => by
    rwa [List.mem_append, List.mem_singleton] at hc
  refine ⟨h.nodup, h.distinct, h.valid, ?_, ?_, ?_, ?_⟩
  · intro c hc g hg
    rcases hcases hc with hc | rfl
    · exact h.engaged c hc g hg
    · cases hg
  · intro c hc identity heq
    rcases hcases hc with hc | rfl
    · exact h.checked c hc identity heq
    · cases heq
  · intro g gate hgate
    show gate.references = ((s.calls ++ [_]).countP (Call.uses g) : ℕ)
    rw [List.countP_append, h.references g gate hgate]
    rfl
  · intro g gate hgate
    show (s.calls ++ [_]).countP (Call.possesses g) = _
    rw [List.countP_append, h.semaphore g gate hgate]
    rfl

/-! ### What the gates are for -/

/-- A call that has returned its release function, which has not taken its token back. -/
def Call.Holds (call : Call D) : Prop := ∃ g, call.phase = .holding g

/-- A call that holds a gate, waits for one, or is about to give its reference back. -/
def Call.Engaged (call : Call D) : Prop := ∃ g, call.phase.gate? = some g

/-- A call that has returned an error, or whose release is done. -/
def Call.Over (call : Call D) : Prop := call.phase = .released ∨ ∃ err, call.phase = .failed err

/-- The gates do what they are for. -/
structure Guarded (s : State D) : Prop where
  /-- One caller at a time holds the gate of a directory. -/
  exclusive : ∀ (i j : ℕ) (a b : Call D), s.calls[i]? = some a → s.calls[j]? = some b → a.Holds →
    b.Holds → a.directory = b.directory → i = j
  /-- A call that has failed, or whose gate was released, is in no account of a gate. -/
  nothing : ∀ call ∈ s.calls, (call.Over → ¬ call.Engaged) ∧
    (¬ call.Engaged → ∀ g, call.uses g = false ∧ call.possesses g = false)
  /-- When all calls are over nothing is left of the gates. -/
  cleared : (∀ call ∈ s.calls, call.Over) → s.entries = [] ∧
    ∀ (g : ℕ) (gate : Gate D), s.gates[g]? = some gate →
      gate.references = 0 ∧ gate.semaphore = false
  /-- The accounts of a gate are those of the calls. -/
  accounts : ∀ g (gate : Gate D), s.gates[g]? = some gate →
    gate.references = (s.calls.countP (Call.uses g) : ℕ) ∧
      s.calls.countP (Call.possesses g) = if gate.semaphore then 1 else 0
  /-- A directory has an entry exactly while a call is engaged with it. -/
  entry : ∀ directory : D,
    (∃ g ∈ s.entries, ∃ gate, s.gates[g]? = some gate ∧ gate.identity.file = directory) ↔
      ∃ call ∈ s.calls, call.Engaged ∧ call.directory = some directory
  /-- A directory has one entry. -/
  single : (s.entries.map fun g => (s.gates[g]?).map fun gate => gate.identity.file).Nodup

theorem Call.Over.not_engaged {call : Call D} (h : call.Over) : ¬ call.Engaged := by
  rintro ⟨g, hg⟩
  rcases h with hphase | ⟨err, hphase⟩ <;> rw [hphase] at hg <;> cases hg

theorem Call.not_possesses {call : Call D} (h : ¬ call.Engaged) (g : ℕ) :
    call.uses g = false ∧ call.possesses g = false := by
  have hnone : ∀ g, call.phase.gate? ≠ some g := fun g hg => h ⟨g, hg⟩
  have htoken : ∀ g, call.phase.token? = some g → call.phase.gate? = some g := by
    intro g hg
    cases hphase : call.phase <;> rw [hphase] at hg <;> first | exact hg | cases hg
  exact ⟨decide_eq_false (hnone g), decide_eq_false fun hg => hnone g (htoken g hg)⟩

/-- Calls that are over leave no reference, no token and no entry. -/
theorem Inv.cleared (h : Inv s) (hover : ∀ call ∈ s.calls, call.Over) : s.entries = [] ∧
    ∀ (g : ℕ) (gate : Gate D), s.gates[g]? = some gate →
      gate.references = 0 ∧ gate.semaphore = false := by
  have hgates : ∀ (g : ℕ) (gate : Gate D), s.gates[g]? = some gate →
      gate.references = 0 ∧ gate.semaphore = false := by
    intro g gate hgate
    have huses : s.calls.countP (Call.uses g) = 0 := by
      refine List.countP_eq_zero.mpr fun call hcall => ?_
      rw [(Call.not_possesses (hover call hcall).not_engaged g).1]
      exact Bool.false_ne_true
    have hpossesses : s.calls.countP (Call.possesses g) = 0 := by
      refine List.countP_eq_zero.mpr fun call hcall => ?_
      rw [(Call.not_possesses (hover call hcall).not_engaged g).2]
      exact Bool.false_ne_true
    have hreferences := h.references g gate hgate
    have hsemaphore := h.semaphore g gate hgate
    rw [huses] at hreferences
    rw [hpossesses] at hsemaphore
    refine ⟨hreferences, ?_⟩
    by_contra htoken
    rw [if_pos ((Bool.not_eq_false _).mp htoken)] at hsemaphore
    omega
  refine ⟨?_, hgates⟩
  by_contra hsome
  obtain ⟨g, hg⟩ := List.exists_mem_of_ne_nil _ hsome
  obtain ⟨gate, hgate, hpos⟩ := h.valid g hg
  have hzero := (hgates g gate hgate).1
  omega

theorem Inv.guarded (h : Inv s) : Guarded s := by
  refine ⟨?_, fun call _ => ⟨Call.Over.not_engaged, Call.not_possesses⟩, h.cleared, fun g gate hgate => ⟨h.references g gate hgate, h.semaphore g gate hgate⟩, ?_, ?_⟩
  · rintro i j a b ha hb ⟨g, hg⟩ ⟨k, hk⟩ hsame
    obtain ⟨hentry, gate, hgate, hdirectory⟩ :=
      h.engaged a (List.mem_of_getElem? ha) g (by rw [hg]; rfl)
    obtain ⟨hentry', gate', hgate', hdirectory'⟩ :=
      h.engaged b (List.mem_of_getElem? hb) k (by rw [hk]; rfl)
    rw [hdirectory, hdirectory'] at hsame
    have hgk : g = k :=
      h.distinct g hentry k hentry' gate gate' hgate hgate' (Option.some.inj hsame)
    subst hgk
    have hcount := h.semaphore g gate hgate
    refine eq_of_countP_le_one (p := Call.possesses g) ?_ ha hb ?_ ?_
    · rw [hcount]
      split_ifs <;> omega
    · rw [Call.possesses, hg]
      exact decide_eq_true rfl
    · rw [Call.possesses, hk]
      exact decide_eq_true rfl
  · intro directory
    constructor
    · rintro ⟨g, hg, gate, hgate, hfile⟩
      obtain ⟨gate', hgate', hpos⟩ := h.valid g hg
      rw [hgate] at hgate'
      cases hgate'
      have hcount := h.references g gate hgate
      have huses : 0 < s.calls.countP (Call.uses g) := by omega
      obtain ⟨call, hcall, huse⟩ := List.countP_pos_iff.mp huses
      have hphase : call.phase.gate? = some g := of_decide_eq_true huse
      obtain ⟨-, other, hother, hdirectory⟩ := h.engaged call hcall g hphase
      rw [hgate] at hother
      cases hother
      exact ⟨call, hcall, ⟨g, hphase⟩, by rw [hdirectory, hfile]⟩
    · rintro ⟨call, hcall, ⟨g, hphase⟩, hdirectory⟩
      obtain ⟨hentry, gate, hgate, hfile⟩ := h.engaged call hcall g hphase
      rw [hdirectory] at hfile
      exact ⟨g, hentry, gate, hgate, (Option.some.inj hfile).symm⟩
  · refine List.Nodup.map_on ?_ h.nodup
    intro g hg k hk heq
    obtain ⟨gate, hgate, -⟩ := h.valid g hg
    obtain ⟨gate', hgate', -⟩ := h.valid k hk
    rw [hgate, hgate', Option.map_some, Option.map_some] at heq
    exact h.distinct g hg k hk gate gate' hgate hgate' (Option.some.inj heq)

section Runs

variable [DecidableEq D]

theorem find_some {identity : FileInfo D} (hfind : s.find identity = some g) :
    g ∈ s.entries ∧ ∃ gate, s.gates[g]? = some gate ∧ identity.file = gate.identity.file := by
  have hmem := List.mem_of_find?_eq_some hfind
  have hsame := List.find?_some hfind
  obtain ⟨gate, hgate, hsame⟩ := (Option.any_eq_true _ _).mp hsame
  exact ⟨hmem, gate, hgate, of_decide_eq_true hsame⟩

theorem find_none {identity : FileInfo D} (hfind : s.find identity = none) (hg : g ∈ s.entries)
    (hgate : s.gates[g]? = some gate) : gate.identity.file ≠ identity.file := by
  have hnot := List.find?_eq_none.mp hfind g hg
  intro heq
  refine hnot ?_
  rw [hgate]
  exact decide_eq_true heq.symm

theorem Inv.advance (h : Inv s) (hcall : s.calls[i]? = some call)
    (hstep : s.advance i call = some t) : Inv t := by
  have hmem := List.mem_of_getElem? hcall
  unfold State.advance at hstep
  cases hphase : call.phase with
  | called =>
    simp only [hphase] at hstep
    cases hstep
    obtain ⟨hgate, htoken, hchecked⟩ := call.check_phase
    exact h.put hcall rfl (by rw [hphase]; exact hgate) (by rw [hphase]; exact htoken) hchecked
  | checked identity =>
    have hidentity := h.checked call hmem identity hphase
    simp only [hphase] at hstep
    unfold State.enter at hstep
    cases hfind : s.find identity with
    | none =>
      simp only [hfind] at hstep
      cases hstep
      exact h.open hcall (by rw [hphase]; rfl) (by rw [hphase]; rfl) hidentity
        fun k hk gate hgate => find_none hfind hk hgate
    | some g =>
      simp only [hfind] at hstep
      obtain ⟨gate, hgate, hstep⟩ := Option.bind_eq_some_iff.mp hstep
      cases hstep
      obtain ⟨hentry, other, hother, hfile⟩ := find_some hfind
      rw [hgate] at hother
      cases hother
      have hdirectory : call.directory = some gate.identity.file := by
        rw [Call.directory, hidentity, Option.map_some, hfile]
      refine h.write hcall hgate rfl hentry hdirectory (fun _ heq => by cases heq) ?_ ?_ ?_ ?_ ?_ ?_
      · intro k hk
        rw [hphase] at hk
        cases hk
      · intro k hk
        cases hk
        rfl
      · intro k hk
        rw [hphase] at hk
        cases hk
      · intro k hk
        cases hk
      · simp [Call.uses, hphase, Phase.gate?]
      · simp [Call.possesses, hphase, Phase.token?]
  | waiting g =>
    simp only [hphase] at hstep
    obtain ⟨gate, hgate, hstep⟩ := Option.bind_eq_some_iff.mp hstep
    by_cases hfull : gate.semaphore = true
    · rw [if_pos hfull] at hstep
      cases hstep
    · rw [if_neg hfull] at hstep
      cases hstep
      refine h.keep hcall hgate (by rw [hphase]; rfl) rfl rfl rfl (fun _ heq => by cases heq) ?_ ?_ ?_
      · intro k hk
        rw [hphase] at hk
        cases hk
      · intro k hk
        cases hk
        rfl
      · simp [hfull, hphase, Phase.token?]
  | taken g =>
    simp only [hphase] at hstep
    cases hstep
    by_cases hdone : call.done = true
    · rw [if_pos hdone]
      exact h.put hcall rfl (by rw [hphase]; rfl) (by rw [hphase]; rfl) fun _ heq => by cases heq
    · rw [if_neg hdone]
      exact h.put hcall rfl (by rw [hphase]; rfl) (by rw [hphase]; rfl) fun _ heq => by cases heq
  | refused g =>
    simp only [hphase] at hstep
    exact h.drain hcall (by rw [hphase]; rfl) (by rw [hphase]; rfl) hstep
  | leaving g err =>
    simp only [hphase] at hstep
    obtain ⟨gate, hgate, hstep⟩ := Option.bind_eq_some_iff.mp hstep
    cases hstep
    obtain ⟨hentry, other, hother, hdirectory⟩ := h.engaged call hmem g (by rw [hphase]; rfl)
    rw [hgate] at hother
    cases hother
    have hended : (ended err : Phase D).gate? = none ∧ (ended err : Phase D).token? = none := by
      cases err <;> exact ⟨rfl, rfl⟩
    refine h.write hcall hgate rfl hentry hdirectory ?_ ?_ ?_ ?_ ?_ ?_ ?_
    · intro _ heq
      cases err <;> cases heq
    · intro k hk
      rw [hphase] at hk
      cases hk
      rfl
    · intro k hk
      rw [hended.1] at hk
      cases hk
    · intro k hk
      rw [hphase] at hk
      cases hk
    · intro k hk
      rw [hended.2] at hk
      cases hk
    · rw [hended.1, Call.uses, hphase]
      simp [Phase.gate?]
    · rw [hended.2, Call.possesses, hphase]
      simp [Phase.token?]
  | holding g => simp only [hphase] at hstep; cases hstep
  | failed err => simp only [hphase] at hstep; cases hstep
  | released => simp only [hphase] at hstep; cases hstep

/-- **Every step keeps the invariant.** -/
theorem Inv.step {e : Event D} (h : Inv s) (hstep : step s e = some t) : Inv t := by
  cases e with
  | call request =>
    cases hstep
    exact h.called request
  | done i =>
    obtain ⟨call, hcall, rfl⟩ := Option.map_eq_some_iff.mp hstep
    exact h.put hcall rfl rfl rfl fun identity heq =>
      h.checked call (List.mem_of_getElem? hcall) identity heq
  | advance i =>
    obtain ⟨call, hcall, hstep⟩ := Option.bind_eq_some_iff.mp hstep
    exact h.advance hcall hstep
  | abandon i =>
    obtain ⟨call, hcall, hstep⟩ := Option.bind_eq_some_iff.mp hstep
    exact h.abandon hcall hstep
  | release i =>
    obtain ⟨call, hcall, hstep⟩ := Option.bind_eq_some_iff.mp hstep
    exact h.release hcall hstep

theorem inv_run {es : List (Event D)} (hrun : run RootGates.step es start = some s) : Inv s := by
  refine run_induction (P := fun _ s => Inv s) inv_start ?_ hrun
  intro es e s t h hstep
  exact h.step hstep

/-- **Project root gates**: in every run of calls, ends of contexts and releases, one caller at a time
holds the gate of a directory, a call that is over holds nothing, and a directory has one entry,
exactly while a call is engaged with it. -/
theorem guarded_run {es : List (Event D)} (hrun : run step es start = some s) : Guarded s :=
  (inv_run hrun).guarded

end Runs

/-- Two calls for one directory, under two names: the second gives up, the first one releases. -/
def twoCalls : List (Event ℕ) :=
  [.call ⟨true, "project", some ⟨7, true⟩⟩, .advance 0, .advance 0, .advance 0, .advance 0,
    .call ⟨true, "link", some ⟨7, true⟩⟩, .advance 1, .advance 1, .done 1, .abandon 1, .advance 1,
    .release 0, .advance 0, .release 0]

/-- Where the two calls end. -/
def twoOver : State ℕ where
  gates := [⟨⟨7, true⟩, false, 0⟩]
  entries := []
  calls := [⟨⟨true, "project", some ⟨7, true⟩⟩, false, .released⟩,
    ⟨⟨true, "link", some ⟨7, true⟩⟩, true, .failed .done⟩]

/-- `guarded_run` at two calls for one directory: both are over, and no entry is left. -/
theorem guarded_twoCalls : run step twoCalls start = some twoOver ∧ Guarded twoOver ∧
    (∀ call ∈ twoOver.calls, call.Over ∧ ¬ call.Engaged) ∧ twoOver.entries = [] := by
  have hrun : run step twoCalls start = some twoOver := by rfl
  have hover : ∀ call ∈ twoOver.calls, call.Over := by
    intro call hcall
    rcases List.mem_pair.mp hcall with rfl | rfl
    · exact .inl rfl
    · exact .inr ⟨_, rfl⟩
  have hguarded := guarded_run hrun
  exact ⟨hrun, hguarded, fun call hcall => ⟨hover call hcall,
    (hguarded.nothing call hcall).1 (hover call hcall)⟩, (hguarded.cleared hover).1⟩

end Modary.Project.RootGates
