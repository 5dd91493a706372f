import Mathlib.Tactic.TypeStar

/-! # Interaction programs

A program that calls operations of its environment and continues with their replies. Nothing is
assumed of the environment: a run is any sequence of calls with any replies. `Meets` is the program
logic: every call is made under its obligation, and every end satisfies the postcondition, both
judged on the history of the calls made so far. -/

namespace Modary.Lib.Prog

/-- A program over the operations `O`, whose replies have the types `R`. -/
inductive Prog (O : Type) (R : O → Type) (α : Type)
  | ret (a : α)
  | call (op : O) (next : R op → Prog O R α)

/-- A call and its reply. -/
structure Event (O : Type) (R : O → Type) where
  op : O
  reply : R op

variable {O : Type} {R : O → Type} {α β ε : Type}

namespace Prog

/-- Sequencing. -/
def bind : Prog O R α → (α → Prog O R β) → Prog O R β
  | .ret a, f => f a
  | .call op next, f => .call op fun r => (next r).bind f

instance : Monad (Prog O R) where
  pure := .ret
  bind := bind

/-- One call. -/
def request (op : O) : Prog O R (R op) := .call op .ret

/-! ### Runs -/

/-- The program makes the calls `events` and ends with the result. -/
def Runs : Prog O R α → List (Event O R) → α → Prop
  | .ret a, events, b => events = [] ∧ b = a
  | .call op next, events, b => ∃ r rest, events = ⟨op, r⟩ :: rest ∧ (next r).Runs rest b

/-- The run in which the replies are those of an oracle. -/
def play (oracle : (op : O) → R op) : Prog O R α → List (Event O R) × α
  | .ret a => ([], a)
  | .call op next =>
    let (events, a) := (next (oracle op)).play oracle
    (⟨op, oracle op⟩ :: events, a)

theorem runs_play (oracle : (op : O) → R op) :
    ∀ p : Prog O R α, p.Runs (p.play oracle).1 (p.play oracle).2
  | .ret _ => ⟨rfl, rfl⟩
  | .call op next => ⟨oracle op, _, rfl, runs_play oracle (next (oracle op))⟩

/-- In such a run every reply is the one of the oracle. -/
theorem reply_of_mem_play (oracle : (op : O) → R op) {c : Event O R} :
    ∀ {p : Prog O R α}, c ∈ (p.play oracle).1 → c.reply = oracle c.op
  | .ret _, hc => by cases hc
  | .call op next, hc => by
    rcases List.mem_cons.mp hc with rfl | hc
    · rfl
    · exact reply_of_mem_play oracle hc

/-- The program makes the calls `events` and then calls `op`. -/
def Calls : Prog O R α → List (Event O R) → O → Prop
  | .ret _, _, _ => False
  | .call op _, [], op' => op' = op
  | .call op next, e :: rest, op' => ∃ r, e = ⟨op, r⟩ ∧ (next r).Calls rest op'

/-- Every call of a run is made after the ones before it. -/
theorem Runs.calls : ∀ {p : Prog O R α} {before after : List (Event O R)} {e : Event O R} {a : α},
    p.Runs (before ++ e :: after) a → p.Calls before e.op
  | .ret _, before, after, e, a, hr => by
    obtain ⟨hr, -⟩ := hr
    simp at hr
  | .call op next, [], after, e, a, hr => by
    obtain ⟨r, rest, he, -⟩ := hr
    cases he
    rfl
  | .call op next, b :: before, after, e, a, hr => by
    obtain ⟨r, rest, he, hr⟩ := hr
    cases he
    exact ⟨r, rfl, hr.calls⟩

/-- After a run of its first part, a program goes on with the second. -/
theorem Runs.bind_calls {f : α → Prog O R β} : ∀ {p : Prog O R α} {before after : List (Event O R)}
    {a : α} {op : O}, p.Runs before a → (f a).Calls after op → (p >>= f).Calls (before ++ after) op
  | .ret _, _, _, _, _, hr, hc => by
    obtain ⟨rfl, rfl⟩ := hr
    exact hc
  | .call op next, _, _, _, _, hr, hc => by
    obtain ⟨r, rest, rfl, hr⟩ := hr
    exact ⟨r, rfl, hr.bind_calls hc⟩

/-- What the first part of a program calls, the program calls. -/
theorem Calls.bind {f : α → Prog O R β} : ∀ {p : Prog O R α} {before : List (Event O R)} {op : O},
    p.Calls before op → (p >>= f).Calls before op
  | .ret _, _, _, hc => hc.elim
  | .call _ _, [], _, hc => hc
  | .call _ _, _ :: _, _, hc => by
    obtain ⟨r, rfl, hc⟩ := hc
    exact ⟨r, rfl, hc.bind⟩

/-- After the calls `events` the program goes on as the other one. -/
def After : Prog O R α → List (Event O R) → Prog O R α → Prop
  | p, [], q => q = p
  | .ret _, _ :: _, _ => False
  | .call op next, e :: rest, q => ∃ r, e = ⟨op, r⟩ ∧ (next r).After rest q

theorem after_nil (p : Prog O R α) : p.After [] p := by
  cases p with
  | ret a => rfl
  | call op next => rfl

/-- One more reply. -/
theorem After.snoc {op : O} {next : R op → Prog O R α} (r : R op) :
    ∀ {p : Prog O R α} {events : List (Event O R)},
      p.After events (.call op next) → p.After (events ++ [⟨op, r⟩]) (next r)
  | .ret _, [], ha => by cases ha
  | .ret _, _ :: _, ha => ha.elim
  | .call _ _, [], ha => by
    cases ha
    exact ⟨r, rfl, after_nil (next r)⟩
  | .call _ _, _ :: _, ha => by
    obtain ⟨r', rfl, ha⟩ := ha
    exact ⟨r', rfl, ha.snoc r⟩

theorem After.calls {op : O} {next : R op → Prog O R α} :
    ∀ {p : Prog O R α} {events : List (Event O R)},
      p.After events (.call op next) → p.Calls events op
  | .ret _, [], ha => by cases ha
  | .ret _, _ :: _, ha => ha.elim
  | .call _ _, [], ha => by
    cases ha
    rfl
  | .call _ _, _ :: _, ha => by
    obtain ⟨r, rfl, ha⟩ := ha
    exact ⟨r, rfl, ha.calls⟩

theorem After.runs {a : α} : ∀ {p : Prog O R α} {events : List (Event O R)},
    p.After events (.ret a) → p.Runs events a
  | .ret _, [], ha => by
    cases ha
    exact ⟨rfl, rfl⟩
  | .ret _, _ :: _, ha => ha.elim
  | .call _ _, [], ha => by cases ha
  | .call _ _, _ :: _, ha => by
    obtain ⟨r, rfl, ha⟩ := ha
    exact ⟨r, _, rfl, ha.runs⟩

/-! ### Obligations and postconditions -/

/-- From the history `h`, every call is made under the obligation `A` and every end meets `Q`. -/
def Meets (A : List (Event O R) → O → Prop) (Q : List (Event O R) → α → Prop) :
    Prog O R α → List (Event O R) → Prop
  | .ret a, h => Q h a
  | .call op next, h => A h op ∧ ∀ r, (next r).Meets A Q (h ++ [⟨op, r⟩])

variable {A : List (Event O R) → O → Prop} {Q Q' : List (Event O R) → α → Prop}

theorem meets_ret {a : α} {h : List (Event O R)} : (ret a : Prog O R α).Meets A Q h ↔ Q h a :=
  Iff.rfl

theorem meets_pure {a : α} {h : List (Event O R)} :
    (pure a : Prog O R α).Meets A Q h ↔ Q h a := Iff.rfl

theorem meets_bind {Q : List (Event O R) → β → Prop} {f : α → Prog O R β} :
    ∀ {p : Prog O R α} {h : List (Event O R)},
      (p >>= f).Meets A Q h ↔ p.Meets A (fun h' a => (f a).Meets A Q h') h
  | .ret _, _ => Iff.rfl
  | .call op next, h => and_congr_right fun _ => forall_congr' fun r =>
      meets_bind (p := next r) (h := h ++ [⟨op, r⟩])

theorem meets_request {op : O} {Q : List (Event O R) → R op → Prop} {h : List (Event O R)} :
    (request op : Prog O R (R op)).Meets A Q h ↔ A h op ∧ ∀ r, Q (h ++ [⟨op, r⟩]) r := Iff.rfl

/-- Consequence. -/
theorem Meets.mono (hq : ∀ h a, Q h a → Q' h a) :
    ∀ {p : Prog O R α} {h : List (Event O R)}, p.Meets A Q h → p.Meets A Q' h
  | .ret a, h, hp => hq h a hp
  | .call _ _, _, hp => ⟨hp.1, fun r => (hp.2 r).mono hq⟩

theorem meets_true : ∀ {p : Prog O R α} {h : List (Event O R)},
    p.Meets (fun _ _ => True) (fun _ _ => True) h
  | .ret _, _ => trivial
  | .call _ _, _ => ⟨trivial, fun _ => meets_true⟩

/-- What a run of the program ends with. -/
theorem Meets.result : ∀ {p : Prog O R α} {h events : List (Event O R)} {a : α},
    p.Meets A Q h → p.Runs events a → Q (h ++ events) a
  | .ret _, h, events, a, hp, hr => by
    obtain ⟨rfl, rfl⟩ := hr
    rwa [List.append_nil]
  | .call op next, h, events, a, hp, hr => by
    obtain ⟨r, rest, rfl, hr⟩ := hr
    have := (hp.2 r).result hr
    rwa [List.append_assoc] at this

/-- Every call of a run is made under its obligation, whether or not it comes back. -/
theorem Meets.calls : ∀ {p : Prog O R α} {h events : List (Event O R)} {op : O},
    p.Meets A Q h → p.Calls events op → A (h ++ events) op
  | .ret _, _, _, _, _, hc => hc.elim
  | .call op next, h, [], op', hp, hc => by
    obtain rfl : op' = op := hc
    rw [List.append_nil]
    exact hp.1
  | .call op next, h, e :: rest, op', hp, hc => by
    obtain ⟨r, rfl, hc⟩ := hc
    have := (hp.2 r).calls hc
    rwa [List.append_assoc] at this

/-- Two postconditions at once. -/
theorem Meets.and {B : List (Event O R) → O → Prop} :
    ∀ {p : Prog O R α} {h : List (Event O R)}, p.Meets A Q h → p.Meets B Q' h →
      p.Meets A (fun h' a => Q h' a ∧ Q' h' a) h
  | .ret _, _, hp, hp' => ⟨hp, hp'⟩
  | .call _ _, _, hp, hp' => ⟨hp.1, fun r => (hp.2 r).and (hp'.2 r)⟩

/-- Stronger obligations. -/
theorem Meets.weaken {B : List (Event O R) → O → Prop} (hb : ∀ h op, A h op → B h op) :
    ∀ {p : Prog O R α} {h : List (Event O R)}, p.Meets A Q h → p.Meets B Q h
  | .ret _, _, hp => hp
  | .call op _, h, hp => ⟨hb h op hp.1, fun r => (hp.2 r).weaken hb⟩

/-- What every call keeps of the history holds at the end. -/
theorem Meets.keeps {I : List (Event O R) → Prop}
    (hi : ∀ h op, I h → A h op → ∀ r, I (h ++ [⟨op, r⟩])) :
    ∀ {p : Prog O R α} {h : List (Event O R)}, p.Meets A Q h → I h →
      p.Meets A (fun h' a => Q h' a ∧ I h') h
  | .ret _, _, hp, h0 => ⟨hp, h0⟩
  | .call op _, h, hp, h0 => ⟨hp.1, fun r => (hp.2 r).keeps hi (hi h op h0 hp.1 r)⟩

/-- Obligations under something that every call keeps of the history. -/
theorem Meets.under {B : List (Event O R) → O → Prop} {I : List (Event O R) → Prop}
    (hi : ∀ h op, I h → ∀ r, I (h ++ [⟨op, r⟩])) (hb : ∀ h op, I h → A h op → B h op) :
    ∀ {p : Prog O R α} {h : List (Event O R)}, p.Meets A Q h → I h →
      p.Meets B (fun h' a => Q h' a ∧ I h') h
  | .ret _, _, hp, h0 => ⟨hp, h0⟩
  | .call op _, h, hp, h0 => ⟨hb h op h0 hp.1, fun r => (hp.2 r).under hi hb (hi h op h0 r)⟩

end Prog

/-! ### Programs that may fail -/

/-- A program that ends with a result or an error. -/
abbrev Attempt (O : Type) (R : O → Type) (ε α : Type) := ExceptT ε (Prog O R) α

namespace Attempt

/-- The postcondition of a program that may fail: one part for results, one for errors. -/
def post (Q : List (Event O R) → α → Prop) (E : List (Event O R) → ε → Prop)
    (h : List (Event O R)) : Except ε α → Prop
  | .ok a => Q h a
  | .error e => E h e

/-- `Meets` for a program that may fail. -/
def Meets (A : List (Event O R) → O → Prop) (Q : List (Event O R) → α → Prop)
    (E : List (Event O R) → ε → Prop) (p : Attempt O R ε α) (h : List (Event O R)) : Prop :=
  Prog.Meets A (post Q E) p.run h

variable {A : List (Event O R) → O → Prop} {E E' : List (Event O R) → ε → Prop}
  {h : List (Event O R)}

theorem meets_pure {Q : List (Event O R) → α → Prop} {a : α} :
    Meets A Q E (pure a) h ↔ Q h a := Iff.rfl

theorem meets_throw {Q : List (Event O R) → α → Prop} {e : ε} :
    Meets A Q E (throw e : Attempt O R ε α) h ↔ E h e := Iff.rfl

theorem meets_bind {Q : List (Event O R) → β → Prop} {p : Attempt O R ε α}
    {f : α → Attempt O R ε β} :
    Meets A Q E (p >>= f) h ↔ Meets A (fun h' a => Meets A Q E (f a) h') E p h := by
  unfold Meets
  show Prog.Meets A (post Q E) (Prog.bind p.run _) h ↔ _
  rw [show Prog.bind p.run _ = p.run >>= _ from rfl, Prog.meets_bind]
  constructor <;> refine fun hp => hp.mono fun h' r => ?_
  · cases r <;> exact id
  · cases r <;> exact id

/-- A call whose reply is turned into a result or an error. -/
def attempt (op : O) (f : R op → Except ε α) : Attempt O R ε α :=
  ExceptT.mk (Prog.request op >>= fun r => pure (f r))

theorem meets_attempt {op : O} {f : R op → Except ε α} {Q : List (Event O R) → α → Prop} :
    Meets A Q E (attempt op f) h ↔ A h op ∧ ∀ r, post Q E (h ++ [⟨op, r⟩]) (f r) := by
  unfold Meets attempt
  rw [ExceptT.run_mk, Prog.meets_bind, Prog.meets_request]
  exact Iff.rfl

/-- The same program with its errors translated. -/
def adapt {δ : Type} (f : ε → δ) (p : Attempt O R ε α) : Attempt O R δ α :=
  ExceptT.mk (p.run >>= fun
    | .ok a => pure (.ok a)
    | .error e => pure (.error (f e)))

theorem meets_adapt {δ : Type} {f : ε → δ} {D : List (Event O R) → δ → Prop}
    {Q : List (Event O R) → α → Prop} {p : Attempt O R ε α} :
    Meets A Q D (adapt f p) h ↔ Meets A Q (fun h e => D h (f e)) p h := by
  unfold Meets adapt
  rw [ExceptT.run_mk, Prog.meets_bind]
  constructor <;> refine fun hp => hp.mono fun h' r => ?_
  · cases r <;> exact id
  · cases r <;> exact id

theorem Meets.mono {Q Q' : List (Event O R) → α → Prop} {p : Attempt O R ε α}
    (hp : Meets A Q E p h) (hq : ∀ h a, Q h a → Q' h a) (he : ∀ h e, E h e → E' h e) :
    Meets A Q' E' p h := by
  refine Prog.Meets.mono (fun h' r => ?_) hp
  cases r with
  | ok a => exact hq h' a
  | error e => exact he h' e

/-- Sequencing, forwards. -/
theorem Meets.bind {Q : List (Event O R) → α → Prop} {Q' : List (Event O R) → β → Prop}
    {p : Attempt O R ε α} {f : α → Attempt O R ε β} (hp : Meets A Q E p h)
    (hf : ∀ h' a, Q h' a → Meets A Q' E (f a) h') : Meets A Q' E (p >>= f) h :=
  meets_bind.mpr (hp.mono hf fun _ _ => id)

theorem Meets.weaken {B : List (Event O R) → O → Prop} {Q : List (Event O R) → α → Prop}
    {p : Attempt O R ε α} (hp : Meets A Q E p h) (hb : ∀ h op, A h op → B h op) :
    Meets B Q E p h :=
  Prog.Meets.weaken hb hp

/-- What every call keeps of the history holds at the end. -/
theorem Meets.keeps {I : List (Event O R) → Prop} {Q : List (Event O R) → α → Prop}
    {p : Attempt O R ε α} (hp : Meets A Q E p h)
    (hi : ∀ h op, I h → A h op → ∀ r, I (h ++ [⟨op, r⟩])) (h0 : I h) :
    Meets A (fun h' a => Q h' a ∧ I h') (fun h' e => E h' e ∧ I h') p h := by
  refine Prog.Meets.mono (fun h' r => ?_) (Prog.Meets.keeps hi hp h0)
  cases r <;> exact id

/-- Two postconditions at once. -/
theorem Meets.and {B : List (Event O R) → O → Prop} {Q Q' : List (Event O R) → α → Prop}
    {p : Attempt O R ε α} (hp : Meets A Q E p h) (hp' : Meets B Q' E' p h) :
    Meets A (fun h' a => Q h' a ∧ Q' h' a) (fun h' e => E h' e ∧ E' h' e) p h := by
  refine Prog.Meets.mono (fun h' r => ?_) (Prog.Meets.and hp hp')
  cases r <;> exact id

/-- Obligations under something that every call keeps of the history. -/
theorem Meets.under {B : List (Event O R) → O → Prop} {I : List (Event O R) → Prop}
    {Q : List (Event O R) → α → Prop} {p : Attempt O R ε α} (hp : Meets A Q E p h)
    (hi : ∀ h op, I h → ∀ r, I (h ++ [⟨op, r⟩])) (hb : ∀ h op, I h → A h op → B h op) (h0 : I h) :
    Meets B (fun h' a => Q h' a ∧ I h') (fun h' e => E h' e ∧ I h') p h := by
  refine Prog.Meets.mono (fun h' r => ?_) (Prog.Meets.under hi hb hp h0)
  cases r <;> exact id

theorem meets_true {p : Attempt O R ε α} :
    Meets (fun _ _ => True) (fun _ _ => True) (fun _ _ => True) p h := by
  refine Prog.Meets.mono (fun h' r _ => ?_) Prog.meets_true
  cases r with
  | ok a => trivial
  | error e => trivial

/-! ### Programs confined to some operations -/

/-- Every call of the program is one of these, whatever was called before. -/
def Confined (P : O → Prop) (p : Attempt O R ε α) : Prop :=
  ∀ h, Meets (fun _ op => P op) (fun _ _ => True) (fun _ _ => True) p h

section Confined

variable {P : O → Prop}

theorem confined_pure {a : α} : Confined P (pure a : Attempt O R ε α) := fun _ => trivial

theorem confined_throw {e : ε} : Confined P (throw e : Attempt O R ε α) := fun _ => trivial

theorem Confined.bind {p : Attempt O R ε α} {f : α → Attempt O R ε β} (hp : Confined P p)
    (hf : ∀ a, Confined P (f a)) : Confined P (p >>= f) :=
  fun h => Meets.bind (hp h) fun h' a _ => hf a h'

theorem confined_attempt {op : O} {f : R op → Except ε α} (hop : P op) :
    Confined P (attempt op f) := by
  intro h
  refine meets_attempt.mpr ⟨hop, fun r => ?_⟩
  cases f r with
  | ok a => trivial
  | error e => trivial

theorem Confined.adapt {δ : Type} {f : ε → δ} {p : Attempt O R ε α} (hp : Confined P p) :
    Confined P (Attempt.adapt f p) := fun h => meets_adapt.mpr (hp h)

/-- What the operations keep of the history holds at every end. -/
theorem Confined.keeps {I : List (Event O R) → Prop} {p : Attempt O R ε α} (hp : Confined P p)
    (hi : ∀ h op, I h → P op → ∀ r, I (h ++ [⟨op, r⟩])) (h0 : I h) :
    Meets (fun _ _ => True) (fun h' _ => I h') (fun h' _ => I h') p h :=
  (((hp h).keeps hi h0).mono (fun _ _ hq => hq.2) fun _ _ hq => hq.2).weaken fun _ _ _ => trivial

end Confined

end Attempt

end Modary.Lib.Prog
