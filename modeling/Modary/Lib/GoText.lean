import Mathlib.Algebra.GroupWithZero.Nat
import Mathlib.Data.List.DropRight
import Mathlib.Data.String.Basic

/-! # Go strings

A Go string is a byte sequence. The well-formed UTF-8 ones are kept as text, every other one as the
runes and stray bytes a `range` loop meets; a predicate on runes is false on the latter, as the
source tests `utf8.ValidString` (or matches an ASCII pattern) before it looks at a rune. -/

namespace Modary.Lib.GoText

/-- A Go string: UTF-8 text, or the runes and stray bytes of a sequence that is not. -/
inductive GoString
  | utf8 (text : String)
  | raw (units : List (Char ⊕ UInt8))
  deriving DecidableEq, Repr

instance : Coe String GoString := ⟨.utf8⟩

instance : Inhabited GoString := ⟨.utf8 ""⟩

/-- `utf8.ValidString`. -/
def GoString.validString : GoString → Bool
  | .utf8 _ => true
  | .raw _ => false

/-- The runes of a well-formed string; the other strings have none to look at. -/
def GoString.runes : GoString → List Char
  | .utf8 s => s.toList
  | .raw _ => []

/-- `unicode.IsControl`. -/
def isControl (c : Char) : Bool := c.toNat < 0x20 || (0x7f ≤ c.toNat && c.toNat < 0xa0)

/-- `unicode.IsSpace`. -/
def isSpace (c : Char) : Bool :=
  let n := c.toNat
  (0x09 ≤ n && n ≤ 0x0d) || n == 0x20 || n == 0x85 || n == 0xa0 || n == 0x1680 ||
    (0x2000 ≤ n && n ≤ 0x200a) || n == 0x2028 || n == 0x2029 || n == 0x202f || n == 0x205f ||
    n == 0x3000

/-- `strings.TrimSpace`. -/
def trimSpace (s : List Char) : List Char := (s.dropWhile isSpace).rdropWhile isSpace

/-- The number of bytes of the UTF-8 encoding. -/
def byteLength (s : List Char) : ℕ := (s.map Char.utf8Size).sum

theorem length_le_byteLength : ∀ s : List Char, s.length ≤ byteLength s
  | [] => le_rfl
  | c :: s => by
    have h1 := length_le_byteLength s
    have h2 : 0 < c.utf8Size := Char.utf8Size_pos c
    simp only [byteLength, List.length_cons, List.map_cons, List.sum_cons] at h1 ⊢
    omega

/-! ### Patterns

The anchored patterns of the source are a first character, then at most `n` further ones. -/

/-- `^[head][tail]{0,n}$`. -/
def matchToken (head tail : Char → Bool) (n : ℕ) : List Char → Bool
  | [] => false
  | c :: cs => head c && cs.all tail && cs.length ≤ n

def isLower (c : Char) : Bool := 'a' ≤ c && c ≤ 'z'

def isUpper (c : Char) : Bool := 'A' ≤ c && c ≤ 'Z'

def isDigit (c : Char) : Bool := '0' ≤ c && c ≤ '9'

/-- `^sha256:[0-9a-f]{64}$`. -/
def matchDigest (s : List Char) : Bool :=
  s.take 7 == "sha256:".toList && (s.drop 7).length == 64 &&
    (s.drop 7).all fun c => isDigit c || ('a' ≤ c && c ≤ 'f')

/-- A sequence of checks passes when each one does. -/
theorem bind_eq_ok {ε α β : Type} {x : Except ε α} {f : α → Except ε β} {b : β} :
    x >>= f = .ok b ↔ ∃ a, x = .ok a ∧ f a = .ok b := by
  cases x with
  | error err =>
    refine ⟨fun h => ?_, ?_⟩
    · cases h
    · rintro ⟨_, h, -⟩
      cases h
  | ok a =>
    refine ⟨fun h => ⟨a, rfl, h⟩, ?_⟩
    rintro ⟨_, h, hf⟩
    cases h
    exact hf

/-- A sequence of checks fails at the first that does. -/
theorem bind_eq_error {ε α β : Type} {x : Except ε α} {f : α → Except ε β} {err : ε} :
    x >>= f = .error err ↔ x = .error err ∨ ∃ a, x = .ok a ∧ f a = .error err := by
  cases x with
  | error e => simp [bind, Except.bind]
  | ok a => simp [bind, Except.bind]

theorem mapError_eq_ok {ε δ α : Type} {f : ε → δ} {x : Except ε α} {a : α} :
    x.mapError f = .ok a ↔ x = .ok a := by
  cases x with
  | ok b =>
    constructor <;> intro h <;> cases h <;> rfl
  | error err => simp [Except.mapError]

/-- A loop over checks passes when each round does. -/
theorem mapM_eq_ok {ε α β : Type} {f : α → Except ε β} {g : α → β} : ∀ {l : List α} {r : List β},
    (∀ a ∈ l, ∀ b, f a = .ok b → b = g a) →
      (l.mapM f = .ok r ↔ (∀ a ∈ l, f a = .ok (g a)) ∧ r = l.map g)
  | [], r, _ => by simp [pure, Except.pure, eq_comm]
  | a :: l, r, hg => by
    have ih := fun r => mapM_eq_ok (r := r) fun b hb => hg b (List.mem_cons_of_mem _ hb)
    rw [List.mapM_cons, bind_eq_ok]
    constructor
    · rintro ⟨b, hb, h⟩
      obtain ⟨bs, hbs, h⟩ := bind_eq_ok.mp h
      obtain ⟨hall, rfl⟩ := (ih bs).mp hbs
      obtain rfl := hg a List.mem_cons_self b hb
      cases h
      exact ⟨List.forall_mem_cons.mpr ⟨hb, hall⟩, rfl⟩
    · rintro ⟨hall, rfl⟩
      obtain ⟨ha, hl⟩ := List.forall_mem_cons.mp hall
      exact ⟨g a, ha, bind_eq_ok.mpr ⟨l.map g, (ih _).mpr ⟨hl, rfl⟩, rfl⟩⟩

/-- What a loop over checks returns comes from its rounds, and every round is in it. -/
theorem mem_of_mapM_eq_ok {ε α β : Type} {f : α → Except ε β} {items : List α} {results : List β}
    (h : items.mapM f = .ok results) :
    (∀ item ∈ items, ∃ result ∈ results, f item = .ok result) ∧
      ∀ result ∈ results, ∃ item ∈ items, f item = .ok result := by
  induction items generalizing results with
  | nil =>
    obtain rfl : [] = results := Except.ok.inj h
    simp
  | cons item items ih =>
    rw [List.mapM_cons] at h
    obtain ⟨first, hfirst, h⟩ := bind_eq_ok.mp h
    obtain ⟨rest, hrest, h⟩ := bind_eq_ok.mp h
    obtain rfl := Except.ok.inj h
    obtain ⟨hforth, hback⟩ := ih hrest
    constructor
    · intro other hother
      rcases List.mem_cons.mp hother with rfl | hother
      · exact ⟨first, List.mem_cons_self, hfirst⟩
      · obtain ⟨result, hresult, hf⟩ := hforth other hother
        exact ⟨result, List.mem_cons_of_mem _ hresult, hf⟩
    · intro result hresult
      rcases List.mem_cons.mp hresult with rfl | hresult
      · exact ⟨item, List.mem_cons_self, hfirst⟩
      · obtain ⟨other, hother, hf⟩ := hback result hresult
        exact ⟨other, List.mem_cons_of_mem _ hother, hf⟩

/-- A check: it fails with the error when the condition holds. -/
def refuseIf {ε : Type} (c : Prop) [Decidable c] (err : ε) : Except ε Unit :=
  if c then .error err else .ok ()

theorem refuseIf_eq_ok {ε : Type} {c : Prop} [Decidable c] {err : ε} :
    refuseIf c err = .ok () ↔ ¬ c := by
  by_cases h : c <;> simp [refuseIf, h]

theorem refuseIf_eq_error {ε : Type} {c : Prop} [Decidable c] {err e : ε} :
    refuseIf c err = .error e ↔ c ∧ err = e := by
  by_cases h : c <;> simp [refuseIf, h]

/-- A loop that keeps the keys it has seen: every element is new to those before it. -/
theorem fresh_cons {α β : Type} {p : α → Prop} {key : α → β} {seen seen' : List β} {a : α}
    {rest : List α} (hseen : ∀ x, x ∈ seen' ↔ x ∈ seen ∨ x = key a) :
    ((∀ other ∈ a :: rest, p other ∧ key other ∉ seen) ∧ ((a :: rest).map key).Nodup) ↔
      (p a ∧ key a ∉ seen) ∧ (∀ other ∈ rest, p other ∧ key other ∉ seen') ∧
        (rest.map key).Nodup := by
  simp only [List.forall_mem_cons, List.map_cons, List.nodup_cons, List.mem_map, hseen, not_or,
    not_exists, not_and]
  constructor
  · rintro ⟨⟨hfirst, hall⟩, hnew, hnodup⟩
    exact ⟨hfirst, fun other hmem => ⟨(hall other hmem).1, (hall other hmem).2, hnew other hmem⟩,
      hnodup⟩
  · rintro ⟨hfirst, hall, hnodup⟩
    exact ⟨⟨hfirst, fun other hmem => ⟨(hall other hmem).1, (hall other hmem).2.1⟩⟩,
      fun other hmem => (hall other hmem).2.2, hnodup⟩

/-- A required, trimmed, bounded text without control characters: the common shape of the
source's text checks. The error texts name the field. -/
def validateText (field : String) (value : GoString) (required : Bool) (maxRunes : ℕ)
    (forbidden : Char → Bool) : Except String Unit :=
  if !value.validString then .error (field ++ " must be valid UTF-8")
  else if required && value == .utf8 "" then .error (field ++ " is required")
  else if trimSpace value.runes != value.runes then
    .error (field ++ " cannot contain surrounding whitespace")
  else if maxRunes < value.runes.length then
    .error (field ++ " cannot exceed " ++ toString maxRunes ++ " characters")
  else if value.runes.any forbidden then .error (field ++ " cannot contain control characters")
  else .ok ()

/-- What a text that passes the checks is. -/
theorem validateText_ok {field : String} {value : GoString} {required : Bool} {maxRunes : ℕ}
    {forbidden : Char → Bool} (h : validateText field value required maxRunes forbidden = .ok ()) :
    ∃ s : String, value = .utf8 s ∧ (required = true → s ≠ "") ∧ trimSpace s.toList = s.toList ∧
      s.toList.length ≤ maxRunes ∧ ∀ c ∈ s.toList, forbidden c = false := by
  unfold validateText at h
  split_ifs at h with h1 h2 h3 h4 h5
  cases value with
  | raw b => simp [GoString.validString] at h1
  | utf8 s =>
    refine ⟨s, rfl, ?_, by simpa [GoString.runes] using h3, by simpa [GoString.runes] using h4, ?_⟩
    · rintro rfl rfl; simp at h2
    · simpa [GoString.runes] using h5

/-- A text that passes a check passes any check that forbids no more. -/
theorem validateText_weaken {field field' : String} {value : GoString} {required : Bool}
    {maxRunes : ℕ} {forbidden forbidden' : Char → Bool}
    (h : validateText field value required maxRunes forbidden = .ok ())
    (hf : ∀ c, forbidden' c = true → forbidden c = true) :
    validateText field' value required maxRunes forbidden' = .ok () := by
  unfold validateText at h ⊢
  split_ifs at h with h1 h2 h3 h4 h5
  have h5' : value.runes.any forbidden' = false := by
    rw [List.any_eq_false]
    intro c hc hforbidden
    exact h5 (List.any_eq_true.mpr ⟨c, hc, hf c hforbidden⟩)
  simp [h1, h2, h3, h4, h5']

end Modary.Lib.GoText
