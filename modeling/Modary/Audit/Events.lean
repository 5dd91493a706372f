import Modary.Audit.Hook

/-! # Events that the hook accepts

`audit.Normalize` leaves every identifier clean, and a clean identifier is left as it is; so the two
or three normalizations on the way to the hook amount to one, and what the hook checks can be read
off the event before it. -/

namespace Modary.Audit.Events

open Modary.Lib.GoText Modary.Lib.Timestamp
open Modary.Action.Names Modary.Action.Authz Modary.Action.Errors Modary.Action.Types
open Modary.Action.Persistence Modary.Audit.Hook

/-! ### Times of plans -/

theorem validatePersistentPlanTime_ok {name : String} {value : Time}
    (h : validatePersistentPlanTime name value = .ok ()) :
    value.utc = true ∧ Persistable value.nanos := by
  unfold validatePersistentPlanTime at h
  split at h
  · cases h
  next hrange =>
  split at h
  · cases h
  next hutc =>
  push Not at hrange
  exact ⟨by simpa using hutc, hrange.1, hrange.2⟩

/-! ### Clean texts -/

/-- A character that is neither a space nor a control character of any kind. -/
def plain (c : Char) : Bool := 0x21 ≤ c.toNat && c.toNat < 0x7f

theorem isSpace_of_plain {c : Char} (h : plain c = true) : isSpace c = false := by
  simp only [plain, Bool.and_eq_true, decide_eq_true_eq] at h
  simp only [isSpace, Bool.or_eq_false_iff, Bool.and_eq_false_iff, decide_eq_false_iff_not,
    beq_eq_false_iff_ne]
  omega

theorem isControl_of_plain {c : Char} (h : plain c = true) : isControl c = false := by
  simp only [plain, Bool.and_eq_true, decide_eq_true_eq] at h
  simp only [isControl, Bool.or_eq_false_iff, Bool.and_eq_false_iff, decide_eq_false_iff_not]
  omega

theorem plain_of_le {c lo hi : Char} (h1 : lo ≤ c) (h2 : c ≤ hi) (hlo : 0x21 ≤ lo.toNat)
    (hhi : hi.toNat < 0x7f) : plain c = true := by
  have h1 : lo.toNat ≤ c.toNat := h1
  have h2 : c.toNat ≤ hi.toNat := h2
  simp only [plain, Bool.and_eq_true, decide_eq_true_eq]
  omega

theorem plain_of_isLower {c : Char} (h : isLower c = true) : plain c = true := by
  simp only [isLower, Bool.and_eq_true, decide_eq_true_eq] at h
  exact plain_of_le h.1 h.2 (by decide) (by decide)

theorem plain_of_isUpper {c : Char} (h : isUpper c = true) : plain c = true := by
  simp only [isUpper, Bool.and_eq_true, decide_eq_true_eq] at h
  exact plain_of_le h.1 h.2 (by decide) (by decide)

theorem plain_of_isDigit {c : Char} (h : isDigit c = true) : plain c = true := by
  simp only [isDigit, Bool.and_eq_true, decide_eq_true_eq] at h
  exact plain_of_le h.1 h.2 (by decide) (by decide)

/-- A text is trimmed when neither its first nor its last character is a space. -/
theorem trimSpace_eq_self {s : List Char} (hhead : ∀ c ∈ s.head?, isSpace c = false)
    (hlast : ∀ c ∈ s.getLast?, isSpace c = false) : trimSpace s = s := by
  have h1 : s.dropWhile isSpace = s := by
    cases s with
    | nil => rfl
    | cons c s => simp [hhead c (by simp)]
  unfold trimSpace
  rw [h1, List.rdropWhile_eq_self_iff]
  intro hne
  rw [hlast _ (by simp [List.getLast?_eq_some_getLast hne])]
  simp

theorem trimSpace_of_plain {s : List Char} (h : ∀ c ∈ s, plain c = true) : trimSpace s = s :=
  trimSpace_eq_self (fun c hc => isSpace_of_plain (h c (List.mem_of_mem_head? hc)))
    fun c hc => isSpace_of_plain (h c (List.mem_of_mem_getLast? hc))

/-- A text within a limit that is trimmed and has no control characters. -/
structure Clean (limit : ℕ) (value : GoString) : Prop where
  valid : value.validString = true
  trimmed : trimSpace value.runes = value.runes
  bounded : value.runes.length ≤ limit
  visible : ∀ c ∈ value.runes, isControl c = false

theorem Clean.utf8 {limit : ℕ} {value : GoString} (h : Clean limit value) :
    ∃ s : String, value = .utf8 s := by
  cases value with
  | utf8 s => exact ⟨s, rfl⟩
  | raw units => exact absurd h.valid (by simp [GoString.validString])

theorem clean_of_plain {limit : ℕ} {s : String} (hp : ∀ c ∈ s.toList, plain c = true)
    (hl : s.toList.length ≤ limit) : Clean limit (.utf8 s) :=
  ⟨rfl, trimSpace_of_plain hp, hl, fun c hc => isControl_of_plain (hp c hc)⟩

theorem clean_empty (limit : ℕ) : Clean limit (.utf8 "") :=
  clean_of_plain (by simp) (by simp)

theorem clean_of_validateText {field : String} {value : GoString} {required : Bool}
    {maxRunes limit : ℕ} {forbidden : Char → Bool}
    (h : validateText field value required maxRunes forbidden = .ok ())
    (hf : ∀ c, isControl c = true → forbidden c = true) (hl : maxRunes ≤ limit) :
    Clean limit value ∧ (required = true → value ≠ .utf8 "") := by
  obtain ⟨s, rfl, hne, ht, hb, hc⟩ := validateText_ok h
  refine ⟨⟨rfl, ht, hb.trans hl, fun c hm => ?_⟩, fun hr he => hne hr (GoString.utf8.inj he)⟩
  by_contra hcon
  have := hf c (by simpa using hcon)
  rw [hc c hm] at this
  cases this

theorem validateRequired_eq_ok {name : String} {value : GoString} {limit : ℕ} :
    validateRequired name value limit = .ok () ↔ value ≠ .utf8 "" ∧ Clean limit value := by
  unfold validateRequired
  rw [refuseIf_eq_ok]
  constructor
  · intro h
    push Not at h
    obtain ⟨h1, h2, h3, h4, h5⟩ := h
    exact ⟨h2, by simpa using h1, h4.symm, h3, by simpa using h5⟩
  · rintro ⟨hne, h⟩
    push Not
    exact ⟨by simp [h.valid], hne, h.bounded, h.trimmed.symm, by simpa using h.visible⟩

theorem validatePresent_of_clean {name : String} {value : GoString} {limit : ℕ}
    (h : Clean limit value) : validatePresent name value limit = .ok () := by
  unfold validatePresent
  split
  · next hne => exact validateRequired_eq_ok.mpr ⟨hne, h⟩
  · rfl

/-! ### Identifiers that are clean -/

theorem plain_of_matchToken {head tail : Char → Bool} {n : ℕ} {s : List Char}
    (h : matchToken head tail n s = true) (hh : ∀ c, head c = true → plain c = true)
    (ht : ∀ c, tail c = true → plain c = true) : ∀ c ∈ s, plain c = true := by
  cases s with
  | nil => simp
  | cons c s =>
    simp only [matchToken, Bool.and_eq_true, List.all_eq_true] at h
    intro d hd
    rcases List.mem_cons.mp hd with rfl | hd
    · exact hh _ h.1.1
    · exact ht d (h.1.2 d hd)

theorem plain_intercalate {parts : List (List Char)}
    (h : ∀ part ∈ parts, ∀ c ∈ part, plain c = true) : ∀ c ∈ ['.'].intercalate parts, plain c = true := by
  induction parts with
  | nil => simp
  | cons part rest ih =>
    have ih := ih fun p hp => h p (List.mem_cons_of_mem _ hp)
    cases rest with
    | nil =>
      rw [List.intercalate_singleton]
      exact h part List.mem_cons_self
    | cons next rest =>
      rw [List.intercalate_cons_cons]
      intro c hc
      rcases List.mem_append.mp hc with hc | hc
      · rcases List.mem_append.mp hc with hc | hc
        · exact h part List.mem_cons_self c hc
        · obtain rfl := List.mem_singleton.mp hc
          rfl
      · exact ih c hc

/-- The parts of a text at its dots are plain, so the text is. -/
theorem plain_of_splitOn {s : List Char}
    (h : ∀ part ∈ s.splitOn '.', ∀ c ∈ part, plain c = true) : ∀ c ∈ s, plain c = true := by
  have := plain_intercalate h
  rwa [List.intercalate_splitOn] at this

theorem clean_of_validIdentifier {value : GoString} (h : validIdentifier value = true) :
    Clean maxActionIDRunes value ∧ value ≠ .utf8 "" := by
  obtain ⟨s, rfl⟩ := utf8_of_validIdentifier h
  obtain ⟨hpos, hle⟩ := length_of_validIdentifier h
  have hall := (Bool.and_eq_true_iff.mp h).2
  have hp : ∀ c ∈ s.toList, plain c = true := by
    refine plain_of_splitOn fun part hm => ?_
    refine plain_of_matchToken (List.all_eq_true.mp hall part hm) (fun _ => plain_of_isLower) ?_
    intro c hc
    simp only [Bool.or_eq_true, beq_iff_eq] at hc
    rcases hc with ((hc | hc) | rfl) | rfl
    · exact plain_of_isLower hc
    · exact plain_of_isDigit hc
    · rfl
    · rfl
  refine ⟨clean_of_plain hp (by rwa [String.length_toList]), ?_⟩
  rintro ⟨⟩
  simp at hpos

theorem clean_of_validCustomErrorCode {code : GoString} (h : validCustomErrorCode code = true) :
    Clean maxCodeRunes code ∧ code ≠ .utf8 "" := by
  obtain ⟨hl, hp⟩ := Bool.and_eq_true_iff.mp h
  have hl : byteLength code.runes ≤ maxErrorCodeBytes := of_decide_eq_true hl
  have htail : ∀ c, (isUpper c || isDigit c || c == '_') = true → plain c = true := by
    intro c hc
    simp only [Bool.or_eq_true, beq_iff_eq] at hc
    rcases hc with (hc | hc) | rfl
    · exact plain_of_isUpper hc
    · exact plain_of_isDigit hc
    · rfl
  simp only [customErrorCodePattern] at hp
  split at hp
  · next space name hs =>
    obtain ⟨h1, h2⟩ := Bool.and_eq_true_iff.mp hp
    have hplain : ∀ c ∈ code.runes, plain c = true := by
      refine plain_of_splitOn ?_
      rw [hs]
      intro part hm
      rcases List.mem_cons.mp hm with rfl | hm
      · exact plain_of_matchToken h1 (fun _ => plain_of_isUpper) htail
      · obtain rfl := List.mem_singleton.mp hm
        exact plain_of_matchToken h2 (fun _ => plain_of_isUpper) htail
    cases code with
    | raw units => simp [GoString.runes] at hs
    | utf8 s =>
      refine ⟨clean_of_plain hplain ((length_le_byteLength _).trans hl), ?_⟩
      rintro ⟨⟩
      simp [GoString.runes] at hs
  · cases hp

theorem clean_of_builtin {code : GoString} {kind : ErrorKind}
    (h : builtinErrorKind code = some kind) : Clean maxCodeRunes code ∧ code ≠ .utf8 "" := by
  have hall : ∀ p ∈ builtinErrorKinds, p.1.validString = true ∧
      p.1.runes.all plain = true ∧ p.1.runes.length ≤ maxCodeRunes ∧ p.1 ≠ .utf8 "" := by
    decide
  obtain ⟨l₁, l₂, he, -⟩ := List.lookup_eq_some_iff.mp h
  obtain ⟨hv, hp, hl, hne⟩ := hall (code, kind) (by rw [he]; simp)
  cases code with
  | raw units => cases hv
  | utf8 s => exact ⟨clean_of_plain (List.all_eq_true.mp hp) hl, hne⟩

theorem clean_of_scope {execution : Execution} (h : execution.validate = .ok ()) :
    Clean Action.Names.maxKindRunes execution.kind ∧
      Clean Action.Names.maxIDRunes execution.id := by
  obtain ⟨⟨kind, hk⟩, id, hi⟩ := utf8_of_scope_validate h
  unfold Execution.validate at h
  split_ifs at h with h1 h2 h3 h4 h5
  simp only [Bool.or_eq_true, Bool.not_eq_true', decide_eq_true_eq, not_or, bne_iff_ne, ne_eq,
    not_not, not_lt, Bool.not_eq_false] at h2 h4
  rw [hk] at h2 ⊢
  rw [hi] at h4 h5 ⊢
  refine ⟨clean_of_plain ?_ h2.2, rfl, h4.1.2, h4.2, by simpa using h5⟩
  refine plain_of_matchToken h2.1 (fun _ => plain_of_isLower) ?_
  intro c hc
  simp only [Bool.or_eq_true, beq_iff_eq] at hc
  rcases hc with (((hc | hc) | rfl) | rfl) | rfl
  · exact plain_of_isLower hc
  · exact plain_of_isDigit hc
  · rfl
  · rfl
  · rfl

theorem matchDigest_iff {s : List Char} : matchDigest s = true ↔
    ∃ hex, s = "sha256:".toList ++ hex ∧ hex.length = 64 ∧
      ∀ c ∈ hex, (isDigit c || ('a' ≤ c && c ≤ 'f')) = true := by
  simp only [matchDigest, Bool.and_eq_true, beq_iff_eq, List.all_eq_true]
  constructor
  · rintro ⟨⟨h1, h2⟩, h3⟩
    exact ⟨s.drop 7, by rw [← h1, List.take_append_drop], h2, h3⟩
  · rintro ⟨hex, rfl, hl, hall⟩
    exact ⟨⟨rfl, hl⟩, hall⟩

theorem plain_of_matchDigest {s : List Char} (h : matchDigest s = true) :
    ∀ c ∈ s, plain c = true := by
  obtain ⟨hex, rfl, -, hall⟩ := matchDigest_iff.mp h
  intro c hc
  rcases List.mem_append.mp hc with hc | hc
  · exact List.all_eq_true.mp (rfl : "sha256:".toList.all plain = true) c hc
  · rcases Bool.or_eq_true_iff.mp (hall c hc) with hd | hd
    · exact plain_of_isDigit hd
    · simp only [Bool.and_eq_true, decide_eq_true_eq] at hd
      exact plain_of_le hd.1 hd.2 (by decide) (by decide)

theorem clean_of_matchDigest {value : GoString} (h : matchDigest value.runes = true) :
    Clean maxHashRunes value ∧ value ≠ .utf8 "" := by
  cases value with
  | raw units => simp [GoString.runes, matchDigest] at h
  | utf8 s =>
    obtain ⟨hex, hs, hl, -⟩ := matchDigest_iff.mp h
    have hs : s.toList = "sha256:".toList ++ hex := hs
    refine ⟨clean_of_plain (plain_of_matchDigest h) ?_, ?_⟩
    · rw [hs, List.length_append, hl]
      decide
    · rintro ⟨⟩
      simp at hs

/-! ### Normalization -/

theorem trimSpace_subset {s : List Char} {c : Char} (h : c ∈ trimSpace s) : c ∈ s :=
  (List.dropWhile_suffix _).subset ((List.rdropWhile_prefix _ _).subset h)

theorem head_trimSpace {s : List Char} {c : Char} (h : c ∈ (trimSpace s).head?) :
    isSpace c = false := by
  unfold trimSpace at h
  rcases hr : (s.dropWhile isSpace).rdropWhile isSpace with _ | ⟨d, rest⟩
  · rw [hr] at h
    cases h
  · rw [hr] at h
    obtain rfl : d = c := by simpa using h
    -- what is left after the trailing spaces are gone starts as before
    obtain ⟨tail, ht⟩ := List.rdropWhile_prefix isSpace (s.dropWhile isSpace)
    rw [hr] at ht
    have hne : s.dropWhile isSpace ≠ [] := by rw [← ht]; simp
    have hd := List.head_dropWhile_not isSpace hne
    have : (s.dropWhile isSpace).head hne = d := by simp [← ht]
    rwa [this] at hd

theorem last_trimSpace {s : List Char} {c : Char} (h : c ∈ (trimSpace s).getLast?) :
    isSpace c = false := by
  unfold trimSpace at h
  obtain ⟨hne, rfl⟩ := List.mem_getLast?_eq_getLast h
  have := List.rdropWhile_last_not isSpace (s.dropWhile isSpace) hne
  simpa using this

/-- What `truncate` makes of a trimmed text is trimmed: the dots at its end are no spaces. -/
theorem truncate_trimmed {s : List Char} {limit : ℕ} (h3 : 3 < limit)
    (hh : ∀ c ∈ s.head?, isSpace c = false) (hl : ∀ c ∈ s.getLast?, isSpace c = false) :
    trimSpace (truncate s limit) = truncate s limit ∧ (truncate s limit).length ≤ limit ∧
      ∀ c ∈ truncate s limit, c ∈ s ∨ c = '.' := by
  unfold truncate
  split_ifs with h1 h2
  · refine ⟨trimSpace_eq_self hh hl, ?_, fun c hc => Or.inl hc⟩
    omega
  · omega
  · have hs : limit < s.length := by omega
    refine ⟨trimSpace_eq_self ?_ ?_, ?_, ?_⟩
    · cases s with
      | nil => simp at hs
      | cons d s =>
        obtain ⟨n, hn⟩ : ∃ n, limit - 3 = n + 1 := ⟨limit - 4, by omega⟩
        rw [hn]
        simpa using hh d rfl
    · intro c hc
      rw [show "...".toList = ['.', '.'] ++ ['.'] from rfl, ← List.append_assoc,
        List.getLast?_concat] at hc
      obtain rfl : '.' = c := by simpa using hc
      rfl
    · rw [List.length_append, List.length_take]
      have : "...".toList.length = 3 := rfl
      omega
    · intro c hc
      rcases List.mem_append.mp hc with hc | hc
      · exact Or.inl (List.mem_of_mem_take hc)
      · refine Or.inr ?_
        simpa using hc

theorem truncate_of_le {s : List Char} {limit : ℕ} (h : s.length ≤ limit) : truncate s limit = s :=
  if_pos (Or.inr h)

/-- **An identifier of a normalized event is clean.** -/
theorem clean_sanitizeIdentifier (value : GoString) {limit : ℕ} (h3 : 3 < limit) :
    Clean limit (sanitizeIdentifier value limit) := by
  obtain ⟨h1, h2, h4⟩ := truncate_trimmed
    (s := trimSpace ((toValidUTF8 value).filter fun c => !isControl c)) h3
    (fun _ => head_trimSpace) fun _ => last_trimSpace
  unfold sanitizeIdentifier
  refine ⟨rfl, ?_, ?_, ?_⟩
  · simpa [GoString.runes] using h1
  · simpa [GoString.runes] using h2
  · intro c hc
    rcases h4 c (by simpa [GoString.runes] using hc) with hc | rfl
    · simpa using (List.mem_filter.mp (trimSpace_subset hc)).2
    · rfl

/-- A clean identifier is left as it is. -/
theorem sanitizeIdentifier_of_clean {value : GoString} {limit : ℕ} (h : Clean limit value) :
    sanitizeIdentifier value limit = value := by
  obtain ⟨s, rfl⟩ := h.utf8
  have hf : (s.toList.filter fun c => !isControl c) = s.toList :=
    List.filter_eq_self.mpr fun c hc => by simp [h.visible c hc]
  have ht : trimSpace s.toList = s.toList := h.trimmed
  have hb : s.toList.length ≤ limit := h.bounded
  unfold sanitizeIdentifier toValidUTF8
  dsimp only
  rw [hf, ht, truncate_of_le hb, String.ofList_toList]

theorem sanitizeIdentifier_idem (value : GoString) {limit : ℕ} (h3 : 3 < limit) :
    sanitizeIdentifier (sanitizeIdentifier value limit) limit = sanitizeIdentifier value limit :=
  sanitizeIdentifier_of_clean (clean_sanitizeIdentifier value h3)

theorem clean_normalizeFreeText (value : GoString) {limit : ℕ} (h3 : 3 < limit) :
    Clean limit (normalizeFreeText value limit) := by
  obtain ⟨h1, h2, h4⟩ := truncate_trimmed
    (s := trimSpace ((toValidUTF8 value).map fun c => if isControl c then ' ' else c)) h3
    (fun _ => head_trimSpace) fun _ => last_trimSpace
  unfold normalizeFreeText
  refine ⟨rfl, ?_, ?_, ?_⟩
  · simpa [GoString.runes] using h1
  · simpa [GoString.runes] using h2
  · intro c hc
    rcases h4 c (by simpa [GoString.runes] using hc) with hc | rfl
    · obtain ⟨d, -, rfl⟩ := List.mem_map.mp (trimSpace_subset hc)
      split
      · rfl
      · next hd => simpa using hd
    · rfl

theorem normalizeFreeText_of_clean {value : GoString} {limit : ℕ} (h : Clean limit value) :
    normalizeFreeText value limit = value := by
  obtain ⟨s, rfl⟩ := h.utf8
  have hm : (s.toList.map fun c => if isControl c then ' ' else c) = s.toList := by
    conv_rhs => rw [← List.map_id s.toList]
    exact List.map_congr_left fun c hc => by
      have hv : isControl c = false := h.visible c hc
      simp [hv]
  have ht : trimSpace s.toList = s.toList := h.trimmed
  have hb : s.toList.length ≤ limit := h.bounded
  unfold normalizeFreeText toValidUTF8
  dsimp only
  rw [hm, ht, truncate_of_le hb, String.ofList_toList]

theorem clean_kind {kind : ErrorKind} (h : kind.valid = true ∨ kind = .unset) :
    Clean Action.Types.maxKindRunes kind.text := by
  rcases h with h | rfl
  · cases kind with
    | unset => cases h
    | other text => cases h
    | _ => exact clean_of_plain (List.all_eq_true.mp rfl) (by decide)
  · exact clean_empty _

/-- The resources of a normalized impact. -/
theorem mem_boundedStrings {values : List GoString} {limit runeLimit : ℕ} (h3 : 3 < runeLimit)
    {value : GoString} (h : value ∈ boundedStrings values limit runeLimit) :
    Clean runeLimit value ∧ value ≠ .utf8 "" := by
  obtain ⟨hm, hne⟩ := List.mem_filter.mp h
  obtain ⟨raw, -, rfl⟩ := List.mem_map.mp hm
  exact ⟨clean_sanitizeIdentifier raw h3, by simpa using hne⟩

theorem boundedStrings_of_clean {values : List GoString} {limit runeLimit : ℕ}
    (hl : values.length ≤ limit) (hc : ∀ value ∈ values, Clean runeLimit value ∧ value ≠ .utf8 "") :
    boundedStrings values limit runeLimit = values := by
  have hm : values.map (sanitizeIdentifier · runeLimit) = values := by
    conv_rhs => rw [← List.map_id values]
    exact List.map_congr_left fun value hv => sanitizeIdentifier_of_clean (hc value hv).1
  unfold boundedStrings
  rw [List.take_of_length_le hl, hm]
  exact List.filter_eq_self.mpr fun value hv => by simpa using (hc value hv).2

theorem length_boundedStrings (values : List GoString) (limit runeLimit : ℕ) :
    (boundedStrings values limit runeLimit).length ≤ limit := by
  unfold boundedStrings
  refine (List.length_filter_le _ _).trans ?_
  rw [List.length_map, List.length_take]
  exact min_le_left _ _

/-- The references of a normalized event. -/
def boundedReferences (references : List Reference) : List Reference :=
  ((references.take maxReferences).map fun r =>
    { kind := sanitizeIdentifier r.kind Action.Types.maxKindRunes
      id := sanitizeIdentifier r.id Action.Types.maxIDRunes }).filter
    fun r => r.kind != .utf8 "" && r.id != .utf8 ""

/-- The impact of a normalized event. -/
def boundedImpact (impact : Impact) : Impact :=
  Impact.mk (if impact.rows < 0 then 0 else impact.rows)
    (boundedStrings impact.resources maxResources maxResourceRunes)

/-- An impact that the hook accepts as it is. -/
structure OrderlyImpact (impact : Impact) : Prop where
  rows : 0 ≤ impact.rows
  count : impact.resources.length ≤ maxResources
  clean : ∀ resource ∈ impact.resources, Clean maxResourceRunes resource ∧ resource ≠ .utf8 ""
  distinct : impact.resources.Nodup

/-- References that the hook accepts as they are. -/
structure OrderlyReferences (references : List Reference) : Prop where
  count : references.length ≤ maxReferences
  clean : ∀ r ∈ references, (Clean Action.Types.maxKindRunes r.kind ∧ r.kind ≠ .utf8 "") ∧
    Clean Action.Types.maxIDRunes r.id ∧ r.id ≠ .utf8 ""
  distinct : references.Nodup

theorem orderlyImpact_empty : OrderlyImpact {} :=
  ⟨le_rfl, Nat.zero_le _, fun _ h => absurd h List.not_mem_nil, List.nodup_nil⟩

theorem orderlyReferences_nil : OrderlyReferences [] :=
  ⟨Nat.zero_le _, fun _ h => absurd h List.not_mem_nil, List.nodup_nil⟩

theorem boundedImpact_of_clean {impact : Impact} (hr : 0 ≤ impact.rows)
    (hl : impact.resources.length ≤ maxResources)
    (hc : ∀ resource ∈ impact.resources, Clean maxResourceRunes resource ∧ resource ≠ .utf8 "") :
    boundedImpact impact = impact := by
  unfold boundedImpact
  rw [if_neg (not_lt.mpr hr), boundedStrings_of_clean hl hc]

theorem boundedReferences_of_clean {references : List Reference}
    (hl : references.length ≤ maxReferences)
    (hc : ∀ r ∈ references, (Clean Action.Types.maxKindRunes r.kind ∧ r.kind ≠ .utf8 "") ∧
      Clean Action.Types.maxIDRunes r.id ∧ r.id ≠ .utf8 "") :
    boundedReferences references = references := by
  have hm : (references.map fun r : Reference =>
      { kind := sanitizeIdentifier r.kind Action.Types.maxKindRunes
        id := sanitizeIdentifier r.id Action.Types.maxIDRunes : Reference }) = references := by
    conv_rhs => rw [← List.map_id references]
    refine List.map_congr_left fun r hr => ?_
    rw [sanitizeIdentifier_of_clean (hc r hr).1.1, sanitizeIdentifier_of_clean (hc r hr).2.1]
    rfl
  unfold boundedReferences
  rw [List.take_of_length_le hl, hm]
  exact List.filter_eq_self.mpr fun r hr => by simp [(hc r hr).1.2, (hc r hr).2.2]

theorem boundedImpact_idem (impact : Impact) :
    boundedImpact (boundedImpact impact) = boundedImpact impact := by
  refine boundedImpact_of_clean ?_ (length_boundedStrings _ _ _) fun _ hv =>
    mem_boundedStrings (by decide) hv
  unfold boundedImpact
  dsimp only
  split_ifs <;> omega

theorem boundedReferences_idem (references : List Reference) :
    boundedReferences (boundedReferences references) = boundedReferences references := by
  refine boundedReferences_of_clean ?_ ?_
  · unfold boundedReferences
    refine (List.length_filter_le _ _).trans ?_
    rw [List.length_map, List.length_take]
    exact min_le_left _ _
  · intro r hr
    obtain ⟨hm, hne⟩ := List.mem_filter.mp hr
    obtain ⟨raw, -, rfl⟩ := List.mem_map.mp hm
    simp only [Bool.and_eq_true, bne_iff_ne, ne_eq] at hne
    exact ⟨⟨clean_sanitizeIdentifier _ (by decide), hne.1⟩,
      clean_sanitizeIdentifier _ (by decide), hne.2⟩

/-- **Normalizing again changes nothing**, whatever kind and reason are written in between. -/
theorem normalizeEvent_rewritten (event : AuditEvent) (kind : ErrorKind) (reason : GoString) :
    normalizeEvent { normalizeEvent event with errorKind := kind, reason := reason } =
      normalizeEvent { event with errorKind := kind, reason := reason } := by
  have hfree : ∀ value : GoString, normalizeFreeText (normalizeFreeText value maxSummaryRunes)
      maxSummaryRunes = normalizeFreeText value maxSummaryRunes :=
    fun value => normalizeFreeText_of_clean (clean_normalizeFreeText value (by decide))
  have himpact : ∀ impact : Option Impact,
      (impact.map boundedImpact).map boundedImpact = impact.map boundedImpact := by
    intro impact
    cases impact with
    | none => rfl
    | some impact => exact congrArg some (boundedImpact_idem impact)
  unfold normalizeEvent
  rcases hl : event.auditLevel with _ | _
  · simp (disch := decide) only [sanitizeIdentifier_idem]
    rfl
  · simp (disch := decide) only [sanitizeIdentifier_idem, beq_self_eq_true, if_true, hfree]
    congr 1
    · exact himpact event.impact
    · exact boundedReferences_idem event.resultRefs

theorem normalizeEvent_idem (event : AuditEvent) :
    normalizeEvent (normalizeEvent event) = normalizeEvent event := by
  have hself : { normalizeEvent event with
      errorKind := (normalizeEvent event).errorKind
      reason := (normalizeEvent event).reason } = normalizeEvent event := rfl
  have hk : sanitizeIdentifier (normalizeEvent event).errorKind.text Action.Types.maxKindRunes =
      sanitizeIdentifier event.errorKind.text Action.Types.maxKindRunes := by
    unfold normalizeEvent
    dsimp only
    rw [text_ofText, sanitizeIdentifier_idem _ (by decide)]
  have hr : normalizeFreeText (normalizeEvent event).reason maxReasonRunes =
      normalizeFreeText event.reason maxReasonRunes :=
    normalizeFreeText_of_clean (clean_normalizeFreeText event.reason (by decide))
  conv_lhs => rw [← hself, normalizeEvent_rewritten]
  unfold normalizeEvent at hk hr ⊢
  dsimp only at hk hr ⊢
  rw [hk, hr]

/-! ### Acceptance -/

theorem validateEach_of {α : Type} [DecidableEq α] {check : α → Except String Unit}
    {duplicated : String} {items : List α} : ∀ {seen : List α}, (∀ a ∈ items, check a = .ok ()) →
    items.Nodup → (∀ a ∈ items, a ∉ seen) → validateEach check duplicated seen items = .ok () := by
  induction items with
  | nil => intros; rfl
  | cons a items ih =>
    intro seen hc hn hs
    obtain ⟨hna, hn⟩ := List.nodup_cons.mp hn
    unfold validateEach
    refine bind_eq_ok.mpr ⟨(), hc a List.mem_cons_self, ?_⟩
    refine bind_eq_ok.mpr ⟨(), refuseIf_eq_ok.mpr (hs a List.mem_cons_self), ?_⟩
    refine ih (fun b hb => hc b (List.mem_cons_of_mem _ hb)) hn fun b hb hm => ?_
    rcases List.mem_cons.mp hm with rfl | hm
    · exact hna hb
    · exact hs b (List.mem_cons_of_mem _ hb) hm

theorem validateAuditImpact_of_orderly {impact : Impact} (h : OrderlyImpact impact) :
    validateAuditImpact impact = .ok () := by
  unfold validateAuditImpact
  have hc := h.count
  have hr := h.rows
  refine bind_eq_ok.mpr ⟨(), refuseIf_eq_ok.mpr (by omega), ?_⟩
  refine validateEach_of (fun r hm => ?_) h.distinct fun _ _ => List.not_mem_nil
  exact validateRequired_eq_ok.mpr ⟨(h.clean r hm).2, (h.clean r hm).1⟩

theorem validateAuditReferences_of_orderly {references : List Reference}
    (h : OrderlyReferences references) : validateAuditReferences references = .ok () := by
  unfold validateAuditReferences
  refine bind_eq_ok.mpr ⟨(), refuseIf_eq_ok.mpr (not_lt.mpr h.count), ?_⟩
  refine validateEach_of (fun r hm => ?_) h.distinct fun _ _ => List.not_mem_nil
  obtain ⟨⟨hk, hkne⟩, hi, hine⟩ := h.clean r hm
  exact bind_eq_ok.mpr ⟨(), validateRequired_eq_ok.mpr ⟨hkne, hk⟩,
    validateRequired_eq_ok.mpr ⟨hine, hi⟩⟩

/-- An instant that the hook can write and read back, and that is not the zero `time.Time`. -/
def persistable (nanos : ℤ) : Bool := marshalable nanos && nanos != zeroTime

/-- What an event needs whatever became of its action. -/
structure Presentable (event : AuditEvent) : Prop where
  requestID : sanitizeIdentifier event.requestID maxRequestIDRunes ≠ .utf8 ""
  actionID : sanitizeIdentifier event.actionID maxActionIDRunes ≠ .utf8 ""
  scope : event.scope = noScope ∨ event.scope.validate = .ok ()
  started : persistable event.startedAt.nanos = true
  finished : persistable event.finishedAt.nanos = true
  forwards : event.startedAt.nanos ≤ event.finishedAt.nanos
  impact : ∀ impact ∈ event.impact, OrderlyImpact impact
  references : OrderlyReferences event.resultRefs

/-- Such a scope is left as it is. -/
theorem scope_normalizeEvent {event : AuditEvent}
    (h : event.scope = noScope ∨ event.scope.validate = .ok ()) :
    (normalizeEvent event).scope = event.scope := by
  show Execution.mk (sanitizeIdentifier event.scope.kind _)
    (sanitizeIdentifier event.scope.id _) = _
  rcases h with h | h
  · rw [h]
    simp only [noScope]
    rw [sanitizeIdentifier_of_clean (clean_empty _), sanitizeIdentifier_of_clean (clean_empty _)]
  · obtain ⟨hk, hi⟩ := clean_of_scope h
    rw [sanitizeIdentifier_of_clean hk, sanitizeIdentifier_of_clean hi]

theorem validateTimes_of_presentable {event : AuditEvent} (h : Presentable event) :
    validateTimes (normalizeEvent event) = .ok () := by
  have h1 := h.started
  have h2 := h.finished
  have h3 := h.forwards
  simp only [persistable, Bool.and_eq_true, bne_iff_ne, ne_eq] at h1 h2
  unfold validateTimes
  refine bind_eq_ok.mpr ⟨(), refuseIf_eq_ok.mpr ?_, refuseIf_eq_ok.mpr ?_⟩
  · have hn : ¬ (event.startedAt.nanos = zeroTime ∨ event.finishedAt.nanos = zeroTime ∨
        event.finishedAt.nanos < event.startedAt.nanos) := by
      push Not
      exact ⟨h1.2, h2.2, h3⟩
    exact hn
  · have hn : ¬ (roundTrips event.startedAt = false ∨ roundTrips event.finishedAt = false) := by
      simp [roundTrips, h1.1, h2.1]
    exact hn

theorem decision_normalizeEvent (event : AuditEvent) :
    (normalizeEvent event).decision = event.decision := rfl

theorem errorKind_normalizeEvent {event : AuditEvent} (h : event.errorKind.valid = true ∨
    event.errorKind = .unset) : (normalizeEvent event).errorKind = event.errorKind := by
  unfold normalizeEvent
  dsimp only
  rw [sanitizeIdentifier_of_clean (clean_kind h), ofText_text h]

/-- The impact that an event at the detailed level keeps. -/
theorem impact_normalizeEvent (event : AuditEvent) :
    (normalizeEvent event).impact =
      if event.auditLevel = .detailed then event.impact.map boundedImpact else none := by
  unfold normalizeEvent
  cases event.auditLevel <;> rfl

/-- The references that an event at the detailed level keeps. -/
theorem resultRefs_normalizeEvent (event : AuditEvent) :
    (normalizeEvent event).resultRefs =
      if event.auditLevel = .detailed then boundedReferences event.resultRefs else [] := by
  unfold normalizeEvent
  cases event.auditLevel <;> rfl

theorem orderly_normalizeEvent {event : AuditEvent} (h : Presentable event) :
    (∀ impact ∈ (normalizeEvent event).impact, OrderlyImpact impact) ∧
      OrderlyReferences (normalizeEvent event).resultRefs := by
  rw [impact_normalizeEvent, resultRefs_normalizeEvent]
  split
  · refine ⟨fun impact hm => ?_, ?_⟩
    · obtain ⟨raw, hraw, rfl⟩ := Option.mem_map.mp hm
      have ho := h.impact raw hraw
      rwa [boundedImpact_of_clean ho.rows ho.count ho.clean]
    · rw [boundedReferences_of_clean h.references.count h.references.clean]
      exact h.references
  · exact ⟨fun _ hm => absurd hm (by simp), orderlyReferences_nil⟩

/-- **`validateEvent` comes down to the provenance.** -/
theorem validateEvent_normalized {checks : Checks} {event : AuditEvent} (h : Presentable event)
    (hp : validateProvenance checks (normalizeEvent event) = .ok ()) :
    validateEvent checks (normalizeEvent event) = .ok () := by
  obtain ⟨himpact, hrefs⟩ := orderly_normalizeEvent h
  unfold validateEvent
  refine bind_eq_ok.mpr ⟨(), validateRequired_eq_ok.mpr
    ⟨h.requestID, clean_sanitizeIdentifier event.requestID (by decide)⟩, ?_⟩
  refine bind_eq_ok.mpr ⟨(), validateRequired_eq_ok.mpr
    ⟨h.actionID, clean_sanitizeIdentifier event.actionID (by decide)⟩, ?_⟩
  refine bind_eq_ok.mpr ⟨(), refuseIf_eq_ok.mpr ?_, ?_⟩
  · rintro ⟨hlevel, hkept⟩
    have hlevel : event.auditLevel = .metadata := hlevel
    rw [impact_normalizeEvent, resultRefs_normalizeEvent, hlevel] at hkept
    simp at hkept
  refine bind_eq_ok.mpr ⟨(), hp, ?_⟩
  refine bind_eq_ok.mpr ⟨(), ?_, ?_⟩
  · rw [scope_normalizeEvent h.scope]
    split
    · rfl
    · next hn => exact h.scope.resolve_left hn
  refine bind_eq_ok.mpr ⟨(), validateTimes_of_presentable h, ?_⟩
  refine bind_eq_ok.mpr ⟨(), refuseIf_eq_ok.mpr ?_, ?_⟩
  · have h1 : (normalizeEvent event).resultSummary.runes.length ≤ maxSummaryRunes :=
      (clean_normalizeFreeText _ (by decide)).bounded
    have h2 : (normalizeEvent event).reason.runes.length ≤ maxReasonRunes :=
      (clean_normalizeFreeText _ (by decide)).bounded
    omega
  refine bind_eq_ok.mpr ⟨(), ?_, validateAuditReferences_of_orderly hrefs⟩
  cases hi : (normalizeEvent event).impact with
  | none => rfl
  | some impact => exact validateAuditImpact_of_orderly (himpact impact hi)

/-- `validateRawEvent` and `validateEvent` on an event that the runtime has normalized. -/
theorem record_normalized {checks : Checks} {event : AuditEvent} (h : Presentable event)
    (hp : validateProvenance checks (normalizeEvent event) = .ok ()) :
    record checks (normalizeEvent event) = .ok () := by
  unfold record
  refine bind_eq_ok.mpr ⟨(), ?_, ?_⟩
  · unfold validateProvenance at hp
    unfold validateRawEvent
    split
    · next hs => rwa [if_pos hs] at hp
    · rfl
  · rw [normalizeEvent_idem]
    exact validateEvent_normalized h hp

/-! ### Provenance -/

/-- A digest that may be left out. -/
def DigestOrEmpty (value : GoString) : Prop := value = .utf8 "" ∨ matchDigest value.runes = true

theorem DigestOrEmpty.sanitize {value : GoString} (h : DigestOrEmpty value) :
    DigestOrEmpty (sanitizeIdentifier value maxHashRunes) := by
  rcases h with rfl | h
  · exact Or.inl (sanitizeIdentifier_of_clean (clean_empty _))
  · rw [sanitizeIdentifier_of_clean (clean_of_matchDigest h).1]
    exact Or.inr h

theorem validatePresentDigest_eq_ok {name : String} {value : GoString} :
    validatePresentDigest name value = .ok () ↔ DigestOrEmpty value := by
  unfold validatePresentDigest validateDigest DigestOrEmpty
  by_cases he : value = .utf8 ""
  · simp [he]
  · rw [if_pos he, refuseIf_eq_ok]
    simp [he]

/-- The version of a prepared action, as the hook checks it. -/
structure Versioned (checks : Checks) (version : GoString) : Prop where
  clean : Clean maxVersionRunes version
  valid : validVersion checks version = true

/-- What the event of a failure carries. -/
structure Failed (checks : Checks) (event : AuditEvent) : Prop where
  decision : successfulDecision event.decision = false
  code : validateErrorPair event.errorCode event.errorKind = .ok ()
  kind : validateDecisionKind event.decision event.errorKind = .ok ()
  version : event.actionVersion = .utf8 "" ∨ Versioned checks event.actionVersion
  contractHash : DigestOrEmpty event.contractHash
  inputHash : DigestOrEmpty event.inputHash

theorem validateErrorPair_ok {code : GoString} {kind : ErrorKind}
    (h : validateErrorPair code kind = .ok ()) : kind.valid = true ∧ Clean maxCodeRunes code := by
  unfold validateErrorPair at h
  obtain ⟨_, h1, h⟩ := bind_eq_ok.mp h
  have h1 := refuseIf_eq_ok.mp h1
  push Not at h1
  refine ⟨by simpa using h1.2, ?_⟩
  cases hb : builtinErrorKind code with
  | some builtinKind => exact (clean_of_builtin hb).1
  | none =>
    rw [hb] at h
    obtain ⟨_, h2, -⟩ := bind_eq_ok.mp h
    exact (clean_of_validCustomErrorCode (by simpa using refuseIf_eq_ok.mp h2)).1

/-- The event of a failure passes when its plan hash does. -/
theorem validateOptionalProvenance_of {checks : Checks} {event : AuditEvent}
    (h : Failed checks event)
    (hplan : DigestOrEmpty (sanitizeIdentifier event.planHash maxHashRunes)) :
    validateOptionalProvenance checks (normalizeEvent event) = .ok () := by
  obtain ⟨hv, hcode⟩ := validateErrorPair_ok h.code
  have hkind : (normalizeEvent event).errorKind = event.errorKind :=
    errorKind_normalizeEvent (Or.inl hv)
  have herr : (normalizeEvent event).errorCode = event.errorCode :=
    sanitizeIdentifier_of_clean hcode
  have hversion : (normalizeEvent event).actionVersion = event.actionVersion := by
    rcases h.version with he | hver
    · show sanitizeIdentifier event.actionVersion _ = _
      rw [he]
      exact sanitizeIdentifier_of_clean (clean_empty _)
    · exact sanitizeIdentifier_of_clean hver.clean
  unfold validateOptionalProvenance
  refine bind_eq_ok.mpr ⟨(), validatePresent_of_clean
    (clean_sanitizeIdentifier event.actorID (by decide)), ?_⟩
  refine bind_eq_ok.mpr ⟨(), validatePresent_of_clean
    (clean_sanitizeIdentifier event.actorType (by decide)), ?_⟩
  refine bind_eq_ok.mpr ⟨(), validatePresent_of_clean
    (clean_sanitizeIdentifier event.channel (by decide)), ?_⟩
  rw [hkind, herr, hversion]
  refine bind_eq_ok.mpr ⟨(), validatePresent_of_clean hcode, ?_⟩
  refine bind_eq_ok.mpr ⟨(), validatePresent_of_clean (clean_kind (Or.inl hv)), ?_⟩
  refine bind_eq_ok.mpr ⟨(), h.code, ?_⟩
  refine bind_eq_ok.mpr ⟨(), h.kind, ?_⟩
  refine bind_eq_ok.mpr ⟨(), refuseIf_eq_ok.mpr ?_, ?_⟩
  · rintro ⟨hne, hbad⟩
    rw [(h.version.resolve_left hne).valid] at hbad
    cases hbad
  refine bind_eq_ok.mpr ⟨(), validatePresentDigest_eq_ok.mpr h.contractHash.sanitize, ?_⟩
  refine bind_eq_ok.mpr ⟨(), validatePresentDigest_eq_ok.mpr h.inputHash.sanitize, ?_⟩
  exact validatePresentDigest_eq_ok.mpr hplan

/-- What the event of a success carries. -/
structure Succeeded (checks : Checks) (event : AuditEvent) : Prop where
  decision : successfulDecision event.decision = true
  actorID : Clean maxActorIDRunes event.actorID ∧ event.actorID ≠ .utf8 ""
  actorType : Clean maxActorTypeRunes event.actorType ∧ event.actorType ≠ .utf8 ""
  channel : Clean maxChannelRunes event.channel ∧ event.channel ≠ .utf8 ""
  actionID : validIdentifier event.actionID = true
  version : Versioned checks event.actionVersion
  contractHash : matchDigest event.contractHash.runes = true
  inputHash : matchDigest event.inputHash.runes = true
  planHash : matchDigest event.planHash.runes = true
  scope : event.scope.validate = .ok ()
  code : event.errorCode = .utf8 ""
  kind : event.errorKind = .unset
  impact : event.impact ≠ none

theorem validateDigest_sanitize {name : String} {value : GoString}
    (h : matchDigest value.runes = true) :
    validateDigest name (sanitizeIdentifier value maxHashRunes) = .ok () := by
  rw [sanitizeIdentifier_of_clean (clean_of_matchDigest h).1]
  exact refuseIf_eq_ok.mpr (by simp [h])

theorem validateRequired_sanitize {name : String} {value : GoString} {limit : ℕ}
    (h : Clean limit value ∧ value ≠ .utf8 "") :
    validateRequired name (sanitizeIdentifier value limit) limit = .ok () := by
  rw [sanitizeIdentifier_of_clean h.1]
  exact validateRequired_eq_ok.mpr ⟨h.2, h.1⟩

theorem validateSuccessfulProvenance_of {checks : Checks} {event : AuditEvent}
    (h : Succeeded checks event) :
    validateSuccessfulProvenance checks (normalizeEvent event) = .ok () := by
  have haction : (normalizeEvent event).actionID = event.actionID :=
    sanitizeIdentifier_of_clean (clean_of_validIdentifier h.actionID).1
  have hversion : (normalizeEvent event).actionVersion = event.actionVersion :=
    sanitizeIdentifier_of_clean h.version.clean
  have hcode : (normalizeEvent event).errorCode = .utf8 "" := by
    show sanitizeIdentifier event.errorCode _ = _
    rw [h.code, sanitizeIdentifier_of_clean (clean_empty _)]
  have hkind : (normalizeEvent event).errorKind = .unset :=
    (errorKind_normalizeEvent (Or.inr h.kind)).trans h.kind
  unfold validateSuccessfulProvenance
  refine bind_eq_ok.mpr ⟨(), validateRequired_sanitize h.actorID, ?_⟩
  refine bind_eq_ok.mpr ⟨(), validateRequired_sanitize h.actorType, ?_⟩
  refine bind_eq_ok.mpr ⟨(), validateRequired_sanitize h.channel, ?_⟩
  rw [haction, hversion, hcode, hkind, scope_normalizeEvent (Or.inr h.scope)]
  refine bind_eq_ok.mpr ⟨(), refuseIf_eq_ok.mpr (by simp [h.actionID]), ?_⟩
  refine bind_eq_ok.mpr ⟨(), refuseIf_eq_ok.mpr (by simp [h.version.valid]), ?_⟩
  refine bind_eq_ok.mpr ⟨(), validateDigest_sanitize h.contractHash, ?_⟩
  refine bind_eq_ok.mpr ⟨(), validateDigest_sanitize h.inputHash, ?_⟩
  refine bind_eq_ok.mpr ⟨(), validateDigest_sanitize h.planHash, ?_⟩
  refine bind_eq_ok.mpr ⟨(), h.scope, ?_⟩
  refine bind_eq_ok.mpr ⟨(), refuseIf_eq_ok.mpr (by simp), ?_⟩
  refine bind_eq_ok.mpr ⟨(), refuseIf_eq_ok.mpr (by simp), ?_⟩
  refine refuseIf_eq_ok.mpr ?_
  rintro ⟨hlevel, himpact⟩
  have hlevel : event.auditLevel = .detailed := hlevel
  rw [impact_normalizeEvent, if_pos hlevel, Option.map_eq_none_iff] at himpact
  exact h.impact himpact

/-- **The event of a success is accepted.** -/
theorem record_of_succeeded {checks : Checks} {event : AuditEvent} (hp : Presentable event)
    (h : Succeeded checks event) : record checks (normalizeEvent event) = .ok () := by
  refine record_normalized hp ?_
  unfold validateProvenance
  rw [decision_normalizeEvent, if_pos h.decision]
  exact validateSuccessfulProvenance_of h

/-- **The event of a failure is accepted when its plan hash is one, or none.** -/
theorem record_of_failed {checks : Checks} {event : AuditEvent} (hp : Presentable event)
    (h : Failed checks event)
    (hplan : DigestOrEmpty (sanitizeIdentifier event.planHash maxHashRunes)) :
    record checks (normalizeEvent event) = .ok () := by
  refine record_normalized hp ?_
  unfold validateProvenance
  rw [decision_normalizeEvent, if_neg (by simp [h.decision])]
  exact validateOptionalProvenance_of h hplan

/-- An event of a failure that is accepted has such a plan hash. -/
theorem planHash_of_record {checks : Checks} {event : AuditEvent}
    (hd : successfulDecision event.decision = false)
    (h : record checks (normalizeEvent event) = .ok ()) :
    DigestOrEmpty (sanitizeIdentifier event.planHash maxHashRunes) := by
  unfold record at h
  obtain ⟨_, -, h⟩ := bind_eq_ok.mp h
  rw [normalizeEvent_idem] at h
  unfold validateEvent at h
  iterate 3 obtain ⟨_, -, h⟩ := bind_eq_ok.mp h
  obtain ⟨_, hp, -⟩ := bind_eq_ok.mp h
  unfold validateProvenance at hp
  rw [decision_normalizeEvent, if_neg (by simp [hd])] at hp
  unfold validateOptionalProvenance at hp
  iterate 10 obtain ⟨_, -, hp⟩ := bind_eq_ok.mp hp
  exact validatePresentDigest_eq_ok.mp hp

/-! ### Persisted values -/

theorem validateResources_ok {check : GoString → Except String Unit} {resources : List GoString} :
    ∀ {seen : List GoString}, validateResources check seen resources = .ok () →
      (∀ r ∈ resources, check r = .ok ()) ∧ resources.Nodup ∧ ∀ r ∈ resources, r ∉ seen := by
  induction resources with
  | nil => exact fun _ => ⟨by simp, List.nodup_nil, by simp⟩
  | cons r resources ih =>
    intro seen h
    unfold validateResources at h
    obtain ⟨_, hr, h⟩ := bind_eq_ok.mp h
    dsimp only at h
    split at h
    · cases h
    next hseen =>
    obtain ⟨h1, h2, h3⟩ := ih h
    refine ⟨List.forall_mem_cons.mpr ⟨hr, h1⟩, List.nodup_cons.mpr ⟨?_, h2⟩,
      List.forall_mem_cons.mpr ⟨hseen, fun s hs hm => h3 s hs (List.mem_cons_of_mem _ hm)⟩⟩
    exact fun hm => h3 r hm List.mem_cons_self

theorem validateReferences_ok {check : String → GoString → ℕ → Except String Unit}
    {references : List Reference} : ∀ {seen : List Reference},
    validateReferences check seen references = .ok () →
      (∀ r ∈ references, check "result reference kind" r.kind Action.Types.maxKindRunes = .ok () ∧
        check "result reference id" r.id Action.Types.maxIDRunes = .ok ()) ∧
      references.Nodup ∧ ∀ r ∈ references, r ∉ seen := by
  induction references with
  | nil => exact fun _ => ⟨by simp, List.nodup_nil, by simp⟩
  | cons r references ih =>
    intro seen h
    unfold validateReferences at h
    obtain ⟨_, hkind, h⟩ := bind_eq_ok.mp h
    obtain ⟨_, hid, h⟩ := bind_eq_ok.mp h
    dsimp only at h
    split at h
    · cases h
    next hseen =>
    obtain ⟨h1, h2, h3⟩ := ih h
    refine ⟨List.forall_mem_cons.mpr ⟨⟨hkind, hid⟩, h1⟩, List.nodup_cons.mpr ⟨?_, h2⟩,
      List.forall_mem_cons.mpr ⟨hseen, fun s hs hm => h3 s hs (List.mem_cons_of_mem _ hm)⟩⟩
    exact fun hm => h3 r hm List.mem_cons_self

/-- A required text of a check that forbids control characters. -/
theorem clean_required {field : String} {value : GoString} {limit : ℕ} {forbidden : Char → Bool}
    (h : validateText field value true limit forbidden = .ok ())
    (hf : ∀ c, isControl c = true → forbidden c = true) : Clean limit value ∧ value ≠ .utf8 "" :=
  (clean_of_validateText h hf le_rfl).imp_right fun hne => hne rfl

theorem orderlyImpact_of_persistent {impact : Impact}
    (h : validatePersistentImpact impact = .ok ()) : OrderlyImpact impact := by
  unfold validatePersistentImpact at h
  obtain ⟨_, hrows, h⟩ := bind_eq_ok.mp h
  obtain ⟨_, hcount, h⟩ := bind_eq_ok.mp h
  obtain ⟨hall, hnodup, -⟩ := validateResources_ok h
  have hrows := refuseIf_eq_ok.mp hrows
  have hcount := refuseIf_eq_ok.mp hcount
  exact ⟨by omega, by omega, fun r hr => clean_required (hall r hr) fun _ hc => hc, hnodup⟩

theorem digest_of_validatePlanHash {value : GoString} (h : validatePlanHash value = .ok ()) :
    matchDigest value.runes = true := by
  unfold validatePlanHash at h
  split at h
  · next hm => exact hm
  · cases h

end Modary.Audit.Events
