import Mathlib.Data.List.Basic
import Mathlib.Tactic.SplitIfs

/-! # Bounded bodies

`boundedBody` of `components/oidc`: a response body that is read up to a maximum. What comes out of
it is compared with what the body below would have answered to the same reads. -/

namespace Modary.Identity.BoundedBody

/-! ### Readers -/

/-- The error of a read: that of the body below, or the limit. -/
inductive ReadError (ε : Type)
  | upstream (err : ε)
  | exceedsLimit
  deriving DecidableEq, Repr

/-- What a read returns. -/
structure Output (ε : Type) where
  bytes : List UInt8
  err : Option (ReadError ε)
  deriving DecidableEq, Repr

/-- A body of some bytes and then its end, or an error. -/
structure Upstream (ε : Type) where
  left : List UInt8
  fate : ε

/-- How a body splits its bytes: how many it would give to a read, and whether it reports its fate
along with the last of them. -/
structure Answer where
  count : ℕ
  reports : Bool
  deriving DecidableEq, Repr

variable {ε : Type}

namespace Upstream

/-- How many bytes a read into a buffer gets. -/
def granted (upstream : Upstream ε) (size : ℕ) (answer : Answer) : ℕ :=
  min answer.count (min size upstream.left.length)

/-- A read into a buffer. -/
def read (upstream : Upstream ε) (size : ℕ) (answer : Answer) : Output ε × Upstream ε :=
  let count := upstream.granted size answer
  (⟨upstream.left.take count,
    if answer.reports && count = upstream.left.length then some (.upstream upstream.fate) else none⟩,
    { upstream with left := upstream.left.drop count })

/-- What some reads get. -/
def reads (upstream : Upstream ε) : List (ℕ × Answer) → List (Output ε)
  | [] => []
  | (size, answer) :: rest =>
    (upstream.read size answer).1 :: (upstream.read size answer).2.reads rest

end Upstream

/-- `boundedBody`. -/
structure Body (ε : Type) where
  next : Upstream ε
  remaining : ℕ
  exhausted : Bool

/-- The output of a body that is over its limit. -/
def Output.limit : Output ε := ⟨[], some .exceedsLimit⟩

namespace Body

/-- `boundedBody.Read`, into a buffer of some size. -/
def read (body : Body ε) (size : ℕ) (answer : Answer) : Output ε × Body ε :=
  if body.exhausted then (.limit, body)
  else
    let size := min size body.remaining
    if 0 < size then
      let (output, next) := body.next.read size answer
      (output, { body with next := next, remaining := body.remaining - output.bytes.length })
    else
      let (output, next) := body.next.read 1 answer
      if output.bytes ≠ [] then (.limit, { body with next := next, exhausted := true })
      else (⟨[], output.err⟩, { body with next := next })

/-- What some reads get, and the body after them. -/
def reads (body : Body ε) : List (ℕ × Answer) → List (Output ε) × Body ε
  | [] => ([], body)
  | (size, answer) :: rest =>
    let (output, next) := body.read size answer
    let (outputs, last) := next.reads rest
    (output :: outputs, last)

end Body

/-- The body that `boundedTransport` hands out. -/
def bounded (maximum : ℕ) (upstream : Upstream ε) : Body ε := ⟨upstream, maximum, false⟩

/-! ### Delivery -/

/-- The bytes that some reads got. -/
def bytesOf (outputs : List (Output ε)) : List UInt8 := outputs.flatMap Output.bytes

/-- What reads of a body that is too long get: its first bytes, all of them before the limit is
reported, and nothing else from then on. -/
structure Cut (maximum : ℕ) (data : List UInt8) (outputs : List (Output ε)) (left : List UInt8) :
    Prop where
  bytes : bytesOf outputs <+: data.take maximum
  whole : bytesOf outputs ++ left = data ∨ bytesOf outputs = data.take maximum
  errors : ∀ before output after, outputs = before ++ output :: after → output.err ≠ none →
    bytesOf before = data.take maximum ∧ ∀ later ∈ output :: after, later = .limit

/-- What reads of a body get: all that the body below gives, when it has at most as many bytes, and
otherwise no more than its first ones. -/
def Delivers (maximum : ℕ) (upstream : Upstream ε) (reads : List (ℕ × Answer)) : Prop :=
  let result := (bounded maximum upstream).reads reads
  (upstream.left.length ≤ maximum → result.1 = upstream.reads reads) ∧
    (maximum < upstream.left.length → Cut maximum upstream.left result.1 result.2.next.left)

/-- No read into an empty buffer, before the limit is reached, meets a byte. -/
def Unprobed (maximum : ℕ) (upstream : Upstream ε) : List (ℕ × Answer) → Prop
  | [] => True
  | (size, answer) :: rest =>
    (size = 0 → 0 < maximum → upstream.granted 1 answer = 0) ∧
      (maximum = 0 ∧ 0 < upstream.granted 1 answer ∨
        Unprobed (maximum - upstream.granted (min size maximum) answer)
          (upstream.read (min size maximum) answer).2 rest)

/-! ### One read -/

variable {maximum size : ℕ} {upstream : Upstream ε} {answer : Answer} {rest : List (ℕ × Answer)}

theorem granted_le (upstream : Upstream ε) (size : ℕ) (answer : Answer) :
    upstream.granted size answer ≤ upstream.left.length :=
  Nat.le_trans (Nat.min_le_right _ _) (Nat.min_le_right _ _)

theorem granted_le_size (upstream : Upstream ε) (size : ℕ) (answer : Answer) :
    upstream.granted size answer ≤ size :=
  Nat.le_trans (Nat.min_le_right _ _) (Nat.min_le_left _ _)

theorem read_bytes_length (upstream : Upstream ε) (size : ℕ) (answer : Answer) :
    (upstream.read size answer).1.bytes.length = upstream.granted size answer :=
  List.length_take_of_le (granted_le upstream size answer)

/-- Reads that get equally many bytes get the same. -/
theorem read_congr {size' : ℕ} (h : upstream.granted size answer = upstream.granted size' answer) :
    upstream.read size answer = upstream.read size' answer := by
  simp only [Upstream.read, h]

/-- A read of a body within its limit hands on what the body below answers. -/
theorem reads_cons (hprobe : size = 0 → 0 < maximum → upstream.granted 1 answer = 0)
    (hlimit : maximum = 0 → upstream.granted 1 answer = 0) :
    (bounded maximum upstream).reads ((size, answer) :: rest) =
      let output := upstream.read (min size maximum) answer
      let result := (bounded (maximum - upstream.granted (min size maximum) answer) output.2).reads rest
      (output.1 :: result.1, result.2) := by
  have hread : (bounded maximum upstream).read size answer =
      ((upstream.read (min size maximum) answer).1,
        bounded (maximum - upstream.granted (min size maximum) answer)
          (upstream.read (min size maximum) answer).2) := by
    unfold Body.read bounded
    simp only [Bool.false_eq_true, if_false, read_bytes_length]
    by_cases hsize : 0 < min size maximum
    · rw [if_pos hsize]
    · rw [if_neg hsize]
      have hzero : min size maximum = 0 := by omega
      have hnone : upstream.granted 1 answer = 0 := by
        by_cases hmax : maximum = 0
        · exact hlimit hmax
        · exact hprobe (by omega) (by omega)
      have hnone' : upstream.granted 0 answer = 0 := Nat.le_zero.mp (granted_le_size upstream 0 answer)
      have hsame : upstream.read 1 answer = upstream.read 0 answer := read_congr (by rw [hnone, hnone'])
      have hbytes : (upstream.read 0 answer).1.bytes = [] := by
        rw [← List.length_eq_zero_iff, read_bytes_length, hnone']
      rw [hsame, hzero, hnone', if_neg (by rw [hbytes]; exact fun hne => hne rfl)]
      refine Prod.ext ?_ rfl
      rw [← hbytes]
  simp only [Body.reads, hread]

theorem reads_exhausted {body : Body ε} (h : body.exhausted = true) (reads : List (ℕ × Answer)) :
    body.reads reads = (List.replicate reads.length .limit, body) := by
  induction reads with
  | nil => rfl
  | cons read rest ih =>
    have hread : body.read read.1 read.2 = (.limit, body) := by rw [Body.read, if_pos h]
    simp only [Body.reads, hread, ih]
    rfl

/-- A probe that meets a byte ends the body. -/
theorem reads_probe (hsize : min size maximum = 0) (hbyte : 0 < upstream.granted 1 answer) :
    (bounded maximum upstream).reads ((size, answer) :: rest) =
      (List.replicate (rest.length + 1) .limit,
        ⟨(upstream.read 1 answer).2, maximum, true⟩) := by
  have hne : (upstream.read 1 answer).1.bytes ≠ [] := by
    rw [← List.length_pos_iff, read_bytes_length]
    exact hbyte
  have hread : (bounded maximum upstream).read size answer =
      (.limit, ⟨(upstream.read 1 answer).2, maximum, true⟩) := by
    unfold Body.read bounded
    simp only [Bool.false_eq_true, if_false, hsize, Nat.lt_irrefl]
    rw [if_pos hne]
  simp only [Body.reads, hread]
  rw [reads_exhausted rfl]
  rfl

/-! ### Many reads -/

theorem bytesOf_replicate (n : ℕ) : bytesOf (List.replicate n (.limit : Output ε)) = [] := by
  induction n with
  | zero => rfl
  | succ n ih => rw [List.replicate_succ, bytesOf, List.flatMap_cons, ← bytesOf, ih]; rfl

/-- Some first bytes, and the cut of what is left. -/
theorem cut_cons {data left : List UInt8} {outputs : List (Output ε)} {count : ℕ}
    (hcount : count ≤ maximum) :
    Cut maximum data (⟨data.take count, none⟩ :: outputs) left ↔
      Cut (maximum - count) (data.drop count) outputs left := by
  have htake : data.take maximum = data.take count ++ (data.drop count).take (maximum - count) := by
    rw [← List.take_add, Nat.add_sub_cancel' hcount]
  have hbytes : ∀ outputs : List (Output ε),
      bytesOf (⟨data.take count, none⟩ :: outputs) = data.take count ++ bytesOf outputs :=
    fun _ => rfl
  have hdata : ∀ rest : List UInt8, data.take count ++ rest = data ↔ rest = data.drop count := by
    intro rest
    have hsplit := List.take_append_drop count data
    constructor
    · intro h
      exact List.append_cancel_left (h.trans hsplit.symm)
    · intro h
      rw [h]
      exact hsplit
  constructor
  · intro h
    refine ⟨?_, ?_, ?_⟩
    · have hb := h.bytes
      rwa [hbytes, htake, List.prefix_append_right_inj] at hb
    · rcases h.whole with hw | hw
      · rw [hbytes, List.append_assoc, hdata] at hw
        exact .inl hw
      · rw [hbytes, htake, List.append_cancel_left_eq] at hw
        exact .inr hw
    · intro before output after houtputs herr
      obtain ⟨hbefore, hlater⟩ := h.errors (⟨data.take count, none⟩ :: before) output after
        (by rw [houtputs, List.cons_append]) herr
      rw [hbytes, htake, List.append_cancel_left_eq] at hbefore
      exact ⟨hbefore, hlater⟩
  · intro h
    refine ⟨?_, ?_, ?_⟩
    · rw [hbytes, htake, List.prefix_append_right_inj]
      exact h.bytes
    · rcases h.whole with hw | hw
      · exact .inl (by rw [hbytes, List.append_assoc, hdata]; exact hw)
      · exact .inr (by rw [hbytes, htake, hw])
    · intro before output after houtputs herr
      cases before with
      | nil =>
        rw [List.nil_append, List.cons.injEq] at houtputs
        rw [← houtputs.1] at herr
        exact absurd rfl herr
      | cons first before =>
        rw [List.cons_append, List.cons.injEq] at houtputs
        obtain ⟨hbefore, hlater⟩ := h.errors before output after houtputs.2 herr
        rw [← houtputs.1, hbytes, htake, hbefore]
        exact ⟨rfl, hlater⟩

/-- One read that meets no limit, and the others. -/
theorem delivers_cons (hprobe : size = 0 → 0 < maximum → upstream.granted 1 answer = 0)
    (hlimit : maximum = 0 → upstream.granted 1 answer = 0) :
    Delivers maximum upstream ((size, answer) :: rest) ↔
      Delivers (maximum - upstream.granted (min size maximum) answer)
        (upstream.read (min size maximum) answer).2 rest := by
  have hcount : upstream.granted (min size maximum) answer ≤ maximum :=
    Nat.le_trans (granted_le_size upstream _ answer) (Nat.min_le_right _ _)
  have hgranted := granted_le upstream (min size maximum) answer
  have hleft : (upstream.read (min size maximum) answer).2.left.length =
      upstream.left.length - upstream.granted (min size maximum) answer := List.length_drop
  unfold Delivers
  rw [reads_cons hprobe hlimit, hleft]
  refine and_congr ?_ ?_
  · -- the buffer is cut short only where the body below has no more to give
    have hfit : upstream.left.length ≤ maximum ↔
        upstream.left.length - upstream.granted (min size maximum) answer ≤
          maximum - upstream.granted (min size maximum) answer := by omega
    rw [← hfit]
    refine imp_congr_right fun hshort => ?_
    have hsame : upstream.read (min size maximum) answer = upstream.read size answer := by
      refine read_congr ?_
      unfold Upstream.granted
      omega
    simp only [Upstream.reads, hsame, List.cons.injEq, true_and]
  · have hlong : maximum < upstream.left.length ↔
        maximum - upstream.granted (min size maximum) answer <
          upstream.left.length - upstream.granted (min size maximum) answer := by omega
    rw [← hlong]
    refine imp_congr_right fun hover => ?_
    have hne : upstream.granted (min size maximum) answer ≠ upstream.left.length := by omega
    have hread : (upstream.read (min size maximum) answer).1 =
        ⟨upstream.left.take (upstream.granted (min size maximum) answer), none⟩ := by
      simp [Upstream.read, hne]
    simp only [hread]
    exact cut_cons hcount

/-- A probe behind the maximum ends a body that is too long. -/
theorem delivers_limit (hbyte : 0 < upstream.granted 1 answer) :
    Delivers 0 upstream ((size, answer) :: rest) := by
  have hlength := granted_le upstream 1 answer
  unfold Delivers
  rw [reads_probe (by omega) hbyte]
  constructor
  · intro hshort
    omega
  · intro _
    refine ⟨?_, ?_, ?_⟩
    · rw [bytesOf_replicate]
      exact List.nil_prefix
    · rw [bytesOf_replicate]
      exact .inr (List.take_zero).symm
    · intro before output after houtputs _
      have hall : ∀ o ∈ before ++ output :: after, o = .limit := by
        rw [← houtputs]
        exact fun o ho => List.eq_of_mem_replicate ho
      refine ⟨?_, fun later hlater => hall later (List.mem_append_right before hlater)⟩
      have hbefore : before = List.replicate before.length .limit :=
        List.eq_replicate_iff.mpr ⟨rfl, fun o ho => hall o (List.mem_append_left _ ho)⟩
      rw [hbefore, bytesOf_replicate, List.take_zero]

/-- A probe before the maximum drops a byte. -/
theorem not_delivers_probe (hmax : 0 < maximum) (hbyte : 0 < upstream.granted 1 answer) :
    ¬ Delivers maximum upstream ((0, answer) :: rest) := by
  have hlength := granted_le upstream 1 answer
  have hzero : min 0 maximum = 0 := Nat.zero_min maximum
  unfold Delivers
  rw [reads_probe hzero hbyte]
  rintro ⟨hwithin, hbeyond⟩
  by_cases hshort : upstream.left.length ≤ maximum
  · have hsame := hwithin hshort
    rw [List.replicate_succ, Upstream.reads, List.cons.injEq] at hsame
    have herr := congrArg Output.err hsame.1
    simp only [Output.limit, Upstream.read] at herr
    split_ifs at herr
    cases herr
  · obtain ⟨hbefore, -⟩ := (hbeyond (by omega)).errors [] .limit (List.replicate rest.length .limit)
      rfl (by simp [Output.limit])
    have hlen := congrArg List.length hbefore
    rw [List.length_take_of_le (by omega)] at hlen
    exact absurd hlen (Nat.ne_of_lt hmax)

/-- **A bounded body delivers** what the body below has, up to its maximum, exactly when no read into
an empty buffer meets a byte before the maximum is reached. -/
theorem delivers_iff (maximum : ℕ) (upstream : Upstream ε) (reads : List (ℕ × Answer)) :
    Delivers maximum upstream reads ↔ Unprobed maximum upstream reads := by
  induction reads generalizing maximum upstream with
  | nil =>
    refine iff_of_true ⟨fun _ => rfl, fun _ => ⟨List.nil_prefix, .inl rfl, ?_⟩⟩ trivial
    intro before output after houtputs
    exact absurd houtputs.symm (List.append_ne_nil_of_right_ne_nil _ (List.cons_ne_nil _ _))
  | cons read rest ih =>
    obtain ⟨size, answer⟩ := read
    rw [Unprobed]
    by_cases hprobe : size = 0 → 0 < maximum → upstream.granted 1 answer = 0
    · rw [and_iff_right hprobe]
      by_cases hlimit : maximum = 0 → upstream.granted 1 answer = 0
      · have hnone : ¬ (maximum = 0 ∧ 0 < upstream.granted 1 answer) := by
          rintro ⟨hmax, hbyte⟩
          exact absurd (hlimit hmax) (Nat.ne_of_gt hbyte)
        rw [or_iff_right hnone, delivers_cons hprobe hlimit, ih]
      · rw [Classical.not_imp] at hlimit
        obtain ⟨rfl, hbyte⟩ := hlimit
        have hpos := Nat.pos_of_ne_zero hbyte
        exact iff_of_true (delivers_limit hpos) (.inl ⟨rfl, hpos⟩)
    · rw [Classical.not_imp, Classical.not_imp] at hprobe
      obtain ⟨rfl, hmax, hbyte⟩ := hprobe
      refine iff_of_false (not_delivers_probe hmax (Nat.pos_of_ne_zero hbyte)) ?_
      rintro ⟨hnone, -⟩
      exact hbyte (hnone rfl hmax)

/-- A body of one byte under a maximum of ten. -/
def single : Upstream Unit := ⟨[65], ()⟩

/-- **A byte is dropped**: a read into an empty buffer takes it and reports the limit. -/
theorem empty_read_drops : ¬ Delivers 10 single [(0, ⟨1, false⟩), (1, ⟨1, true⟩)] ∧
    ((bounded 10 single).reads [(0, ⟨1, false⟩), (1, ⟨1, true⟩)]).1 = [.limit, .limit] := by
  refine ⟨?_, by decide⟩
  rintro ⟨hwithin, -⟩
  exact absurd (hwithin (by decide)) (by decide)

end Modary.Identity.BoundedBody
