import Mathlib.Data.List.Basic
import Mathlib.Data.List.Nodup

/-! # File trees

What a directory holds, as the list of its entries at every depth in the order of their creation.
Entries are made at a free path inside a directory and removed when nothing is in them; so what was
made last can always be removed, and undoing a run of creations restores what was there before. -/

namespace Modary.Lib.FileTree

/-- A path below the directory; the directory itself is the empty path. -/
abbrev Path := List String

inductive Kind
  | directory
  | file (data : List UInt8)
  | symlink
  | other
  deriving DecidableEq, Repr

structure Entry where
  path : Path
  id : ℕ
  kind : Kind
  deriving DecidableEq, Repr

/-! ### Operations -/

def lookup (entries : List Entry) (path : Path) : Option Entry :=
  entries.find? fun e => e.path == path

/-- The path is that of a directory. -/
def houses (entries : List Entry) (path : Path) : Bool :=
  path == [] || entries.any fun e => e.path == path && e.kind == .directory

/-- A new entry at a free path inside a directory. -/
def create (entries : List Entry) (e : Entry) : Option (List Entry) :=
  if e.path == [] || (lookup entries e.path).isSome || !houses entries e.path.dropLast then none
  else some (entries ++ [e])

/-- The entry at the path holds the data. -/
def store (entries : List Entry) (path : Path) (data : List UInt8) : List Entry :=
  entries.map fun e => if e.path = path then { e with kind := .file data } else e

/-- Removes an entry in which there is none. -/
def remove (entries : List Entry) (path : Path) : Option (List Entry) :=
  if (lookup entries path).isNone || entries.any (fun e => e.path.dropLast == path) then none
  else some (entries.filter fun e => e.path != path)

/-! ### Well-formed trees -/

/-- Paths tell the entries apart, and every entry is in a directory. -/
structure Sound (entries : List Entry) : Prop where
  nodup : (entries.map Entry.path).Nodup
  named : ∀ e ∈ entries, e.path ≠ []
  housed : ∀ e ∈ entries, houses entries e.path.dropLast = true

variable {entries start made : List Entry} {e : Entry} {path : Path}

theorem lookup_eq_some (hnodup : (entries.map Entry.path).Nodup) :
    lookup entries path = some e ↔ e ∈ entries ∧ e.path = path := by
  constructor
  · intro h
    have hpath := List.find?_some (p := fun other : Entry => other.path == path) h
    exact ⟨List.mem_of_find?_eq_some h, beq_iff_eq.mp hpath⟩
  · rintro ⟨he, rfl⟩
    rw [lookup]
    cases hfind : entries.find? (fun other => other.path == e.path) with
    | none =>
      rw [List.find?_eq_none] at hfind
      exact absurd (beq_self_eq_true e.path) (hfind e he)
    | some other =>
      have hsame := List.find?_some (p := fun other : Entry => other.path == e.path) hfind
      have hpath : other.path = e.path := beq_iff_eq.mp hsame
      have hother := List.mem_of_find?_eq_some hfind
      rw [List.inj_on_of_nodup_map hnodup hother he hpath]

theorem lookup_eq_none : lookup entries path = none ↔ path ∉ entries.map Entry.path := by
  rw [lookup, List.find?_eq_none, List.mem_map]
  constructor
  · rintro h ⟨e, he, rfl⟩
    exact h e he (beq_self_eq_true e.path)
  · intro h e he hpath
    exact h ⟨e, he, beq_iff_eq.mp hpath⟩

theorem houses_iff : houses entries path = true ↔
    path = [] ∨ ∃ e ∈ entries, e.path = path ∧ e.kind = .directory := by
  simp [houses]

theorem houses_append (h : houses entries path = true) (more : List Entry) :
    houses (entries ++ more) path = true := by
  rw [houses_iff] at h ⊢
  rcases h with h | ⟨e, he, h⟩
  · exact .inl h
  · exact .inr ⟨e, List.mem_append_left more he, h⟩

theorem create_eq_some {after : List Entry} : create entries e = some after ↔
    e.path ≠ [] ∧ e.path ∉ entries.map Entry.path ∧ houses entries e.path.dropLast = true ∧
      after = entries ++ [e] := by
  rw [create]
  by_cases hpath : e.path = []
  · simp [hpath]
  · cases hlookup : lookup entries e.path with
    | none =>
      have hfree := lookup_eq_none.mp hlookup
      by_cases hhoused : houses entries e.path.dropLast = true
      · rw [hhoused]
        simp only [beq_eq_false_iff_ne.mpr hpath, Option.isSome_none, Bool.not_true, Bool.or_self,
          Bool.false_eq_true, if_false, Option.some.injEq]
        constructor
        · rintro rfl
          exact ⟨hpath, hfree, trivial, rfl⟩
        · rintro ⟨-, -, -, rfl⟩
          rfl
      · simp [hhoused]
    | some other =>
      have htaken : e.path ∈ entries.map Entry.path := by
        by_contra hfree
        rw [lookup_eq_none.mpr hfree] at hlookup
        exact nomatch hlookup
      simp [htaken]

theorem Sound.create {after : List Entry} (h : Sound entries)
    (hcreate : FileTree.create entries e = some after) : Sound after := by
  obtain ⟨hpath, hfree, hhoused, rfl⟩ := create_eq_some.mp hcreate
  refine ⟨?_, ?_, ?_⟩
  · rw [List.map_append, List.map_singleton, List.nodup_append]
    refine ⟨h.nodup, List.nodup_singleton _, ?_⟩
    intro p hp q hq
    rw [List.mem_singleton] at hq
    rintro rfl
    rw [hq] at hp
    exact hfree hp
  · intro other hother
    rcases List.mem_append.mp hother with hother | hother
    · exact h.named other hother
    · rw [List.mem_singleton.mp hother]
      exact hpath
  · intro other hother
    rcases List.mem_append.mp hother with hother | hother
    · exact houses_append (h.housed other hother) [e]
    · rw [List.mem_singleton.mp hother]
      exact houses_append hhoused [e]

/-- The path of what is made last is no other entry's. -/
theorem Sound.last_free (h : Sound (entries ++ [e])) : e.path ∉ entries.map Entry.path := by
  have hnodup := h.nodup
  rw [List.map_append, List.map_singleton, List.nodup_append] at hnodup
  intro hmem
  exact hnodup.2.2 e.path hmem e.path List.mem_cons_self rfl

/-- Data is stored in the entry made last. -/
theorem Sound.store_last (h : Sound (entries ++ [e])) (data : List UInt8) :
    store (entries ++ [e]) e.path data = entries ++ [{ e with kind := .file data }] := by
  have hkeep : entries.map (fun other =>
      if other.path = e.path then { other with kind := .file data } else other) = entries := by
    conv_rhs => rw [← List.map_id entries]
    refine List.map_congr_left fun other hother => ?_
    have hne : other.path ≠ e.path := by
      intro hpath
      exact h.last_free (hpath ▸ List.mem_map_of_mem hother)
    rw [if_neg hne, id]
  rw [store, List.map_append, hkeep, List.map_singleton, if_pos rfl]

/-- A file made last may change its data. -/
theorem Sound.change_last {kind : Kind} (h : Sound (entries ++ [e])) (hbefore : Sound entries)
    : Sound (entries ++ [{ e with kind := kind }]) := by
  have hfree := h.last_free
  have hlast : e ∈ entries ++ [e] := List.mem_append_right _ List.mem_cons_self
  have hpath := h.named e hlast
  have hhoused : houses entries e.path.dropLast = true := by
    have hhoused := houses_iff.mp (h.housed e hlast)
    rw [houses_iff]
    rcases hhoused with hroot | ⟨d, hd, hdpath, hdir⟩
    · exact .inl hroot
    · rcases List.mem_append.mp hd with hd | hd
      · exact .inr ⟨d, hd, hdpath, hdir⟩
      · rw [List.mem_singleton.mp hd] at hdpath
        have hlength := congrArg List.length hdpath
        rw [List.length_dropLast] at hlength
        have hpos := List.length_pos_iff.mpr hpath
        omega
  have hcreate : FileTree.create entries { e with kind := kind } =
      some (entries ++ [{ e with kind := kind }]) :=
    create_eq_some.mpr ⟨hpath, hfree, hhoused, rfl⟩
  exact hbefore.create hcreate

/-- What is made last can be removed, and that restores what was there. -/
theorem Sound.remove_last (h : Sound (entries ++ [e])) (hbefore : Sound entries) :
    remove (entries ++ [e]) e.path = some entries := by
  have hfree := h.last_free
  have hlast : e ∈ entries ++ [e] := List.mem_append_right _ List.mem_cons_self
  have hpath := h.named e hlast
  have hfound : lookup (entries ++ [e]) e.path = some e := (lookup_eq_some h.nodup).mpr ⟨hlast, rfl⟩
  have hempty : (entries ++ [e]).any (fun other => other.path.dropLast == e.path) = false := by
    rw [List.any_eq_false]
    intro other hother hchild
    have hparent : other.path.dropLast = e.path := beq_iff_eq.mp hchild
    rcases List.mem_append.mp hother with hother | hother
    · rcases houses_iff.mp (hbefore.housed other hother) with hroot | ⟨d, hd, hdpath, -⟩
      · exact hpath (hparent.symm.trans hroot)
      · refine hfree (List.mem_map.mpr ⟨d, hd, hdpath.trans hparent⟩)
    · rw [List.mem_singleton.mp hother] at hparent
      have hlength := congrArg List.length hparent
      rw [List.length_dropLast] at hlength
      have hpos := List.length_pos_iff.mpr hpath
      omega
  have hrest : entries.filter (fun other => other.path != e.path) = entries := by
    rw [List.filter_eq_self]
    intro other hother
    rw [bne_iff_ne]
    intro hsame
    exact hfree (hsame ▸ List.mem_map_of_mem hother)
  rw [remove, hfound, hempty, List.filter_append, hrest]
  simp

/-- Removing what was not there before keeps all that was. -/
theorem remove_keeps {after more : List Entry} (h : remove (start ++ more) path = some after)
    (hfree : path ∉ start.map Entry.path) : start <+: after := by
  rw [remove] at h
  split_ifs at h
  cases h
  have hrest : start.filter (fun e => e.path != path) = start := by
    rw [List.filter_eq_self]
    intro e he
    rw [bne_iff_ne]
    rintro rfl
    exact hfree (List.mem_map_of_mem he)
  rw [List.filter_append, hrest]
  exact List.prefix_append _ _

/-! ### Creations one after another -/

/-- The entries were made one after another. -/
def Stack (start made : List Entry) : Prop := ∀ n, Sound (start ++ made.take n)

theorem Stack.nil (h : Sound start) : Stack start [] := by
  intro n
  rw [List.take_nil, List.append_nil]
  exact h

theorem Stack.sound (h : Stack start made) : Sound (start ++ made) := by
  have hall := h made.length
  rwa [List.take_length] at hall

theorem Stack.snoc (h : Stack start made) (hsound : Sound (start ++ made ++ [e])) :
    Stack start (made ++ [e]) := by
  intro n
  by_cases hn : n ≤ made.length
  · rw [List.take_append_of_le_length hn]
    exact h n
  · rw [List.take_of_length_le (by rw [List.length_append, List.length_singleton]; omega),
      ← List.append_assoc]
    exact hsound

theorem Stack.init (h : Stack start (made ++ [e])) : Stack start made := by
  intro n
  by_cases hn : n ≤ made.length
  · have hsound := h n
    rwa [List.take_append_of_le_length hn] at hsound
  · have hsound := h made.length
    rw [List.take_append_of_le_length (Nat.le_refl _), List.take_length] at hsound
    rwa [List.take_of_length_le (by omega)]

/-- What is made is new. -/
theorem Stack.fresh (h : Stack start made) (he : e ∈ made) : e.path ∉ start.map Entry.path := by
  have hnodup := h.sound.nodup
  rw [List.map_append, List.nodup_append] at hnodup
  intro hstart
  exact hnodup.2.2 e.path hstart e.path (List.mem_map_of_mem he) rfl

end Modary.Lib.FileTree
