import Mathlib.Data.List.Sort
import Mathlib.Data.Prod.Lex
import Mathlib.Data.String.Basic

/-! # Database text orders

PostgreSQL orders text by the collation of a column or of the database. Where a schema fixes none,
`ORDER BY` follows an order the program does not know; Go compares bytes. -/

namespace Modary.Lib.TextOrder

/-- A total order the database may use on text. -/
structure Collation where
  le : String → String → Prop
  dec : DecidableRel le
  total : ∀ a b, le a b ∨ le b a
  trans : ∀ a b c, le a b → le b c → le a c
  antisymm : ∀ a b, le a b → le b a → a = b

instance (c : Collation) : DecidableRel c.le := c.dec

/-- The order of Go on strings. -/
def byteOrder : Collation where
  le p q := p ≤ q
  dec _ _ := inferInstance
  total := le_total
  trans _ _ _ := le_trans
  antisymm _ _ := le_antisymm

/-- A text without its punctuation. -/
def withoutPunctuation (s : String) : String := String.ofList (s.toList.filter Char.isAlphanum)

/-- An order that looks at punctuation last, as the usual natural-language collations do. -/
def punctuationLast : Collation where
  le p q := toLex (withoutPunctuation p, p) ≤ toLex (withoutPunctuation q, q)
  dec _ _ := inferInstance
  total _ _ := le_total _ _
  trans _ _ _ := le_trans
  antisymm p q h1 h2 := by
    have := le_antisymm h1 h2
    simp only [toLex_inj, Prod.mk.injEq] at this
    exact this.2

end Modary.Lib.TextOrder
