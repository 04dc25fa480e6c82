import GoMachine.Tag
/-!
# Record headers

The first word of a record packs four numbers of 16 bits: the tag, how many fields and how many
children follow, and how often the record is pinned.

* `Header.ofWord_toWord`: a packed header reads back.
-/
namespace GoMachine

/-- The four parts of a record's first word. -/
structure Header where
  rawTag : UInt16
  fields : UInt16
  children : UInt16
  pins : UInt16 := 0
  deriving DecidableEq

namespace Header

/-- The largest number that fits a part of a header. -/
def limit : Nat := 65535

/-- The header packed into a word, the tag lowest. -/
def toWord (h : Header) : UInt64 :=
  h.rawTag.toUInt64 ||| h.fields.toUInt64 <<< 16 ||| h.children.toUInt64 <<< 32
    ||| h.pins.toUInt64 <<< 48

/-- The header that a word packs. -/
def ofWord (w : UInt64) : Header :=
  ⟨w.toUInt16, (w >>> 16).toUInt16, (w >>> 32).toUInt16, (w >>> 48).toUInt16⟩

theorem ofWord_toWord (h : Header) : ofWord h.toWord = h := by
  have eq_of_bits {x y : UInt16}
      (same : ∀ i < 16, x.toBitVec.getLsbD i = y.toBitVec.getLsbD i) : x = y :=
    UInt16.toBitVec_inj.1 (BitVec.eq_of_getLsbD_eq same)
  obtain ⟨rawTag, fields, children, pins⟩ := h
  simp only [ofWord, mk.injEq]
  refine ⟨eq_of_bits ?_, eq_of_bits ?_, eq_of_bits ?_, eq_of_bits ?_⟩ <;> intro i _ <;>
    simp [toWord, BitVec.getLsbD_shiftLeft, BitVec.getLsbD_ushiftRight] <;> grind

end Header
end GoMachine
