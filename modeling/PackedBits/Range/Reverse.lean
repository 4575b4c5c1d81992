import PackedBits.Chunk

/-! Reversing a run of bits from both ends at once. The lower half is cut into chunks of up to a
word; each changes places with the chunk of the same width at the same distance from the other
end, the bits of both in the opposite order. -/
namespace PackedBits
variable {μ : Type} {w : Nat} [Memory μ w]

@[specialize] def reverse (m : μ) (p : Cursor w) (n : Nat) : Option μ :=
  p.flush.sweep (n / 2) (fun m chunk => do
    let low := p + chunk.offset
    let high := p + (n - chunk.offset - chunk.width)
    let a ← readBits m low chunk.width
    let b ← readBits m high chunk.width
    let m ← writeBits m low chunk.width (reverseLow b chunk.width)
    writeBits m high chunk.width (reverseLow a chunk.width)) m

end PackedBits
