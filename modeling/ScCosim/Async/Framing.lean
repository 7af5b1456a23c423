import ScCosim.Async.Layouts

/-!
# The length of a message

`get_async_data_len` copies the two bytes of the length slot into an `int` that nothing has
set. The upper half of the result is what was in memory before.
-/
namespace ScCosim.Async.Wire

open Kernel

/-- `sizeof(int)` -/
def intSize : Nat := 4

/-- `get_async_data_len(buffer)`, with its variable `data_len` at the address `local_`. -/
def getAsyncDataLen (m : Memory) (buffer local_ : Nat) : Int :=
  let m := m.copy local_ (buffer + Field.dataLen.index) Field.dataLen.size
  (BitVec.ofNat 32 (Memory.value (m.load local_ intSize))).toInt

section length

variable {L L' : Layout} {m m₀ m₁ : Memory} {p b₀ q buffer local_ len n : Nat}

/-- The bytes of the slot, and above them the two of the variable that are not copied. -/
theorem getAsyncDataLen_eq (m : Memory) (buffer local_ : Nat) :
    getAsyncDataLen m buffer local_ = (BitVec.ofNat 32 (Memory.value (m.load (buffer + 30) 2) +
      65536 * Memory.value (m.load (local_ + 2) 2))).toInt := by
  unfold getAsyncDataLen intSize
  simp only [Field.index, Field.size]
  rw [show 4 = 2 + 2 from rfl, Memory.load_append, Memory.value_append, Memory.load_length,
    Memory.load_copy_inside (le_refl _) (le_refl _), Nat.sub_self, Nat.add_zero,
    Memory.load_copy_of_apart (by omega)]
  rfl

/-- The length is right exactly if the upper half of the variable was zero. -/
theorem getAsyncDataLen_eq_iff
    (slot : Memory.value (m.load (buffer + 30) 2) = len) :
    getAsyncDataLen m buffer local_ = len ↔ m.load (local_ + 2) 2 = [0, 0] := by
  have low := Memory.value_lt (m.load (buffer + 30) 2)
  have high := Memory.value_lt (m.load (local_ + 2) 2)
  rw [Memory.load_length] at low high
  have zero : m.load (local_ + 2) 2 = [0, 0] ↔ Memory.value (m.load (local_ + 2) 2) = 0 :=
    ⟨fun same => by rw [same]; rfl, fun same =>
      Memory.value_inj (by rw [Memory.load_length]; rfl) same⟩
  rw [getAsyncDataLen_eq, zero, BitVec.toInt_eq_toNat_cond, BitVec.toNat_ofNat]
  split <;> omega

/-- The buffer and the packet at `q` are apart, and the payload goes to an area of its own that
has an address. On a 64-bit machine that is the area that `data_ptr` names before the call. -/
structure Unpackable (L : Layout) (m : Memory) (q buffer len : Nat) : Prop where
  bufferQ : Apart buffer (max (Field.dataPtr.index + len) slotsEnd) q L.size
  qArea : len ≠ 0 → Apart q L.size (L.dataPtr (unpackFields m q buffer) q) len
  named : len ≠ 0 → L.dataPtr (unpackFields m q buffer) q ≠ 0

theorem unpackable_lp64
    (bufferQ : Apart buffer (max (Field.dataPtr.index + len) slotsEnd) q structSize)
    (qArea : Apart q structSize (dataPtr m q) len) (named : len ≠ 0 → dataPtr m q ≠ 0) :
    Unpackable .lp64 m q buffer len := by
  have kept : Layout.lp64.dataPtr (unpackFields m q buffer) q = dataPtr m q := unpackFields_dataPtr
  exact ⟨bufferQ, fun _ => by rw [kept]; exact qArea, by rw [kept]; exact named⟩

/-- The three functions agree on the length of a message: the one that only looks at the slot,
the one that packed it and the one that unpacks it. -/
structure LengthsAgree (L : Layout) (m : Memory) (q buffer local_ len n : Nat) : Prop where
  length : getAsyncDataLen m buffer local_ = len
  packed : Field.dataPtr.index + getAsyncDataLen m buffer local_ = n
  unpacked : ∃ m', L.unpack m q buffer = some (m', n)

/-- A packed message has the length of its payload in its slot. -/
theorem Packable.slot (packable : Packable L m₀ p b₀) (packed : L.pack m₀ p b₀ = some (m₁, n))
    (received : m.load buffer n = m₁.load b₀ n) :
    n = Field.dataPtr.index + dataLen m₀ p ∧
      Memory.value (m.load (buffer + 30) 2) = dataLen m₀ p := by
  rw [packable.pack_eq] at packed
  obtain ⟨rfl, rfl⟩ := Prod.ext_iff.mp (Option.some.inj packed)
  refine ⟨rfl, ?_⟩
  have bytes : m.load (buffer + 30) 2 = m₀.load (p + 34) 2 := by
    rw [Memory.load_part received (by simp only [announced, Field.index]; omega)]
    exact packable.parts.slot .dataLen (by decide)
  rw [bytes]
  rfl

/-- For the bytes of any packed packet, wherever they are received, the three lengths agree
exactly if the upper half of the variable was zero. -/
theorem lengths_agree_iff (packable : Packable L m₀ p b₀) (packed : L.pack m₀ p b₀ = some (m₁, n))
    (received : m.load buffer n = m₁.load b₀ n) (h : Unpackable L' m q buffer (dataLen m₀ p)) :
    LengthsAgree L' m q buffer local_ (dataLen m₀ p) n ↔ m.load (local_ + 2) 2 = [0, 0] := by
  obtain ⟨total, slot⟩ := packable.slot packed received
  rw [← getAsyncDataLen_eq_iff slot]
  constructor
  · exact fun agree => agree.length
  · intro length
    have fieldsApart : Apart buffer slotsEnd q fieldsEnd :=
      h.bufferQ.mono (Nat.le_max_right _ _) (fieldsEnd_le_size L')
    have run := unpack_eq slot fieldsApart h.qArea h.named
    rw [← total] at run
    refine ⟨length, ?_, _, run⟩
    rw [length, total]
    exact (Int.natCast_add _ _).symm

end length

/-- The sample packet packed, with the bytes of a variable at 20000 cleared. -/
def cleared : Memory := fun a =>
  if 20000 ≤ a ∧ a < 20004 then 0
  else (packFields samples 1000 10000).copy (10000 + 40) 3000 2 a

theorem packable_samples : Packable .lp64 samples 1000 10000 := ⟨by decide, by decide, by decide⟩

theorem lengths_agree_iff_of_cleared :
    LengthsAgree .lp64 cleared 2000 10000 20000 2 42 ↔ cleared.load 20002 2 = [0, 0] :=
  lengths_agree_iff packable_samples packable_samples.pack_eq (by decide)
    ⟨by decide, by decide, by decide⟩

/-- With ones in the variable the length of two bytes comes out as 16842754. -/
theorem length_keeps_garbage :
    ¬ ∀ (L L' : Layout) (m₀ m₁ m : Memory) (p b₀ q buffer local_ n : Nat), Packable L m₀ p b₀ →
      L.pack m₀ p b₀ = some (m₁, n) → m.load buffer n = m₁.load b₀ n →
      Unpackable L' m q buffer (dataLen m₀ p) →
      LengthsAgree L' m q buffer local_ (dataLen m₀ p) n := by
  intro all
  have agree := all .lp64 .lp64 samples _ _ 1000 10000 2000 10000 20000 _ packable_samples
    packable_samples.pack_eq rfl ⟨by decide, by decide, by decide⟩
  have wrong : getAsyncDataLen ((packFields samples 1000 10000).copy (10000 + 40) 3000 2) 10000 20000 =
      16842754 := by decide
  exact absurd (agree.length.symm.trans wrong) (by decide)

end ScCosim.Async.Wire
