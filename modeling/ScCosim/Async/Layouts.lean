import ScCosim.Async.Wire

/-!
# The two layouts of a packet

On a 32-bit machine the pointer `data_ptr` has 4 bytes and lies right behind `data_len`; on
a 64-bit machine there are 4 bytes of padding between them. The 8-byte copies of `strm_wid`
take these bytes along: `pack` puts them behind a short payload, and `unpack` on a 32-bit
machine overwrites the pointer.
-/
namespace ScCosim.Async.Wire

open Kernel

/-- How a build lays the structure out; the fields before `data_ptr` lie alike. -/
inductive Layout where
  | lp64
  | ilp32
  deriving DecidableEq, Repr

namespace Layout

/-- Where `data_ptr` lies in the structure. -/
def pointer : Layout → Nat
  | .lp64 => 40
  | .ilp32 => 36

/-- The size of a pointer. -/
def width : Layout → Nat
  | .lp64 => 8
  | .ilp32 => 4

/-- `sizeof(async_packet)` -/
def size (L : Layout) : Nat := L.pointer + L.width

def dataPtr (L : Layout) (m : Memory) (p : Nat) : Nat :=
  Memory.value (m.load (p + L.pointer) L.width)

def asserted (L : Layout) (m : Memory) (p : Nat) : Bool := dataLen m p = 0 || L.dataPtr m p ≠ 0

def packData (L : Layout) (m : Memory) (p buffer : Nat) : Memory :=
  if dataLen m p ≠ 0 then m.copy (buffer + Field.dataPtr.index) (L.dataPtr m p) (dataLen m p) else m

def pack (L : Layout) (m : Memory) (p buffer : Nat) : Option (Memory × Nat) :=
  let m := packFields m p buffer
  if L.asserted m p then
    let m := L.packData m p buffer
    some (m, Field.dataPtr.index + dataLen m p)
  else none

def unpackData (L : Layout) (m : Memory) (q buffer : Nat) : Memory :=
  if dataLen m q ≠ 0 then m.copy (L.dataPtr m q) (buffer + Field.dataPtr.index) (dataLen m q) else m

def unpack (L : Layout) (m : Memory) (q buffer : Nat) : Option (Memory × Nat) :=
  let m := unpackFields m q buffer
  if L.asserted m q then
    let m := L.unpackData m q buffer
    some (m, Field.dataPtr.index + dataLen m q)
  else none

end Layout

/-- The layout of the other modules. -/
theorem lp64_eq : Layout.lp64.pack = pack ∧ Layout.lp64.unpack = unpack := ⟨rfl, rfl⟩

/-! ## The bytes that `pack` writes -/

section pack

variable {L : Layout} {m : Memory} {p buffer : Nat}

theorem fieldsEnd_le_size (L : Layout) : fieldsEnd ≤ L.size := by
  cases L <;> decide

/-- The result of `pack`. -/
def announced (m : Memory) (p : Nat) : Nat := Field.dataPtr.index + dataLen m p

/-- Behind the last byte that `pack` touches in the buffer. -/
def span (m : Memory) (p : Nat) : Nat := max (announced m p) slotsEnd

/-- The packet at `p` and its payload lie apart from the bytes of the buffer that `pack`
touches, and a payload has an address. -/
structure Packable (L : Layout) (m : Memory) (p buffer : Nat) : Prop where
  struct : Apart buffer (span m p) p L.size
  payload : Apart buffer (span m p) (L.dataPtr m p) (dataLen m p)
  named : dataLen m p ≠ 0 → L.dataPtr m p ≠ 0

theorem packFields_outside {a : Nat} (h : a < buffer ∨ buffer + slotsEnd ≤ a) :
    packFields m p buffer a = m a := by
  have apart : Apart buffer slotsEnd a 1 := by
    unfold Apart
    omega
  have single : (packFields m p buffer).load a 1 = m.load a 1 := packFields_frame apart
  simpa [Memory.load] using single

/-- The 8 bytes copied for `strm_wid` stay in the buffer. -/
theorem packFields_spill (apart : Apart buffer slotsEnd p fieldsEnd) :
    (packFields m p buffer).load (buffer + 38) 8 = m.load (p + 32) 8 := by
  unfold Apart slotsEnd fieldsEnd at apart
  simp only [packFields, fields, List.foldl, Field.index, Field.offset, Field.size] at apart ⊢
  simp (disch := omega) only [Memory.load_copy_of_apart, Memory.load_copy_inside]
  simp

/-- The 6 bytes before the slot of `strm_wid` are not written. -/
theorem packFields_gap : (packFields m p buffer).load (buffer + 32) 6 = m.load (buffer + 32) 6 := by
  simp only [packFields, fields, List.foldl, Field.index, Field.offset, Field.size]
  simp (disch := omega) only [Memory.load_copy_of_apart]

/-- A range of the structure is apart from the bytes of the buffer that `pack` touches. -/
theorem Packable.apart (h : Packable L m p buffer) {offset n : Nat} (inside : offset + n ≤ L.size) :
    Apart buffer (span m p) (p + offset) n := by
  have struct := h.struct
  unfold Apart at struct ⊢
  omega

theorem slotsEnd_le_span (m : Memory) (p : Nat) : slotsEnd ≤ span m p := Nat.le_max_right _ _

theorem announced_le_span (m : Memory) (p : Nat) : announced m p ≤ span m p := Nat.le_max_left _ _

/-- What the copies leave in the buffer, and that the pointer and the length are not theirs. -/
theorem Packable.pack_eq (h : Packable L m p buffer) :
    L.pack m p buffer = some ((packFields m p buffer).copy (buffer + Field.dataPtr.index)
      (L.dataPtr m p) (dataLen m p), announced m p) := by
  have lenInside : Field.dataLen.offset + Field.dataLen.bytes ≤ L.size := by cases L <;> decide
  have lenApart := h.apart lenInside
  have ptrApart := h.apart (le_refl L.size)
  have touched := announced_le_span m p
  have len : dataLen (packFields m p buffer) p = dataLen m p :=
    read_congr (packFields_frame (lenApart.mono (slotsEnd_le_span m p) (le_refl _)))
  have ptr : L.dataPtr (packFields m p buffer) p = L.dataPtr m p := by
    rw [Layout.dataPtr, packFields_frame (ptrApart.mono (slotsEnd_le_span m p) (le_refl _)),
      Layout.dataPtr]
  have holds : L.asserted (packFields m p buffer) p = true := by
    rw [Layout.asserted, len, ptr]
    by_cases empty : dataLen m p = 0
    · simp [empty]
    · simp [h.named empty]
  have data : L.packData (packFields m p buffer) p buffer = (packFields m p buffer).copy
      (buffer + Field.dataPtr.index) (L.dataPtr m p) (dataLen m p) := by
    rw [Layout.packData, len, ptr]
    split
    · rfl
    next empty => rw [not_not.mp empty, Memory.copy_zero]
  have result : dataLen ((packFields m p buffer).copy (buffer + Field.dataPtr.index)
      (L.dataPtr m p) (dataLen m p)) p = dataLen m p := by
    rw [← len]
    apply read_congr
    apply Memory.load_copy_of_apart
    unfold Apart at lenApart
    unfold announced at touched
    omega
  simp only [Layout.pack, holds, if_true, data, result, announced]

/-- The bytes that `pack` announces: the slots of the fields, with 6 bytes between those of
`data_len` and `strm_wid` that keep what they had, and the payload. -/
def message (L : Layout) (m : Memory) (p : Nat) (previous : List (BitVec 8)) : List (BitVec 8) :=
  let slot (f : Field) := m.load (p + f.offset) f.bytes
  slot .id ++ (slot .command ++ (slot .status ++ (slot .address ++ (slot .delayNs ++
    (slot .timeNs ++ (slot .dataLen ++ (previous ++ (slot .strmWid ++
      m.load (L.dataPtr m p) (dataLen m p)))))))))

/-- The parts of the buffer after `pack`. -/
structure Parts (L : Layout) (m : Memory) (p buffer : Nat) (m' : Memory) : Prop where
  slot : ∀ f ∈ fields, m'.load (buffer + f.index) f.bytes = m.load (p + f.offset) f.bytes
  gap : m'.load (buffer + 32) 6 = m.load (buffer + 32) 6
  payload : m'.load (buffer + 40) (dataLen m p) = m.load (L.dataPtr m p) (dataLen m p)

theorem Packable.parts (h : Packable L m p buffer) :
    Parts L m p buffer ((packFields m p buffer).copy (buffer + Field.dataPtr.index)
      (L.dataPtr m p) (dataLen m p)) where
  slot f member := by
    have apart : Apart buffer slotsEnd p fieldsEnd :=
      h.struct.mono (slotsEnd_le_span m p) (fieldsEnd_le_size L)
    have below := index_bytes_le member
    rw [Memory.load_copy_of_apart (by omega), packFields_field apart member]
  gap := by rw [Memory.load_copy_of_apart (by simp only [Field.index]; omega), packFields_gap]
  payload := by
    change Memory.load _ (buffer + Field.dataPtr.index) _ = _
    rw [Memory.load_copy_inside (le_refl _) (le_refl _), Nat.sub_self, Nat.add_zero,
      packFields_frame (h.payload.mono (slotsEnd_le_span m p) (le_refl _))]

theorem Parts.message_eq {m' : Memory} (h : Parts L m p buffer m') :
    m'.load buffer (announced m p) = message L m p (m.load (buffer + 32) 6) := by
  have split : announced m p = 4 + (1 + (1 + (8 + (8 + (8 + (2 + (6 + (2 + dataLen m p)))))))) := by
    simp only [announced, Field.index]
    omega
  rw [split]
  simp only [Memory.load_append, Nat.add_assoc, Nat.reduceAdd]
  simp only [message, ← h.slot .id (by decide), ← h.slot .command (by decide),
    ← h.slot .status (by decide), ← h.slot .address (by decide), ← h.slot .delayNs (by decide),
    ← h.slot .timeNs (by decide), ← h.slot .dataLen (by decide), ← h.slot .strmWid (by decide),
    ← h.gap, ← h.payload]
  rfl

/-- The memory is `m` but for the bytes of the buffer that `pack` touches. -/
def Refilled (m m' : Memory) (p buffer : Nat) : Prop :=
  ∀ a, a < buffer ∨ buffer + span m p ≤ a → m' a = m a

theorem Refilled.load {m' : Memory} (h : Refilled m m' p buffer) {a n : Nat}
    (apart : Apart buffer (span m p) a n) : m'.load a n = m.load a n := by
  apply Memory.load_congr
  intro i inside
  apply h
  unfold Apart at apart
  omega

/-- The same packet is there, whatever the buffer held. -/
theorem Packable.refilled {m' : Memory} (h : Packable L m p buffer)
    (refilled : Refilled m m' p buffer) :
    Packable L m' p buffer ∧ announced m' p = announced m p ∧
      ∀ previous, message L m' p previous = message L m p previous := by
  have slot (f : Field) (inside : f.offset + f.bytes ≤ L.size) :
      m'.load (p + f.offset) f.bytes = m.load (p + f.offset) f.bytes :=
    refilled.load (h.apart inside)
  have inside (f : Field) (member : f ∈ fields) : f.offset + f.bytes ≤ L.size := by
    revert member
    cases L <;> cases f <;> decide
  have len : dataLen m' p = dataLen m p := read_congr (slot .dataLen (inside .dataLen (by decide)))
  have ptr : L.dataPtr m' p = L.dataPtr m p := by
    rw [Layout.dataPtr, refilled.load (h.apart (le_refl L.size)), Layout.dataPtr]
  have touched : announced m' p = announced m p := by rw [announced, len, announced]
  have spanned : span m' p = span m p := by rw [span, touched, span]
  have payload : m'.load (L.dataPtr m p) (dataLen m p) = m.load (L.dataPtr m p) (dataLen m p) :=
    refilled.load h.payload
  refine ⟨⟨?_, ?_, ?_⟩, touched, fun previous => ?_⟩
  · rw [spanned]
    exact h.struct
  · rw [spanned, len, ptr]
    exact h.payload
  · rw [len, ptr]
    exact h.named
  · simp only [message, len, ptr, payload, slot .id (inside .id (by decide)),
      slot .command (inside .command (by decide)), slot .status (inside .status (by decide)),
      slot .address (inside .address (by decide)), slot .delayNs (inside .delayNs (by decide)),
      slot .timeNs (inside .timeNs (by decide)), slot .dataLen (inside .dataLen (by decide)),
      slot .strmWid (inside .strmWid (by decide))]

/-- `pack` stays within the bytes that it announces, whatever the buffer holds before: the
bytes outside are not written, and those inside are the slots of the eight fields, the payload
and 6 bytes that are not written either. -/
def StaysWithin (L : Layout) (m : Memory) (p buffer : Nat) : Prop :=
  ∀ m', Refilled m m' p buffer → ∃ m'', L.pack m' p buffer = some (m'', announced m p) ∧
    (∀ a, a < buffer ∨ buffer + announced m p ≤ a → m'' a = m' a) ∧
    m''.load buffer (announced m p) = message L m p (m'.load (buffer + 32) 6)

/-- A shorter payload does not cover the last of the 8 bytes copied for `strm_wid`. -/
theorem StaysWithin.long (h : Packable L m p buffer) (stays : StaysWithin L m p buffer) :
    6 ≤ dataLen m p := by
  by_contra short
  -- the last byte of the 8, where the buffer held another one
  let m' : Memory := fun a => if a = buffer + 45 then m (p + 39) + 1 else m a
  have refilled : Refilled m m' p buffer := by
    intro a outside
    have := slotsEnd_le_span m p
    unfold slotsEnd at this
    simp only [Field.index, Field.size] at this
    exact if_neg (by omega)
  obtain ⟨h', announced', -⟩ := h.refilled refilled
  obtain ⟨m'', run, outside, -⟩ := stays m' refilled
  rw [h'.pack_eq] at run
  obtain ⟨rfl, -⟩ := Prod.ext_iff.mp (Option.some.inj run)
  have kept := outside (buffer + 45) (.inr (by simp only [announced, Field.index]; omega))
  have apart : Apart buffer slotsEnd p fieldsEnd :=
    h'.struct.mono (slotsEnd_le_span m' p) (fieldsEnd_le_size L)
  have len : dataLen m' p = dataLen m p := by
    simpa only [announced, Nat.add_left_cancel_iff] using announced'
  have spill : packFields m' p buffer (buffer + 45) = m' (p + 39) := by
    have whole := congrArg (fun bs => bs[7]?) (packFields_spill (m := m') apart)
    simpa [Memory.load, Nat.add_assoc] using whole
  have source : m' (p + 39) = m (p + 39) := by
    refine if_neg ?_
    unfold Apart slotsEnd fieldsEnd at apart
    simp only [Field.index, Field.offset, Field.size] at apart
    omega
  have other : m' (buffer + 45) = m (p + 39) + 1 := if_pos rfl
  simp only at kept
  rw [Memory.copy_of_outside (by simp only [Field.index]; omega), spill, source, other] at kept
  exact absurd kept (by bv_omega)

/-- A payload of 6 bytes or more covers the bytes behind the slot of `strm_wid`. -/
theorem Packable.stays_within (h : Packable L m p buffer) (long : 6 ≤ dataLen m p) :
    StaysWithin L m p buffer := by
  intro m' refilled
  obtain ⟨h', announced', same⟩ := h.refilled refilled
  refine ⟨_, by rw [h'.pack_eq, announced'], fun a outside => ?_, ?_⟩
  · rw [← announced'] at outside
    unfold announced at outside announced'
    simp only [Field.index] at outside announced'
    rw [Memory.copy_of_outside (by simp only [Field.index]; omega), packFields_outside]
    unfold slotsEnd
    simp only [Field.index, Field.size]
    omega
  · rw [← announced', h'.parts.message_eq, same]

/-- `pack` stays within what it announces exactly for payloads of at least 6 bytes. -/
theorem stays_within_iff (h : Packable L m p buffer) :
    StaysWithin L m p buffer ↔ 6 ≤ dataLen m p :=
  ⟨fun stays => stays.long h, h.stays_within⟩

theorem stays_within_iff_of_samples :
    StaysWithin .lp64 samples 1000 10000 ↔ 6 ≤ dataLen samples 1000 :=
  stays_within_iff ⟨by decide, by decide, by decide⟩

/-- A packet with two payload bytes leaves four bytes of its padding behind them. -/
theorem pack_spills_padding :
    ¬ ∀ (L : Layout) (m : Memory) (p buffer : Nat), Packable L m p buffer →
      StaysWithin L m p buffer := by
  intro all
  have packable : Packable .lp64 samples 1000 10000 := ⟨by decide, by decide, by decide⟩
  exact absurd ((all _ _ _ _ packable).long packable) (by decide)

end pack

/-! ## `unpack` on a 32-bit machine -/

section unpack

variable {m : Memory} {q buffer len : Nat}

/-- The buffer, the packet at `q` and the area that its `data_ptr` names are apart, and the area
for a payload has an address. -/
structure Receivable (m : Memory) (q buffer len : Nat) : Prop where
  bufferQ : Apart buffer (max (Field.dataPtr.index + len) slotsEnd) q Layout.ilp32.size
  bufferArea : Apart buffer (max (Field.dataPtr.index + len) slotsEnd) (Layout.ilp32.dataPtr m q) len
  qArea : Apart q Layout.ilp32.size (Layout.ilp32.dataPtr m q) len
  named : len ≠ 0 → Layout.ilp32.dataPtr m q ≠ 0

/-- A byte of one of the eight fields. -/
def InFields (q a : Nat) : Prop := ∃ f ∈ fields, q + f.offset ≤ a ∧ a < q + f.offset + f.bytes

/-- `unpack` keeps the receiver's pointer: it copies the payload to the area that the pointer
named before the call, and changes nothing but the fields and that area. -/
structure KeepsPointer (m : Memory) (q buffer len : Nat) (payload : List (BitVec 8)) : Prop where
  target : len ≠ 0 → Layout.ilp32.dataPtr (unpackFields m q buffer) q = Layout.ilp32.dataPtr m q
  result : ∃ m', Layout.ilp32.unpack m q buffer = some (m', Field.dataPtr.index + len) ∧
    Layout.ilp32.dataPtr m' q = Layout.ilp32.dataPtr m q ∧
    m'.load (Layout.ilp32.dataPtr m q) len = payload ∧
    ∀ a, ¬ InFields q a →
      a < Layout.ilp32.dataPtr m q ∨ Layout.ilp32.dataPtr m q + len ≤ a → m' a = m a

/-- The copy of `strm_wid` ends behind the pointer. -/
theorem unpackFields_pointer (apart : Apart buffer slotsEnd q fieldsEnd) :
    (unpackFields m q buffer).load (q + 36) 4 = m.load (buffer + 42) 4 := by
  unfold Apart slotsEnd fieldsEnd at apart
  simp only [unpackFields, fields, List.foldl, Field.index, Field.offset, Field.size] at apart ⊢
  simp (disch := omega) only [Memory.load_copy_of_apart, Memory.load_copy_inside]
  congr 1
  omega

/-- Two pointers are the same exactly if their bytes are. -/
theorem ilp32_dataPtr_inj {m m' : Memory} {q : Nat} :
    Layout.ilp32.dataPtr m' q = Layout.ilp32.dataPtr m q ↔
      m'.load (q + 36) 4 = m.load (q + 36) 4 :=
  ⟨Memory.value_inj (by rw [Memory.load_length, Memory.load_length]), congrArg Memory.value⟩

/-- Outside the fields and the pointer nothing is written. -/
theorem unpackFields_outside {a : Nat} (field : ¬ InFields q a)
    (pointer : a < q + 36 ∨ q + 40 ≤ a) : unpackFields m q buffer a = m a := by
  have outside (f : Field) (member : f ∈ fields) : a < q + f.offset ∨ q + f.offset + f.bytes ≤ a := by
    by_contra inside
    exact field ⟨f, member, by omega, by omega⟩
  have id := outside .id (by decide)
  have command := outside .command (by decide)
  have status := outside .status (by decide)
  have address := outside .address (by decide)
  have delayNs := outside .delayNs (by decide)
  have timeNs := outside .timeNs (by decide)
  have strmWid := outside .strmWid (by decide)
  have dataLen := outside .dataLen (by decide)
  simp only [Field.offset, Field.bytes] at id command status address delayNs timeNs strmWid dataLen
  simp only [unpackFields, fields, List.foldl, Field.index, Field.offset, Field.size]
  simp (disch := omega) only [Memory.copy_of_outside]

/-- `unpack` on a buffer whose slot of `data_len` holds `len`, once the fields are copied. -/
theorem unpack_eq {L : Layout} (slot : Memory.value (m.load (buffer + 30) 2) = len)
    (apart : Apart buffer slotsEnd q fieldsEnd)
    (qArea : len ≠ 0 → Apart q L.size (L.dataPtr (unpackFields m q buffer) q) len)
    (named : len ≠ 0 → L.dataPtr (unpackFields m q buffer) q ≠ 0) :
    L.unpack m q buffer = some ((unpackFields m q buffer).copy
      (L.dataPtr (unpackFields m q buffer) q) (buffer + Field.dataPtr.index) len,
      Field.dataPtr.index + len) := by
  have length : dataLen (unpackFields m q buffer) q = len := by
    rw [dataLen, read, unpackFields_field apart (by decide)]
    exact slot
  have holds : L.asserted (unpackFields m q buffer) q = true := by
    rw [Layout.asserted, length]
    by_cases empty : len = 0
    · simp [empty]
    · simp [named empty]
  have data : L.unpackData (unpackFields m q buffer) q buffer =
      (unpackFields m q buffer).copy (L.dataPtr (unpackFields m q buffer) q)
        (buffer + Field.dataPtr.index) len := by
    rw [Layout.unpackData, length]
    split
    · rfl
    next empty => rw [not_not.mp empty, Memory.copy_zero]
  have result : dataLen ((unpackFields m q buffer).copy (L.dataPtr (unpackFields m q buffer) q)
      (buffer + Field.dataPtr.index) len) q = len := by
    by_cases empty : len = 0
    · rw [empty, Memory.copy_zero, length, empty]
    have qArea := qArea empty
    have inside : Field.dataLen.offset + Field.dataLen.bytes ≤ L.size := by cases L <;> decide
    rw [← length]
    apply read_congr
    apply Memory.load_copy_of_apart
    unfold Apart at qArea
    omega
  simp only [Layout.unpack, holds, if_true, data, result]

/-- If the 4 bytes are those of the pointer, nothing goes wrong. -/
theorem Receivable.keeps (h : Receivable m q buffer len)
    (slot : Memory.value (m.load (buffer + 30) 2) = len)
    (same : m.load (buffer + 42) 4 = m.load (q + 36) 4) :
    KeepsPointer m q buffer len (m.load (buffer + 40) len) := by
  have apart : Apart buffer slotsEnd q fieldsEnd :=
    h.bufferQ.mono (Nat.le_max_right _ _) (fieldsEnd_le_size _)
  have pointer : (unpackFields m q buffer).load (q + 36) 4 = m.load (q + 36) 4 := by
    rw [unpackFields_pointer apart, same]
  have target := ilp32_dataPtr_inj.mpr pointer
  have qArea := h.qArea
  have bufferQ := h.bufferQ
  have run := unpack_eq slot apart (fun _ => by rw [target]; exact qArea) (by rw [target]; exact h.named)
  rw [target] at run
  unfold Apart at qArea bufferQ
  simp only [Layout.size, Layout.pointer, Layout.width, Field.index] at qArea bufferQ
  refine ⟨fun _ => target, _, run, ?_, ?_, fun a field area => ?_⟩
  · rw [ilp32_dataPtr_inj, Memory.load_copy_of_apart (by omega), pointer]
  · rw [Memory.load_copy_inside (le_refl _) (le_refl _), Nat.sub_self, Nat.add_zero,
      unpackFields_frame]
    · rfl
    · unfold Apart fieldsEnd
      simp only [Field.offset, Field.size, Field.index]
      omega
  · rw [Memory.copy_of_outside area]
    by_cases inPointer : q + 36 ≤ a ∧ a < q + 40
    · have byte := congrArg (fun bs => bs[a - (q + 36)]?) pointer
      have place : q + 36 + (a - (q + 36)) = a := by omega
      simpa [Memory.load, show a - (q + 36) < 4 by omega, place] using byte
    · exact unpackFields_outside field (by omega)

/-- Otherwise the pointer is another one. -/
theorem KeepsPointer.same {payload : List (BitVec 8)} (h : Receivable m q buffer len)
    (slot : Memory.value (m.load (buffer + 30) 2) = len)
    (keeps : KeepsPointer m q buffer len payload) :
    m.load (buffer + 42) 4 = m.load (q + 36) 4 := by
  have apart : Apart buffer slotsEnd q fieldsEnd :=
    h.bufferQ.mono (Nat.le_max_right _ _) (fieldsEnd_le_size _)
  rw [← unpackFields_pointer apart, ← ilp32_dataPtr_inj]
  by_cases empty : len = 0
  · -- no payload is copied, so the pointer at the end is the one after the fields
    subst empty
    obtain ⟨m', run, pointer, -⟩ := keeps.result
    have copied := unpack_eq (L := .ilp32) slot apart (fun some => absurd rfl some) fun some => absurd rfl some
    rw [copied, Memory.copy_zero] at run
    obtain ⟨rfl, -⟩ := Prod.ext_iff.mp (Option.some.inj run)
    exact pointer
  · exact keeps.target empty

end unpack

/-- Unpacking the bytes of any packed packet keeps the receiver's pointer exactly when the four
bytes 42 to 45 of the buffer, which are payload, are those of the pointer. -/
theorem unpack_keeps_pointer_iff {L : Layout} {m₀ m₁ m : Memory} {p b₀ q buffer n : Nat}
    (packable : Packable L m₀ p b₀) (packed : L.pack m₀ p b₀ = some (m₁, n))
    (received : m.load buffer n = m₁.load b₀ n) (h : Receivable m q buffer (dataLen m₀ p)) :
    KeepsPointer m q buffer (dataLen m₀ p) (m₀.load (L.dataPtr m₀ p) (dataLen m₀ p)) ↔
      m.load (buffer + 42) 4 = m.load (q + 36) 4 := by
  rw [packable.pack_eq] at packed
  obtain ⟨rfl, rfl⟩ := Prod.ext_iff.mp (Option.some.inj packed)
  have parts := packable.parts
  have slot : m.load (buffer + 30) 2 = m₀.load (p + 34) 2 := by
    rw [Memory.load_part received (by simp only [announced, Field.index]; omega)]
    exact parts.slot .dataLen (by decide)
  have payload : m.load (buffer + 40) (dataLen m₀ p) =
      m₀.load (L.dataPtr m₀ p) (dataLen m₀ p) := by
    rw [Memory.load_part received (by simp only [announced, Field.index]; omega)]
    exact parts.payload
  have len : Memory.value (m.load (buffer + 30) 2) = dataLen m₀ p := by
    rw [slot]
    rfl
  rw [← payload]
  exact ⟨fun keeps => keeps.same h len, h.keeps len⟩

/-- On a 32-bit machine: a packet at 1000 with six payload bytes at 3000, to be unpacked at 2000
with its area at 4000; every other byte is one. -/
def samples32 : Memory := fun a =>
  if a = 1034 then 6
  else if a = 1036 then 0xB8
  else if a = 1037 then 0x0B
  else if a = 2036 then 0xA0
  else if a = 2037 then 0x0F
  else if a = 1035 ∨ a = 1038 ∨ a = 1039 ∨ a = 2038 ∨ a = 2039 then 0
  else 1

/-- The same with the packet packed into a buffer at 10000. -/
def packed32 : Memory := (packFields samples32 1000 10000).copy (10000 + 40) 3000 6

theorem packable_samples32 : Packable .ilp32 samples32 1000 10000 :=
  ⟨by decide, by decide, by decide⟩

theorem receivable_packed32 : Receivable packed32 2000 10000 6 :=
  ⟨by decide, by decide, by decide, by decide⟩

theorem unpack_keeps_pointer_iff_of_samples :
    KeepsPointer packed32 2000 10000 6 (samples32.load 3000 6) ↔
      packed32.load 10042 4 = packed32.load 2036 4 :=
  unpack_keeps_pointer_iff packable_samples32 packable_samples32.pack_eq rfl receivable_packed32

/-- The payload bytes 2 to 5 become the receiver's pointer. -/
theorem unpack_overwrites_pointer :
    ¬ ∀ (L : Layout) (m₀ m₁ m : Memory) (p b₀ q buffer n : Nat), Packable L m₀ p b₀ →
      L.pack m₀ p b₀ = some (m₁, n) → m.load buffer n = m₁.load b₀ n →
      Receivable m q buffer (dataLen m₀ p) →
      KeepsPointer m q buffer (dataLen m₀ p) (m₀.load (L.dataPtr m₀ p) (dataLen m₀ p)) := by
  intro all
  have keeps := all .ilp32 samples32 _ packed32 1000 10000 2000 10000 _ packable_samples32
    packable_samples32.pack_eq rfl receivable_packed32
  exact absurd (keeps.same receivable_packed32 (by decide)) (by decide)

end ScCosim.Async.Wire
