import ScCosim.Kernel.Memory

/-!
# Packets in a buffer

`pack` and `unpack` copy the fields of a packet between its structure and a buffer. The
8-byte copy of the 2-byte `strm_wid` takes the fields behind it along: in the buffer it
reaches into the payload, in the structure into `data_len` and the padding, and the copies
that follow put both right. The slot of `data_len` lies before that of `strm_wid`.
-/
namespace ScCosim.Async.Wire

open Kernel

/-- The fields of `async_packet`, in the order of the structure. -/
inductive Field where
  | id
  | command
  | status
  | address
  | delayNs
  | timeNs
  | strmWid
  | dataLen
  | dataPtr
  deriving DecidableEq, Repr

namespace Field

/-- Where the field lies in the structure. -/
def offset : Field → Nat
  | .id => 0
  | .command => 4
  | .status => 5
  | .address => 8
  | .delayNs => 16
  | .timeNs => 24
  | .strmWid => 32
  | .dataLen => 34
  | .dataPtr => 40

/-- How many bytes it has there. -/
def bytes : Field → Nat
  | .id => 4
  | .command | .status => 1
  | .address | .delayNs | .timeNs | .dataPtr => 8
  | .strmWid | .dataLen => 2

/-- `ASYNC_PACKET_*_SIZE`: how many bytes `pack` and `unpack` copy. The payload is copied on
its own. -/
def size : Field → Nat
  | .id => 4
  | .command | .status => 1
  | .address | .delayNs | .timeNs | .strmWid => 8
  | .dataLen => 2
  | .dataPtr => 0

/-- `ASYNC_*_INDEX`: where the copy lies in the buffer. -/
def index : Field → Nat
  | .id => 0
  | .command => 0 + 4
  | .status => 4 + 1
  | .address => 5 + 1
  | .delayNs => 6 + 8
  | .timeNs => 14 + 8
  | .dataLen => 22 + 8
  | .strmWid => 30 + 8
  | .dataPtr => 38 + 2

end Field

/-- The order of the copies. -/
def fields : List Field :=
  [.id, .command, .status, .address, .delayNs, .timeNs, .strmWid, .dataLen]

/-- `sizeof(async_packet)` -/
def structSize : Nat := 48

/-- `ASYNC_MAX_DATA_LEN` -/
def maxDataLen : Nat := 2 ^ (8 * 2) - 1

/-- `ASYNC_MAX_BUFFER + 8` -/
def bufferSize : Nat := Field.dataPtr.index + maxDataLen + 8

/-- Behind the last byte that the copies of the fields touch in the buffer. -/
def slotsEnd : Nat := Field.strmWid.index + Field.strmWid.size

/-- Behind the last byte that they touch in the structure. -/
def fieldsEnd : Nat := Field.strmWid.offset + Field.strmWid.size

/-- The value of a field of the packet at `p`. -/
def read (m : Memory) (p : Nat) (f : Field) : Nat := Memory.value (m.load (p + f.offset) f.bytes)

def dataLen (m : Memory) (p : Nat) : Nat := read m p .dataLen

def dataPtr (m : Memory) (p : Nat) : Nat := read m p .dataPtr

/-- `assert( data_len == 0 || data_ptr != nullptr )` -/
def asserted (m : Memory) (p : Nat) : Bool := dataLen m p = 0 || dataPtr m p ≠ 0

/-- The copies of the fields in `pack`. -/
def packFields (m : Memory) (p buffer : Nat) : Memory :=
  fields.foldl (fun m f => m.copy (buffer + f.index) (p + f.offset) f.size) m

def packData (m : Memory) (p buffer : Nat) : Memory :=
  if dataLen m p ≠ 0 then m.copy (buffer + Field.dataPtr.index) (dataPtr m p) (dataLen m p) else m

/-- `p.pack(buffer)`; `none` where the assertion fails. -/
def pack (m : Memory) (p buffer : Nat) : Option (Memory × Nat) :=
  let m := packFields m p buffer
  if asserted m p then
    let m := packData m p buffer
    some (m, Field.dataPtr.index + dataLen m p)
  else none

/-- The copies of the fields in `unpack`. -/
def unpackFields (m : Memory) (q buffer : Nat) : Memory :=
  fields.foldl (fun m f => m.copy (q + f.offset) (buffer + f.index) f.size) m

def unpackData (m : Memory) (q buffer : Nat) : Memory :=
  if dataLen m q ≠ 0 then m.copy (dataPtr m q) (buffer + Field.dataPtr.index) (dataLen m q) else m

/-- `q.unpack(buffer)` -/
def unpack (m : Memory) (q buffer : Nat) : Option (Memory × Nat) :=
  let m := unpackFields m q buffer
  if asserted m q then
    let m := unpackData m q buffer
    some (m, Field.dataPtr.index + dataLen m q)
  else none

/-- `q == p`: the eight fields, then the payload byte by byte. -/
def equal (m : Memory) (q p : Nat) : Option Bool :=
  if fields.all fun f => read m q f = read m p f then
    if asserted m q then
      some (m.load (dataPtr m q) (dataLen m q) = m.load (dataPtr m p) (dataLen m q))
    else none
  else some false

/-- The packet at `p`, its payload, the buffer, the packet at `q` and the area that `q`'s
`data_ptr` names are objects of their own, but for the packet at `p` and its payload. -/
structure Separate (m : Memory) (p q buffer : Nat) : Prop where
  bufferP : Apart buffer bufferSize p structSize
  bufferPayload : Apart buffer bufferSize (dataPtr m p) (dataLen m p)
  bufferQ : Apart buffer bufferSize q structSize
  bufferArea : Apart buffer bufferSize (dataPtr m q) (dataLen m p)
  qP : Apart q structSize p structSize
  qPayload : Apart q structSize (dataPtr m p) (dataLen m p)
  qArea : Apart q structSize (dataPtr m q) (dataLen m p)
  areaP : Apart (dataPtr m q) (dataLen m p) p structSize
  areaPayload : Apart (dataPtr m q) (dataLen m p) (dataPtr m p) (dataLen m p)
  payload : dataLen m p ≠ 0 → dataPtr m p ≠ 0
  area : dataLen m p ≠ 0 → dataPtr m q ≠ 0

theorem dataLen_le (m : Memory) (p : Nat) : dataLen m p ≤ maxDataLen := by
  change Memory.value (m.load (p + 34) 2) ≤ 65535
  have small := Memory.value_lt (m.load (p + 34) 2)
  rw [Memory.load_length] at small
  omega

/-! ### The copies of the fields -/

section fields

variable {m : Memory} {p q buffer : Nat} {f : Field}

theorem packFields_frame {a n : Nat} (h : Apart buffer slotsEnd a n) :
    (packFields m p buffer).load a n = m.load a n := by
  unfold Apart slotsEnd at h
  simp only [packFields, fields, List.foldl, Field.index, Field.offset, Field.size] at h ⊢
  simp (disch := omega) only [Memory.load_copy_of_apart]

/-- After `pack` each slot of the buffer begins with its field: the copy of `strm_wid` comes
after those it could overwrite, and ends behind the slots. -/
theorem packFields_field (apart : Apart buffer slotsEnd p fieldsEnd) (h : f ∈ fields) :
    (packFields m p buffer).load (buffer + f.index) f.bytes = m.load (p + f.offset) f.bytes := by
  unfold Apart slotsEnd fieldsEnd at apart
  simp only [fields, List.mem_cons, List.not_mem_nil, or_false] at h
  simp only [packFields, fields, List.foldl] at apart ⊢
  rcases h with rfl | rfl | rfl | rfl | rfl | rfl | rfl | rfl <;>
    simp only [Field.index, Field.offset, Field.size, Field.bytes] at apart ⊢ <;>
    simp (disch := omega) only [Memory.load_copy_of_apart, Memory.load_copy_inside] <;>
    simp

theorem unpackFields_frame {a n : Nat} (h : Apart q fieldsEnd a n) :
    (unpackFields m q buffer).load a n = m.load a n := by
  unfold Apart fieldsEnd at h
  simp only [unpackFields, fields, List.foldl, Field.index, Field.offset, Field.size] at h ⊢
  simp (disch := omega) only [Memory.load_copy_of_apart]

/-- After `unpack` each field holds the first bytes of its slot: the copy of `data_len` comes
after that of `strm_wid`, which overwrites it. -/
theorem unpackFields_field (apart : Apart buffer slotsEnd q fieldsEnd) (h : f ∈ fields) :
    (unpackFields m q buffer).load (q + f.offset) f.bytes = m.load (buffer + f.index) f.bytes := by
  unfold Apart slotsEnd fieldsEnd at apart
  simp only [fields, List.mem_cons, List.not_mem_nil, or_false] at h
  simp only [unpackFields, fields, List.foldl] at apart ⊢
  rcases h with rfl | rfl | rfl | rfl | rfl | rfl | rfl | rfl <;>
    simp only [Field.index, Field.offset, Field.size, Field.bytes] at apart ⊢ <;>
    simp (disch := omega) only [Memory.load_copy_of_apart, Memory.load_copy_inside] <;>
    simp

/-- The 8 bytes copied over `strm_wid` end where `data_ptr` begins. -/
theorem unpackFields_dataPtr : dataPtr (unpackFields m q buffer) q = dataPtr m q := by
  simp only [dataPtr, read, unpackFields, fields, List.foldl, Field.index, Field.offset, Field.size,
    Field.bytes]
  simp (disch := omega) only [Memory.load_copy_of_apart]

end fields

/-! ### The two functions -/

section functions

variable {m : Memory} {p q buffer : Nat}

/-- A slot ends before the payload. -/
theorem index_bytes_le {f : Field} (h : f ∈ fields) : f.index + f.bytes ≤ Field.dataPtr.index := by
  revert h
  cases f <;> decide

theorem slotsEnd_le : slotsEnd ≤ bufferSize := by decide

theorem fieldsEnd_le : fieldsEnd ≤ structSize := by decide

theorem offset_bytes_le (f : Field) : f.offset + f.bytes ≤ structSize := by
  cases f <;> decide

/-- A copy of no bytes is none. -/
theorem packData_eq (m : Memory) (p buffer : Nat) : packData m p buffer =
    m.copy (buffer + Field.dataPtr.index) (dataPtr m p) (dataLen m p) := by
  unfold packData
  split
  · rfl
  next empty =>
    rw [not_not.mp empty, Memory.copy_zero]

theorem unpackData_eq (m : Memory) (q buffer : Nat) : unpackData m q buffer =
    m.copy (dataPtr m q) (buffer + Field.dataPtr.index) (dataLen m q) := by
  unfold unpackData
  split
  · rfl
  next empty =>
    rw [not_not.mp empty, Memory.copy_zero]

theorem asserted_of_names {m : Memory} {p : Nat} (named : dataLen m p ≠ 0 → dataPtr m p ≠ 0) :
    asserted m p = true := by
  by_cases empty : dataLen m p = 0
  · simp [asserted, empty]
  · simp [asserted, named empty]

/-- Equal bytes are equal fields. -/
theorem read_congr {m' : Memory} {p : Nat} {f : Field}
    (h : m'.load (p + f.offset) f.bytes = m.load (p + f.offset) f.bytes) :
    read m' p f = read m p f := by
  rw [read, h, read]

/-- What `pack` leaves, given that the buffer is apart from what it packs. -/
theorem pack_spec (bufferP : Apart buffer bufferSize p structSize)
    (bufferPayload : Apart buffer bufferSize (dataPtr m p) (dataLen m p))
    (payload : dataLen m p ≠ 0 → dataPtr m p ≠ 0) :
    ∃ m', pack m p buffer = some (m', Field.dataPtr.index + dataLen m p) ∧
      (∀ a n, Apart buffer bufferSize a n → m'.load a n = m.load a n) ∧
      (∀ f ∈ fields, m'.load (buffer + f.index) f.bytes = m.load (p + f.offset) f.bytes) ∧
      m'.load (buffer + Field.dataPtr.index) (dataLen m p) = m.load (dataPtr m p) (dataLen m p) := by
  have small := dataLen_le m p
  have apart (f : Field) : Apart buffer bufferSize (p + f.offset) f.bytes := by
    have inside := offset_bytes_le f
    unfold Apart at bufferP ⊢
    omega
  -- the structure is not written, so its length and pointer are the ones before
  have len : dataLen (packFields m p buffer) p = dataLen m p :=
    read_congr (packFields_frame ((apart .dataLen).mono slotsEnd_le (le_refl _)))
  have ptr : dataPtr (packFields m p buffer) p = dataPtr m p :=
    read_congr (packFields_frame ((apart .dataPtr).mono slotsEnd_le (le_refl _)))
  have data : packData (packFields m p buffer) p buffer = (packFields m p buffer).copy
      (buffer + Field.dataPtr.index) (dataPtr m p) (dataLen m p) := by
    rw [packData_eq, len, ptr]
  have frame {a n : Nat} (outside : Apart buffer bufferSize a n) :
      (packData (packFields m p buffer) p buffer).load a n = m.load a n := by
    rw [data, Memory.load_copy_of_apart, packFields_frame (outside.mono slotsEnd_le (le_refl _))]
    unfold Apart bufferSize at outside
    omega
  have holds : asserted (packFields m p buffer) p = true := by
    apply asserted_of_names
    rw [len, ptr]
    exact payload
  have result : dataLen (packData (packFields m p buffer) p buffer) p = dataLen m p :=
    read_congr (frame (apart .dataLen))
  refine ⟨packData (packFields m p buffer) p buffer,
    by simp only [pack, holds, if_true, result], fun a n => frame, ?_, ?_⟩
  · intro f field
    have slot := index_bytes_le field
    rw [data, Memory.load_copy_of_apart, packFields_field (bufferP.mono slotsEnd_le fieldsEnd_le) field]
    omega
  · rw [data, Memory.load_copy_inside (le_refl _) (le_refl _), Nat.sub_self, Nat.add_zero,
      packFields_frame (bufferPayload.mono slotsEnd_le (le_refl _))]

/-- What `unpack` makes of a buffer whose slot of `data_len` holds `len`. -/
theorem unpack_spec {len : Nat}
    (slot : Memory.value (m.load (buffer + Field.dataLen.index) Field.dataLen.bytes) = len)
    (bufferQ : Apart buffer bufferSize q structSize) (small : len ≤ maxDataLen)
    (qArea : Apart q structSize (dataPtr m q) len) (area : len ≠ 0 → dataPtr m q ≠ 0) :
    ∃ m', unpack m q buffer = some (m', Field.dataPtr.index + len) ∧
      (∀ a n, Apart q structSize a n → Apart (dataPtr m q) len a n → m'.load a n = m.load a n) ∧
      (∀ f ∈ fields, m'.load (q + f.offset) f.bytes = m.load (buffer + f.index) f.bytes) ∧
      m'.load (dataPtr m q) len = m.load (buffer + Field.dataPtr.index) len ∧
      dataPtr m' q = dataPtr m q := by
  have ptr : dataPtr (unpackFields m q buffer) q = dataPtr m q := unpackFields_dataPtr
  have length : dataLen (unpackFields m q buffer) q = len := by
    rw [dataLen, read, unpackFields_field (bufferQ.mono slotsEnd_le fieldsEnd_le) (by decide), slot]
  have data : unpackData (unpackFields m q buffer) q buffer = (unpackFields m q buffer).copy
      (dataPtr m q) (buffer + Field.dataPtr.index) len := by
    rw [unpackData_eq, length, ptr]
  -- the payload goes to an area of its own
  have kept (f : Field) : (unpackData (unpackFields m q buffer) q buffer).load (q + f.offset)
      f.bytes = (unpackFields m q buffer).load (q + f.offset) f.bytes := by
    have inside := offset_bytes_le f
    rw [data, Memory.load_copy_of_apart]
    unfold Apart at qArea
    omega
  have holds : asserted (unpackFields m q buffer) q = true := by
    apply asserted_of_names
    rw [length, ptr]
    exact area
  have result : dataLen (unpackData (unpackFields m q buffer) q buffer) q = len :=
    (read_congr (kept .dataLen)).trans length
  refine ⟨unpackData (unpackFields m q buffer) q buffer,
    by simp only [unpack, holds, if_true, result], ?_, ?_, ?_, ?_⟩
  · intro a n outside apart
    rw [data, Memory.load_copy_of_apart, unpackFields_frame (outside.mono fieldsEnd_le (le_refl _))]
    unfold Apart at apart
    omega
  · intro f field
    rw [kept, unpackFields_field (bufferQ.mono slotsEnd_le fieldsEnd_le) field]
  · have source : Apart q structSize (buffer + Field.dataPtr.index) len := by
      unfold Apart bufferSize at bufferQ
      unfold Apart
      omega
    rw [data, Memory.load_copy_inside (le_refl _) (le_refl _), Nat.sub_self, Nat.add_zero,
      unpackFields_frame (source.mono fieldsEnd_le (le_refl _))]
  · exact (read_congr (kept .dataPtr)).trans ptr

/-- Unpacking undoes packing: the packet unpacked equals the packet packed, both functions
return the same length, `data_ptr` of the one and the whole of the other stay as they
were. -/
theorem unpack_pack (sep : Separate m p q buffer) :
    ∃ m₁ n m₂ k, pack m p buffer = some (m₁, n) ∧ unpack m₁ q buffer = some (m₂, k) ∧
      equal m₂ q p = some true ∧ n = Field.dataPtr.index + dataLen m p ∧ k = n ∧
      dataPtr m₂ q = dataPtr m q ∧ m₂.load p structSize = m.load p structSize ∧
      m₂.load (dataPtr m p) (dataLen m p) = m.load (dataPtr m p) (dataLen m p) := by
  have small := dataLen_le m p
  obtain ⟨m₁, packed, frame₁, slots, payload⟩ :=
    pack_spec sep.bufferP sep.bufferPayload sep.payload
  have ptr : dataPtr m₁ q = dataPtr m q := by
    apply read_congr
    apply frame₁
    have inside := offset_bytes_le .dataPtr
    have apart := sep.bufferQ
    unfold Apart at apart ⊢
    omega
  have slot : Memory.value (m₁.load (buffer + Field.dataLen.index) Field.dataLen.bytes) =
      dataLen m p := by
    rw [slots .dataLen (by decide)]
    rfl
  obtain ⟨m₂, unpacked, frame₂, copied, area, named⟩ :=
    unpack_spec (q := q) slot sep.bufferQ small (by rw [ptr]; exact sep.qArea)
      (by rw [ptr]; exact sep.area)
  rw [ptr] at frame₂ area named
  have struct : m₂.load p structSize = m.load p structSize := by
    rw [frame₂ _ _ sep.qP sep.areaP, frame₁ _ _ sep.bufferP]
  have bytes : m₂.load (dataPtr m p) (dataLen m p) = m.load (dataPtr m p) (dataLen m p) := by
    rw [frame₂ _ _ sep.qPayload sep.areaPayload, frame₁ _ _ sep.bufferPayload]
  have unchanged (f : Field) : m₂.load (p + f.offset) f.bytes = m.load (p + f.offset) f.bytes := by
    have inside := offset_bytes_le f
    have bufferP := sep.bufferP
    have qP := sep.qP
    have areaP := sep.areaP
    rw [frame₂, frame₁] <;> unfold Apart at * <;> omega
  have same (f : Field) (h : f ∈ fields) : read m₂ q f = read m₂ p f := by
    rw [read, read, copied f h, slots f h, unchanged f]
  refine ⟨m₁, _, m₂, _, packed, unpacked, ?_, rfl, rfl, named, struct, bytes⟩
  have len : dataLen m₂ q = dataLen m p :=
    (same .dataLen (by decide)).trans (read_congr (unchanged .dataLen))
  have source : dataPtr m₂ p = dataPtr m p := read_congr (unchanged .dataPtr)
  have holds : asserted m₂ q = true := by
    apply asserted_of_names
    rw [len, named]
    exact sep.area
  have equalFields : (fields.all fun f => read m₂ q f = read m₂ p f) = true := by
    simpa using same
  simp only [equal, equalFields, holds, if_true, named, len, source, area, payload, bytes]
  simp

/-- A packet at 1000 with two payload bytes at 3000, to be unpacked at 2000 with its area at
4000; every other byte is one. -/
def samples : Memory := fun a =>
  if a = 1034 then 2
  else if a = 1040 then 0xB8
  else if a = 1041 then 0x0B
  else if a = 2040 then 0xA0
  else if a = 2041 then 0x0F
  else if (1035 ≤ a ∧ a < 1048) ∨ (2042 ≤ a ∧ a < 2048) then 0
  else 1

theorem unpack_pack_of_samples :
    ∃ m₁ n m₂ k, pack samples 1000 10000 = some (m₁, n) ∧ unpack m₁ 2000 10000 = some (m₂, k) ∧
      equal m₂ 2000 1000 = some true ∧ n = 42 ∧ k = n ∧ dataPtr m₂ 2000 = 4000 ∧
      m₂.load 1000 structSize = samples.load 1000 structSize ∧
      m₂.load 3000 2 = samples.load 3000 2 :=
  unpack_pack (m := samples) (p := 1000) (q := 2000) (by
    constructor <;> decide)

end functions

end ScCosim.Async.Wire
