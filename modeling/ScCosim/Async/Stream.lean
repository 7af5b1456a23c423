import ScCosim.Kernel.Memory
import ScCosim.Async.Interface

/-!
# Requests off a TCP stream

The server's and the client's loop around `recv` are the same: a chunk is appended to the
buffer, and the loop ends when exactly the size of a packet has come in, or when `recv`
returns zero or an error. Each time `recv` is asked for the rest of a buffer of 512 bytes.
Whatever ended the loop, what has come in is copied over the packet.
-/
namespace ScCosim.Async.Tcp

open Kernel

/-- `struct simple_async_packet`: its size and where the fields lie that the server reads. -/
structure Layout where
  size : Nat
  command : Nat
  address : Nat
  data : Nat
  command_lt : command < size
  address_le : address + 4 ≤ size
  data_le : data + 4 ≤ size
  size_le : size ≤ 512

/-- The structure on a 64-bit machine. -/
def Layout.lp64 : Layout where
  size := 136
  command := 4
  address := 8
  data := 32
  command_lt := by decide
  address_le := by decide
  data_le := by decide
  size_le := by decide

/-- The initial `maxlen`. -/
def maxlen : Nat := 512

/-- What `recv` returns, call by call, for a stream, asked at first for `maxlen` bytes and
then for what is left of them. Asked for no bytes it returns zero. -/
inductive Splits : Nat → List Byte → List (List Byte) → Prop
  | stop (maxlen : Nat) (stream : List Byte) (ended : stream = [] ∨ maxlen = 0) :
      Splits maxlen stream []
  | chunk (maxlen : Nat) (chunk stream : List Byte) (chunks : List (List Byte)) (some : chunk ≠ [])
      (room : chunk.length ≤ maxlen) (rest : Splits (maxlen - chunk.length) stream chunks) :
      Splits maxlen (chunk ++ stream) (chunk :: chunks)

/-- The loop: what is in the buffer when it ends. -/
def recvLoop (size : Nat) (buffer : List Byte) : List (List Byte) → List Byte
  | [] => buffer
  | chunk :: chunks =>
    if (buffer ++ chunk).length = size then buffer ++ chunk
    else recvLoop size (buffer ++ chunk) chunks

/-- A packet after `memcpy(packet, buffer, len)`. -/
structure Received where
  packet : List Byte
  /-- How many bytes have come in, and have been copied. -/
  len : Nat
  deriving DecidableEq, Repr

def receive (size : Nat) (packet : List Byte) (chunks : List (List Byte)) : Received :=
  let buffer := recvLoop size [] chunks
  { packet := (buffer ++ packet.drop buffer.length).take size, len := buffer.length }

/-- `m_shptr` as the channel's packet is made from it. -/
def Layout.request (l : Layout) (packet : List Byte) : Request where
  command := packet.getD l.command 0
  address := BitVec.ofNat 32 (Memory.value ((packet.drop l.address).take 4))
  data := (packet.drop l.data).take 4

/-- One round of the server up to its push: `m_simple_packet` starts with what its memory
holds, and whatever has been received is pushed. -/
def asyncOsThread (l : Layout) (packet : List Byte) (chunks : List (List Byte)) :
    Received × Request :=
  let received := receive l.size packet chunks
  (received, l.request received.packet)

/-- `send_data`, with its result; without a connection nothing is received. -/
def sendData (l : Layout) (connected : Bool) (packet : List Byte) (chunks : List (List Byte)) :
    Received × Int :=
  if connected then (receive l.size packet chunks, 0) else (⟨packet, 0⟩, -1)

/-! ### Whole packets -/

/-- However a client's bytes are cut, the server pushes only what is complete, copies no
more than a packet, and pushes the request that the first bytes encode. -/
def ServerReassembles (l : Layout) (stream : List Byte) : Prop :=
  ∀ packet chunks, packet.length = l.size → Splits maxlen stream chunks →
    l.size ≤ (asyncOsThread l packet chunks).1.len ∧
      (asyncOsThread l packet chunks).1.len ≤ l.size ∧
      (asyncOsThread l packet chunks).2 = l.request (stream.take l.size) ∧
      ∀ packet' chunks', packet'.length = l.size → Splits maxlen stream chunks' →
        (asyncOsThread l packet' chunks').2 = (asyncOsThread l packet chunks).2

/-- However a reply is cut, the client reports success only for a complete one, copies no
more than a packet, and has the first bytes. -/
def ClientReassembles (l : Layout) (stream : List Byte) : Prop :=
  ∀ connected packet chunks, packet.length = l.size → Splits maxlen stream chunks →
    (sendData l connected packet chunks).2 = 0 →
      l.size ≤ (sendData l connected packet chunks).1.len ∧
        (sendData l connected packet chunks).1.len ≤ l.size ∧
        (sendData l connected packet chunks).1.packet = stream.take l.size

/-- The stream is one packet, or the buffer has room for no more than one. -/
def Fits (l : Layout) (stream : List Byte) : Prop :=
  stream.length = l.size ∨ (l.size = maxlen ∧ maxlen ≤ stream.length)

/-- From a buffer that holds less than a packet the loop fills it up to exactly one. -/
theorem recvLoop_eq {size room : Nat} {buffer stream : List Byte} {chunks : List (List Byte)}
    (splits : Splits room stream chunks) (left : buffer.length + room = maxlen)
    (small : size ≤ maxlen) (short : buffer.length < size)
    (enough : size ≤ buffer.length + stream.length)
    (fits : buffer.length + stream.length = size ∨ size = maxlen) :
    recvLoop size buffer chunks = (buffer ++ stream).take size := by
  induction splits generalizing buffer with
  | stop room stream ended =>
    -- neither the stream nor the buffer can be used up
    rcases ended with rfl | rfl
    · simp at enough
      omega
    · omega
  | chunk room chunk stream chunks some fit rest ih =>
    rw [List.length_append] at enough fits
    unfold recvLoop
    split
    next full =>
      rw [← List.append_assoc, ← full, List.take_left]
    next more =>
      rw [List.length_append] at more
      have same : buffer ++ (chunk ++ stream) = (buffer ++ chunk) ++ stream := by
        rw [List.append_assoc]
      rw [same]
      apply ih <;> rw [List.length_append] <;> omega

theorem receive_of_fits {l : Layout} {stream packet : List Byte} {chunks : List (List Byte)}
    (fits : Fits l stream) (splits : Splits maxlen stream chunks) :
    receive l.size packet chunks = ⟨stream.take l.size, l.size⟩ := by
  have small : l.size ≤ maxlen := l.size_le
  have some := l.command_lt
  have enough : l.size ≤ stream.length := by
    rcases fits with equal | ⟨full, long⟩
    · omega
    · omega
  have filled : recvLoop l.size [] chunks = stream.take l.size := by
    apply recvLoop_eq splits (by simp) small (by simp; omega) (by simpa using enough)
    rcases fits with equal | ⟨full, -⟩
    · left
      simpa using equal
    · exact Or.inr full
  have length : (stream.take l.size).length = l.size := by
    rw [List.length_take, Nat.min_eq_left enough]
  simp only [receive, filled, length]
  rw [List.take_append_of_le_length (by omega), List.take_take, Nat.min_self]

/-- A stream can come in as one chunk, as long as the buffer. -/
theorem splits_whole (stream : List Byte) :
    ∃ chunks, Splits maxlen stream chunks ∧
      ∀ size, recvLoop size [] chunks = stream.take maxlen := by
  by_cases empty : stream = []
  · subst empty
    exact ⟨[], .stop _ _ (Or.inl rfl), fun size => rfl⟩
  · refine ⟨[stream.take maxlen], ?_, ?_⟩
    · have parts := List.take_append_drop maxlen stream
      conv => arg 2; rw [← parts]
      apply Splits.chunk
      · simpa [maxlen] using empty
      · exact List.length_take_le _ _
      · apply Splits.stop
        simp [maxlen]
        omega
    · intro size
      simp only [recvLoop, List.nil_append]
      split <;> rfl

theorem fits_of_length {l : Layout} {stream : List Byte}
    (length : (stream.take maxlen).length = l.size) : Fits l stream := by
  rw [List.length_take] at length
  unfold Fits
  omega

/-- Both loops reassemble a stream, however it is cut, if and only if it fits. -/
theorem reassembles_iff (l : Layout) (stream : List Byte) :
    (ServerReassembles l stream ↔ Fits l stream) ∧ (ClientReassembles l stream ↔ Fits l stream) := by
  obtain ⟨whole, splits, filled⟩ := splits_whole stream
  have blank : (List.replicate l.size (0 : Byte)).length = l.size := List.length_replicate
  have len (packet : List Byte) : (receive l.size packet whole).len = (stream.take maxlen).length := by
    simp only [receive, filled]
  constructor
  · constructor
    · intro claim
      obtain ⟨all, atMost, -⟩ := claim _ whole blank splits
      simp only [asyncOsThread, len] at all atMost
      exact fits_of_length (Nat.le_antisymm atMost all)
    · intro fits packet chunks _ cut
      simp only [asyncOsThread, receive_of_fits fits cut]
      refine ⟨le_refl _, le_refl _, trivial, ?_⟩
      intro packet' chunks' _ cut'
      rw [receive_of_fits fits cut']
  · constructor
    · intro claim
      obtain ⟨all, atMost, -⟩ := claim true _ whole blank splits rfl
      simp only [sendData, if_true, len] at all atMost
      exact fits_of_length (Nat.le_antisymm atMost all)
    · intro fits connected packet chunks _ cut success
      cases connected with
      | false => simp [sendData] at success
      | true => simp [sendData, receive_of_fits fits cut]

/-- A client that closes after four bytes has a request pushed all the same. -/
theorem short_stream_pushed : ¬ ∀ l stream, ServerReassembles l stream := by
  intro claim
  have cut : Splits maxlen [1, 2, 3, 4] [[1, 2, 3, 4]] :=
    .chunk _ [1, 2, 3, 4] [] [] (by decide) (by decide) (.stop _ _ (Or.inl rfl))
  obtain ⟨all, -⟩ := claim .lp64 _ (List.replicate 136 0) _ List.length_replicate cut
  exact absurd all (by decide)

end ScCosim.Async.Tcp
