import ScCosim.Async.Feeding
import ScCosim.Driver.Calls

/-!
# The requests that the driver sends

Whatever the driver is called with, the requests it sends besides reads are its writes, in
order, each as one packet with its address and its data word. The data word `0x80000000` is
kept for leaving: it goes out as `ASYNC_EXIT` in all three transports.
-/
namespace ScCosim.Driver

open Kernel Program Async Firewall

/-- A call of one of the three functions. -/
inductive Call where
  | setupFW (a : ScFwDs)
  | accessBramFW (a : ScAccessDs)
  | accessBram (a : ScDirectAccessDs)
  deriving DecidableEq, Repr

def Call.perform (t : Transport) : Call → Io Unit
  | .setupFW a => scSetupFW t a
  | .accessBramFW a => do
    let _ ← scAccessBramFW t a
  | .accessBram a => do
    let _ ← scAccessBram t a

/-- The data words and addresses that a call writes, in order. -/
def Call.writes : Call → List (Word × BitVec 32)
  | .setupFW a => setupWrites a
  | .accessBramFW a => (iobram a.inputPort).toList.map fun base => (writeValue a, base + 5 * 4)
  | .accessBram a =>
    if a.opCode = 0x0 then (iobramDirect a.bramNo).toList.map fun base => (a.data, base + a.addr * 4)
    else []

/-- What a write's request carries. -/
abbrev Content := Byte × BitVec 32 × Word

def SimpleAsyncPacket.content (q : SimpleAsyncPacket) : Content := (q.command, q.address, q.data)

def writeContent (w : Word × BitVec 32) : Content :=
  (if w.1 = 0x80000000 then AsyncCommand.exit.code else AsyncCommand.write.code, w.2, w.1)

def isRead (q : SimpleAsyncPacket) : Bool := q.command = AsyncCommand.read.code

/-- The requests other than reads. -/
def sentWrites (u : List SimpleAsyncPacket) : List Content :=
  (u.filter fun q => !isRead q).map SimpleAsyncPacket.content

/-- Besides reads the requests are the writes `ws`, or a first part of them if the program
did not return. Exactly the data word `0x80000000` makes a request to leave. -/
structure Writes {α : Type} (ws : List (Word × BitVec 32)) (o : Option α)
    (u : List SimpleAsyncPacket) : Prop where
  part : sentWrites u <+: ws.map writeContent
  whole : o.isSome → sentWrites u = ws.map writeContent
  exits : ∀ q ∈ u, q.command = AsyncCommand.exit.code ↔ q.data = 0x80000000

section writes

variable {α β : Type} {ws vs : List (Word × BitVec 32)}

theorem writes_none_nil : Writes ws (none : Option α) [] :=
  ⟨List.nil_prefix, by simp, by simp⟩

theorem writes_some_nil {a : α} : Writes [] (some a) [] :=
  ⟨List.nil_prefix, fun _ => rfl, by simp⟩

theorem Writes.append {a : α} {o : Option β} {u v : List SimpleAsyncPacket}
    (first : Writes ws (some a) u) (rest : Writes vs o v) : Writes (ws ++ vs) o (u ++ v) := by
  have sent : sentWrites (u ++ v) = sentWrites u ++ sentWrites v := by simp [sentWrites]
  refine ⟨?_, fun returned => ?_, fun q member => ?_⟩
  · rw [sent, List.map_append, first.whole rfl]
    exact List.prefix_append_right_inj _ |>.mpr rest.part
  · rw [sent, List.map_append, first.whole rfl, rest.whole returned]
  · exact (List.mem_append.mp member).elim (first.exits q) (rest.exits q)

theorem Writes.stopped {u : List SimpleAsyncPacket} (h : Writes ws (none : Option α) u)
    (vs : List (Word × BitVec 32)) : Writes (ws ++ vs) (none : Option β) u :=
  ⟨h.part.trans (by simp), by simp, h.exits⟩

/-- The writes of a sequence are those of its two parts. -/
theorem writes_bind {p : Io α} {f : α → Io β} (first : Does (Writes ws) p)
    (rest : ∀ a, Does (Writes vs) (f a)) : Does (Writes (ws ++ vs)) (p >>= f) :=
  does_bind first (fun _ q => q.stopped vs) fun a _ q => (rest a).mono fun _ _ => q.append

theorem writes_pure (a : α) : Does (Writes []) (pure a : Io α) := does_pure writes_some_nil

theorem does_request {Q : Option Unit → List SimpleAsyncPacket → Prop} {command : Byte}
    {address : BitVec 32} {value : Word}
    (h : ∀ id, Q (some ()) [⟨id, command, .incompleteResponse, address, value⟩]) :
    Does Q (request command address value) :=
  fun s => ⟨[⟨s.memory, command, .incompleteResponse, address, value⟩], rfl, h s.memory⟩

theorem writes_request_write (w : Word × BitVec 32) :
    Does (Writes [w]) (request (writeContent w).1 w.2 w.1) := by
  refine does_request fun id => ?_
  have notRead : isRead ⟨id, (writeContent w).1, .incompleteResponse, w.2, w.1⟩ = false := by
    simp only [isRead, writeContent]
    split <;> rfl
  have sent : sentWrites [⟨id, (writeContent w).1, .incompleteResponse, w.2, w.1⟩] =
      [w].map writeContent := by
    simp only [sentWrites, List.filter_cons, notRead]
    rfl
  refine ⟨sent ▸ List.prefix_rfl, fun _ => sent, fun q member => ?_⟩
  obtain rfl := List.mem_singleton.mp member
  simp only [writeContent]
  split
  next leave => exact iff_of_true rfl leave
  next stay => exact iff_of_false (by decide) stay

theorem writes_request_read (address : BitVec 32) :
    Does (Writes []) (request AsyncCommand.read.code address 0) := by
  refine does_request fun id => ⟨List.nil_prefix, fun _ => rfl, fun q member => ?_⟩
  obtain rfl := List.mem_singleton.mp member
  have reads : AsyncCommand.read.code ≠ AsyncCommand.exit.code := by decide
  have zero : (0 : Word) ≠ 0x80000000 := by decide
  exact iff_of_false reads zero

theorem writes_receive : Does (Writes []) (receive : Io Reply) :=
  does_receive writes_none_nil fun _ => writes_some_nil

/-- One call of `sc_iowrite32` is one request, with its address and its data word. -/
theorem writes_scIowrite32 (t : Transport) (w : Word × BitVec 32) :
    Does (Writes [w]) (scIowrite32 t w.1 w.2) := by
  have wait : Does (Writes []) (if t.waitsAfterWrite w.1 then do let _ ← receive else pure () : Io Unit) := by
    split
    · exact writes_bind writes_receive fun _ => writes_pure ()
    · exact writes_pure ()
  exact writes_bind (writes_request_write w) fun _ => wait

theorem writes_scIoread32 (address : BitVec 32) : Does (Writes []) (scIoread32 address) := by
  have value : Does (Writes []) (Reply.value <$> receive : Io Word) := by
    rw [← bind_pure_comp]
    exact writes_bind writes_receive fun r => writes_pure r.value
  exact writes_bind (writes_request_read address) fun _ => value

theorem writes_forM (t : Transport) (ws : List (Word × BitVec 32)) :
    Does (Writes ws) (ws.forM fun w => scIowrite32 t w.1 w.2) :=
  does_forM (Q := fun w => Writes [w]) (S := Writes) (writes_scIowrite32 t) writes_some_nil
    (fun _ _ _ q => q.stopped _) (fun _ _ _ _ _ q r => q.append r) ws

theorem writes_scSetupFW (t : Transport) (a : ScFwDs) :
    Does (Writes (setupWrites a)) (scSetupFW t a) := by
  have reset : Does (Writes []) resetIdCounter := fun s => ⟨[], by simp [resetIdCounter]; rfl, writes_some_nil⟩
  exact writes_bind reset fun _ => writes_forM t (setupWrites a)

/-- The polling loop only reads. -/
theorem writes_untilSome {body : Io (Option α)} (round : Does (Writes []) body) :
    Does (Writes []) (untilSome body) :=
  does_untilSome round (fun _ q => q.stopped []) (fun _ _ q => ⟨q.part, fun _ => q.whole rfl, q.exits⟩)
    writes_none_nil fun _ _ _ q r => q.append r

theorem writes_pollResponce (port : Word) : Does (Writes []) (pollResponce port) := by
  unfold pollResponce
  split
  · exact writes_bind (writes_scIoread32 _) fun _ => writes_pure _
  · exact writes_pure none

theorem writes_writePacket (t : Transport) (a : ScAccessDs) :
    Does (Writes (Call.accessBramFW a).writes) (writePacket t a) := by
  unfold writePacket Call.writes
  cases base : iobram a.inputPort with
  | none => simpa [base] using writes_pure ()
  | some base' => simpa [base] using writes_scIowrite32 t (writeValue a, base' + 5 * 4)

theorem writes_scAccessBramFW (t : Transport) (a : ScAccessDs) :
    Does (Writes (Call.accessBramFW a).writes) (scAccessBramFW t a) := by
  rw [← List.append_nil (Call.writes _)]
  refine writes_bind (writes_writePacket t a) fun _ => ?_
  split
  · exact writes_pure a
  · exact writes_bind (writes_untilSome (writes_pollResponce _)) fun _ => writes_pure _

theorem writes_scAccessBram (t : Transport) (a : ScDirectAccessDs) :
    Does (Writes (Call.accessBram a).writes) (scAccessBram t a) := by
  unfold scAccessBram Call.writes
  cases base : iobramDirect a.bramNo with
  | none => simpa [base] using writes_pure a
  | some base' =>
    by_cases write : a.opCode = 0x0
    · simp only [base, if_pos write]
      exact writes_bind (writes_scIowrite32 t (a.data, base' + a.addr * 4)) fun _ => writes_pure a
    · simp only [if_neg write]
      exact writes_bind (writes_scIoread32 _) fun _ => writes_pure _

theorem writes_perform (t : Transport) (c : Call) : Does (Writes c.writes) (c.perform t) := by
  rw [← List.append_nil c.writes]
  cases c with
  | setupFW a => rw [List.append_nil]; exact writes_scSetupFW t a
  | accessBramFW a => exact writes_bind (writes_scAccessBramFW t a) fun _ => writes_pure ()
  | accessBram a => exact writes_bind (writes_scAccessBram t a) fun _ => writes_pure ()

theorem writes_calls (t : Transport) (calls : List Call) :
    Does (Writes (calls.flatMap Call.writes)) (calls.forM (Call.perform t)) :=
  does_forM (Q := fun c => Writes c.writes) (S := fun cs => Writes (cs.flatMap Call.writes))
    (writes_perform t) writes_some_nil (fun _ _ _ q => q.stopped _) (fun _ _ _ _ _ q r => q.append r)
    calls

end writes

/-- A read that returns has taken a reply. -/
theorem fewer_of_scIoread32 {address : BitVec 32} {s t : Session Nat SimpleAsyncPacket Reply}
    {d : Word} (h : scIoread32 address s = .ok d t) : t.replies.length < s.replies.length := by
  unfold scIoread32 at h
  rw [bind_ok (p := request AsyncCommand.read.code address 0) (a := ()) rfl] at h
  rcases replies : s.replies with _ | ⟨r, rest⟩ <;>
    simp only [Functor.map, EStateM.map, receive, replies] at h
  · cases h
  · cases h
    exact Nat.lt_succ_self _

/-! ### What becomes of a request -/

/-- The bytes of a data word as they lie in memory. -/
def wordBytes (w : Word) : List Byte :=
  [w.extractLsb' 0 8, w.extractLsb' 8 8, w.extractLsb' 16 8, w.extractLsb' 24 8]

/-- The request that the server makes of a packet's fields. -/
def requestOf (content : Content) : Request :=
  ⟨content.1, content.2.1, wordBytes content.2.2⟩

def requests (sent : List SimpleAsyncPacket) : List Request :=
  sent.map fun q => requestOf q.content

/-- The interface that is fed with what has been sent cannot fail to call the target for the
request `q`, which comes after the requests `before`: with a write of its bytes to its
address. -/
def Executed (sent before : List SimpleAsyncPacket) (q : SimpleAsyncPacket) : Prop :=
  (Cosim.fed (requests sent)).Inevitable (Cosim.Executing (requests before) (requestOf q.content))
    Cosim.new

theorem executed_iff_no_exit {before later : List SimpleAsyncPacket} {q : SimpleAsyncPacket}
    (write : q.command = AsyncCommand.write.code) :
    Executed (before ++ q :: later) before q ↔ ∀ p ∈ before, p.command ≠ AsyncCommand.exit.code := by
  have split : requests (before ++ q :: later) =
      requests before ++ requestOf q.content :: requests later := by simp [requests]
  unfold Executed
  rw [split, Cosim.executed_iff write]
  simp [requests, requestOf, SimpleAsyncPacket.content]

theorem done_scIowrite32 (t : Transport) (value : Word) (address : BitVec 32)
    (s : Session Nat SimpleAsyncPacket Reply) :
    (after (scIowrite32 t value address s)).done =
      s.done ++ [⟨s.memory, (writeContent (value, address)).1, .incompleteResponse, address, value⟩] := by
  unfold scIowrite32
  rw [bind_ok (p := request _ address value) (a := ()) rfl]
  split
  · rcases replies : s.replies with _ | ⟨r, rest⟩ <;>
      simp only [bind, EStateM.bind, receive, replies] <;> rfl
  · rfl

/-- Every call of `sc_iowrite32` is one request with its address and data word, an
`ASYNC_WRITE` unless the word is `0x80000000`. Of a sequence of calls the requests other than
reads are its writes in order, only the word `0x80000000` makes a request to leave, and an
`ASYNC_WRITE` is executed by the target if and only if no request to leave was sent before
it. -/
theorem driver_requests (t : Transport) :
    (∀ value address s, (after (scIowrite32 t value address s)).done =
      s.done ++ [⟨s.memory, (writeContent (value, address)).1, .incompleteResponse, address, value⟩]) ∧
    ∀ (calls : List Call) s, ∃ more,
      (after (calls.forM (Call.perform t) s)).done = s.done ++ more ∧
      sentWrites more <+: (calls.flatMap Call.writes).map writeContent ∧
      ((outcome (calls.forM (Call.perform t) s)).isSome →
        sentWrites more = (calls.flatMap Call.writes).map writeContent) ∧
      (∀ q ∈ more, q.command = AsyncCommand.exit.code ↔ q.data = 0x80000000) ∧
      ∀ before q later, s.done ++ more = before ++ q :: later →
        q.command = AsyncCommand.write.code →
          (Executed (s.done ++ more) before q ↔ ∀ p ∈ before, p.command ≠ AsyncCommand.exit.code) := by
  refine ⟨done_scIowrite32 t, fun calls s => ?_⟩
  obtain ⟨more, done, writes⟩ := writes_calls t calls s
  refine ⟨more, done, writes.part, writes.whole, writes.exits, fun before q later split write => ?_⟩
  rw [split]
  exact executed_iff_no_exit write

/-- In no transport are data words safe: a packet write of zero from port 1 to address 128 of
memory 1 goes out as `ASYNC_EXIT`. -/
theorem data_word_taken_for_exit :
    ¬ ∃ t : Transport, ∀ (calls : List Call) (s : Session Nat SimpleAsyncPacket Reply),
      ∀ q ∈ (after (calls.forM (Call.perform t) s)).done,
        q ∈ s.done ∨ q.command ≠ AsyncCommand.exit.code := by
  rintro ⟨t, claim⟩
  have sent := claim [.accessBramFW ⟨0, 1, 1, 0x80, 0⟩] ⟨0, [], []⟩
    ⟨0, 9, .incompleteResponse, 0x80000014, 0x80000000⟩
  cases t with
  | tcp | shm | posix =>
    rcases sent (by decide) with before | other
    · cases before
    · exact other rfl

end ScCosim.Driver
