import ScCosim.Driver.Addresses
import ScCosim.Driver.Polling
import ScCosim.Driver.SharedMemory
import ScCosim.Firewall.Accesses

/-!
# The driver's calls on the array

To the functions of the driver the device is an array of words, four memories of 1024. The
direct path reaches all of them and the switch the first 256 of each; a word keeps 16 bits.
Whatever a call sends and is told while it returns is an access of the firewall's array, or
the setup of a rule, and what it returns is what the access has brought back.
-/
namespace ScCosim.Driver

open Kernel Program Async Firewall

/-! ### What the device does for a conversation -/

/-- The call of the target for an access and its reply. -/
def Access.transaction (a : Access) (r : Reply) : Transaction :=
  match a with
  | .write w => transport .write (w.2.zeroExtend 64) w.1
  | .read address => transport .read (address.zeroExtend 64) r.value

/-- Requests and replies of the shared-memory transports, and the calls of the target that
they stand for. Nobody waits for a reply to a request to leave. -/
inductive Told : List SimpleAsyncPacket → List Reply → List Transaction → Prop where
  | nil : Told [] [] []
  | waited {q : SimpleAsyncPacket} {qs : List SimpleAsyncPacket} {rs : List Reply}
      {ts : List Transaction} (a : Access) (r : Reply) (content : q.content = a.content)
      (rest : Told qs rs ts) : Told (q :: qs) (r :: rs) (a.transaction r :: ts)
  | left {q : SimpleAsyncPacket} {qs : List SimpleAsyncPacket} {rs : List Reply}
      {ts : List Transaction} (a : Access) (r : Reply) (content : q.content = a.content)
      (leaves : a.leaves = true) (rest : Told qs rs ts) :
      Told (q :: qs) rs (a.transaction r :: ts)

theorem Told.append {qs qs' : List SimpleAsyncPacket} {rs rs' : List Reply}
    {ts ts' : List Transaction} (h : Told qs rs ts) (h' : Told qs' rs' ts') :
    Told (qs ++ qs') (rs ++ rs') (ts ++ ts') := by
  induction h with
  | nil => exact h'
  | waited a r content _ ih => exact .waited a r content ih
  | left a r content leaves _ ih => exact .left a r content leaves ih

theorem content_injective {a b : Access} (same : a.content = b.content) : a = b := by
  have commands (w : Word × BitVec 32) : (writeContent w).1 ≠ AsyncCommand.read.code := by
    unfold writeContent
    split
    · exact (by decide : AsyncCommand.exit.code ≠ AsyncCommand.read.code)
    · exact (by decide : AsyncCommand.write.code ≠ AsyncCommand.read.code)
  cases a with
  | write w =>
    cases b with
    | write v =>
      simp only [Access.content, writeContent, Prod.mk.injEq] at same
      rw [Prod.ext same.2.2 same.2.1]
    | read x => exact absurd (congrArg Prod.fst same) (commands w)
  | read x =>
    cases b with
    | write v => exact absurd (congrArg Prod.fst same).symm (commands v)
    | read y => rw [show x = y from congrArg (fun c : Content => c.2.1) same]

/-- While nobody leaves, the requests and the replies determine the calls. -/
theorem Told.calls {qs : List SimpleAsyncPacket} {rs : List Reply} {ts : List Transaction}
    (h : Told qs rs ts) {accesses : List Access} (stay : ∀ a ∈ accesses, a.leaves = false)
    (same : qs.map SimpleAsyncPacket.content = accesses.map Access.content) :
    ts = List.zipWith Access.transaction accesses rs := by
  induction h generalizing accesses with
  | nil => rw [List.map_eq_nil_iff.mp same.symm]; rfl
  | waited a r content _ ih =>
    obtain ⟨b, bs, rfl, first, rest⟩ := List.map_eq_cons_iff.mp same.symm
    obtain rfl := content_injective (first.trans content)
    rw [ih (fun c member => stay c (List.mem_cons_of_mem _ member)) rest.symm]
    rfl
  | left a r content leaves =>
    obtain ⟨b, bs, rfl, first, -⟩ := List.map_eq_cons_iff.mp same.symm
    obtain rfl := content_injective (first.trans content)
    simp [stay b List.mem_cons_self] at leaves

/-- Whenever `p` returns, the calls of the target and its value meet `P`. -/
def Makes {α : Type} (P : α → List Transaction → Prop) (p : Io α) : Prop :=
  Converses (fun a u r => ∃ ts, Told u r ts ∧ P a ts) p

section makes

variable {α β : Type}

theorem makes_pure {P : α → List Transaction → Prop} {a : α} (h : P a []) :
    Makes P (pure a : Io α) :=
  converses_pure ⟨[], .nil, h⟩

theorem makes_bind {P : α → List Transaction → Prop} {Q : α → β → List Transaction → Prop}
    {S : β → List Transaction → Prop} {p : Io α} {f : α → Io β} (first : Makes P p)
    (rest : ∀ a, Makes (Q a) (f a)) (both : ∀ a b ts us, P a ts → Q a b us → S b (ts ++ us)) :
    Makes S (p >>= f) := by
  refine converses_bind first rest ?_
  rintro a b u v r q ⟨ts, told, held⟩ ⟨us, more, holds⟩
  exact ⟨ts ++ us, told.append more, both a b ts us held holds⟩

theorem makes_untilSome {P : Option α → List Transaction → Prop} {Q : α → List Transaction → Prop}
    {body : Io (Option α)} (round : Makes P body) (ends : ∀ a ts, P (some a) ts → Q a ts)
    (goesOn : ∀ a ts us, P none ts → Q a us → Q a (ts ++ us)) : Makes Q (untilSome body) := by
  refine converses_untilSome round ?_ ?_
  · rintro a u r ⟨ts, told, held⟩
    exact ⟨ts, told, ends a ts held⟩
  · rintro a u v r q ⟨ts, told, held⟩ ⟨us, more, holds⟩
    exact ⟨ts ++ us, told.append more, goesOn a ts us held holds⟩

theorem converses_request (command : Byte) (address : BitVec 32) (data : Word) :
    Converses (fun _ u r => ∃ q : SimpleAsyncPacket, u = [q] ∧ r = [] ∧
      q.content = (command, address, data)) (request command address data) := by
  rintro s b t ⟨⟩
  exact ⟨[_], [], rfl, rfl, _, rfl, rfl, rfl⟩

theorem makes_scIowrite32 (w : Word × BitVec 32) :
    Makes (fun _ ts => ts = [transport .write (w.2.zeroExtend 64) w.1])
      (scIowrite32 .shm w.1 w.2) := by
  refine converses_bind (P := fun _ _ v r => v = [] ∧
    (r = [] ∧ (Access.write w).leaves = true ∨ ∃ reply, r = [reply]))
    (converses_request _ w.2 w.1) (fun _ => ?_) ?_
  · split
    · refine converses_bind (P := fun _ _ v r => v = [] ∧ r = []) (Q := fun a u r => u = [] ∧ r = [a])
        (converses_receive fun r => ⟨rfl, rfl⟩) (fun a => converses_pure ⟨rfl, rfl⟩) ?_
      rintro reply _ u v r q ⟨rfl, rfl⟩ ⟨rfl, rfl⟩
      exact ⟨rfl, Or.inr ⟨reply, rfl⟩⟩
    · next leaves => exact converses_pure ⟨rfl, Or.inl ⟨rfl, by simpa [Access.leaves] using leaves⟩⟩
  · rintro _ _ u v r q ⟨packet, rfl, rfl, content⟩ ⟨rfl, ⟨rfl, leaves⟩ | ⟨reply, rfl⟩⟩
    · exact ⟨_, .left (.write w) ⟨.okResponse, 0⟩ content leaves .nil, rfl⟩
    · exact ⟨_, .waited (.write w) reply content .nil, rfl⟩

theorem makes_scIoread32 (address : BitVec 32) :
    Makes (fun d ts => ts = [transport .read (address.zeroExtend 64) d]) (scIoread32 address) := by
  rintro ⟨id, done, _ | ⟨r, rest⟩⟩ d t run
  · cases run
  · cases run
    exact ⟨[_], [r], rfl, rfl, _, .waited (.read address) r rfl .nil, rfl⟩

end makes

/-! ### The array -/

/-- A word of one of the memories, which are counted from 1. -/
def wordCell (no : Word) (address : Nat) : BitVec 14 :=
  BitVec.ofNat 14 (0x1000 * (no - 1).toNat + 4 * address)

/-- One of the four ports, or of the four memories. -/
def Known (no : Word) : Prop := 0 < no.toNat ∧ no.toNat ≤ 4

instance (no : Word) : Decidable (Known no) := inferInstanceAs (Decidable (_ ∧ _))

namespace Call

/-- The call with the data that its structure comes back with. -/
def fetch : Call → Io (Option Word)
  | .setupFW a => do
    scSetupFW .shm a
    return none
  | .accessBramFW a => do
    let b ← scAccessBramFW .shm a
    return some b.data
  | .accessBram a => do
    let b ← scAccessBram .shm a
    return some b.data

/-- The ports and memories exist, a direct address is one of the 1024 words, and data for the
switch leaves the header of its packet alone. -/
def Inside : Call → Prop
  | .setupFW a => Known a.inputPort
  | .accessBramFW a =>
    Known a.inputPort ∧ Known a.outputPort ∧ (a.opCode = 0 → a.data.toNat < 2 ^ 16)
  | .accessBram a => Known a.bramNo ∧ a.addr.toNat < 0x400

/-- What a call leaves in the array. -/
def store (m : Cells) : Call → Cells
  | .setupFW _ => m
  | .accessBramFW a =>
    if a.opCode = 0 then
      Function.update m (wordCell a.outputPort (a.addr.toNat % 256)) (Firewall.data a.data)
    else m
  | .accessBram a =>
    if a.opCode = 0 then Function.update m (wordCell a.bramNo a.addr.toNat) (Firewall.data a.data)
    else m

/-- What a call returns from the array. -/
def result (m : Cells) : Call → Option Word
  | .setupFW _ => none
  | .accessBramFW a =>
    some (if a.opCode = 0 then a.data
      else (m (wordCell a.outputPort (a.addr.toNat % 256))).zeroExtend 32)
  | .accessBram a =>
    some (if a.opCode = 0 then a.data else (m (wordCell a.bramNo a.addr.toNat)).zeroExtend 32)

end Call

/-- What some calls return, one after the other. -/
def results (m : Cells) : List Call → List (Option Word)
  | [] => []
  | c :: cs => c.result m :: results (c.store m) cs

/-! ### Places -/

theorem inport_of_known {no : Word} (h : Known no) : ∃ p, no = inport p :=
  inport_of_range h.1 h.2

theorem toNat_wordCell (k : Port) {address : Nat} (inside : address < 0x400) :
    (wordCell (inport k) address).toNat = 0x1000 * k + 4 * address := by
  have few := k.isLt
  rw [wordCell, inport_sub_one, BitVec.toNat_ofNat]
  omega

theorem windowAddress_wordCell (k : Port) {address : Word} (inside : address.toNat < 0x400) :
    ∃ base, iobramDirect (inport k) = some base ∧
      (base + address * 4).zeroExtend 64 = windowAddress (wordCell (inport k) address.toNat) := by
  have base : iobramDirect (inport k) = some (Device.memBase k) ∧
      (Device.memBase k).toNat = 0x40000000 + 0x1000 * k := by
    revert k
    decide
  refine ⟨_, base.1, BitVec.eq_of_toNat_eq ?_⟩
  have few := k.isLt
  rw [windowAddress_toNat, toNat_wordCell k inside, BitVec.zeroExtend, BitVec.toNat_setWidth,
    toNat_direct inside, base.2]
  omega

theorem registers_of_port (p : Port) : ∃ base, iobram (inport p) = some base ∧
    (base + 5 * 4).zeroExtend 64 = dWP p ∧ (base + 7 * 4).zeroExtend 64 = dRP p := by
  refine ⟨0x80000000 + 0x1000 * BitVec.ofNat 32 p, ?_⟩
  revert p
  decide

/-- The packet that a call sends. -/
structure Fields (a : ScAccessDs) (k : Port) : Prop where
  opcode : (opcode (writeValue a)).toNat = if a.opCode = 0 then 0 else 1
  cell : packetCell (writeValue a) = wordCell (inport k) (a.addr.toNat % 256)
  data : a.opCode = 0 → Firewall.data (writeValue a) = Firewall.data a.data

theorem fields_of_inside {a : ScAccessDs} {p k : Port} (input : a.inputPort = inport p)
    (output : a.outputPort = inport k) (small : a.opCode = 0 → a.data.toNat < 2 ^ 16) :
    Fields a k := by
  have few := p.isLt
  have few' := k.isLt
  have word : (writeValue a).toNat = (a.addr.toNat * 2 ^ 24 + p * 2 ^ 18 + k * 2 ^ 16 +
      (if a.opCode = 0 then a.data else 0x100000 : Word).toNat) % 2 ^ 32 := by
    rw [writeValue_eq, toNat_sum, input, output, inport_sub_one, inport_sub_one]
  have payload : (if a.opCode = 0 then a.data else 0x100000 : Word).toNat =
      if a.opCode = 0 then a.data.toNat else 2 ^ 20 := by split <;> rfl
  rw [payload] at word
  have dest : (dest (writeValue a)).toNat = k := by
    rw [toNat_dest, word]
    split
    · next write => have := small write; omega
    · omega
  have offset : (addrOffset (writeValue a)).toNat = 4 * (a.addr.toNat % 256) := by
    rw [toNat_addrOffset, word]
    split
    · next write => have := small write; omega
    · omega
  refine ⟨?_, cell_injective ?_ ?_, fun write => BitVec.eq_of_toNat_eq ?_⟩
  · rw [toNat_opcode, word]
    split
    · next write => have := small write; omega
    · omega
  · rw [cellPort_packetCell]
    refine Fin.ext ?_
    rw [cellPort_val, toNat_wordCell k (by omega)]
    change (Firewall.dest (writeValue a)).toNat = _
    rw [dest]
    omega
  · rw [cellIndex_packetCell]
    apply BitVec.eq_of_toNat_eq
    rw [cellIndex_toNat, toNat_wordCell k (by omega), BitVec.zeroExtend, BitVec.toNat_setWidth, offset]
    omega
  · have := small write
    rw [toNat_data, toNat_data, word, if_pos write]
    omega

/-! ### Accesses of the array -/

/-- Each read brings back what the operations before it have left. -/
def Answered (m : Cells) : List Operation → Prop
  | [] => True
  | o :: os => o.Returns m ∧ Answered (o.apply m) os

theorem answered_append {m : Cells} {os ps : List Operation} :
    Answered m (os ++ ps) ↔ Answered m os ∧ Answered (os.foldl Operation.apply m) ps := by
  induction os generalizing m with
  | nil => simp [Answered]
  | cons o os ih => simp only [List.cons_append, Answered, ih, List.foldl_cons, and_assoc]

theorem answered_of_right {before ops : List Operation}
    (right : Contents.Right ((before ++ ops).flatMap Operation.calls)) :
    Answered (arrayAfter before) ops := by
  induction ops generalizing before with
  | nil => trivial
  | cons o ops ih =>
    have rest : Answered (arrayAfter (before ++ [o])) ops := ih (by simpa using right)
    refine ⟨returns_of_right right, ?_⟩
    rwa [arrayAfter, List.foldl_append] at rest

/-- The calls of the target are accesses of the array that leave `store` and return `result`. -/
def Acts {α : Type} (store : Cells → Cells) (result : Cells → α) (a : α) (ts : List Transaction) :
    Prop :=
  ∃ ops : List Operation, ts = ops.flatMap Operation.calls ∧
    ∀ m, ops.foldl Operation.apply m = store m ∧ (Answered m ops → a = result m)

section acts

variable {α β : Type} {store : Cells → Cells} {result : Cells → α}

theorem acts_nil {a : α} : Acts id (fun _ => a) a [] := ⟨[], rfl, fun _ => ⟨rfl, fun _ => rfl⟩⟩

theorem Acts.append {store' : Cells → Cells} {result' : Cells → β} {a : α} {b : β}
    {ts us : List Transaction} (first : Acts store result a ts) (rest : Acts store' result' b us) :
    Acts (fun m => store' (store m)) (fun m => (result m, result' (store m))) (a, b) (ts ++ us) := by
  obtain ⟨ops, rfl, before⟩ := first
  obtain ⟨more, rfl, after⟩ := rest
  refine ⟨ops ++ more, by rw [List.flatMap_append], fun m => ?_⟩
  rw [List.foldl_append, (before m).1, answered_append, (before m).1]
  refine ⟨(after _).1, fun ⟨answered, more⟩ => ?_⟩
  rw [(after _).2 more, (before m).2 answered]

theorem Acts.map {a : α} {ts : List Transaction} (h : Acts store result a ts) (f : α → β) :
    Acts store (fun m => f (result m)) (f a) ts := by
  obtain ⟨ops, made, acts⟩ := h
  exact ⟨ops, made, fun m => ⟨(acts m).1, fun answered => congrArg f ((acts m).2 answered)⟩⟩

theorem makes_map {P : α → List Transaction → Prop} {Q : β → List Transaction → Prop} {p : Io α}
    {f : α → β} (h : Makes P p) (weaker : ∀ a ts, P a ts → Q (f a) ts) :
    Makes Q (do
      let a ← p
      return f a) := by
  refine makes_bind (Q := fun a b us => b = f a ∧ us = []) h (fun a => makes_pure ⟨rfl, rfl⟩) ?_
  rintro a _ ts _ held ⟨rfl, rfl⟩
  rw [List.append_nil]
  exact weaker a ts held

/-! ### The three functions -/

theorem makes_writes (ws : List (Word × BitVec 32)) :
    Makes (fun _ ts => ts = ws.map fun w => transport .write (w.2.zeroExtend 64) w.1)
      (ws.forM fun w => scIowrite32 .shm w.1 w.2) := by
  induction ws with
  | nil => exact makes_pure rfl
  | cons w ws ih =>
    refine makes_bind (makes_scIowrite32 w) (fun _ => ih) ?_
    rintro _ _ ts us rfl rfl
    rfl

theorem makes_scSetupFW {a : ScFwDs} (inside : Known a.inputPort) :
    Makes (Acts id fun _ => none) ((Call.setupFW a).fetch) := by
  have reset : Makes (fun _ ts => ts = []) resetIdCounter := by
    rintro s b t ⟨⟩
    exact ⟨[], [], (List.append_nil _).symm, rfl, [], .nil, rfl⟩
  have writes : Makes (fun _ ts => ts = (setupWrites a).map fun w =>
      transport .write (w.2.zeroExtend 64) w.1) (scSetupFW .shm a) := by
    refine makes_bind reset (fun _ => makes_writes _) ?_
    rintro _ _ ts us rfl rfl
    rfl
  refine makes_map writes ?_
  rintro _ _ rfl
  obtain ⟨p, port⟩ := inport_of_known inside
  -- the three registers of the port
  have registers : ∀ p : Port,
      (nocSetupRegisters + startingRuleReg + (inport p - 1) * (2 * 4)).zeroExtend 64 = fRP p ∧
      (nocSetupRegisters + startingLowerReg + (inport p - 1) * (2 * 4)).zeroExtend 64 = fLP p ∧
      (nocSetupRegisters + startingHighReg + (inport p - 1) * (2 * 4)).zeroExtend 64 = fUP p := by
    decide
  obtain ⟨rule, lower, upper⟩ := registers p
  refine ⟨[.setup (fRP p) 0 ⟨p, by simp⟩, .setup (fLP p) a.lAddrReg ⟨p, by simp⟩,
    .setup (fUP p) a.hAddrReg ⟨p, by simp⟩, .setup (fRP p) a.ruleReg ⟨p, by simp⟩], ?_,
    fun m => ⟨rfl, fun _ => rfl⟩⟩
  simp only [setupWrites, port, List.map_cons, List.map_nil, rule, lower, upper]
  rfl

theorem makes_scAccessBram {a : ScDirectAccessDs} (inside : (Call.accessBram a).Inside) :
    Makes (Acts (Call.accessBram a).store (Call.accessBram a).result) (Call.accessBram a).fetch := by
  obtain ⟨k, memory⟩ := inport_of_known inside.1
  obtain ⟨base, known, address⟩ := windowAddress_wordCell k inside.2
  rw [← memory] at known address
  have call : Makes (fun b ts => Acts (Call.accessBram a).store (Call.accessBram a).result
      (some b.data) ts) (scAccessBram .shm a) := by
    unfold scAccessBram
    rw [known]
    by_cases write : a.opCode = 0x0
    · simp only [if_pos write]
      refine makes_map (makes_scIowrite32 (a.data, base + a.addr * 4)) ?_
      rintro _ _ rfl
      rw [address]
      refine ⟨[.directWrite (wordCell a.bramNo a.addr.toNat) a.data], rfl, fun m => ⟨?_, fun _ => ?_⟩⟩
      · simp [Call.store, write, Operation.apply]
      · simp [Call.result, write]
    · simp only [if_neg write]
      refine makes_map (makes_scIoread32 (base + a.addr * 4)) ?_
      rintro d _ rfl
      rw [address]
      refine ⟨[.directRead (wordCell a.bramNo a.addr.toNat) d], rfl, fun m => ⟨?_, fun read => ?_⟩⟩
      · simp only [Call.store, if_neg write]
        rfl
      · have value : d = (m (wordCell a.bramNo a.addr.toNat)).zeroExtend 32 := read.1
        simp only [Call.result, if_neg write, value]
  exact makes_map call fun _ _ made => made

/-- The response register is read until it does not show the marker. -/
theorem makes_poll {port : Word} {base : BitVec 32} (known : iobram port = some base) :
    Makes (fun d ts => d ≠ marker ∧ ∃ polls,
        ts = List.replicate polls (transport .read ((base + 7 * 4).zeroExtend 64) marker) ++
          [transport .read ((base + 7 * 4).zeroExtend 64) d])
      (untilSome (pollResponce port)) := by
  have round : Makes (fun d ts => ∃ seen, d = (if seen = 0x80000000 then none else some seen) ∧
      ts = [transport .read ((base + 7 * 4).zeroExtend 64) seen]) (pollResponce port) := by
    unfold pollResponce
    rw [known]
    exact makes_map (makes_scIoread32 _) fun seen ts made => ⟨seen, rfl, made⟩
  refine makes_untilSome round ?_ ?_
  · rintro d _ ⟨seen, shown, rfl⟩
    split at shown
    · cases shown
    · next answer =>
      obtain rfl := Option.some.inj shown
      exact ⟨answer, 0, rfl⟩
  · rintro d _ _ ⟨seen, shown, rfl⟩ ⟨answer, polls, rfl⟩
    split at shown
    · next pending =>
      subst pending
      exact ⟨answer, polls + 1, rfl⟩
    · cases shown

theorem makes_scAccessBramFW {a : ScAccessDs} (inside : (Call.accessBramFW a).Inside) :
    Makes (Acts (Call.accessBramFW a).store (Call.accessBramFW a).result)
      (Call.accessBramFW a).fetch := by
  obtain ⟨p, input⟩ := inport_of_known inside.1
  obtain ⟨k, output⟩ := inport_of_known inside.2.1
  obtain ⟨base, known, packet, response⟩ := registers_of_port p
  have fields := fields_of_inside input output inside.2.2
  rw [← input] at known
  have sends : Makes (fun _ ts => ts = [transport .write (dWP p) (writeValue a)])
      (writePacket .shm a) := by
    unfold writePacket
    rw [known, ← packet]
    exact makes_scIowrite32 (writeValue a, base + 5 * 4)
  have call : Makes (fun b ts => Acts (Call.accessBramFW a).store (Call.accessBramFW a).result
      (some b.data) ts) (scAccessBramFW .shm a) := by
    unfold scAccessBramFW
    by_cases write : a.opCode = 0x0
    · simp only [if_pos write]
      have code : opcode (writeValue a) = 0 := by
        apply BitVec.eq_of_toNat_eq
        rw [fields.opcode, if_pos write]
        rfl
      refine makes_map sends ?_
      rintro _ _ rfl
      refine ⟨[.packetWrite p (writeValue a) code], rfl, fun m => ⟨?_, fun _ => ?_⟩⟩
      · simp [Call.store, write, Operation.apply, fields.cell, fields.data write, output]
      · simp [Call.result, write]
    · simp only [if_neg write]
      have code : opcode (writeValue a) = 1 := by
        apply BitVec.eq_of_toNat_eq
        rw [fields.opcode, if_neg write]
        rfl
      have answer : Makes (fun b ts => ∃ d, b = { a with data := printData d } ∧ d ≠ marker ∧
          ∃ polls, ts = List.replicate polls (transport .read (dRP p) marker) ++
            [transport .read (dRP p) d]) (do
          let testData ← untilSome (pollResponce a.inputPort)
          return { a with data := printData testData }) := by
        rw [← response]
        exact makes_map (makes_poll known) fun d ts made => ⟨d, rfl, made⟩
      refine makes_bind sends (fun _ => answer) ?_
      rintro _ _ _ _ rfl ⟨d, rfl, answers, polls, rfl⟩
      refine ⟨[.packetRead p (writeValue a) code polls d answers], ?_, fun m => ⟨?_, fun read => ?_⟩⟩
      · simp [Operation.calls]
      · simp only [Call.store, if_neg write]
        rfl
      · have value : Firewall.data d = m (packetCell (writeValue a)) := read.1
        have low : printData d = (Firewall.data d).zeroExtend 32 := Kern.printData_eq d
        simp only [Call.result, if_neg write, low, value, fields.cell, output]
  exact makes_map call fun _ _ made => made

theorem makes_fetch {c : Call} (inside : c.Inside) : Makes (Acts c.store c.result) c.fetch := by
  cases c with
  | setupFW a => exact makes_scSetupFW inside
  | accessBramFW a => exact makes_scAccessBramFW inside
  | accessBram a => exact makes_scAccessBram inside

/-- One call after the other. -/
theorem makes_calls {calls : List Call} (inside : ∀ c ∈ calls, c.Inside) :
    Makes (Acts (fun m => calls.foldl Call.store m) fun m => results m calls)
      (calls.mapM Call.fetch) := by
  induction calls with
  | nil => exact makes_pure acts_nil
  | cons c calls ih =>
    obtain ⟨first, rest⟩ := List.forall_mem_cons.mp inside
    rw [List.mapM_cons]
    refine makes_bind (makes_fetch first) (Q := fun r b us => ∃ rs, b = r :: rs ∧
      Acts (fun m => calls.foldl Call.store m) (fun m => results m calls) rs us)
      (fun r => makes_map (ih rest) fun rs us made => ⟨rs, rfl, made⟩) ?_
    rintro r _ ts us acts ⟨rs, rfl, more⟩
    exact (acts.append more).map fun pair => pair.1 :: pair.2

end acts

/-! ### Over shared memory -/

namespace Shm

/-- The calls that have returned. -/
def finished (s : Shm) : List Access := s.calls.take s.returned.length

/-- What they were told. -/
def heard (s : Shm) : List Reply := s.returned.map fun r => ⟨r.1, r.2.getD 0⟩

/-- The driver's functions have sent the requests of the calls that have returned, and these
were told what the functions go by: `results` is what the functions have returned. -/
def Performs (s : Shm) (calls : List Call) (results : List (Option Word)) : Prop :=
  ∃ first last sent, calls.mapM Call.fetch ⟨first, [], s.heard⟩ = .ok results ⟨last, sent, []⟩ ∧
    sent.map SimpleAsyncPacket.content = s.finished.map Access.content

theorem results_of_performs {s : Shm} {calls : List Call} {results : List (Option Word)}
    (inside : ∀ c ∈ calls, c.Inside) (stay : ∀ a ∈ s.finished, a.leaves = false)
    (performs : s.Performs calls results)
    (right : Contents.Right (List.zipWith Access.transaction s.finished s.heard)) :
    results = Driver.results .initial calls := by
  obtain ⟨first, last, sent, run, same⟩ := performs
  obtain ⟨u, r, done, taken, ts, told, ops, rfl, acts⟩ := makes_calls inside _ _ _ run
  obtain rfl : sent = u := done
  obtain rfl : s.heard = r := by simpa using taken
  have calls := told.calls stay same
  rw [← calls] at right
  have answered : Answered (arrayAfter []) ops := answered_of_right right
  exact (acts .initial).2 answered

end Shm

end ScCosim.Driver
