import ScCosim.Firewall.Coherence

/-!
# One array behind two paths

To its client the device is an array of the 16-bit cells of the four memories. An access goes
over the direct path or over a port of the switch; a read over the switch is a packet and then
reads of the response register, until one does not bring the marker back.
-/
namespace ScCosim.Firewall

open Kernel Async

/-! ### The array -/

/-- The cells by their offset from the start of the first memory. -/
abbrev Cells := BitVec 14 → BitVec 16

/-- The memory of a cell. -/
def cellPort (x : BitVec 14) : Port := portOf (x.extractLsb' 12 2)

/-- Its index there. -/
def cellIndex (x : BitVec 14) : Word := (x.extractLsb' 0 12).zeroExtend 32

/-- The address of a cell in the direct windows. -/
def windowAddress (x : BitVec 14) : BitVec 64 := 0x40000000 + x.zeroExtend 64

/-- The cell that a packet names. -/
def packetCell (w : Word) : BitVec 14 := dest w ++ 0#2 ++ addrOffset w

def Cells.initial : Cells := fun x => (x.extractLsb' 0 12).zeroExtend 16

/-- What the client does, with what it is given back. -/
inductive Operation where
  | directWrite (x : BitVec 14) (v : Word)
  | directRead (x : BitVec 14) (v : Word)
  | packetWrite (i : Port) (w : Word) (write : opcode w = 0)
  /-- The register has shown the marker `polls` times before the answer `v`. -/
  | packetRead (i : Port) (w : Word) (read : opcode w = 1) (polls : Nat) (v : Word)
      (answer : v ≠ marker)
  /-- A write to a setup register of a rule. -/
  | setup (address : BitVec 64) (v : Word)
      (rule : ∃ i, address = fLP i ∨ address = fUP i ∨ address = fRP i)

/-- A 4-byte `b_transport` call without byte enables. -/
def transport (command : TlmCommand) (address : BitVec 64) (v : Word) : Transaction :=
  ⟨.bTransport, command, address, v, 4, false⟩

namespace Operation

/-- The calls of an access, with the data bytes that they leave. -/
def calls : Operation → List Transaction
  | directWrite x v => [transport .write (windowAddress x) v]
  | directRead x v => [transport .read (windowAddress x) v]
  | packetWrite i w _ => [transport .write (dWP i) w]
  | packetRead i w _ polls v _ =>
    transport .write (dWP i) w ::
      (List.replicate polls (transport .read (dRP i) marker) ++ [transport .read (dRP i) v])
  | setup address v _ => [transport .write address v]

/-- What an access leaves in the array: the low half of the word. -/
def apply (m : Cells) : Operation → Cells
  | directWrite x v => Function.update m x (data v)
  | packetWrite _ w _ => Function.update m (packetCell w) (data w)
  | directRead .. | packetRead .. | setup .. => m

/-- What a read brings back from the array. -/
def Returns (m : Cells) : Operation → Prop
  | directRead x v => v = (m x).zeroExtend 32
  | packetRead _ w _ _ v _ => data v = m (packetCell w)
  | directWrite .. | packetWrite .. | setup .. => True

end Operation

/-! ### The places of the cells -/

/-- The two upper bits of an offset are the number of the memory. -/
theorem cellPort_val (x : BitVec 14) : (cellPort x).val = x.toNat / 4096 := by
  have small := x.isLt
  have bits : (cellPort x).val = (x.extractLsb' 12 2).toNat := rfl
  rw [bits, BitVec.extractLsb'_toNat, Nat.shiftRight_eq_div_pow]
  omega

theorem cellIndex_toNat (x : BitVec 14) : (cellIndex x).toNat = x.toNat % 4096 := by
  have small : x.toNat % 4096 < 4096 := Nat.mod_lt _ (by decide)
  simp only [cellIndex, BitVec.zeroExtend, BitVec.toNat_setWidth, BitVec.extractLsb'_toNat,
    Nat.shiftRight_zero]
  omega

theorem windowAddress_toNat (x : BitVec 14) : (windowAddress x).toNat = 0x40000000 + x.toNat := by
  have small := x.isLt
  unfold windowAddress
  rw [BitVec.toNat_add, BitVec.zeroExtend, BitVec.toNat_setWidth]
  change (0x40000000 + x.toNat % 2 ^ 64) % 2 ^ 64 = _
  omega

theorem cell_injective {x y : BitVec 14} (port : cellPort x = cellPort y)
    (index : cellIndex x = cellIndex y) : x = y := by
  have upper := congrArg Fin.val port
  have lower := congrArg BitVec.toNat index
  rw [cellPort_val, cellPort_val] at upper
  rw [cellIndex_toNat, cellIndex_toNat] at lower
  apply BitVec.eq_of_toNat_eq
  omega

theorem directPort_windowAddress (x : BitVec 14) : directPort (windowAddress x) = some (cellPort x) := by
  have small := x.isLt
  have address := windowAddress_toNat x
  have port {k : Port} (same : x.toNat / 4096 = k.val) : some k = some (cellPort x) :=
    congrArg some (Fin.ext (same.symm.trans (cellPort_val x).symm))
  unfold directPort
  -- one window for each memory
  split_ifs with first second third fourth
  · exact port (by change _ = 0; bv_omega)
  · exact port (by change _ = 1; bv_omega)
  · exact port (by change _ = 2; bv_omega)
  · exact port (by change _ = 3; bv_omega)
  · exact absurd small (by bv_omega)

theorem index_windowAddress (x : BitVec 14) :
    (windowAddress x).truncate 32 - Device.memBase (cellPort x) = cellIndex x := by
  have small := x.isLt
  have base (k : Port) : (Device.memBase k).toNat = 0x40000000 + 0x1000 * k.val := by
    revert k
    decide
  apply BitVec.eq_of_toNat_eq
  rw [cellIndex_toNat, BitVec.toNat_sub, BitVec.truncate, BitVec.toNat_setWidth,
    windowAddress_toNat, base, cellPort_val]
  omega

theorem cellPort_packetCell (w : Word) : cellPort (packetCell w) = portOf (dest w) := by
  unfold cellPort packetCell
  congr 1
  grind

theorem cellIndex_packetCell (w : Word) :
    cellIndex (packetCell w) = (addrOffset w).zeroExtend 32 := by
  unfold cellIndex packetCell
  grind

theorem pack_data (v : BitVec 16) : pack 0 0 0 0 v = v.zeroExtend 32 := by
  unfold pack
  grind

/-! ### The array follows the calls -/

/-- The contents have the array in them. -/
def Agrees (c : Contents) (m : Cells) : Prop :=
  ∀ x, c.cell (cellPort x) (cellIndex x) = (m x).zeroExtend 32

section agrees

variable {c : Contents} {m : Cells}

theorem agrees_initial : Agrees .initial .initial := by
  intro x
  simp only [Contents.initial, Cells.initial, cellIndex]
  grind

theorem Agrees.store (h : Agrees c m) (x : BitVec 14) (v : Word) :
    Agrees (c.store (cellPort x) (cellIndex x) v) (Function.update m x (data v)) := by
  intro y
  simp only [Contents.store]
  by_cases same : y = x
  · subst same
    simp only [Function.update_self]
    exact pack_data (data v)
  rw [Function.update_of_ne same, ← h y]
  by_cases port : cellPort y = cellPort x
  · -- another cell of the same memory
    have index : cellIndex y ≠ cellIndex x := fun index => same (cell_injective port index)
    rw [port, Function.update_self, Function.update_of_ne index]
  · rw [Function.update_of_ne port]

/-- Reads leave the contents alone. -/
theorem after_reads {reads : List Transaction} (all : ∀ t ∈ reads, t.command = .read) :
    reads.foldl Contents.after c = c := by
  induction reads with
  | nil => rfl
  | cons t reads ih =>
    have first : c.after t = c := by
      apply Contents.after_of_not_write
      simp [all t (List.mem_cons_self ..)]
    rw [List.foldl_cons, first]
    exact ih fun u member => all u (List.mem_cons_of_mem t member)

private theorem sends_dWP (i : Port) (w : Word) : (transport .write (dWP i) w).Sends i w := by
  have above : directPort (dWP i) = none := by
    revert i
    decide
  have target : writeTarget (dWP i) = .packet i := by
    revert i
    decide
  exact ⟨rfl, above, target, rfl⟩

/-- The polls of an answer are reads. -/
private theorem polls_read (i : Port) (polls : Nat) (v : Word) :
    ∀ t ∈ List.replicate polls (transport .read (dRP i) marker) ++ [transport .read (dRP i) v],
      t.command = .read := by
  intro t member
  rcases List.mem_append.mp member with poll | last
  · rw [List.eq_of_mem_replicate poll]
    rfl
  · rw [List.mem_singleton.mp last]
    rfl

theorem Agrees.calls (h : Agrees c m) (o : Operation) :
    Agrees (o.calls.foldl Contents.after c) (o.apply m) := by
  cases o with
  | directRead x v => exact h
  | directWrite x v =>
    have reaches : (transport .write (windowAddress x) v).Reaches (cellPort x)
        ((windowAddress x).truncate 32) v := ⟨rfl, directPort_windowAddress x, rfl, rfl⟩
    have after := Contents.after_of_reaches (c := c) reaches
    rw [index_windowAddress] at after
    simp only [Operation.calls, List.foldl_cons, List.foldl_nil, after]
    exact h.store x v
  | packetWrite i w write =>
    have other : opcode w ≠ 1 := by simp [write]
    have after := Contents.after_of_sends (c := c) (sends_dWP i w)
    rw [Contents.packet_of_write other, ← cellPort_packetCell, ← cellIndex_packetCell] at after
    simp only [Operation.calls, List.foldl_cons, List.foldl_nil, after]
    exact h.store (packetCell w) w
  | packetRead i w read polls v =>
    have after := Contents.after_of_sends (c := c) (sends_dWP i w)
    simp only [Operation.calls, List.foldl_cons, after_reads (polls_read i polls v), after]
    intro x
    rw [(Contents.packet_of_read read).1]
    exact h x
  | setup address v rule =>
    suffices unchanged : c.after (transport .write address v) = c by
      simpa [Operation.calls, Operation.apply, unchanged] using h
    obtain ⟨i, own⟩ := rule
    have above : directPort address = none := by
      rcases own with rfl | rfl | rfl
      all_goals
        revert i
        decide
    have target : ∀ j, writeTarget address ≠ .packet j := by
      rcases own with rfl | rfl | rfl
      all_goals
        revert i
        decide
    -- neither a direct window nor a packet, so the last branch is left
    unfold Contents.after
    simp only [transport, above, if_true]

/-- What the calls of some operations leave is what the operations leave in the array. -/
theorem Agrees.operations (h : Agrees c m) (ops : List Operation) :
    Agrees ((ops.flatMap Operation.calls).foldl Contents.after c) (ops.foldl Operation.apply m) := by
  -- by induction on the operations, from the oldest one
  induction ops generalizing c m with
  | nil => exact h
  | cons o ops ih =>
    rw [List.flatMap_cons, List.foldl_append, List.foldl_cons]
    exact ih (h.calls o)

end agrees

/-! ### Every run -/

/-- The array after some operations. -/
def arrayAfter (ops : List Operation) : Cells := ops.foldl Operation.apply .initial

theorem agrees_of_operations (ops : List Operation) :
    Agrees (.ofLog (ops.flatMap Operation.calls)) (arrayAfter ops) :=
  agrees_initial.operations ops

/-- An operation among others has brought back what the ones before it have left. -/
theorem returns_of_right {before later : List Operation} {o : Operation}
    (right : Contents.Right ((before ++ o :: later).flatMap Operation.calls)) :
    o.Returns (arrayAfter before) := by
  have agrees := agrees_of_operations before
  rw [List.flatMap_append, List.flatMap_cons] at right
  cases o with
  | directWrite | packetWrite | setup => trivial
  | directRead x v =>
    have answers := right _ (transport .read (windowAddress x) v) _ rfl rfl rfl
    have value := answers.1 (cellPort x) (directPort_windowAddress x)
    have address : (transport .read (windowAddress x) v).address = windowAddress x := rfl
    rw [address, index_windowAddress, agrees x] at value
    exact value
  | packetRead i w read polls v answer =>
    let log := before.flatMap Operation.calls ++
      transport .write (dWP i) w :: List.replicate polls (transport .read (dRP i) marker)
    have split : before.flatMap Operation.calls ++
          ((Operation.packetRead i w read polls v answer).calls ++ later.flatMap Operation.calls) =
        log ++ transport .read (dRP i) v :: later.flatMap Operation.calls := by
      simp [log, Operation.calls]
    -- the polls before the last one have asked nothing
    have contents : Contents.ofLog log =
        (Contents.ofLog (before.flatMap Operation.calls)).packet i w := by
      simp only [log, Contents.ofLog, List.foldl_append, List.foldl_cons]
      rw [after_reads fun t poll => by rw [List.eq_of_mem_replicate poll]; rfl]
      exact Contents.after_of_sends (sends_dWP i w)
    have shown := (right log (transport .read (dRP i) v) _ split rfl rfl).2 i rfl
    rcases shown with pending | asked
    · exact absurd pending answer
    refine asked _ ?_
    rw [contents, (Contents.packet_of_read read).2, Function.update_self, ← cellPort_packetCell,
      ← cellIndex_packetCell, agrees (packetCell w)]
    congr 1
    unfold data
    grind

namespace Device

/-- For one client the device is an array: in every run without an enabled rule each read has
brought back what the operations before it have left, and between two calls the memories hold
the array. -/
theorem memory_is_coherent {as : List Action} {e : Device} (ops : List Operation)
    (hr : machine.run new as = some e) (off : e.RulesOff)
    (log : e.bus.returned = ops.flatMap Operation.calls) :
    (∀ before o later, ops = before ++ o :: later → o.Returns (arrayAfter before)) ∧
      (e.bus.client = .idle ∨ e.bus.client = .delay →
        ∀ x, e.mem (cellPort x) (cellIndex x) = (arrayAfter ops x).zeroExtend 32) := by
  obtain ⟨right, coherent⟩ := faithful_of_reachable ⟨as, hr⟩ off
  constructor
  · rintro before o later rfl
    exact returns_of_right (log ▸ right)
  · intro between x
    have mem : e.mem = e.settled.cell := by
      cases coherent with
      | idle client mem steady => exact mem
      | back client mem next => exact mem
      | thrown client => simp [client] at between
      | reading client => rcases client with client | client <;> simp [client] at between
      | writing _ proceeds =>
        rcases proceeds with ⟨client, -⟩ | ⟨client, -⟩ <;> simp [client] at between
    rw [mem, settled, log]
    exact agrees_of_operations ops x

/-- A word is written over the direct path, read over the switch from another port, and read
over the direct path. -/
def bothPaths : List Action :=
  cycle [] ++ cycle [] ++
    [call .write (windowAddress 5) 0x12340007, .run .executeWriteThread, .delta] ++
    cycle [] ++ cycle [] ++ cycle [.client] ++
    packetWrite 1 readFive ++ cycle [] ++ cycle [] ++ cycle [] ++ cycle [] ++ cycle [.client] ++
    registerRead (dRP 1) ++
    [call .read (windowAddress 5) 0, .run .executeReadThread, .delta] ++ cycle [] ++
    [.run .executeReadThread, .run .client, .delta]

def bothOperations : List Operation :=
  [.directWrite 5 0x12340007, .packetRead 1 readFive (by decide) 0 0x01610007 (by decide),
    .directRead 5 0x00000007]

theorem memory_is_coherent_of_both :
    (∀ before o later, bothOperations = before ++ o :: later → o.Returns (arrayAfter before)) ∧
      ((after bothPaths).bus.client = .idle ∨ (after bothPaths).bus.client = .delay →
        ∀ x, (after bothPaths).mem (cellPort x) (cellIndex x) =
          (arrayAfter bothOperations x).zeroExtend 32) := by
  have run : machine.run new bothPaths = some (after bothPaths) := run_from_new (by decide +kernel)
  have none : ∀ p, setupEntries p (after bothPaths).bus.served = [] := by decide +kernel
  have off : (after bothPaths).RulesOff := by
    intro p part within
    rw [none, List.prefix_nil] at within
    subst within
    simp [registersAfter, Triple.enabled]
  exact memory_is_coherent bothOperations run off (by decide +kernel)

end Device

end ScCosim.Firewall
