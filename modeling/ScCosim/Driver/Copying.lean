import ScCosim.Driver.Events
import ScCosim.Driver.Polling
import ScCosim.Kernel.Memory
import Mathlib.Tactic.SplitIfs

/-!
# Copies from and to user memory that fail

`copy_from_user` and `copy_to_user` return the number of bytes they could not copy. The
entry point again, with these numbers: a case calls its function on whatever the structure
holds, copies the structure back and returns what the second copy returns. Only the case
that sets up a rule returns the number of the first.
-/
namespace ScCosim.Driver.Kern.Copying

open Kernel Program Firewall

/-- `_IOC_SIZE(cmd)` -/
def iocSize (cmd : Word) : Nat := ((cmd >>> 16) &&& 0x3fff).toNat

/-- The two copies of a call: the bytes at the user's address, what the structure holds
where none is copied to it, and how many bytes each copy leaves. -/
structure Copies (cmd : Word) where
  user : Memory
  stack : Memory
  fromUser : Fin (iocSize cmd + 1)
  toUser : Fin (iocSize cmd + 1)

/-- The words that bytes stand for. -/
def words (m : Memory) : UserWords := fun i => BitVec.ofNat 32 (Memory.value (m.load (4 * i) 4))

/-- The structure after `copy_from_user`. -/
def Copies.received {cmd : Word} (x : Copies cmd) : UserWords :=
  words fun j => if j < iocSize cmd - x.fromUser then x.user j else x.stack j

/-- The function that a case calls, and the structure after it. -/
def call (init : InitStat) (gid : Word) (u : UserWords) : Command → Io (List Word)
  | .setupFwPort => do
    setupFW gid (.ofUser u)
    return (FwDs.ofUser u).toUser
  | .checkFwPort => do
    let (_, a) ← checkFWRegs gid (.ofUser u)
    return a.toUser
  | .directAccessBram => do
    let a ← accessBram gid (directAccessDsOfUser u)
    return directAccessDsToUser a
  | .accessBram => do
    let a ← accessBramFW gid (accessDsOfUser u)
    return accessDsToUser a
  | .readFwPort => do
    let a ← readFWRegs gid (.ofUser u)
    return a.toUser
  | .readStats => do
    let a ← readStatsPerPort init gid (.ofUser u)
    return a.toUser
  | .readStatsAll => do
    let a ← readStatsPerAllPorts init gid (.ofUser u)
    return a.toUser

def serve (init : InitStat) (gid : Word) {cmd : Word} (x : Copies cmd) (c : Command) : Io Int := do
  let structure_ ← call init gid x.received c
  -- the result of the first copy is overwritten in every other case
  if c = .setupFwPort then
    return x.fromUser
  else
    copyToUser structure_
    return x.toUser

def myUnlockedIoctl (init : InitStat) (gid : Word) {cmd : Word} (x : Copies cmd) : Io Int :=
  match Command.ofCode cmd with
  | some c => serve init gid x c
  | none => return einval

/-- If nothing is left, this is the entry point as before. -/
theorem myUnlockedIoctl_copied (init : InitStat) (gid : Word) {cmd : Word} (x : Copies cmd)
    (fromUser : x.fromUser = 0) (toUser : x.toUser = 0) :
    myUnlockedIoctl init gid x = Kern.myUnlockedIoctl init gid cmd x.received := by
  have first : ((x.fromUser : Nat) : Int) = 0 := by rw [fromUser]; rfl
  have second : ((x.toUser : Nat) : Int) = 0 := by rw [toUser]; rfl
  unfold myUnlockedIoctl Kern.myUnlockedIoctl
  cases Command.ofCode cmd with
  | none => rfl
  | some c =>
    cases c <;> simp only [serve, call, Kern.serve, bind_assoc, pure_bind, first, second,
      reduceCtorEq, if_true, if_false]

theorem received_of_copied {cmd : Word} (x : Copies cmd) {i : Nat}
    (copied : 4 * i + 4 ≤ iocSize cmd - x.fromUser) : x.received i = words x.user i := by
  unfold Copies.received words
  congr 2
  apply Memory.load_congr
  intro k inside
  rw [if_pos]
  omega

/-! ### Where the bytes of the structure come from -/

theorem iocSize_code (c : Command) :
    iocSize c.code = match c with
      | .setupFwPort | .checkFwPort | .readFwPort => 24
      | .accessBram => 20
      | .directAccessBram | .readStats | .readStatsAll => 16 := by
  cases c <;> decide

/-- How many words at the end of the structure the function stores from registers. -/
def fromDevice (u : UserWords) : Command → Nat
  | .setupFwPort => 0
  | .checkFwPort | .readFwPort | .readStatsAll => 3
  | .directAccessBram =>
    if (directAccessDsOfUser u).opCode = 0 ∨ numbered (directAccessDsOfUser u).bramNo = none then 0
    else 1
  | .accessBram => if (accessDsOfUser u).opCode = 0 then 0 else 1
  | .readStats => if numbered (StatDs.ofUser u).port = none then 0 else 3

/-- A byte of the structure that was copied in or read from the device. -/
def Copies.Received {cmd : Word} (x : Copies cmd) (c : Command) (j : Nat) : Prop :=
  j < iocSize cmd - x.fromUser ∨ iocSize cmd - 4 * fromDevice x.received c ≤ j

section keeps

variable {init : InitStat} {gid : Word} {s t : Session Unit Event Contents}

theorem readFWRegs_keeps {a b : FwDs} (run : readFWRegs gid a s = .ok b t) :
    ∃ l h r, b = { a with lAddrReg := l, hAddrReg := h, ruleReg := r } := by
  unfold readFWRegs at run
  split_ifs at run
  · obtain ⟨l, _, -, run⟩ := bind_eq_ok run
    obtain ⟨h, _, -, run⟩ := bind_eq_ok run
    obtain ⟨r, _, -, run⟩ := bind_eq_ok run
    cases run
    exact ⟨l, h, r, rfl⟩
  · obtain ⟨_, _, -, run⟩ := bind_eq_ok run
    cases run
    exact ⟨a.lAddrReg, a.hAddrReg, a.ruleReg, rfl⟩

theorem checkFWRegs_keeps {a : FwDs} {b : Int × FwDs} (run : checkFWRegs gid a s = .ok b t) :
    ∃ l h r, b.2 = { a with lAddrReg := l, hAddrReg := h, ruleReg := r } := by
  unfold checkFWRegs at run
  split_ifs at run
  · obtain ⟨b', _, read, run⟩ := bind_eq_ok run
    cases run
    exact readFWRegs_keeps read
  · obtain ⟨_, _, -, run⟩ := bind_eq_ok run
    cases run
    exact ⟨a.lAddrReg, a.hAddrReg, a.ruleReg, rfl⟩

theorem accessBram_keeps {a b : DirectAccessDs} (run : accessBram gid a s = .ok b t) :
    (∃ d, b = { a with data := d }) ∧ (a.opCode = 0 ∨ numbered a.bramNo = none → b = a) := by
  unfold accessBram at run
  obtain ⟨_, _, -, run⟩ := bind_eq_ok run
  cases known : numbered a.bramNo with
  | none =>
    rw [known] at run
    cases run
    exact ⟨⟨a.data, rfl⟩, fun _ => rfl⟩
  | some n =>
    rw [known] at run
    simp only at run
    split_ifs at run with write
    · obtain ⟨_, _, -, run⟩ := bind_eq_ok run
      obtain ⟨_, _, -, run⟩ := bind_eq_ok run
      cases run
      exact ⟨⟨a.data, rfl⟩, fun _ => rfl⟩
    · obtain ⟨d, _, -, run⟩ := bind_eq_ok run
      cases run
      refine ⟨⟨d, rfl⟩, ?_⟩
      rintro (zero | absent)
      · exact absurd zero write
      · cases absent

theorem accessBramFW_keeps {a b : AccessDs} (run : accessBramFW gid a s = .ok b t) :
    (∃ d, b = { a with data := d }) ∧ (a.opCode = 0 → b = a) := by
  unfold accessBramFW at run
  obtain ⟨_, _, -, run⟩ := bind_eq_ok run
  obtain ⟨_, _, -, run⟩ := bind_eq_ok run
  split_ifs at run with write
  · cases run
    exact ⟨⟨a.data, rfl⟩, fun _ => rfl⟩
  · obtain ⟨d, _, -, run⟩ := bind_eq_ok run
    cases run
    exact ⟨⟨printData d, rfl⟩, fun zero => absurd zero write⟩

theorem readStatsPerPort_keeps {a b : StatDs} (run : readStatsPerPort init gid a s = .ok b t) :
    b.port = a.port ∧ (numbered a.port = none →
      b = { a with totalPassed := 0x0, fifoDropped := 0x0, fwDropped := 0x0 }) := by
  unfold readStatsPerPort at run
  obtain ⟨_, _, -, run⟩ := bind_eq_ok run
  cases known : numbered a.port with
  | none =>
    rw [known] at run
    cases run
    exact ⟨rfl, fun _ => rfl⟩
  | some n =>
    rw [known] at run
    obtain ⟨_, _, -, run⟩ := bind_eq_ok run
    cases run
    exact ⟨rfl, fun none => by cases none⟩

theorem readStatsPerAllPorts_keeps {a b : StatDs}
    (run : readStatsPerAllPorts init gid a s = .ok b t) : b.port = a.port := by
  unfold readStatsPerAllPorts at run
  obtain ⟨_, _, -, run⟩ := bind_eq_ok run
  obtain ⟨_, _, -, run⟩ := bind_eq_ok run
  obtain ⟨_, _, -, run⟩ := bind_eq_ok run
  obtain ⟨_, _, -, run⟩ := bind_eq_ok run
  obtain ⟨_, _, -, run⟩ := bind_eq_ok run
  cases run
  rfl

theorem keeps_front {u : UserWords} {ws : List Word} {n : Nat}
    (front : ws.take n = (List.range n).map u) :
    ∀ i < n, ws[i]? = some (u i) ∨ ws[i]? = some 0 := by
  intro i inside
  have place := congrArg (fun l => l[i]?) front
  simp only [List.getElem?_take, inside, if_true, List.getElem?_map, List.getElem?_range inside] at place
  exact Or.inl place

/-- The words in front of those are the words of the structure before, or cleared. -/
theorem call_keeps {u : UserWords} {c : Command} {ws : List Word}
    (run : call init gid u c s = .ok ws t) :
    4 * ws.length = iocSize c.code ∧
      ∀ i < ws.length - fromDevice u c, ws[i]? = some (u i) ∨ ws[i]? = some 0 := by
  rw [iocSize_code]
  cases c with
  | setupFwPort =>
    obtain ⟨_, _, -, run⟩ := bind_eq_ok run
    cases run
    exact ⟨rfl, keeps_front (by rfl)⟩
  | checkFwPort =>
    obtain ⟨b, _, read, run⟩ := bind_eq_ok run
    obtain ⟨l, h, r, same⟩ := checkFWRegs_keeps read
    cases run
    rw [same]
    exact ⟨rfl, keeps_front (by rfl)⟩
  | readFwPort =>
    obtain ⟨b, _, read, run⟩ := bind_eq_ok run
    obtain ⟨l, h, r, rfl⟩ := readFWRegs_keeps read
    cases run
    exact ⟨rfl, keeps_front (by rfl)⟩
  | directAccessBram =>
    obtain ⟨b, _, read, run⟩ := bind_eq_ok run
    obtain ⟨⟨d, same⟩, unread⟩ := accessBram_keeps read
    cases run
    by_cases none : (directAccessDsOfUser u).opCode = 0 ∨
        numbered (directAccessDsOfUser u).bramNo = none
    · rw [unread none, fromDevice, if_pos none]
      exact ⟨rfl, keeps_front (by rfl)⟩
    · rw [same, fromDevice, if_neg none]
      exact ⟨rfl, keeps_front (by rfl)⟩
  | accessBram =>
    obtain ⟨b, _, read, run⟩ := bind_eq_ok run
    obtain ⟨⟨d, same⟩, unread⟩ := accessBramFW_keeps read
    cases run
    by_cases write : (accessDsOfUser u).opCode = 0
    · rw [unread write, fromDevice, if_pos write]
      exact ⟨rfl, keeps_front (by rfl)⟩
    · rw [same, fromDevice, if_neg write]
      exact ⟨rfl, keeps_front (by rfl)⟩
  | readStats =>
    obtain ⟨b, _, read, run⟩ := bind_eq_ok run
    obtain ⟨same, cleared⟩ := readStatsPerPort_keeps read
    cases run
    by_cases none : numbered (StatDs.ofUser u).port = none
    -- the counters of a port that does not exist are cleared
    · rw [cleared none, fromDevice, if_pos none]
      refine ⟨rfl, fun i inside => ?_⟩
      match i, inside with
      | 0, _ => exact Or.inl rfl
      | 1, _ | 2, _ | 3, _ => exact Or.inr rfl
    · rw [fromDevice, if_neg none]
      exact ⟨rfl, keeps_front (congrArg (fun w => [w]) same)⟩
  | readStatsAll =>
    obtain ⟨b, _, read, run⟩ := bind_eq_ok run
    cases run
    exact ⟨rfl, keeps_front (congrArg (fun w => [w]) (readStatsPerAllPorts_keeps read))⟩

end keeps

/-! ### A call without effect -/

def Unwritten (e : Event) : Prop := ∀ value r, e ≠ .iowrite32 value r

/-- No register is written, the call returns a number other than zero, and each byte that
reaches user memory was copied in or read from the device. -/
structure NoEffect (init : InitStat) (gid : Word) {c : Command} (x : Copies c.code) : Prop where
  unwritten : Only Unwritten (myUnlockedIoctl init gid x)
  refused : ∃ n, Returns n (fun rc => rc ≠ 0) (myUnlockedIoctl init gid x)
  received : Only (fun e => ∀ ws, e = .copyToUser ws →
    ∀ j < iocSize c.code - x.toUser, x.Received c j) (myUnlockedIoctl init gid x)

/-- The function returns and writes no register. -/
def Quiet (gid : Word) (u : UserWords) : Command → Prop
  | .setupFwPort => False
  | .checkFwPort | .readFwPort | .readStats | .readStatsAll => gid = 0
  | .directAccessBram =>
    (directAccessDsOfUser u).opCode ≠ 0 ∨ gid = 0 ∧ numbered (directAccessDsOfUser u).bramNo = none
  | .accessBram =>
    gid = 0 ∧ (accessDsOfUser u).opCode = 0 ∧ numbered (accessDsOfUser u).inputPort = none

/-! ### Quiet calls -/

section quiet

variable {init : InitStat} {gid : Word} {u : UserWords} {c : Command}

theorem unwritten_ioread32 (r : Register) : Unwritten (.ioread32 r) := fun _ _ same => by cases same

theorem unwritten_call (quiet : Quiet gid u c) : Only Unwritten (call init gid u c) := by
  cases c with
  | setupFwPort => exact quiet.elim
  | checkFwPort =>
    exact only_bind (only_checkFWRegs fun _ _ => unwritten_ioread32 _) fun _ => only_pure _
  | readFwPort =>
    exact only_bind (only_readFWRegs fun _ _ => unwritten_ioread32 _) fun _ => only_pure _
  | directAccessBram =>
    refine only_bind (only_accessBram (fun write n known => ?_) fun _ _ => unwritten_ioread32 _)
      fun _ => only_pure _
    -- a write is quiet only where there is no memory
    obtain ⟨-, unknown⟩ := quiet.resolve_left (not_not.mpr write)
    simp [unknown] at known
  | accessBram =>
    obtain ⟨-, -, unknown⟩ := quiet
    exact only_bind (only_accessBramFW (fun n known => by simp [unknown] at known)
      fun _ _ => unwritten_ioread32 _) fun _ => only_pure _
  | readStats =>
    exact only_bind (only_readStatsPerPort fun _ _ _ => unwritten_ioread32 _) fun _ => only_pure _
  | readStatsAll =>
    exact only_bind (only_readStatsPerAllPorts fun _ _ _ => unwritten_ioread32 _)
      fun _ => only_pure _

theorem returns_ioread32 (r : Register) : Returns 1 (fun _ => True) (ioread32 r) :=
  returns_bind (returns_emit _) fun _ _ => returns_map _ returns_receive

theorem returns_portStats (init : InitStat) (n : Fin 4) :
    Returns 3 (fun _ => True) (portStats init n) :=
  returns_bind (returns_ioread32 _) fun _ _ => returns_bind (returns_ioread32 _) fun _ _ =>
    returns_bind (returns_ioread32 _) fun _ _ => returns_pure trivial

theorem returns_readFWRegs (root : gid = 0) (a : FwDs) :
    Returns 3 (fun _ => True) (readFWRegs gid a) := by
  unfold readFWRegs
  rw [if_pos root]
  exact returns_bind (returns_ioread32 _) fun _ _ => returns_bind (returns_ioread32 _) fun _ _ =>
    returns_bind (returns_ioread32 _) fun _ _ => returns_pure trivial

theorem returns_checkFWRegs (root : gid = 0) (a : FwDs) :
    Returns 3 (fun _ => True) (checkFWRegs gid a) := by
  unfold checkFWRegs
  rw [if_pos root]
  exact returns_bind (returns_readFWRegs root a) fun _ _ => returns_pure trivial

theorem returns_accessBram {a : DirectAccessDs}
    (quiet : a.opCode ≠ 0 ∨ gid = 0 ∧ numbered a.bramNo = none) :
    Returns 1 (fun _ => True) (accessBram gid a) := by
  have passes : (gid ≠ 0 && a.opCode = 0x0) = false := by
    rcases quiet with read | ⟨root, -⟩
    · rw [decide_eq_false read, Bool.and_false]
    · simp [root]
  unfold accessBram
  rw [bugOn_if_passes passes, pure_bind]
  cases known : numbered a.bramNo with
  | none => exact (returns_pure trivial).mono (by omega)
  | some n =>
    have read := quiet.resolve_right (by simp [known])
    simp only [read, if_false]
    exact returns_bind (returns_ioread32 _) fun _ _ => returns_pure trivial

theorem returns_accessBramFW {a : AccessDs} (root : gid = 0) (write : a.opCode = 0)
    (unknown : numbered a.inputPort = none) :
    Returns 0 (fun _ => True) (accessBramFW gid a) := by
  have passes : (gid ≠ 0 && a.opCode = 0x0) = false := by simp [root]
  unfold accessBramFW writePacket
  rw [bugOn_if_passes passes, pure_bind, unknown, if_pos write]
  exact returns_bind (Q := fun _ => True) (returns_pure trivial) fun _ _ => returns_pure trivial

theorem returns_readStatsPerPort (root : gid = 0) (a : StatDs) :
    Returns 3 (fun _ => True) (readStatsPerPort init gid a) := by
  unfold readStatsPerPort
  rw [bugOn_if_passes (by simp [root]), pure_bind]
  cases numbered a.port with
  | none => exact (returns_pure trivial).mono (by omega)
  | some n => exact returns_bind (returns_portStats init n) fun _ _ => returns_pure trivial

theorem returns_readStatsPerAllPorts (root : gid = 0) (a : StatDs) :
    Returns 12 (fun _ => True) (readStatsPerAllPorts init gid a) := by
  unfold readStatsPerAllPorts
  rw [bugOn_if_passes (by simp [root]), pure_bind]
  exact returns_bind (returns_portStats init 0) fun _ _ =>
    returns_bind (returns_portStats init 1) fun _ _ =>
      returns_bind (returns_portStats init 2) fun _ _ =>
        returns_bind (returns_portStats init 3) fun _ _ => returns_pure trivial

theorem returns_call (quiet : Quiet gid u c) :
    Returns 12 (fun _ => True) (call init gid u c) := by
  have back {α : Type} {p : Io α} {n : Nat} (f : α → List Word) (small : n ≤ 12)
      (h : Returns n (fun _ => True) p) :
      Returns 12 (fun _ => True) (do let a ← p; return f a : Io (List Word)) :=
    (returns_bind h fun _ _ => returns_pure trivial).mono small
  cases c with
  | setupFwPort => exact quiet.elim
  | checkFwPort => exact back (fun b => b.2.toUser) (by omega) (returns_checkFWRegs quiet _)
  | readFwPort => exact back FwDs.toUser (by omega) (returns_readFWRegs quiet _)
  | directAccessBram => exact back directAccessDsToUser (by omega) (returns_accessBram quiet)
  | accessBram =>
    obtain ⟨root, write, unknown⟩ := quiet
    exact back accessDsToUser (by omega) (returns_accessBramFW root write unknown)
  | readStats => exact back StatDs.toUser (by omega) (returns_readStatsPerPort quiet _)
  | readStatsAll => exact back StatDs.toUser (by omega) (returns_readStatsPerAllPorts quiet _)

end quiet

/-! ### Other calls -/

section loud

variable {α β : Type} {init : InitStat} {gid : Word}

/-- A register is written in every run, or no run returns. -/
def Loud (p : Io α) : Prop :=
  (∀ s, ∃ value r, .iowrite32 value r ∈ (after (p s)).done) ∨ ∀ s, ∃ t, p s = .error () t

theorem Loud.bind {p : Io α} {f : α → Io β} (h : Loud p)
    (rest : ∀ a, Only (fun _ => True) (f a)) : Loud (p >>= f) := by
  rcases h with writes | stops
  -- what is written stays written, and a stop skips the rest
  · refine Or.inl fun s => ?_
    obtain ⟨value, r, member⟩ := writes s
    exact ⟨value, r, mem_done_bind member rest⟩
  · refine Or.inr fun s => ?_
    obtain ⟨t, stopped⟩ := stops s
    exact ⟨t, bind_error stopped⟩

theorem loud_iowrite32 (value : Word) (r : Register) : Loud (iowrite32 value r) :=
  Or.inl fun s => ⟨value, r, List.mem_append_right s.done List.mem_cons_self⟩

theorem loud_stop : Loud (stop : Io α) := Or.inr fun s => ⟨s, rfl⟩

/-- A `BUG_ON` that strikes. -/
theorem loud_bugOn {refused : Prop} [Decidable refused] {condition : Bool} {f : Unit → Io α}
    (struck : refused) (strikes : condition = true) :
    Loud ((if refused then bugOn condition else pure ()) >>= f) := by
  rw [if_pos struck, strikes]
  exact loud_stop

theorem loud_setupFW (a : FwDs) : Loud (setupFW gid a) := by
  unfold setupFW
  split_ifs with root
  · exact (loud_iowrite32 _ _).bind fun _ => only_bind (only_iowrite32 trivial) fun _ =>
      only_bind (only_iowrite32 trivial) fun _ => only_iowrite32 trivial
  · rw [decide_eq_true root]
    exact loud_stop

theorem loud_readFWRegs (other : gid ≠ 0) (a : FwDs) : Loud (readFWRegs gid a) := by
  unfold readFWRegs
  rw [if_neg other, decide_eq_true other]
  exact loud_stop

theorem loud_checkFWRegs (other : gid ≠ 0) (a : FwDs) : Loud (checkFWRegs gid a) := by
  unfold checkFWRegs
  rw [if_neg other, decide_eq_true other]
  exact loud_stop

theorem loud_accessBram {a : DirectAccessDs} (write : a.opCode = 0)
    (h : gid ≠ 0 ∨ numbered a.bramNo ≠ none) : Loud (accessBram gid a) := by
  unfold accessBram
  by_cases root : gid = 0
  -- the root group writes, and the others are stopped before
  · obtain ⟨n, known⟩ := Option.ne_none_iff_exists'.mp (h.resolve_left (not_not.mpr root))
    rw [bugOn_if_passes (by simp [root]), pure_bind, known]
    simp only [write, if_true]
    exact (loud_iowrite32 _ _).bind fun _ => only_bind (only_ioread32 trivial) fun _ => only_pure _
  · exact loud_bugOn ⟨root, Or.inl write⟩ (by rw [decide_eq_true root, decide_eq_true write]; rfl)

theorem loud_accessBramFW {a : AccessDs}
    (h : gid ≠ 0 ∨ a.opCode ≠ 0 ∨ numbered a.inputPort ≠ none) : Loud (accessBramFW gid a) := by
  unfold accessBramFW
  by_cases refused : gid ≠ 0 ∧ a.opCode = 0
  · obtain ⟨other, write⟩ := refused
    exact loud_bugOn ⟨other, write⟩ (by rw [decide_eq_true other, decide_eq_true write]; rfl)
  · rw [if_neg refused, pure_bind]
    unfold writePacket
    cases known : numbered a.inputPort with
    | some n =>
      refine (loud_iowrite32 _ _).bind fun _ => ?_
      split_ifs
      · exact only_pure a
      · exact only_bind (only_untilSome (only_pollResponce fun _ _ => trivial)) fun _ => only_pure _
    | none =>
      -- nothing is written, and the loop does not end
      have read : a.opCode ≠ 0 := by
        rcases h with other | read | other
        · exact fun write => refused ⟨other, write⟩
        · exact read
        · exact absurd known other
      simp only [read, if_false, pure_bind]
      exact Or.inr fun s => ⟨s, bind_error (poll_unknown known s)⟩

theorem loud_call {u : UserWords} {c : Command} (loud : ¬ Quiet gid u c) :
    Loud (call init gid u c) := by
  cases c with
  | setupFwPort => exact (loud_setupFW _).bind fun _ => only_pure _
  | checkFwPort => exact (loud_checkFWRegs loud _).bind fun _ => only_pure _
  | readFwPort => exact (loud_readFWRegs loud _).bind fun _ => only_pure _
  | directAccessBram =>
    obtain ⟨write, known⟩ := not_or.mp loud
    exact (loud_accessBram (not_not.mp write) (not_and_or.mp known)).bind fun _ => only_pure _
  | accessBram =>
    refine (loud_accessBramFW ?_).bind fun _ => only_pure _
    rcases not_and_or.mp loud with other | h
    · exact Or.inl other
    · exact Or.inr (not_and_or.mp h)
  | readStats =>
    have other : gid ≠ 0 := loud
    exact (loud_bugOn other (decide_eq_true other)).bind fun _ => only_pure _
  | readStatsAll =>
    have other : gid ≠ 0 := loud
    exact (loud_bugOn other (decide_eq_true other)).bind fun _ => only_pure _

end loud

/-! ### When a call has no effect -/

variable (init : InitStat) (gid : Word) {c : Command} (x : Copies c.code)

/-- The rest of a case, after its function. -/
theorem only_back {P : Event → Prop} (ws : List Word) (copy : P (.copyToUser ws)) :
    Only P (if c = .setupFwPort then return x.fromUser
      else do
        copyToUser ws
        return x.toUser : Io Int) := by
  split_ifs
  · exact only_pure _
  · exact only_bind (only_copyToUser copy) fun _ => only_pure _

theorem myUnlockedIoctl_code : myUnlockedIoctl init gid x = serve init gid x c := by
  simp only [myUnlockedIoctl, ofCode_code]

theorem quiet_of_noEffect (h : NoEffect init gid x) : Quiet gid x.received c := by
  by_contra other
  have loud : Loud (myUnlockedIoctl init gid x) := by
    rw [myUnlockedIoctl_code]
    exact (loud_call other).bind fun ws => only_back x ws trivial
  rcases loud with writes | stops
  -- with enough replies a call without effect returns, so it cannot be stopped
  · obtain ⟨value, r, member⟩ := writes ⟨(), [], []⟩
    exact h.unwritten.of_run member value r rfl
  · obtain ⟨n, returns⟩ := h.refused
    obtain ⟨rc, t, run, -, -⟩ := returns ⟨(), [], List.replicate n fun _ => 0⟩ (by simp)
    obtain ⟨t', stopped⟩ := stops ⟨(), [], List.replicate n fun _ => 0⟩
    rw [run] at stopped
    cases stopped

theorem quiet_eq (quiet : Quiet gid x.received c) :
    myUnlockedIoctl init gid x = (do
      let ws ← call init gid x.received c
      copyToUser ws
      return x.toUser) := by
  have other : c ≠ .setupFwPort := by
    rintro rfl
    exact quiet
  simp only [myUnlockedIoctl_code, serve, other, if_false]

/-- A quiet call copies its structure back and returns the result of that copy. -/
theorem run_quiet (quiet : Quiet gid x.received c) (n : Nat) :
    ∃ ws es rs, myUnlockedIoctl init gid x ⟨(), [], List.replicate (12 + n) fun _ => 0⟩ =
      .ok x.toUser ⟨(), es ++ [.copyToUser ws], rs⟩ := by
  have returns : Returns 12 (fun _ => True) (call init gid x.received c) := returns_call quiet
  obtain ⟨ws, t, run, -, -⟩ := returns ⟨(), [], List.replicate (12 + n) fun _ => 0⟩ (by simp)
  rw [quiet_eq init gid x quiet]
  exact ⟨ws, t.done, t.replies, bind_ok run⟩

theorem toUser_pos_of_noEffect (h : NoEffect init gid x) : 0 < x.toUser.val := by
  obtain ⟨n, returns⟩ := h.refused
  obtain ⟨ws, es, rs, run⟩ := run_quiet init gid x (quiet_of_noEffect init gid x h) n
  obtain ⟨rc, t, run', -, refused⟩ :=
    returns ⟨(), [], List.replicate (12 + n) fun _ => 0⟩ (by simp)
  rw [run] at run'
  cases run'
  omega

theorem received_of_noEffect (h : NoEffect init gid x) :
    ∀ j < iocSize c.code - x.toUser, x.Received c j := by
  obtain ⟨ws, es, rs, run⟩ := run_quiet init gid x (quiet_of_noEffect init gid x h) 0
  have member : .copyToUser ws ∈
      (after (myUnlockedIoctl init gid x ⟨(), [], List.replicate 12 fun _ => 0⟩)).done := by
    rw [run]
    exact List.mem_append_right es List.mem_cons_self
  exact h.received.of_run member ws rfl

/-- No byte that the first copy left is copied back. -/
theorem received_iff :
    (∀ j < iocSize c.code - x.toUser, x.Received c j) ↔
      x.fromUser.val ≤ 4 * fromDevice x.received c ∨ x.fromUser ≤ x.toUser := by
  have left := x.fromUser.isLt
  unfold Copies.Received
  rw [Fin.le_def]
  constructor
  · intro received
    by_contra shown
    -- the first byte that was left
    have first := received (iocSize c.code - x.fromUser)
    omega
  · intro hidden j shown
    omega

/-- With any number of bytes left by the two copies, a call has no effect exactly if its
function is quiet, the second copy fails, and of what the first left nothing is copied back:
the second leaves as much, or it is overwritten from registers. -/
theorem noEffect_iff :
    NoEffect init gid x ↔ Quiet gid x.received c ∧ 0 < x.toUser.val ∧
      (x.fromUser.val ≤ 4 * fromDevice x.received c ∨ x.fromUser ≤ x.toUser) := by
  rw [← received_iff]
  constructor
  · intro h
    exact ⟨quiet_of_noEffect init gid x h, toUser_pos_of_noEffect init gid x h,
      received_of_noEffect init gid x h⟩
  · rintro ⟨quiet, fails, received⟩
    -- twelve registers are the most that a call reads
    have unwritten : Only Unwritten (myUnlockedIoctl init gid x) := by
      rw [myUnlockedIoctl_code]
      exact only_bind (unwritten_call quiet) fun ws => only_back x ws fun _ _ same => by cases same
    refine ⟨unwritten, ⟨12, ?_⟩, unwritten.mono fun _ _ _ _ _ _ _ => received⟩
    rw [quiet_eq init gid x quiet]
    have back (ws : List Word) (_ : True) : Returns 0 (fun rc : Int => rc ≠ 0)
        (do copyToUser ws; return x.toUser : Io Int) :=
      returns_bind (returns_emit _) fun _ _ => returns_pure (by omega)
    exact returns_bind (returns_call quiet) back

/-- The root group sets up a rule from an address that is not mapped: nothing is copied in,
and the four registers of the rule are written all the same. -/
theorem failed_setup_writes :
    ¬ ∀ (init : InitStat) (gid : Word) (c : Command) (x : Copies c.code), 0 < x.fromUser.val →
      NoEffect init gid x := by
  intro claim
  have h := claim ⟨fun _ => 0, fun _ => 0, fun _ => 0⟩ 0 .setupFwPort
    ⟨fun _ => 0, fun _ => 0, 24, 0⟩ (by decide)
  exact quiet_of_noEffect _ _ _ h

end ScCosim.Driver.Kern.Copying
