import ScCosim.Driver.UserMode
import Mathlib.Logic.Function.Basic
import Mathlib.Algebra.Group.Nat.Defs

/-!
# The tables of groups

The administrator keeps in the fourth memory which group has which port of the network. The
functions that set and look up the tables are written over the calls they use, so that they
can be read with the driver of the board or with a plain memory behind `accessBramFW`.
-/
namespace ScCosim.Driver

open Kernel Firewall

/-- `exit(1)`, and `accessBramFW` with its return code and what `*data` holds afterwards. -/
structure Platform (m : Type → Type) where
  exit : {α : Type} → m α
  accessBramFW : (opCode inport outport addrReg data : Word) → m (Int × Word)

namespace Platform

section functions

variable {m : Type → Type} [Monad m] (u : Platform m)

def exitIf (bad : Bool) : m Unit := if bad then u.exit else pure ()

def setGidPerNoCInport (c : Caller) (groupName : Option (List Char)) (inport : Word) : m Unit := do
  u.exitIf (inport ≤ 0 || inport > userNocInputPorts)
  if c.isAdmin then
    let gid := c.groupIdFromName groupName
    u.exitIf (gid.slt 0)
    let (rc, _) ← u.accessBramFW 0x0 adminInputPort adminOutputPort
      (offsetInputPortsBram4 + (inport - 1) * 0x4) gid
    u.exitIf (rc < 0)

def setGidPerNoCOutport (c : Caller) (groupName : Option (List Char)) (outport : Word) :
    m Unit := do
  -- an invalid port ends the call here, not the process
  if outport.sle 0 || userNocOutputPorts.slt outport then
    return ()
  if c.isAdmin then
    let gid := c.groupIdFromName groupName
    u.exitIf (gid.slt 0)
    let (rc, _) ← u.accessBramFW 0x0 adminInputPort adminOutputPort
      (offsetOutputPortsBram4 + (outport - 1) * 0x4) gid
    u.exitIf (rc < 0)

/-- The loop of a lookup, from index `i` on for so many rounds, with the variables `found` and
`inport` or `outport`. The second is the port of the access until a group is found. -/
def lookupLoop (offset gid : Word) : Nat → Nat → Int × Int → m (Int × Int)
  | 0, _, vars => pure vars
  | n + 1, i, (found, _) => do
    let port := adminInputPort
    let (rc, data) ← u.accessBramFW 0x1 port adminInputPort (offset + BitVec.ofNat 32 i * 0x4) 0
    u.exitIf (rc < 0)
    if gid = data then return (1, i + 1)
    else lookupLoop offset gid n (i + 1) (found, port.toNat)

/-- The common body of the two lookups; `-1` is true. -/
def getPortForGid (offset ports gid : Word) : m Int := do
  let (found, port) ← u.lookupLoop offset gid ports.toNat 0 (-1, 0)
  return if found ≠ 0 then port else -1

def getInputPortForGid (gid : Word) : m Int :=
  u.getPortForGid offsetInputPortsBram4 userNocInputPorts gid

def getOutputPortForGid (gid : Word) : m Int :=
  u.getPortForGid offsetOutputPortsBram4 userNocOutputPorts gid

end functions

/-- The board. -/
def hardware (init : Kern.InitStat) (c : Caller) : Platform Kern.Io where
  exit := Program.stop
  accessBramFW := Hardware.accessBramFW init c

/-- On the board the functions are those of `user_mode.h`. -/
theorem hardware_sets (init : Kern.InitStat) (c : Caller) (groupName : Option (List Char))
    (port : Word) :
    (hardware init c).setGidPerNoCInport c groupName port =
        Hardware.setGidPerNoCInport init c groupName port ∧
      (hardware init c).setGidPerNoCOutport c groupName port =
        Hardware.setGidPerNoCOutport init c groupName port :=
  ⟨rfl, rfl⟩

/-- The fourth memory, a cell for each address. -/
abbrev Bram4 := Word → BitVec 16

/-- `accessBramFW` as a memory. -/
def memory : Platform (StateT Bram4 Option) where
  exit := fun _ => none
  accessBramFW opCode _ _ addrReg data := fun cells =>
    if opCode = 0x0 then some ((0, data), Function.update cells addrReg (data.setWidth 16))
    else some ((0, (cells addrReg).setWidth 32), cells)

end Platform

/-! ## What is assigned -/

inductive Table where
  | input
  | output
  deriving DecidableEq, Repr

def Table.offset : Table → Word
  | .input => offsetInputPortsBram4
  | .output => offsetOutputPortsBram4

/-- A call of `setGidPerNoCInport` or `setGidPerNoCOutport`. -/
structure Assignment where
  table : Table
  groupName : Option (List Char)
  port : Word
  deriving DecidableEq, Repr

/-- The ports that a user's group can have. -/
def userPorts : List Word := [1, 2, 3]

theorem cases_userPorts {port : Word} (member : port ∈ userPorts) :
    port = 1 ∨ port = 2 ∨ port = 3 := by
  simpa only [userPorts, List.mem_cons, List.not_mem_nil, or_false] using member

namespace Assignment

def gid (c : Caller) (s : Assignment) : Word := c.groupIdFromName s.groupName

/-- A valid port, and a group with a number below 2^16. -/
structure Valid (c : Caller) (s : Assignment) : Prop where
  port : s.port ∈ userPorts
  gid : (s.gid c).toNat < 2 ^ 16

def perform (c : Caller) (s : Assignment) : StateT Platform.Bram4 Option Unit :=
  match s.table with
  | .input => Platform.memory.setGidPerNoCInport c s.groupName s.port
  | .output => Platform.memory.setGidPerNoCOutport c s.groupName s.port

end Assignment

/-- The calls, one after another. -/
def performAll (c : Caller) : List Assignment → StateT Platform.Bram4 Option Unit
  | [] => pure ()
  | s :: rest => do
    s.perform c
    performAll c rest

/-- The group of the last call for a port. -/
def lastAssigned (c : Caller) (table : Table) (port : Word) (calls : List Assignment) :
    Option Word :=
  calls.foldl (fun last s => if s.table = table ∧ s.port = port then some (s.gid c) else last) none

/-- The cell of a port in its table. -/
def cellOf (table : Table) (port : Word) : Word := table.offset + (port - 1) * 0x4

theorem cellOf_inj : ∀ port ∈ userPorts, ∀ port' ∈ userPorts, ∀ table table',
    cellOf table port = cellOf table' port' → table = table' ∧ port = port' := by
  intro port member port' member' table table'
  rcases cases_userPorts member with rfl | rfl | rfl <;>
    rcases cases_userPorts member' with rfl | rfl | rfl <;> cases table <;> cases table' <;> decide

theorem perform_eq {c : Caller} (admin : c.isAdmin = true) {s : Assignment} (valid : s.Valid c)
    (cells : Platform.Bram4) :
    s.perform c cells =
      some ((), Function.update cells (cellOf s.table s.port) ((s.gid c).setWidth 16)) := by
  obtain ⟨table, name, port⟩ := s
  have positive : (c.groupIdFromName name).slt 0 = false := by
    have small : (c.groupIdFromName name).toNat < 2 ^ 16 := valid.gid
    have msb : (c.groupIdFromName name).msb = false := by
      rw [BitVec.msb_eq_false_iff_two_mul_lt]
      omega
    rw [← msb]
    exact BitVec.slt_zero_eq_msb
  have member := cases_userPorts valid.port
  cases table with
  | input =>
    have inside : (decide (port ≤ 0) || decide (port > userNocInputPorts)) = false := by
      rcases member with rfl | rfl | rfl <;> decide
    simp only [Assignment.perform, Platform.setGidPerNoCInport, inside, Platform.exitIf, admin,
      positive]
    rfl
  | output =>
    have inside : (port.sle 0 || userNocOutputPorts.slt port) = false := by
      rcases member with rfl | rfl | rfl <;> decide
    simp only [Assignment.perform, Platform.setGidPerNoCOutport, inside, Platform.exitIf, admin,
      positive]
    rfl

/-- The cells hold the last assigned groups, and 0 where nothing was assigned. -/
def Records (c : Caller) (calls : List Assignment) (cells : Platform.Bram4) : Prop :=
  ∀ table, ∀ port ∈ userPorts,
    (cells (cellOf table port)).setWidth 32 = (lastAssigned c table port calls).getD 0

/-- One call more. -/
theorem Records.step {c : Caller} {calls : List Assignment} {cells : Platform.Bram4}
    (h : Records c calls cells) {s : Assignment} (valid : s.Valid c) :
    Records c (calls ++ [s])
      (Function.update cells (cellOf s.table s.port) ((s.gid c).setWidth 16)) := by
  intro table port member
  rw [lastAssigned, List.foldl_append, List.foldl_cons, List.foldl_nil]
  by_cases same : s.table = table ∧ s.port = port
  · -- the cell just written: the group fits into its 16 bits
    obtain ⟨rfl, rfl⟩ := same
    have small := valid.gid
    rw [if_pos ⟨rfl, rfl⟩, Function.update_self, Option.getD_some]
    apply BitVec.eq_of_toNat_eq
    simp only [BitVec.toNat_setWidth]
    omega
  · have different : cellOf table port ≠ cellOf s.table s.port := fun equal => by
      have := cellOf_inj port member s.port valid.port table s.table equal
      exact same ⟨this.1.symm, this.2.symm⟩
    rw [if_neg same, Function.update_of_ne different]
    exact h table port member

theorem Records.run {c : Caller} (admin : c.isAdmin = true) {before : List Assignment}
    {cells : Platform.Bram4} (h : Records c before cells) (calls : List Assignment)
    (valid : ∀ s ∈ calls, s.Valid c) :
    ∃ cells', performAll c calls cells = some ((), cells') ∧ Records c (before ++ calls) cells' := by
  -- by induction on the calls, with the tables as the calls before have left them
  induction calls generalizing before cells with
  | nil => exact ⟨cells, rfl, by simpa using h⟩
  | cons s rest ih =>
    have first := valid s List.mem_cons_self
    obtain ⟨cells', run, records⟩ :=
      ih (h.step first) fun t member => valid t (List.mem_cons_of_mem _ member)
    refine ⟨cells', ?_, by simpa using records⟩
    change (s.perform c cells).bind (fun r => performAll c rest r.2) = _
    rw [perform_eq admin first]
    exact run

/-! ## What is looked up -/

/-- One round of a lookup. -/
theorem lookupLoop_succ (offset g : Word) (n i : Nat) (vars : Int × Int) (cells : Platform.Bram4) :
    Platform.memory.lookupLoop offset g (n + 1) i vars cells =
      if g = (cells (offset + BitVec.ofNat 32 i * 0x4)).setWidth 32 then some (((1 : Int), (i : Int) + 1), cells)
      else Platform.memory.lookupLoop offset g n (i + 1) (vars.1, 4) cells := by
  rw [Platform.lookupLoop]
  change (if g = _ then pure (1, (i : Int) + 1) else _ : StateT Platform.Bram4 Option _) cells = _
  split <;> rfl

/-- What a lookup reads from the cells: the first port whose cell holds the group, and else the
port of its own accesses. -/
theorem getPortForGid_eq (table : Table) (g : Word) (cells : Platform.Bram4) :
    Platform.memory.getPortForGid table.offset 3 g cells = some
      (if g = (cells (cellOf table 1)).setWidth 32 then 1
        else if g = (cells (cellOf table 2)).setWidth 32 then 2
        else if g = (cells (cellOf table 3)).setWidth 32 then 3
        else 4, cells) := by
  change (Platform.memory.lookupLoop table.offset g 3 0 (-1, 0) cells).bind
    (fun r => some (if r.1.1 ≠ 0 then r.1.2 else -1, r.2)) = _
  have first : table.offset + BitVec.ofNat 32 0 * 0x4 = cellOf table 1 := rfl
  have second : table.offset + BitVec.ofNat 32 1 * 0x4 = cellOf table 2 := rfl
  have third : table.offset + BitVec.ofNat 32 2 * 0x4 = cellOf table 3 := rfl
  rw [lookupLoop_succ, lookupLoop_succ, lookupLoop_succ, Platform.lookupLoop, first, second, third]
  split
  · rfl
  split
  · rfl
  split <;> rfl

/-- What a lookup is for: the least port whose last assignment was the group, or -1. -/
def LeastPort (c : Caller) (table : Table) (calls : List Assignment) (g : Word) (r : Int) : Prop :=
  (∃ port ∈ userPorts, lastAssigned c table port calls = some g ∧
      (∀ other ∈ userPorts, lastAssigned c table other calls = some g → port ≤ other) ∧
      r = port.toNat) ∨
    ((∀ port ∈ userPorts, lastAssigned c table port calls ≠ some g) ∧ r = -1)

/-- The group has a port in the table. -/
def HasPort (c : Caller) (table : Table) (calls : List Assignment) (g : Word) : Prop :=
  ∃ port ∈ userPorts, lastAssigned c table port calls = some g

theorem Records.eq_iff {c : Caller} {calls : List Assignment} {cells : Platform.Bram4}
    (h : Records c calls cells) (table : Table) {port g : Word} (member : port ∈ userPorts)
    (nonzero : g ≠ 0) :
    g = (cells (cellOf table port)).setWidth 32 ↔ lastAssigned c table port calls = some g := by
  rw [h table port member]
  cases lastAssigned c table port calls with
  | none => simpa using nonzero
  | some v => simpa using eq_comm

/-- A lookup of a group with a port finds the least one; without one it returns the
administrator's port. -/
theorem Records.lookup {c : Caller} {calls : List Assignment} {cells : Platform.Bram4}
    (h : Records c calls cells) (table : Table) {g : Word} (nonzero : g ≠ 0) :
    ∃ r, Platform.memory.getPortForGid table.offset 3 g cells = some (r, cells) ∧
      (HasPort c table calls g → LeastPort c table calls g r ∧ r ≠ 4) ∧
      (¬ HasPort c table calls g → r = 4) := by
  have cell (port : Word) (member : port ∈ userPorts) := h.eq_iff table member nonzero
  have one := cell 1 (by decide)
  have two := cell 2 (by decide)
  have three := cell 3 (by decide)
  refine ⟨_, getPortForGid_eq table g cells, fun has => ?_, fun has => ?_⟩
  · simp only [one, two, three]
    -- the loop stops at the first port that has the group, which is the least one
    split
    case isTrue first =>
      refine ⟨.inl ⟨1, by decide, first, fun other member _ => ?_, rfl⟩, by decide⟩
      rcases cases_userPorts member with rfl | rfl | rfl <;> decide
    case isFalse notFirst =>
      split
      case isTrue second =>
        refine ⟨.inl ⟨2, by decide, second, fun other member assigned => ?_, rfl⟩, by decide⟩
        rcases cases_userPorts member with rfl | rfl | rfl
        · exact absurd assigned notFirst
        · decide
        · decide
      case isFalse notSecond =>
        obtain ⟨port, member, assigned⟩ := has
        rcases cases_userPorts member with rfl | rfl | rfl
        · exact absurd assigned notFirst
        · exact absurd assigned notSecond
        · rw [if_pos assigned]
          refine ⟨.inl ⟨3, by decide, assigned, fun other member third => ?_, rfl⟩, by decide⟩
          rcases cases_userPorts member with rfl | rfl | rfl
          · exact absurd third notFirst
          · exact absurd third notSecond
          · decide
  · have none : ∀ port ∈ userPorts, lastAssigned c table port calls ≠ some g :=
      fun port member assigned => has ⟨port, member, assigned⟩
    simp only [one, two, three]
    rw [if_neg (none 1 (by decide)), if_neg (none 2 (by decide)), if_neg (none 3 (by decide))]

/-- What the lookups are for, after the calls. -/
def Follows (c : Caller) (calls : List Assignment) (g : Word) : Prop :=
  ∃ cells rIn rOut, performAll c calls (fun _ => 0) = some ((), cells) ∧
    Platform.memory.getInputPortForGid g cells = some (rIn, cells) ∧
    Platform.memory.getOutputPortForGid g cells = some (rOut, cells) ∧
    LeastPort c .input calls g rIn ∧ LeastPort c .output calls g rOut ∧
    ((∀ s ∈ calls, s.gid c ≠ g) → rIn ≠ 4 ∧ rOut ≠ 4)

theorem records_nil (c : Caller) : Records c [] fun _ => 0 := fun _ _ _ => rfl

/-- The lookups follow the tables exactly for the groups that have a port in each. -/
theorem lookups_follow_iff {c : Caller} (admin : c.isAdmin = true) (calls : List Assignment)
    (valid : ∀ s ∈ calls, s.Valid c) {g : Word} (nonzero : g ≠ 0) :
    Follows c calls g ↔ HasPort c .input calls g ∧ HasPort c .output calls g := by
  obtain ⟨cells, run, records⟩ := (records_nil c).run admin calls valid
  obtain ⟨rIn, lookIn, foundIn, lostIn⟩ := records.lookup .input nonzero
  obtain ⟨rOut, lookOut, foundOut, lostOut⟩ := records.lookup .output nonzero
  -- 4 is no port of a user, so it cannot be the least one
  have four {table : Table} (least : LeastPort c table calls g 4) : HasPort c table calls g := by
    rcases least with ⟨port, member, assigned, -⟩ | ⟨-, wrong⟩
    · exact ⟨port, member, assigned⟩
    · exact absurd wrong (by decide)
  constructor
  · rintro ⟨cells', rIn', rOut', run', lookIn', lookOut', leastIn, leastOut, -⟩
    obtain rfl : cells = cells' := by
      have := run.symm.trans run'
      simpa using this
    obtain rfl : rIn = rIn' := by
      have := lookIn.symm.trans lookIn'
      simpa using this
    obtain rfl : rOut = rOut' := by
      have := lookOut.symm.trans lookOut'
      simpa using this
    constructor
    · by_contra lost
      exact lost (four (lostIn lost ▸ leastIn))
    · by_contra lost
      exact lost (four (lostOut lost ▸ leastOut))
  · rintro ⟨hasIn, hasOut⟩
    exact ⟨cells, rIn, rOut, run, lookIn, lookOut, (foundIn hasIn).1, (foundOut hasOut).1,
      fun _ => ⟨(foundIn hasIn).2, (foundOut hasOut).2⟩⟩

/-- An administrator and one clinic, group 7. -/
def clinic : Caller := ⟨0, [0], fun name => if name = ['r', 'o', 'o', 't'] then some 0 else some 7, 2 ^ 31⟩

theorem lookups_follow_iff_clinic :
    Follows clinic [⟨.input, some ['e'], 2⟩, ⟨.output, some ['e'], 1⟩] 7 ↔
      HasPort clinic .input [⟨.input, some ['e'], 2⟩, ⟨.output, some ['e'], 1⟩] 7 ∧
        HasPort clinic .output [⟨.input, some ['e'], 2⟩, ⟨.output, some ['e'], 1⟩] 7 :=
  lookups_follow_iff (by decide) _ (by
    intro s member
    simp only [List.mem_cons, List.not_mem_nil, or_false] at member
    rcases member with rfl | rfl <;> exact ⟨by decide, by decide⟩) (by decide)

/-- A group that was never given a port gets the administrator's. -/
theorem unknown_group_gets_admin_port :
    ¬ ∀ (c : Caller) (calls : List Assignment) (g : Word), c.isAdmin = true →
      (∀ s ∈ calls, s.Valid c) → g ≠ 0 → Follows c calls g := by
  intro all
  obtain ⟨cells, rIn, rOut, run, lookIn, -, -, -, safe⟩ :=
    all clinic [] 7 (by decide) (by simp) (by decide)
  cases run
  have four : Platform.memory.getInputPortForGid 7 (fun _ => 0) = some (4, fun _ => 0) :=
    getPortForGid_eq .input 7 _
  have admin : rIn = 4 := by
    have := lookIn.symm.trans four
    simpa using this
  exact (safe (by simp)).1 admin

end ScCosim.Driver
