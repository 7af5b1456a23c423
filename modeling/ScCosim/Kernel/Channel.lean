import Mathlib.Data.List.Basic

/-!
# Primitive channels

Signals and FIFOs with the kernel's update phase: what a process writes in a delta cycle is
seen by the processes of later delta cycles only, and a place that a reader frees is free
for the writer after the update.
-/
namespace ScCosim.Kernel

/-- `sc_signal`. -/
structure Signal (α : Type) where
  cur : α
  next : α
  deriving DecidableEq, Repr

namespace Signal

variable {α : Type}

def new (a : α) : Signal α := ⟨a, a⟩

def write (s : Signal α) (a : α) : Signal α := { s with next := a }

def update (s : Signal α) : Signal α := { s with cur := s.next }

@[simp] theorem write_cur (s : Signal α) (a : α) : (s.write a).cur = s.cur := rfl
@[simp] theorem write_next (s : Signal α) (a : α) : (s.write a).next = a := rfl
@[simp] theorem write_self (s : Signal α) : s.write s.next = s := rfl
@[simp] theorem update_next (s : Signal α) : s.update.next = s.next := rfl

end Signal

/-- `sc_fifo`: the elements a reader can still take in this delta cycle, those written in
it, and how many were taken in it. -/
structure Fifo (α : Type) where
  size : Nat
  readable : List α
  written : List α
  numRead : Nat
  deriving DecidableEq, Repr

namespace Fifo

variable {α : Type}

def new (size : Nat) : Fifo α := ⟨size, [], [], 0⟩

def numAvailable (f : Fifo α) : Nat := f.readable.length

def numFree (f : Fifo α) : Nat := f.size - f.numRead - f.readable.length - f.written.length

/-- `none` is the source's `false`. -/
def nbRead (f : Fifo α) : Option (α × Fifo α) :=
  match f.readable with
  | [] => none
  | a :: rest => some (a, { f with readable := rest, numRead := f.numRead + 1 })

/-- A write that has found a free place. -/
def push (f : Fifo α) (a : α) : Fifo α := { f with written := f.written ++ [a] }

/-- `nb_write` where its result is thrown away: a full FIFO stays as it is. -/
def nbWrite (f : Fifo α) (a : α) : Fifo α := if 0 < f.numFree then f.push a else f

def update (f : Fifo α) : Fifo α :=
  { f with readable := f.readable ++ f.written, written := [], numRead := 0 }

/-- Everything the FIFO holds, oldest first. -/
def contents (f : Fifo α) : List α := f.readable ++ f.written


@[simp] theorem new_contents (size : Nat) : (new size : Fifo α).contents = [] := rfl

@[simp] theorem push_contents (f : Fifo α) (a : α) : (f.push a).contents = f.contents ++ [a] := by
  simp [push, contents]

@[simp] theorem update_contents (f : Fifo α) : f.update.contents = f.contents := by
  simp [update, contents]


theorem nbWrite_contents (f : Fifo α) (a : α) :
    (f.nbWrite a).contents = f.contents ++ [a] ∨ (f.nbWrite a).contents = f.contents := by
  unfold nbWrite
  split
  · exact Or.inl (push_contents f a)
  · exact Or.inr rfl

theorem nbRead_eq_none_iff (f : Fifo α) : f.nbRead = none ↔ f.readable = [] := by
  unfold nbRead
  cases h : f.readable <;> simp

/-- What a successful read takes and leaves. -/
theorem contents_of_nbRead {f g : Fifo α} {a : α} (h : f.nbRead = some (a, g)) :
    f.contents = a :: g.contents ∧ f.readable = a :: g.readable ∧ g.written = f.written := by
  unfold nbRead at h
  cases hr : f.readable with
  | nil => simp [hr] at h
  | cons b rest =>
    simp only [hr, Option.some.injEq, Prod.mk.injEq] at h
    obtain ⟨rfl, rfl⟩ := h
    simp [contents, hr]

theorem size_of_nbRead {f g : Fifo α} {a : α} (h : f.nbRead = some (a, g)) :
    g.size = f.size := by
  unfold nbRead at h
  split at h
  · cases h
  · cases h
    rfl

/-! ### How much a FIFO holds -/

def held (f : Fifo α) : Nat := f.contents.length

@[simp] theorem held_new (size : Nat) : (new size : Fifo α).held = 0 := rfl

@[simp] theorem held_push (f : Fifo α) (a : α) : (f.push a).held = f.held + 1 := by simp [held]

@[simp] theorem held_update (f : Fifo α) : f.update.held = f.held := by simp [held]

theorem held_nbWrite_le (f : Fifo α) (a : α) : (f.nbWrite a).held ≤ f.held + 1 := by
  rcases f.nbWrite_contents a with more | same
  · simp [held, more]
  · simp [held, same]

theorem held_of_nbRead {f g : Fifo α} {a : α} (h : f.nbRead = some (a, g)) :
    f.held = g.held + 1 := by
  simp [held, (contents_of_nbRead h).1]

theorem held_eq_zero {f : Fifo α} : f.held = 0 ↔ f.contents = [] := List.length_eq_zero_iff

/-! ### A FIFO seen through a function -/

def map {β : Type} (g : α → β) (f : Fifo α) : Fifo β :=
  ⟨f.size, f.readable.map g, f.written.map g, f.numRead⟩

section map

variable {β : Type} (g : α → β) (f : Fifo α)

theorem map_push (a : α) : (f.push a).map g = (f.map g).push (g a) := by simp [map, push]

theorem map_update : f.update.map g = (f.map g).update := by simp [map, update]

theorem map_nbRead : (f.map g).nbRead = f.nbRead.map fun r => (g r.1, r.2.map g) := by
  cases readable : f.readable <;> simp [nbRead, map, readable]

theorem map_contents : (f.map g).contents = f.contents.map g := by simp [map, contents]

theorem map_held : (f.map g).held = f.held := by simp [held, map_contents]

theorem map_numFree : (f.map g).numFree = f.numFree := by simp [numFree, map]

end map

/-! ### What a step takes and adds -/

/-- The elements a reader has taken between `f` and `g`. -/
def readOff (f g : Fifo α) : List α := f.readable.take (f.readable.length - g.readable.length)

/-- The elements a writer has added between `f` and `g`. -/
def writtenSince (f g : Fifo α) : List α := g.written.drop f.written.length

@[simp] theorem readOff_self (f : Fifo α) : f.readOff f = [] := by simp [readOff]

@[simp] theorem writtenSince_self (f : Fifo α) : f.writtenSince f = [] := by simp [writtenSince]

@[simp] theorem readOff_update (f : Fifo α) : f.readOff f.update = [] := by
  simp [readOff, update]

@[simp] theorem writtenSince_update (f : Fifo α) : f.writtenSince f.update = [] := by
  simp [writtenSince, update]

@[simp] theorem readOff_push (f : Fifo α) (a : α) : f.readOff (f.push a) = [] := by
  simp [readOff, push]

@[simp] theorem readOff_nbWrite (f : Fifo α) (a : α) : f.readOff (f.nbWrite a) = [] := by
  unfold nbWrite
  split <;> simp

@[simp] theorem writtenSince_push (f : Fifo α) (a : α) : f.writtenSince (f.push a) = [a] := by
  simp [writtenSince, push]

theorem readOff_of_nbRead {f g : Fifo α} {a : α} (h : f.nbRead = some (a, g)) :
    f.readOff g = [a] := by
  simp [readOff, (contents_of_nbRead h).2.1]

end Fifo

end ScCosim.Kernel
