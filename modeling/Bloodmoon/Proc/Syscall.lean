import Mathlib

/-!
# System calls

The model of `global_syscall_handler` with the handlers for reading and writing. The first argument
is an index into `open_files`, which has 32 entries, and no handler compares it with them
(`handlesDescriptors_iff`).
-/

namespace Bloodmoon

/-- `SYSCALL_SUCCESS`. -/
def syscallSuccess : BitVec 64 := 0

/-- `SYSCALL_UNDEFINED`. -/
def syscallUndefined : BitVec 64 := -1

/-- `SYSCALL_ERROR`. -/
def syscallError : BitVec 64 := -2

/-- The registers of a call. -/
structure SyscallContext where
  rax : BitVec 64
  rdi : BitVec 64
  rsi : BitVec 64
  rdx : BitVec 64

/-- `vfs_file_read` and `vfs_file_write`. -/
inductive VfsTransfer where
  | fileRead
  | fileWrite

/-- What a call does: the entries of `open_files` that it reads, the calls of the file system with
descriptor, buffer and size, and the value in `rax` at the end. -/
structure SyscallEffect where
  entries : List ℕ
  transfers : List (VfsTransfer × ℤ × BitVec 64 × BitVec 64)
  rax : BitVec 64

/-- A handler that transfers data, on what is in memory from `open_files` on: behind its entries
that is something else. -/
def fileSyscallHandler (transfer : VfsTransfer) (openFiles : ℕ → ℤ) (ctx : SyscallContext) :
    SyscallEffect :=
  let fd := ctx.rdi.toNat
  if -1 < openFiles fd then
    ⟨[fd, fd], [(transfer, openFiles fd, ctx.rsi, ctx.rdx)], syscallSuccess⟩
  else ⟨[fd], [], syscallError⟩

/-- `read_syscall_handler`. -/
def readSyscallHandler : (ℕ → ℤ) → SyscallContext → SyscallEffect := fileSyscallHandler .fileRead

/-- `write_syscall_handler`. -/
def writeSyscallHandler : (ℕ → ℤ) → SyscallContext → SyscallEffect := fileSyscallHandler .fileWrite

/-- `global_syscall_handler`, after `yield`. The handler of `sched_yield` changes nothing. -/
def globalSyscallHandler (openFiles : ℕ → ℤ) (ctx : SyscallContext) : SyscallEffect :=
  if ctx.rax = 0 then readSyscallHandler openFiles ctx
  else if ctx.rax = 1 then writeSyscallHandler openFiles ctx
  else if ctx.rax = 24 then ⟨[], [], ctx.rax⟩
  else if ctx.rax < 256 then ⟨[], [], syscallUndefined⟩
  else ⟨[], [], syscallError⟩

/-- Only entries of the table are read, and another descriptor is an error. -/
def HandlesDescriptors (openFiles : ℕ → ℤ) (ctx : SyscallContext) : Prop :=
  (∀ i ∈ (globalSyscallHandler openFiles ctx).entries, i < 32) ∧
    (ctx.rax = 0 ∨ ctx.rax = 1 → 32 ≤ ctx.rdi.toNat →
      (globalSyscallHandler openFiles ctx).rax = syscallError)

theorem mem_entries_fileSyscallHandler (transfer : VfsTransfer) (openFiles : ℕ → ℤ)
    (ctx : SyscallContext) (i : ℕ) :
    i ∈ (fileSyscallHandler transfer openFiles ctx).entries ↔ i = ctx.rdi.toNat := by
  rw [fileSyscallHandler]
  split_ifs
  · rw [List.mem_pair, or_self]
  · exact List.mem_singleton

/-- The entries that a call reads. -/
theorem mem_entries_globalSyscallHandler (openFiles : ℕ → ℤ) (ctx : SyscallContext) (i : ℕ) :
    i ∈ (globalSyscallHandler openFiles ctx).entries ↔
      (ctx.rax = 0 ∨ ctx.rax = 1) ∧ i = ctx.rdi.toNat := by
  rw [globalSyscallHandler]
  split_ifs with hread hwrite
  · rw [readSyscallHandler, mem_entries_fileSyscallHandler, and_iff_right (.inl hread)]
  · rw [writeSyscallHandler, mem_entries_fileSyscallHandler, and_iff_right (.inr hwrite)]
  all_goals exact iff_of_false List.not_mem_nil fun h => h.1.elim hread hwrite

/-- **When the descriptor is handled**: it is one of the table, or the call has none. -/
theorem handlesDescriptors_iff (openFiles : ℕ → ℤ) (ctx : SyscallContext) :
    HandlesDescriptors openFiles ctx ↔ (ctx.rax = 0 ∨ ctx.rax = 1 → ctx.rdi.toNat < 32) := by
  constructor
  · intro h hfile
    exact h.1 _ ((mem_entries_globalSyscallHandler ..).2 ⟨hfile, rfl⟩)
  · intro h
    refine ⟨fun i hi => ?_, fun hfile hle => absurd (h hfile) (Nat.not_lt.2 hle)⟩
    obtain ⟨hfile, rfl⟩ := (mem_entries_globalSyscallHandler ..).1 hi
    exact h hfile

/-- The first entry behind the table is read. -/
theorem not_handlesDescriptors_behind : ¬ HandlesDescriptors (fun _ => -1) ⟨0, 32, 0, 0⟩ :=
  fun h => absurd (h.1 32 (by decide)) (Nat.lt_irrefl 32)

end Bloodmoon
