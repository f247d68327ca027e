import PpsDht.Lib.CString
import PpsDht.Lib.Loop

/-!
# Constants, error codes and faults

The constants of `config.h`, `hashtable.h` and `node_list.h`, the error codes
of `error.h`, and the ways in which a modelled C function can fail to return.

A function that can fail to return has result type `Except Fault`.  A model
function returns `.error` where the C code would read or write outside an
array, or would dereference `NULL`.  `outOfFuel` says that a loop did not end
within the given fuel.
-/

namespace PpsDht

/-- `MAX_MSG_ELEM_SIZE`: the longest key or value of a client. -/
def maxMsgElemSize : Nat := 32753

/-- `MAX_MSG_SIZE`: the longest datagram. -/
def maxMsgSize : Nat := maxMsgElemSize * 2 + 1

/-- `HTABLE_SIZE`. -/
def htableSize : Nat := 256

theorem htableSize_pos : 0 < htableSize := by decide

/-- `SIZE_MAX` of the 64-bit target. -/
def sizeMax : Nat := 2 ^ 64 - 1

/-- `a - b` in `size_t`. -/
def sizeSub (a b : Nat) : Nat := (a + 2 ^ 64 - b) % 2 ^ 64

/-- `error_code`. -/
inductive ErrorCode where
  | ERR_NONE
  | ERR_NOMEM
  | ERR_IO
  | ERR_BAD_PARAMETER
  | ERR_NETWORK
  | ERR_NOT_FOUND
  deriving DecidableEq, Repr

/-- Why a C function does not return. -/
inductive Fault where
  | outOfBounds
  | nullDeref
  | outOfFuel
  deriving DecidableEq, Repr

/-- A loop of the model: `outOfFuel` when it does not end within `fuel`
passes. -/
def runLoop {σ α : Type} (body : σ → Loop.Step σ (Except Fault α))
    (fuel : Nat) (s : σ) : Except Fault α :=
  (Loop.run body fuel s).getD (.error .outOfFuel)

theorem runLoop_of_run {σ α : Type} {body : σ → Loop.Step σ (Except Fault α)}
    {fuel : Nat} {s : σ} {r : Except Fault α}
    (h : Loop.run body fuel s = some r) : runLoop body fuel s = r := by
  rw [runLoop, h]
  rfl

theorem runLoop_succ_again {σ α : Type}
    {body : σ → Loop.Step σ (Except Fault α)} {s s' : σ} (fuel : Nat)
    (h : body s = .again s') :
    runLoop body (fuel + 1) s = runLoop body fuel s' := by
  rw [runLoop, Loop.run_succ_again fuel h, runLoop]

theorem run_of_runLoop_ok {σ α : Type}
    {body : σ → Loop.Step σ (Except Fault α)} {fuel : Nat} {s : σ} {a : α}
    (h : runLoop body fuel s = .ok a) :
    Loop.run body fuel s = some (.ok a) := by
  cases hrun : Loop.run body fuel s with
  | none =>
    rw [runLoop, hrun] at h
    cases h
  | some r => rw [← h, runLoop_of_run hrun]

/-- With any other fuel, a loop has the same result or none. -/
theorem runLoop_ok_or {σ α : Type} {body : σ → Loop.Step σ (Except Fault α)}
    {s : σ} {fuel : Nat} {a : α} (h : runLoop body fuel s = .ok a)
    (fuel' : Nat) :
    runLoop body fuel' s = .ok a ∨
      runLoop body fuel' s = .error .outOfFuel := by
  have hrun := run_of_runLoop_ok h
  cases hrun' : Loop.run body fuel' s with
  | none =>
    right
    rw [runLoop, hrun']
    rfl
  | some r' =>
    left
    rw [runLoop_of_run hrun', Loop.run_unique hrun' hrun]

end PpsDht
