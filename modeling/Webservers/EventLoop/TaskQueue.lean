import Webservers.EventLoop.Theorems

/-!
# The task queue of a loop, seen from outside

Where several loops work together, what matters of each is which functors it still has to run:
those of the batch `doPendingFunctors` is at, then those in `pendingFunctors_`. A `TaskQueue` is
just that. `step_taskQueue` says that the machine of `EventLoop.Basic` moves it in three ways
only: a functor is queued, the batch is swapped out, the next functor is run.
-/

namespace Webservers

structure TaskQueue (φ : Type*) where
  pendingFunctors : List φ
  /-- the functors of the local vector that are still to be run -/
  batch : List φ
deriving Repr, DecidableEq

namespace TaskQueue

variable {φ : Type*}

def empty : TaskQueue φ := ⟨[], []⟩

/-- `pendingFunctors_.emplace_back(f)` -/
def emplace (q : TaskQueue φ) (f : φ) : TaskQueue φ :=
  { q with pendingFunctors := q.pendingFunctors ++ [f] }

/-- `functor.swap(pendingFunctors_)`, on an empty local vector -/
def swap (q : TaskQueue φ) : Option (TaskQueue φ) :=
  if q.batch.isEmpty then some ⟨[], q.pendingFunctors⟩ else none

/-- The next round of the `for` over the local vector. -/
def next (q : TaskQueue φ) : Option (φ × TaskQueue φ) :=
  match q.batch with
  | [] => none
  | f :: rest => some (f, { q with batch := rest })

/-- All functors still to be run, in order. -/
def all (q : TaskQueue φ) : List φ := q.batch ++ q.pendingFunctors

theorem all_emplace (q : TaskQueue φ) (f : φ) : (q.emplace f).all = q.all ++ [f] := by
  rw [all, all, List.append_assoc]
  rfl

theorem all_swap {q q' : TaskQueue φ} (h : q.swap = some q') : q'.all = q.all := by
  unfold swap at h
  split at h <;> cases h
  rename_i hempty
  rw [all, all, List.append_nil, List.isEmpty_iff.mp hempty, List.nil_append]

theorem all_next {q q' : TaskQueue φ} {f : φ} (h : q.next = some (f, q')) :
    q.all = f :: q'.all := by
  unfold next at h
  split at h <;> cases h
  rename_i hbatch
  rw [all, hbatch]
  rfl

end TaskQueue

namespace EventLoop

variable {τ φ : Type*} [DecidableEq τ] {own : τ} {s t : EventLoop τ φ}

def toTaskQueue (s : EventLoop τ φ) : TaskQueue φ := ⟨s.pendingFunctors, s.pc.rest⟩

/-- A step of the loop's machine, as a step of its task queue. -/
theorem step_taskQueue {a : Label τ φ} (h : step own s a = some t) :
    t.toTaskQueue = s.toTaskQueue ∨ (∃ f, t.toTaskQueue = s.toTaskQueue.emplace f) ∨
      s.toTaskQueue.swap = some t.toTaskQueue ∨
      ∃ f, s.toTaskQueue.next = some (f, t.toTaskQueue) ∧
        t.executed = s.executed ++ [(own, f)] := by
  cases a with
  | call c =>
    rcases callTrans_queue (callStep_trans h) with ⟨th, f, rfl⟩ | ⟨hpending, -, -, hpc⟩
    · exact Or.inr (Or.inl ⟨f, rfl⟩)
    · left
      rw [toTaskQueue, toTaskQueue, hpending, hpc]
  | loop l =>
    have htrans := loopStep_trans h
    unfold toTaskQueue
    cases htrans with
    | swap hpc =>
      right; right; left
      rw [hpc]
      rfl
    | runFunctor f rest hpc =>
      right; right; right
      refine ⟨f, ?_, rfl⟩
      rw [hpc]
      rfl
    | enterLoop hpc | leaveLoop hpc | enterPoll hpc | doPendingFunctors hpc | batchDone hpc =>
      left
      rw [hpc]
      rfl
    | pollReturn rest hpc | handleRead rest hpc | callback rest hpc =>
      left
      rw [hpc]
      rfl
    | callbackReturn rest hpc | functorReturn rest hpc =>
      left
      rw [hpc]
      rfl

end EventLoop
end Webservers
