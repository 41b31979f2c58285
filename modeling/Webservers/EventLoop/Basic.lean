import Mathlib.Logic.Function.Basic
import Mathlib.Algebra.Group.Nat.Defs
import Webservers.Lib.Machine

/-!
# `EventLoop` (src/EventLoop.h, src/EventLoop.cc)

One loop, its own thread and any number of other threads, as a labelled machine. A label is
one atomic step: an `emplace_back` on `pendingFunctors_`, the `swap` of `doPendingFunctors`, a
read or a write of the eventfd, a test of a flag, or a step of `loop()` between them.

Threads are an arbitrary type `τ`, functors an arbitrary type `φ`. What a channel callback or a
functor does is left open: while the loop thread is inside one it may call `queueInLoop`,
`runInLoop` and `quit` any number of times, and then it returns. `queued` and `executed` are
history: the functors in the order of their `emplace_back`, and in the order of their
execution together with the executing thread.
-/

namespace Webservers

/-- A channel in `activeChannels_`: the wakeup channel, whose callback is `handleRead`, or any
other one. -/
inductive Active where
  | wakeup
  | user
deriving Repr, DecidableEq

/-- Where the loop thread stands. -/
inductive LoopPc (φ : Type*) where
  /-- `loop()` not entered, or returned -/
  | outside
  /-- at `while (!quit_)` -/
  | test
  /-- in `poller_->poll` -/
  | poll
  /-- in the `for` over `activeChannels_`, these still to be handled -/
  | dispatch (rest : List Active)
  /-- inside the callback of a channel -/
  | callback (rest : List Active)
  /-- in `doPendingFunctors`, `callingPendingFunctors_` raised, before the `swap` -/
  | swap
  /-- in the `for` over the local `functor`, these still to be run -/
  | batch (rest : List φ)
  /-- inside a functor of the batch -/
  | functor (rest : List φ)
deriving Repr, DecidableEq

namespace LoopPc

variable {φ : Type*}

/-- The functors of the batch being run that are still to come. -/
def rest : LoopPc φ → List φ
  | .batch rest | .functor rest => rest
  | _ => []

/-- The loop thread runs code that is not the loop's. -/
def userCode : LoopPc φ → Bool
  | .outside | .callback _ | .functor _ => true
  | _ => false

end LoopPc

/-- Where a thread stands in a call of `queueInLoop` or `quit`. -/
inductive CallPc where
  | idle
  /-- `emplace_back` done, the condition before `wakeup()` not yet evaluated -/
  | emplaced
  /-- in `queueInLoop`, about to write the eventfd -/
  | wakeup
  /-- in `quit`, about to write the eventfd -/
  | quitWakeup
deriving Repr, DecidableEq

structure EventLoop (τ φ : Type*) where
  looping : Bool
  quit : Bool
  callingPendingFunctors : Bool
  pendingFunctors : List φ
  /-- the counter of `wakeupFd_` -/
  wakeupCount : ℕ
  pc : LoopPc φ
  calls : τ → CallPc
  queued : List φ
  executed : List (τ × φ)

namespace EventLoop

variable {τ φ : Type*} [DecidableEq τ]

/-- A step of a call on the loop's public functions, by thread `t`. -/
inductive Call (τ φ : Type*) where
  /-- `queueInLoop(f)`: the `emplace_back` -/
  | queueInLoop (t : τ) (f : φ)
  /-- `runInLoop(f)`: `cb()` at once, or the `emplace_back` of `queueInLoop` -/
  | runInLoop (t : τ) (f : φ)
  /-- the condition before `wakeup()` in `queueInLoop` -/
  | testWakeup (t : τ)
  /-- the write to the eventfd -/
  | wakeup (t : τ)
  /-- `quit()`: the store to `quit_` -/
  | quit (t : τ)
deriving Repr, DecidableEq

/-- A step of the loop thread in `loop()` and `doPendingFunctors()`. -/
inductive LoopStep where
  | enterLoop
  | testQuit
  /-- `poll` returns with these channels active -/
  | pollReturn (active : List Active)
  /-- the next round of the `for` over `activeChannels_` -/
  | dispatch
  | callbackReturn
  | swap
  /-- the next round of the `for` over the local `functor` -/
  | runFunctor
  | functorReturn
deriving Repr, DecidableEq

inductive Label (τ φ : Type*) where
  | call (c : Call τ φ)
  | loop (l : LoopStep)
deriving Repr, DecidableEq

/-- The constructor. -/
def new : EventLoop τ φ where
  looping := false
  quit := false
  callingPendingFunctors := false
  pendingFunctors := []
  wakeupCount := 0
  pc := .outside
  calls := fun _ => .idle
  queued := []
  executed := []

/-- A `write` of 1 to a non-blocking eventfd: refused when the counter is at its maximum. -/
def eventfdWrite (count : ℕ) : ℕ := if count + 1 ≤ 2 ^ 64 - 2 then count + 1 else count

/-- May thread `t` start a call? Other threads at any time, the loop thread while it runs user
code: inside a callback or a functor, or before and after `loop()`. -/
def mayCall (own : τ) (s : EventLoop τ φ) (t : τ) : Bool :=
  s.calls t = .idle && (t != own || s.pc.userCode)

/-- `pendingFunctors_.emplace_back(cb)` by thread `t`. -/
def emplace (s : EventLoop τ φ) (t : τ) (f : φ) : EventLoop τ φ :=
  { s with
    pendingFunctors := s.pendingFunctors ++ [f]
    queued := s.queued ++ [f]
    calls := Function.update s.calls t .emplaced }

/-- The steps of the calls, by any thread. -/
def callStep (own : τ) (s : EventLoop τ φ) : Call τ φ → Option (EventLoop τ φ)
  | .queueInLoop t f => if s.mayCall own t then some (s.emplace t f) else none
  | .runInLoop t f =>
    -- on the loop thread `cb()` runs inside the caller, which is user code already
    if s.mayCall own t then some (if t = own then s else s.emplace t f) else none
  | .testWakeup t =>
    if s.calls t = .emplaced then
      let next := if t ≠ own ∨ s.callingPendingFunctors then CallPc.wakeup else .idle
      some { s with calls := Function.update s.calls t next }
    else none
  | .wakeup t =>
    if s.calls t = .wakeup ∨ s.calls t = .quitWakeup then
      some
        { s with
          wakeupCount := eventfdWrite s.wakeupCount
          calls := Function.update s.calls t .idle }
    else none
  | .quit t =>
    if s.mayCall own t then
      let next := if t ≠ own then CallPc.quitWakeup else .idle
      some { s with quit := true, calls := Function.update s.calls t next }
    else none

/-- The steps of `loop()` and `doPendingFunctors()`, by the loop thread. It leaves user code
only when no call it made there is under way. -/
def loopStep (own : τ) (s : EventLoop τ φ) : LoopStep → Option (EventLoop τ φ)
  | .enterLoop =>
    match s.pc with
    | .outside =>
      if s.calls own = .idle then some { s with looping := true, quit := false, pc := .test }
      else none
    | _ => none
  | .testQuit =>
    match s.pc with
    | .test =>
      if s.quit then some { s with looping := false, pc := .outside }
      else some { s with pc := .poll }
    | _ => none
  | .pollReturn active =>
    match s.pc with
    | .poll =>
      -- the eventfd is readable only while its counter is positive
      if .wakeup ∈ active → 0 < s.wakeupCount then some { s with pc := .dispatch active }
      else none
    | _ => none
  | .dispatch =>
    match s.pc with
    | .dispatch (.wakeup :: rest) => some { s with wakeupCount := 0, pc := .dispatch rest }
    | .dispatch (.user :: rest) => some { s with pc := .callback rest }
    | .dispatch [] => some { s with callingPendingFunctors := true, pc := .swap }
    | _ => none
  | .callbackReturn =>
    match s.pc with
    | .callback rest =>
      if s.calls own = .idle then some { s with pc := .dispatch rest } else none
    | _ => none
  | .swap =>
    match s.pc with
    | .swap => some { s with pendingFunctors := [], pc := .batch s.pendingFunctors }
    | _ => none
  | .runFunctor =>
    match s.pc with
    | .batch (f :: rest) =>
      some { s with executed := s.executed ++ [(own, f)], pc := .functor rest }
    | .batch [] => some { s with callingPendingFunctors := false, pc := .test }
    | _ => none
  | .functorReturn =>
    match s.pc with
    | .functor rest =>
      if s.calls own = .idle then some { s with pc := .batch rest } else none
    | _ => none

def step (own : τ) (s : EventLoop τ φ) : Label τ φ → Option (EventLoop τ φ)
  | .call c => s.callStep own c
  | .loop l => s.loopStep own l

end EventLoop
end Webservers
