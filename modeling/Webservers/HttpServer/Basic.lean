import Webservers.Channel
import Webservers.HttpConn.Response
import Webservers.Lib.Machine

/-!
# The thread-pool server (bck/src/main.cpp, bck/include/threadpool.h)

The main thread waits in `epoll_wait`, accepts, reads and writes; the workers of the pool parse
and compose. A connection is its descriptor, which is also its index in `users`.

* The main thread is the only one that calls `epoll_wait`, so what it does for one entry of
  `events` is one step.
* `append` and the taking of a request happen under `m_queuelocker` and are one step each.
* `process` works on the members of its slot until its `modfd`, which gives the connection back.
  Only on the way through `close_conn` does it go on after that: the descriptor is free
  from `close(fd)` on, while the worker still has to reset `m_sockfd` and to call `modfd`. Up to
  there it is one step: nobody else is at the slot, unless its descriptor was given out again in
  such a gap.

Two things end what can be said of a run.

* A parser may store outside `m_read_buf`: into other members of its slot, into another slot, or
  anywhere else. The step of such a worker is `overrun`, after which anything may be so; `Contained`
  is the condition that there is none.
* `write` may call `writev` for ever with nothing to offer. Such a call has no step.

`m_user_count` is left to the environment: whether `accept` meets a full table is part of the label.
A descriptor is taken to be an index of `users`; the others are the subject of `UserTheorems`.
-/

namespace Webservers

def EPOLLRDHUP : Mask := 0x2000

/-- An entry of `events`: the listening socket, or a connection with what is ready. -/
inductive Report where
  | listen
  | conn (fd : ℕ) (events : Mask)
deriving Repr, DecidableEq

/-- The entry is about this connection. -/
def Report.concerns (fd : ℕ) : Report → Bool
  | .listen => false
  | .conn fd' _ => fd' == fd

/-- No descriptor is reported twice by one `epoll_wait`. -/
def Report.Distinct : Report → Report → Prop
  | .conn fd _, .conn fd' _ => fd ≠ fd'
  | _, _ => True

instance : DecidableRel Report.Distinct := fun
  | .conn _ _, .conn _ _ => inferInstanceAs (Decidable (_ ≠ _))
  | .listen, _ => isTrue trivial
  | .conn _ _, .listen => isTrue trivial

/-- Where a worker stands in `run`. -/
inductive WorkerPc where
  | idle
  /-- in `users[fd].process()` -/
  | processing (fd : ℕ)
  /-- in its `close_conn`, after `rmfd` -/
  | closing (fd : ℕ)
  /-- after its `close_conn` -/
  | closed (fd : ℕ)
deriving Repr, DecidableEq

structure HttpServer where
  users : ℕ → HttpConn
  /-- the descriptor is an open connection -/
  opened : ℕ → Bool
  /-- what the one-shot registration waits for, `none` once it was reported -/
  armed : ℕ → HttpConn.Arm
  /-- the entries of `events` that the main thread has not handled yet -/
  events : List Report
  workqueue : List ℕ
  workers : List WorkerPc

namespace HttpServer

open HttpConn (Arm)

/-- `main` before its loop, with the pool's threads waiting. -/
def start (threadNum : ℕ) : HttpServer where
  users := fun _ => HttpConn.new
  opened := fun _ => false
  armed := fun _ => .none
  events := []
  workqueue := []
  workers := List.replicate threadNum .idle

def setUser (s : HttpServer) (fd : ℕ) (c : HttpConn) : HttpServer :=
  { s with users := Function.update s.users fd c }

def setWorker (s : HttpServer) (w : ℕ) (pc : WorkerPc) : HttpServer :=
  { s with workers := s.workers.set w pc }

/-! ## The `epoll` set -/

/-- `addfd(epollfd, fd, true, true)` on a new descriptor -/
def addfd (s : HttpServer) (fd : ℕ) : HttpServer :=
  { s with
    opened := Function.update s.opened fd true
    armed := Function.update s.armed fd .epollin }

/-- `rmfd(epollfd, fd)`: the descriptor is closed and so leaves the set. -/
def rmfd (s : HttpServer) (sockfd : ℤ) : HttpServer :=
  if 0 ≤ sockfd then
    { s with
      opened := Function.update s.opened sockfd.toNat false
      armed := Function.update s.armed sockfd.toNat .none }
  else s

/-- `modfd(epollfd, fd, ev)`: it fails on a descriptor that is not in the set. -/
def modfd (s : HttpServer) (sockfd : ℤ) (ev : Arm) : HttpServer :=
  if 0 ≤ sockfd ∧ s.opened sockfd.toNat = true then
    { s with armed := Function.update s.armed sockfd.toNat ev }
  else s

/-- The events of a registration, `EPOLLONESHOT` apart. -/
def wanted : Arm → Mask
  | .none => 0
  | .epollin => EPOLLIN ||| EPOLLRDHUP
  | .epollout => EPOLLOUT ||| EPOLLRDHUP

/-- What `epoll_wait` may report: a connection that is armed, with some of the events it waits for
or an error. -/
def Reportable (s : HttpServer) : Report → Prop
  | .listen => True
  | .conn fd events => s.armed fd ≠ .none ∧ events ≠ 0 ∧
      events &&& ~~~(wanted (s.armed fd) ||| EPOLLERR ||| EPOLLHUP) = 0

instance (s : HttpServer) : DecidablePred s.Reportable := fun
  | .listen => inferInstanceAs (Decidable True)
  | .conn _ _ => inferInstanceAs (Decidable (_ ∧ _ ∧ _))

/-- `epoll_wait` returns, and the one-shot registrations it reports are used up. -/
def wait (s : HttpServer) (reports : List Report) : HttpServer :=
  { s with
    events := reports
    armed := fun fd => if reports.any (Report.concerns fd) then .none else s.armed fd }

/-! ## The main thread -/

/-- `users[fd].close_conn()`, called by the main thread -/
def closeConn (s : HttpServer) (fd : ℕ) : HttpServer :=
  if (s.users fd).sockfd ≠ -1 then
    (s.rmfd (s.users fd).sockfd).setUser fd (s.users fd).closeConn
  else s

/-- `pool->append(users + fd)` -/
def append (maxRequests : ℕ) (s : HttpServer) (fd : ℕ) : Bool × HttpServer :=
  if maxRequests < s.workqueue.length then (false, s)
  else (true, { s with workqueue := s.workqueue ++ [fd] })

/-- The `modfd` of `write`, if it gets to one. -/
def rearm (s : HttpServer) (sockfd : ℤ) : Arm → HttpServer
  | .none => s
  | ev => s.modfd sockfd ev

/-- The branches of the loop of `main` for a connection. The result of `append` is dropped. -/
def handleEvent (maxRequests : ℕ) (s : HttpServer) (fd : ℕ) (events : Mask)
    (recvs : List ReadState.Recv) (writes : List WriteResult) : HttpServer :=
  if events &&& (EPOLLRDHUP ||| EPOLLHUP ||| EPOLLERR) ≠ 0 then s.closeConn fd
  else if events &&& EPOLLIN ≠ 0 then
    let (ok, c) := (s.users fd).read recvs
    let s := s.setUser fd c
    if ok then (s.append maxRequests fd).2 else s.closeConn fd
  else if events &&& EPOLLOUT ≠ 0 then
    let (written, c) := (s.users fd).write writes
    let s := (s.setUser fd c).rearm c.sockfd written.arm
    if written.ret then s else s.closeConn fd
  else s

/-- The branch for the listening socket. When `accept` fails, `init` is called on `users[-1]`, which
is none of the slots; here it does not fault. A connection beyond the limit is closed at once. -/
def accept (s : HttpServer) (connfd : Option ℕ) (full : Bool) : Option HttpServer :=
  match connfd with
  | none => some s
  | some fd =>
    if s.opened fd then none
    else if full then some s
    else some ((s.setUser fd ((s.users fd).initConn fd)).addfd fd)

/-! ## The workers -/

/-- The worker takes the front of `m_workqueue`. -/
def take (s : HttpServer) (w : ℕ) : Option HttpServer :=
  match s.workers[w]?, s.workqueue with
  | some .idle, fd :: rest => some ({ s with workqueue := rest }.setWorker w (.processing fd))
  | _, _ => none

/-- `process()` up to its end, or up to the `rmfd` of its `close_conn`. -/
def process (typeText : List UInt8) (s : HttpServer) (w : ℕ) (fs : FileSystem) :
    Option HttpServer :=
  match s.workers[w]? with
  | some (.processing fd) =>
    let c := s.users fd
    let ((ev, _), c') := c.process typeText fs
    if c.sockfd ≠ -1 ∧ c'.sockfd = -1 then
      some (((s.setUser fd { c' with sockfd := c.sockfd }).rmfd c.sockfd).setWorker w (.closing fd))
    else some (((s.setUser fd c').modfd c'.sockfd ev).setWorker w .idle)
  | _ => none

/-- The worker is at a `process_read` that stores outside `m_read_buf`. -/
def overruns (s : HttpServer) (w : ℕ) : Bool :=
  match s.workers[w]? with
  | some (.processing fd) => !decide (s.users fd).Inside
  | _ => false

/-- The rest of `process()` after the `rmfd`. -/
def leave (s : HttpServer) (w : ℕ) : Option HttpServer :=
  match s.workers[w]? with
  | some (.closing fd) =>
    some ((s.setUser fd { s.users fd with sockfd := -1 }).setWorker w (.closed fd))
  | some (.closed fd) => some ((s.modfd (s.users fd).sockfd .epollout).setWorker w .idle)
  | _ => none

/-! ## Runs -/

/-- What `handleEvent` calls for the entry returns. -/
def Returns (s : HttpServer) (fd : ℕ) (events : Mask) (writes : List WriteResult) : Prop :=
  events &&& (EPOLLRDHUP ||| EPOLLHUP ||| EPOLLERR) = 0 → events &&& EPOLLIN = 0 →
    events &&& EPOLLOUT ≠ 0 → (s.users fd).WriteReturns writes

instance (s : HttpServer) (fd : ℕ) (events : Mask) (writes : List WriteResult) :
    Decidable (s.Returns fd events writes) :=
  inferInstanceAs (Decidable (_ → _ → _ → _))

/-- A step, with what the kernel answers. -/
inductive Label where
  | wait (reports : List Report)
  | accept (connfd : Option ℕ) (full : Bool)
  | handle (recvs : List ReadState.Recv) (writes : List WriteResult)
  | take (w : ℕ)
  | process (w : ℕ) (fs : FileSystem)
  /-- `process` with a store outside `m_read_buf`, which may leave anything behind -/
  | overrun (w : ℕ) (left : HttpServer)
  | leave (w : ℕ)

def step (typeText : List UInt8) (maxRequests : ℕ) (s : HttpServer) : Label → Option HttpServer
  | .wait reports =>
    if s.events = [] ∧ (∀ r ∈ reports, s.Reportable r) ∧ reports.Pairwise Report.Distinct then
      some (s.wait reports)
    else none
  | .accept connfd full =>
    match s.events with
    | .listen :: rest => { s with events := rest }.accept connfd full
    | _ => none
  | .handle recvs writes =>
    match s.events with
    | .conn fd events :: rest =>
      if s.Returns fd events writes then
        some ({ s with events := rest }.handleEvent maxRequests fd events recvs writes)
      else none
    | _ => none
  | .take w => s.take w
  | .process w fs => if s.overruns w then none else s.process typeText w fs
  | .overrun w left => if s.overruns w then some left else none
  | .leave w => s.leave w

/-- The main thread handles the entry at the front, by a call that returns. -/
theorem step_handle {typeText : List UInt8} {maxRequests : ℕ} {s t : HttpServer}
    {recvs : List ReadState.Recv} {writes : List WriteResult}
    (h : s.step typeText maxRequests (.handle recvs writes) = some t) :
    ∃ fd events rest, s.events = .conn fd events :: rest ∧ s.Returns fd events writes ∧
      t = { s with events := rest }.handleEvent maxRequests fd events recvs writes := by
  simp only [step] at h
  split at h
  · rename_i fd events rest hev
    rw [Option.ite_none_right_eq_some, Option.some.injEq] at h
    exact ⟨fd, events, rest, hev, h.1, h.2.symm⟩
  · cases h

theorem step_process {typeText : List UInt8} {maxRequests w : ℕ} {s t : HttpServer}
    {fs : FileSystem} (h : s.step typeText maxRequests (.process w fs) = some t) :
    s.overruns w = false ∧ s.process typeText w fs = some t := by
  rw [step, Option.ite_none_left_eq_some] at h
  exact ⟨Bool.eq_false_iff.mpr h.1, h.2⟩

/-- No parser stores outside `m_read_buf`. -/
def Contained (_ : HttpServer) : Label → Prop
  | .overrun _ _ => False
  | _ => True

instance (s : HttpServer) : DecidablePred s.Contained := fun
  | .overrun _ _ => .isFalse id
  | .wait _ | .accept _ _ | .handle _ _ | .take _ | .process _ _ | .leave _ => .isTrue trivial

end HttpServer
end Webservers
