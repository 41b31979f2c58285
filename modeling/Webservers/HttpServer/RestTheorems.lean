import Webservers.HttpConn.ReturnTheorems
import Webservers.HttpServer.SessionTheorems

/-!
# Between two calls of `epoll_wait`

What one `epoll_wait` reports is dealt with by the main thread and the workers, and nothing that
they do for one connection makes them wait for another.

* `work` bounds the steps that are left: every step of the server makes it smaller, only
  `epoll_wait` adds to it (`work_step`).
* A worker that has a request can go on (`exists_step_of_busy`), and so can the main thread as long
  as an entry is left (`exists_handle`, `exists_accept`), unless the server is `Faulty`: a parser is
  about to store outside `m_read_buf`, or a `write` never returns. There is always a descriptor for
  a new connection (`Supplied`).
* The latter takes a counter that the last connection has left in the slot: `not_hangs` says that
  `write` can return as long as every connection finds `m_bytes_to_send` at 0.
* When nothing is left to do, every open connection is armed (`Sound.armed_of_atRest`).

`PooledServer.comes_to_rest` puts them together for the server with the semaphore of its pool.
-/

namespace Webservers

/-- How many steps a worker has left in `process`. -/
def WorkerPc.left : WorkerPc → ℕ
  | .idle => 0
  | .closed _ => 1
  | .closing _ => 2
  | .processing _ => 3

/-- The connection whose request a worker has. -/
def WorkerPc.request : WorkerPc → Option ℕ
  | .idle => none
  | .processing fd | .closing fd | .closed fd => some fd

namespace HttpServer

open HttpConn (Arm Call)

/-- The part of the server that is the pool's. -/
def pool (s : HttpServer) : List ℕ × List WorkerPc := (s.workqueue, s.workers)

/-- A bound on the steps until everything is done: an entry of `events` may become a request, and
a request one `process`. -/
def work (s : HttpServer) : ℕ :=
  8 * s.events.length + 4 * s.workqueue.length + (s.workers.map WorkerPc.left).sum

/-- Nothing is left to do until the next `epoll_wait`. -/
def AtRest (s : HttpServer) : Prop :=
  s.events = [] ∧ s.workqueue = [] ∧ ∀ pc ∈ s.workers, pc = .idle

/-- `epoll_wait` returns. -/
def Label.isWait : Label → Bool
  | .wait _ => true
  | _ => false

/-- A step of the main thread. -/
def Label.isMain : Label → Bool
  | .wait _ | .accept _ _ | .handle _ _ => true
  | .take _ | .process _ _ | .overrun _ _ | .leave _ => false

/-- The main thread is at a `write` that will not return if `writev` has certain results. -/
def Hangs (s : HttpServer) : Prop :=
  ∃ fd events rest, s.events = .conn fd events :: rest ∧
    events &&& (EPOLLRDHUP ||| EPOLLHUP ||| EPOLLERR) = 0 ∧ events &&& EPOLLIN = 0 ∧
    events &&& EPOLLOUT ≠ 0 ∧ ∃ writes, (s.users fd).WriteHangs writes

/-- The server is at a call that may not come back as it should: a parser that stores outside
`m_read_buf`, or a `write` that need not return. -/
def Faulty (s : HttpServer) : Prop :=
  (∃ w, s.overruns w = true) ∨ s.Hangs

/-- A new connection finds nothing left to send in its slot, whose counters `init(sockfd, addr)`
leaves as they are. -/
def Unsent (s : HttpServer) : Label → Prop
  | .accept (some fd) false => (s.users fd).bytesToSend = 0
  | _ => True

section Work

variable {s t : HttpServer} {w : ℕ}

/-! ## The pool in the server -/

@[simp] theorem pool_setUser (s : HttpServer) (fd : ℕ) (c : HttpConn) :
    (s.setUser fd c).pool = s.pool := rfl

@[simp] theorem pool_rmfd (s : HttpServer) (sockfd : ℤ) : (s.rmfd sockfd).pool = s.pool := by
  unfold rmfd
  split <;> rfl

@[simp] theorem pool_modfd (s : HttpServer) (sockfd : ℤ) (ev : Arm) :
    (s.modfd sockfd ev).pool = s.pool := by
  unfold modfd
  split <;> rfl

@[simp] theorem pool_rearm (s : HttpServer) (sockfd : ℤ) (ev : Arm) :
    (s.rearm sockfd ev).pool = s.pool := by
  cases ev with
  | none => rfl
  | epollin | epollout => exact pool_modfd s sockfd _

/-- `close_conn` is no affair of the pool. -/
@[simp] theorem pool_closeConn (s : HttpServer) (fd : ℕ) : (s.closeConn fd).pool = s.pool := by
  unfold closeConn
  split
  · rw [pool_setUser, pool_rmfd]
  · rfl

/-- The main thread leaves the pool alone, or puts one request at the end of the queue. -/
def Feeds (maxRequests : ℕ) (s t : HttpServer) : Prop :=
  t.workers = s.workers ∧ (t.workqueue = s.workqueue ∨
    ∃ fd, s.workqueue.length ≤ maxRequests ∧ t.workqueue = s.workqueue ++ [fd])

theorem feeds_of_pool {maxRequests : ℕ} (h : t.pool = s.pool) : Feeds maxRequests s t :=
  ⟨congrArg Prod.snd h, .inl (congrArg Prod.fst h)⟩

/-- `append`, accepted or refused. -/
theorem feeds_append (maxRequests : ℕ) (s : HttpServer) (fd : ℕ) :
    Feeds maxRequests s (s.append maxRequests fd).2 := by
  unfold append
  split
  · exact feeds_of_pool rfl
  · rename_i hroom
    exact ⟨rfl, .inr ⟨fd, Nat.le_of_not_lt hroom, rfl⟩⟩

/-- Handling an entry appends at most one request. -/
theorem feeds_handleEvent (maxRequests : ℕ) (s : HttpServer) (fd : ℕ) (events : Mask)
    (recvs : List ReadState.Recv) (writes : List WriteResult) :
    Feeds maxRequests s (s.handleEvent maxRequests fd events recvs writes) := by
  unfold handleEvent
  split
  · exact feeds_of_pool (pool_closeConn s fd)
  · split
    · simp only
      split
      · exact feeds_append maxRequests (s.setUser fd _) fd
      · exact feeds_of_pool (by rw [pool_closeConn, pool_setUser])
    · split
      · simp only
        split
        · exact feeds_of_pool (by rw [pool_rearm, pool_setUser])
        · exact feeds_of_pool (by rw [pool_closeConn, pool_rearm, pool_setUser])
      · exact feeds_of_pool rfl

/-- So does every step of the main thread. -/
theorem feeds_step {typeText : List UInt8} {maxRequests : ℕ} {a : Label} (hmain : a.isMain = true)
    (ha : s.step typeText maxRequests a = some t) : Feeds maxRequests s t := by
  cases a with
  | wait reports =>
    simp only [step, Option.ite_none_right_eq_some, Option.some.injEq] at ha
    obtain ⟨-, rfl⟩ := ha
    exact feeds_of_pool rfl
  | accept connfd full =>
    simp only [step] at ha
    split at ha
    · unfold accept at ha
      split at ha
      · cases ha
        exact feeds_of_pool rfl
      · rw [Option.ite_none_left_eq_some] at ha
        obtain ⟨-, ha⟩ := ha
        split at ha <;> cases ha <;> exact feeds_of_pool rfl
    · cases ha
  | handle recvs writes =>
    obtain ⟨fd, events, rest, -, -, rfl⟩ := step_handle ha
    exact feeds_handleEvent maxRequests { s with events := rest } fd events recvs writes
  | take | process | overrun | leave => cases hmain

/-- The worker `w` has gone on with its request, or is done with it. -/
def GoesOn (w : ℕ) (s t : HttpServer) : Prop :=
  t.workqueue = s.workqueue ∧ ∃ fd pc pc', s.workers[w]? = some pc ∧ pc.request = some fd ∧
    t.workers = s.workers.set w pc' ∧ (pc'.request = some fd ∨ pc' = .idle)

theorem goesOn_of_pool {fd : ℕ} {pc : WorkerPc} (hw : s.workers[w]? = some pc)
    (hpc : pc.request = some fd) (pc' : WorkerPc) (hpc' : pc'.request = some fd ∨ pc' = .idle)
    (h : t.pool = (s.setWorker w pc').pool) : GoesOn w s t :=
  ⟨congrArg Prod.fst h, fd, pc, pc', hw, hpc, congrArg Prod.snd h, hpc'⟩

/-- `process` leaves the worker closing, or idle. -/
theorem goesOn_process {typeText : List UInt8} {fs : FileSystem}
    (ha : s.process typeText w fs = some t) : GoesOn w s t := by
  unfold process at ha
  split at ha
  · rename_i fd hw
    simp only at ha
    split at ha
    · cases ha
      apply goesOn_of_pool hw rfl (.closing fd) (.inl rfl)
      rw [← rmfd_setWorker, pool_rmfd]
      rfl
    · cases ha
      apply goesOn_of_pool hw rfl .idle (.inr rfl)
      rw [← modfd_setWorker, pool_modfd]
      rfl
  · cases ha

/-- The end of `process` leaves it closed, or idle. -/
theorem goesOn_leave (ha : s.leave w = some t) : GoesOn w s t := by
  unfold leave at ha
  split at ha
  · rename_i fd hw
    cases ha
    exact goesOn_of_pool hw rfl (.closed fd) (.inl rfl) rfl
  · rename_i fd hw
    cases ha
    apply goesOn_of_pool hw rfl .idle (.inr rfl)
    rw [← modfd_setWorker, pool_modfd]
  · cases ha

/-- Only an idle worker takes a request, the first one. -/
theorem take_eq_some (ha : s.take w = some t) :
    ∃ fd rest, s.workers[w]? = some .idle ∧ s.workqueue = fd :: rest ∧
      t = { s with workqueue := rest }.setWorker w (.processing fd) := by
  unfold take at ha
  split at ha
  · rename_i fd rest hw hq
    cases ha
    exact ⟨fd, rest, hw, hq, rfl⟩
  · cases ha

/-- No thread is added to the pool, and none leaves it. -/
theorem length_workers_step {typeText : List UInt8} {maxRequests : ℕ} {a : Label}
    (hin : s.Contained a) (ha : s.step typeText maxRequests a = some t) :
    t.workers.length = s.workers.length := by
  cases a with
  | overrun => exact hin.elim
  | wait | accept | handle => rw [(feeds_step rfl ha).1]
  | take w =>
    obtain ⟨fd, rest, -, -, rfl⟩ := take_eq_some ha
    exact List.length_set
  | process w' fs =>
    obtain ⟨-, fd, pc, pc', -, -, hworkers, -⟩ := goesOn_process (step_process ha).2
    rw [hworkers, List.length_set]
  | leave w' =>
    obtain ⟨-, fd, pc, pc', -, -, hworkers, -⟩ := goesOn_leave ha
    rw [hworkers, List.length_set]

/-! ## What is left to do -/

@[simp] theorem work_setUser (s : HttpServer) (fd : ℕ) (c : HttpConn) :
    (s.setUser fd c).work = s.work := rfl

@[simp] theorem work_rmfd (s : HttpServer) (sockfd : ℤ) : (s.rmfd sockfd).work = s.work := by
  unfold rmfd
  split <;> rfl

@[simp] theorem work_modfd (s : HttpServer) (sockfd : ℤ) (ev : Arm) :
    (s.modfd sockfd ev).work = s.work := by
  unfold modfd
  split <;> rfl

@[simp] theorem work_rearm (s : HttpServer) (sockfd : ℤ) (ev : Arm) :
    (s.rearm sockfd ev).work = s.work := by
  cases ev with
  | none => rfl
  | epollin | epollout => exact work_modfd s sockfd _

@[simp] theorem work_closeConn (s : HttpServer) (fd : ℕ) : (s.closeConn fd).work = s.work := by
  unfold closeConn
  split
  · rw [work_setUser, work_rmfd]
  · rfl

/-- A request counts for 4. -/
theorem work_append_le (maxRequests : ℕ) (s : HttpServer) (fd : ℕ) :
    (s.append maxRequests fd).2.work ≤ s.work + 4 := by
  unfold append
  split
  · exact Nat.le_add_right _ _
  · simp only [work, List.length_append, List.length_singleton]
    omega

/-- What the workers have left, when one of them changes. -/
theorem sum_left_set {pc : WorkerPc} {workers : List WorkerPc} (hw : workers[w]? = some pc)
    (pc' : WorkerPc) :
    ((workers.set w pc').map WorkerPc.left).sum + pc.left =
      (workers.map WorkerPc.left).sum + pc'.left := by
  induction workers generalizing w with
  | nil => cases hw
  | cons a workers ih =>
    cases w with
    | zero =>
      cases hw
      rw [List.set_cons_zero, List.map_cons, List.map_cons, List.sum_cons, List.sum_cons]
      omega
    | succ w =>
      have hrest := ih hw
      rw [List.set_cons_succ, List.map_cons, List.map_cons, List.sum_cons, List.sum_cons]
      omega

theorem work_setWorker {pc : WorkerPc} (hw : s.workers[w]? = some pc) (pc' : WorkerPc) :
    (s.setWorker w pc').work + pc.left = s.work + pc'.left := by
  have hsum := sum_left_set hw pc'
  simp only [work, setWorker]
  omega

/-- Handling an entry makes at most one request of it. -/
theorem work_handleEvent_le (maxRequests : ℕ) (s : HttpServer) (fd : ℕ) (events : Mask)
    (recvs : List ReadState.Recv) (writes : List WriteResult) :
    (s.handleEvent maxRequests fd events recvs writes).work ≤ s.work + 4 := by
  unfold handleEvent
  split
  · rw [work_closeConn]
    exact Nat.le_add_right _ _
  · split
    · simp only
      split
      · exact work_append_le maxRequests _ fd
      · rw [work_closeConn, work_setUser]
        exact Nat.le_add_right _ _
    · split
      · simp only
        split
        · rw [work_rearm, work_setUser]
          exact Nat.le_add_right _ _
        · rw [work_closeConn, work_rearm, work_setUser]
          exact Nat.le_add_right _ _
      · exact Nat.le_add_right _ _

/-- `accept` leaves nothing to do. -/
theorem work_accept {connfd : Option ℕ} {full : Bool} (ht : s.accept connfd full = some t) :
    t.work = s.work := by
  unfold accept at ht
  split at ht
  · cases ht
    rfl
  · rw [Option.ite_none_left_eq_some] at ht
    obtain ⟨-, ht⟩ := ht
    split at ht <;> cases ht <;> rfl

/-- An entry counts for more than the request it may become. -/
theorem work_main {typeText : List UInt8} {maxRequests : ℕ} {a : Label} (hmain : a.isMain = true)
    (hwait : a.isWait = false) (ha : s.step typeText maxRequests a = some t) :
    t.work + 4 ≤ s.work := by
  cases a with
  | wait => cases hwait
  | take | process | overrun | leave => cases hmain
  | accept connfd full =>
    simp only [step] at ha
    split at ha
    · rename_i rest hev
      rw [work_accept ha]
      simp only [work, hev, List.length_cons]
      omega
    · cases ha
  | handle recvs writes =>
    obtain ⟨fd, events, rest, hev, -, rfl⟩ := step_handle ha
    have hle := work_handleEvent_le maxRequests { s with events := rest } fd events recvs writes
    have hpop : HttpServer.work { s with events := rest } + 8 = s.work := by
      simp only [work, hev, List.length_cons]
      omega
    omega

/-- Every step but `epoll_wait` leaves less to do. -/
theorem work_step {typeText : List UInt8} {maxRequests : ℕ} {a : Label} (hin : s.Contained a)
    (hwait : a.isWait = false) (ha : s.step typeText maxRequests a = some t) : t.work < s.work := by
  cases a with
  | wait reports => cases hwait
  | overrun => exact hin.elim
  | accept | handle =>
    have hless := work_main rfl hwait ha
    omega
  | take w =>
    simp only [step, take] at ha
    split at ha
    · rename_i fd rest hw hq
      cases ha
      -- a request counts for more than the three steps a worker makes with it
      have hset := work_setWorker (s := { s with workqueue := rest }) hw (.processing fd)
      have hpop : HttpServer.work { s with workqueue := rest } + 4 = s.work := by
        simp only [work, hq, List.length_cons]
        omega
      simp only [WorkerPc.left] at hset
      omega
    · cases ha
  | process w fs =>
    have ha := (step_process ha).2
    simp only [process] at ha
    split at ha
    · rename_i fd hw
      have hset : ∀ c pc, ((s.setUser fd c).setWorker w pc).work + 3 = s.work + pc.left :=
        fun c pc => work_setWorker (s := s.setUser fd c) hw pc
      split at ha
      · cases ha
        rw [← rmfd_setWorker, work_rmfd]
        have hless := hset { ((s.users fd).process typeText fs).2 with
          sockfd := (s.users fd).sockfd } (.closing fd)
        simp only [WorkerPc.left] at hless
        omega
      · cases ha
        rw [← modfd_setWorker, work_modfd]
        have hless := hset ((s.users fd).process typeText fs).2 .idle
        simp only [WorkerPc.left] at hless
        omega
    · cases ha
  | leave w =>
    simp only [step, leave] at ha
    split at ha
    · rename_i fd hw
      cases ha
      have hset := work_setWorker (s := s.setUser fd { s.users fd with sockfd := -1 }) hw
        (.closed fd)
      simp only [WorkerPc.left, work_setUser] at hset
      omega
    · rename_i fd hw
      cases ha
      have hset := work_setWorker hw .idle
      rw [← modfd_setWorker, work_modfd]
      simp only [WorkerPc.left] at hset
      omega
    · cases ha

/-! ## Going on -/

/-- A worker that is in `process` goes on with it. -/
theorem exists_step_of_busy (typeText : List UInt8) (maxRequests : ℕ) (fs : FileSystem)
    {pc : WorkerPc} (hw : s.workers[w]? = some pc) (hbusy : pc ≠ .idle) (hgood : ¬ s.Faulty) :
    (∃ t, s.step typeText maxRequests (.process w fs) = some t) ∨
      ∃ t, s.step typeText maxRequests (.leave w) = some t := by
  cases pc with
  | idle => exact absurd rfl hbusy
  | processing fd =>
    left
    have hin : ¬ s.overruns w = true := fun hover => hgood (.inl ⟨w, hover⟩)
    rw [step, if_neg hin]
    simp only [process, hw]
    split <;> exact ⟨_, rfl⟩
  | closing fd | closed fd =>
    right
    simp only [step, leave, hw]
    exact ⟨_, rfl⟩

/-- The main thread goes on with an entry about a connection. -/
theorem exists_handle (typeText : List UInt8) (maxRequests : ℕ) {fd : ℕ} {events : Mask}
    {rest : List Report} (hev : s.events = .conn fd events :: rest) (hgood : ¬ s.Faulty) :
    ∃ writes t, s.step typeText maxRequests (.handle [] writes) = some t := by
  obtain ⟨writes, hreturns⟩ : ∃ writes, s.Returns fd events writes := by
    by_cases hspins : (s.users fd).Spins
    · refine ⟨[], fun hhup hin hout => absurd ?_ hgood⟩
      exact .inr ⟨fd, events, rest, hev, hhup, hin, hout, [], hspins.writeHangs⟩
    · obtain ⟨writes, hwrites⟩ := HttpConn.writeReturns_iff.mpr hspins
      exact ⟨writes, fun _ _ _ => hwrites⟩
  refine ⟨writes, HttpServer.handleEvent maxRequests { s with events := rest } fd events [] writes,
    ?_⟩
  simp only [step, hev, if_pos hreturns]

/-- It goes on with the listening socket, whether or not there is a connection. -/
theorem exists_accept (typeText : List UInt8) (maxRequests : ℕ) {rest : List Report}
    (hev : s.events = .listen :: rest) {connfd : Option ℕ}
    (hfree : ∀ fd ∈ connfd, s.opened fd = false) :
    ∃ t, s.step typeText maxRequests (.accept connfd false) = some t := by
  cases connfd with
  | none =>
    refine ⟨{ s with events := rest }, ?_⟩
    simp only [step, hev, accept]
  | some fd =>
    have hclosed : s.opened fd = false := hfree fd rfl
    simp only [step, hev, accept, hclosed, Bool.false_eq_true, if_false]
    exact ⟨_, rfl⟩

/-- When nothing is left to do, nobody holds a connection: it is armed. -/
theorem Sound.armed_of_atRest (h : Sound s) (hrest : s.AtRest) {fd : ℕ}
    (hopen : s.opened fd = true) : s.armed fd ≠ .none := by
  obtain ⟨hev, hq, hidle⟩ := hrest
  obtain ⟨-, hsum, -, -⟩ := (h fd).held hopen
  have hmain : (s.ledger fd).main = 0 := by simp [ledger, hev]
  have hqueued : (s.ledger fd).queued = 0 := by simp [ledger, hq]
  have hprocessing : (s.ledger fd).processing = 0 :=
    List.count_eq_zero.mpr fun hmem => WorkerPc.noConfusion (hidle _ hmem)
  have harmed : (s.ledger fd).armed = 1 := by omega
  intro hnone
  rw [show (s.ledger fd).armed = armCount (s.armed fd) from rfl, hnone] at harmed
  cases harmed

/-! ## Descriptors that are free -/

/-- A new connection can be given this descriptor. -/
structure Untouched (s : HttpServer) (fd : ℕ) : Prop where
  closed : s.opened fd = false
  /-- no worker is still in `process` of a connection that had it -/
  unknown : ∀ pc ∈ s.workers, pc.request ≠ some fd
  unsent : (s.users fd).bytesToSend = 0

/-- Giving it out is one of the steps that keep every connection with somebody. -/
theorem Untouched.ownedOk {fd : ℕ} (h : s.Untouched fd) (maxRequests : ℕ) :
    OwnedOk maxRequests s (.accept (some fd) false) :=
  ⟨List.count_eq_zero.mpr fun hmem => h.unknown _ hmem rfl,
    List.count_eq_zero.mpr fun hmem => h.unknown _ hmem rfl⟩

/-- A descriptor stays as it is until it is given out. -/
theorem Untouched.step {fd : ℕ} (h : s.Untouched fd) (hs : Orderly s) {typeText : List UInt8}
    {maxRequests : ℕ} {a : Label} (ha : s.step typeText maxRequests a = some t)
    (hok : OwnedOk maxRequests s a) (hnot : accepts fd a = false) : t.Untouched fd := by
  obtain ⟨hclosed, hslot⟩ := untouched_step hs ha hok h.closed hnot
  refine ⟨hclosed, ?_, (congrArg HttpConn.bytesToSend hslot).trans h.unsent⟩
  have hset : ∀ {w pc'}, t.workers = s.workers.set w pc' → pc'.request ≠ some fd →
      ∀ pc ∈ t.workers, pc.request ≠ some fd := by
    intro w pc' hworkers hpc' pc hmem
    rw [hworkers] at hmem
    rcases List.mem_or_eq_of_mem_set hmem with hold | rfl
    · exact h.unknown pc hold
    · exact hpc'
  -- a worker that goes on is in `process` of another connection
  have hgoes : ∀ {w}, GoesOn w s t → ∀ pc ∈ t.workers, pc.request ≠ some fd := by
    rintro w ⟨-, fd', pc, pc', hw, hpc, hworkers, hpc'⟩
    have hne : some fd' ≠ some fd := hpc ▸ h.unknown pc (List.mem_of_getElem? hw)
    apply hset hworkers
    rcases hpc' with hsame | rfl
    · rw [hsame]
      exact hne
    · exact (Option.some_ne_none fd).symm
  cases a with
  | wait | accept | handle =>
    rw [(feeds_step rfl ha).1]
    exact h.unknown
  | take w =>
    obtain ⟨fd', rest, -, hq, rfl⟩ := take_eq_some ha
    refine hset rfl fun heq => ?_
    -- no request of a closed connection waits for a worker
    obtain rfl : fd' = fd := Option.some.inj heq
    obtain ⟨-, -, hqueued, -⟩ := (hs.sound fd').free h.closed
    have hmem : fd' ∈ s.workqueue := hq ▸ List.mem_cons_self
    exact absurd hmem (List.count_eq_zero.mp hqueued)
  | process w fs => exact hgoes (goesOn_process (step_process ha).2)
  | overrun => exact hok.elim
  | leave w => exact hgoes (goesOn_leave ha)

/-- A step gives out at most one descriptor. -/
theorem exists_not_accepts (a : Label) : ∃ n, ∀ fd, n ≤ fd → accepts fd a = false := by
  cases a with
  | accept connfd full =>
    cases connfd with
    | none => exact ⟨0, fun _ _ => rfl⟩
    | some fd' =>
      cases full with
      | true => exact ⟨0, fun _ _ => rfl⟩
      | false => exact ⟨fd' + 1, fun fd hlt => beq_eq_false_iff_ne.mpr (by omega)⟩
  | wait | handle | take | process | overrun | leave => exact ⟨0, fun _ _ => rfl⟩

/-- All but finitely many descriptors can be given out. -/
def Supplied (s : HttpServer) : Prop := ∃ n, ∀ fd, n ≤ fd → s.Untouched fd

theorem supplied_start (threadNum : ℕ) : (start threadNum).Supplied := by
  refine ⟨0, fun fd _ => ⟨rfl, fun pc hmem => ?_, rfl⟩⟩
  rw [List.eq_of_mem_replicate hmem]
  exact (Option.some_ne_none fd).symm

theorem Supplied.step (h : s.Supplied) (hs : Orderly s) {typeText : List UInt8} {maxRequests : ℕ}
    {a : Label} (ha : s.step typeText maxRequests a = some t) (hok : OwnedOk maxRequests s a) :
    t.Supplied := by
  obtain ⟨n, hn⟩ := h
  obtain ⟨m, hm⟩ := exists_not_accepts a
  refine ⟨max n m, fun fd hle => ?_⟩
  obtain ⟨hnle, hmle⟩ := Nat.max_le.mp hle
  exact (hn fd hnle).step hs ha hok (hm fd hmle)

/-! ## Whether the main thread comes back -/

/-- What the slot of a connection has to send, in each phase. -/
def Due (c : HttpConn) : Phase → Prop
  | .closed => True
  | .request | .worker => c.bytesToSend = 0
  | .response => c.Sendable

/-- What is due once `process` or `write` has re-armed the connection. -/
theorem due_awaiting {c : HttpConn} {ev : Arm} (hin : ev = .epollin → c.bytesToSend = 0)
    (hout : c.Sendable) : Due c (.awaiting ev) := by
  cases ev with
  | none => exact trivial
  | epollin => exact hin rfl
  | epollout => exact hout

/-- What a call leaves to send is due in the phase that it leads to. -/
theorem Due.call {typeText : List UInt8} {c : HttpConn} {phase phase' : Phase} {call : Call}
    (h : Due c phase) (hnext : phase.next (actOf typeText c call) = some phase') :
    Due (c.call typeText call).2 phase' := by
  cases call with
  | read recvs =>
    cases phase with
    | request =>
      rw [actOf, Phase.next, Option.some.injEq] at hnext
      subst hnext
      split
      · exact h
      · exact trivial
    | closed | worker | response => cases hnext
  | process fs =>
    cases phase with
    | worker =>
      obtain ⟨hin, hout⟩ := HttpConn.sendable_process typeText fs h
      rw [actOf, Phase.next, Option.some.injEq] at hnext
      subst hnext
      split
      · exact due_awaiting hin hout
      · exact trivial
    | closed | request | response => cases hnext
  | write writes =>
    cases phase with
    | response =>
      rw [actOf, Phase.next, Option.some.injEq] at hnext
      subst hnext
      split
      · rename_i hret
        obtain ⟨hin, hout⟩ := HttpConn.Sendable.write writes h hret
        exact due_awaiting hin hout
      · exact trivial
    | closed | request | worker => cases hnext

/-- Where a connection is, and that its slot has to send what is due there. -/
def OnTime (s : HttpServer) (fd : ℕ) : Prop :=
  ∃ phase, InPhase (s.place fd) phase ∧ Due (s.slotApart fd) phase

/-- A step takes a connection to the next phase with what is due there in its slot. -/
theorem OnTime.step (hs : Orderly s) {typeText : List UInt8} {maxRequests : ℕ} {a : Label}
    {fd : ℕ} (h : s.OnTime fd) (ha : s.step typeText maxRequests a = some t)
    (hok : OwnedOk maxRequests s a) (hunsent : s.Unsent a) : t.OnTime fd := by
  obtain ⟨phase, hphase, hdue⟩ := h
  obtain ⟨phase', hnext, hphase'⟩ := hs.inPhase_step ha hok hphase
  refine ⟨phase', hphase', ?_⟩
  rw [slotApart_step ha hok.contained]
  cases hcall : s.callOn fd a with
  | some call =>
    rw [actOn, hcall] at hnext
    obtain ⟨phase'', hone, hnil⟩ := Machine.exec_cons_eq_some.mp hnext
    obtain rfl : phase'' = phase' := Option.some.inj hnil
    rw [applied, Option.elim_some, callApart_slotApart]
    exact Due.call (c := s.users fd) hdue hone
  | none =>
    rw [actOn, hcall] at hnext
    rw [applied, Option.elim_none]
    simp only at hnext
    split at hnext
    · rename_i haccepts
      cases phase with
      | closed =>
        obtain rfl : Phase.request = phase' := Option.some.inj hnext
        -- the descriptor is given out, and the slot is what the last connection has left
        cases a with
        | accept connfd full =>
          cases connfd with
          | none => cases haccepts
          | some fd' =>
            cases full with
            | true => cases haccepts
            | false =>
              obtain rfl : fd' = fd := of_decide_eq_true haccepts
              exact hunsent
        | wait | handle | take | process | overrun | leave => cases haccepts
      | request | worker | response => cases hnext
    · split at hnext
      · cases phase with
        | request | response =>
          obtain rfl : Phase.closed = phase' := Option.some.inj hnext
          exact trivial
        | closed | worker => cases hnext
      · obtain rfl : phase = phase' := Option.some.inj hnext
        exact hdue

/-- An entry that is written for is about a connection with a response. -/
theorem OnTime.not_hangs (hs : Orderly s) (h : ∀ fd, s.OnTime fd) : ¬ s.Hangs := by
  rintro ⟨fd, events, rest, hev, -, -, hout, writes, hhangs⟩
  obtain ⟨phase, hphase, hdue⟩ := h fd
  have hmem : .conn fd events ∈ s.events := by simp [hev]
  rcases hphase.awaited_of_mem hs.sound hmem with ⟨-, hmask⟩ | ⟨rfl, -⟩
  · exact hout hmask
  · exact HttpConn.Sendable.not_writeHangs (c := s.users fd) hdue writes hhangs

end Work

end HttpServer
end Webservers
