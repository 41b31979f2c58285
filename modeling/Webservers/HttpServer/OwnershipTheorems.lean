import Webservers.HttpConn.SlotTheorems
import Webservers.HttpServer.Basic

/-!
# Who holds a connection

A registration is one-shot: once `epoll_wait` has reported a connection nobody hears of it again
until someone calls `modfd`. In between the connection has to be with somebody: in the entries
that the main thread still handles, in `m_workqueue`, or with a worker.

`Ledger` counts, for one descriptor, in how many places it is. Every step moves a connection from
one place to another, so that an open connection is in exactly one place; the two steps that do
not are an `append` that the pool refuses, and an `accept` that is given the descriptor of a
connection a worker is still closing.
-/

namespace Webservers

namespace HttpServer

open HttpConn (Arm)

/-! ## The ledger of a descriptor -/

/-- In how many places a descriptor is. -/
structure Ledger where
  opened : Bool
  sockfd : ℤ
  armed : ℕ
  /-- entries that the main thread still has to handle -/
  main : ℕ
  queued : ℕ
  processing : ℕ
  closing : ℕ
  closed : ℕ

/-- A registration holds a connection once. -/
def armCount : Arm → ℕ
  | .none => 0
  | .epollin | .epollout => 1

/-- The ledger of `fd` in the server. -/
def ledger (s : HttpServer) (fd : ℕ) : Ledger where
  opened := s.opened fd
  sockfd := (s.users fd).sockfd
  armed := armCount (s.armed fd)
  main := s.events.countP (Report.concerns fd)
  queued := s.workqueue.count fd
  processing := s.workers.count (.processing fd)
  closing := s.workers.count (.closing fd)
  closed := s.workers.count (.closed fd)

/-- A worker holds a connection until its `process` returns. -/
def Ledger.holders (l : Ledger) : ℕ :=
  l.armed + l.main + l.queued + (l.processing + l.closing + l.closed)

/-- Every open connection is in exactly one place: armed, with the main thread, waiting once for a
worker, or with one worker. -/
def Owned (s : HttpServer) : Prop :=
  ∀ fd, s.opened fd = true → (s.ledger fd).holders = 1

/-- The connection at the front of `events` has sent something: it goes to the pool. -/
def Requests (s : HttpServer) (recvs : List ReadState.Recv) : Prop :=
  ∃ fd events rest, s.events = .conn fd events :: rest ∧
    events &&& (EPOLLRDHUP ||| EPOLLHUP ||| EPOLLERR) = 0 ∧ events &&& EPOLLIN ≠ 0 ∧
    ((s.users fd).read recvs).1 = true

/-- No request meets a queue over its limit, no descriptor is given out while a worker is still in
`process` of its last connection, and no parser stores outside `m_read_buf`. -/
def OwnedOk (maxRequests : ℕ) (s : HttpServer) : Label → Prop
  | .accept (some fd) false => (s.ledger fd).closing = 0 ∧ (s.ledger fd).closed = 0
  | .handle recvs _ => s.Requests recvs → s.workqueue.length ≤ maxRequests
  | .overrun _ _ => False
  | _ => True

theorem OwnedOk.contained {maxRequests : ℕ} {s : HttpServer} {a : Label}
    (h : OwnedOk maxRequests s a) : s.Contained a := by
  cases a with
  | overrun => exact h
  | wait | accept | handle | take | process | leave => trivial

/-- No descriptor is given out while a worker is still in `process` of its last connection, and no
parser stores outside `m_read_buf`. -/
def FreshFd (s : HttpServer) : Label → Prop
  | .accept (some fd) false => (s.ledger fd).closing = 0 ∧ (s.ledger fd).closed = 0
  | .overrun _ _ => False
  | _ => True

instance (s : HttpServer) : DecidablePred s.FreshFd := fun
  | .accept (some _) false => inferInstanceAs (Decidable (_ ∧ _))
  | .overrun _ _ => .isFalse id
  | .accept (some _) true | .accept none _ => .isTrue trivial
  | .wait _ | .handle _ _ | .take _ | .process _ _ | .leave _ => .isTrue trivial

theorem FreshFd.contained {s : HttpServer} {a : Label} (h : s.FreshFd a) : s.Contained a := by
  cases a with
  | overrun => exact h
  | wait | accept | handle | take | process | leave => trivial

/-- What the ledger of `fd` looks like while nothing has gone wrong. -/
structure Ledger.Sound (fd : ℕ) (l : Ledger) : Prop where
  held : l.opened = true →
    l.sockfd = fd ∧ l.armed + l.main + l.queued + l.processing = 1 ∧ l.closing = 0 ∧ l.closed = 0
  free : l.opened = false → l.armed = 0 ∧ l.main = 0 ∧ l.queued = 0 ∧ l.processing = 0
  left : 0 < l.closed → l.sockfd = -1

/-- Every ledger is sound. -/
def Sound (s : HttpServer) : Prop := ∀ fd, (s.ledger fd).Sound fd

/-- `Sound` for all descriptors but `fd`, which the thread that moves has in hand. -/
structure InHand (s : HttpServer) (fd : ℕ) : Prop where
  others : ∀ fd', fd' ≠ fd → (s.ledger fd').Sound fd'
  opened : s.opened fd = true
  sockfd : (s.users fd).sockfd = fd
  nowhere : (s.ledger fd).holders = 0

theorem armCount_of_ne {ev : Arm} (h : ev ≠ .none) : armCount ev = 1 := by
  cases ev with
  | none => exact absurd rfl h
  | epollin | epollout => rfl

theorem Sound.owned {s : HttpServer} (h : Sound s) : Owned s := by
  intro fd hopen
  obtain ⟨-, hsum, hclosing, hclosed⟩ := (h fd).held hopen
  unfold Ledger.holders
  omega

/-- No connection is open at the start. -/
theorem sound_start (threadNum : ℕ) : Sound (start threadNum) := by
  intro fd
  have hcount : ∀ pc, pc ≠ WorkerPc.idle → (List.replicate threadNum WorkerPc.idle).count pc = 0 :=
    fun pc hne => List.count_eq_zero.mpr fun hmem => hne (List.eq_of_mem_replicate hmem)
  have hclosed : ((start threadNum).ledger fd).closed = 0 := hcount _ WorkerPc.noConfusion
  constructor
  · intro hopen
    cases hopen
  · intro _
    exact ⟨rfl, rfl, rfl, hcount _ WorkerPc.noConfusion⟩
  · intro hpos
    omega

/-- A descriptor that is somewhere is open. -/
theorem Ledger.Sound.opened_of_pos {fd : ℕ} {l : Ledger} (h : l.Sound fd)
    (hpos : 0 < l.armed + l.main + l.queued + l.processing) : l.opened = true := by
  cases hl : l.opened with
  | true => rfl
  | false =>
    obtain ⟨harmed, hmain, hqueued, hprocessing⟩ := h.free hl
    omega

/-- An open connection that one party holds. -/
theorem Ledger.Sound.of_open {fd : ℕ} {l : Ledger} (hopen : l.opened = true)
    (hsockfd : l.sockfd = fd) (hsum : l.armed + l.main + l.queued + l.processing = 1)
    (hclosing : l.closing = 0) (hclosed : l.closed = 0) : l.Sound fd where
  held _ := ⟨hsockfd, hsum, hclosing, hclosed⟩
  free h := by
    rw [hopen] at h
    cases h
  left h := by omega

/-- A closed one, whose worker may still have the last store before it. -/
theorem Ledger.Sound.of_closed {fd : ℕ} {l : Ledger} (hopen : l.opened = false)
    (hsum : l.armed + l.main + l.queued + l.processing = 0) (hleft : 0 < l.closed → l.sockfd = -1) :
    l.Sound fd where
  held h := by
    rw [hopen] at h
    cases h
  free _ := by omega
  left := hleft

section Moves

variable {s t : HttpServer} {fd w : ℕ}

theorem ledger_setUser_self (s : HttpServer) (fd : ℕ) (c : HttpConn) :
    (s.setUser fd c).ledger fd = { s.ledger fd with sockfd := c.sockfd } := by
  simp only [ledger, setUser, Function.update_self]

theorem ledger_setUser_other {fd' : ℕ} (h : fd' ≠ fd) (c : HttpConn) :
    (s.setUser fd c).ledger fd' = s.ledger fd' := by
  simp only [ledger, setUser, Function.update_of_ne h]

/-- `rmfd` closes the connection and takes its registration away. -/
theorem ledger_rmfd_self (s : HttpServer) (fd : ℕ) :
    (s.rmfd fd).ledger fd = { s.ledger fd with opened := false, armed := 0 } := by
  simp [ledger, rmfd, armCount]

theorem ledger_rmfd_other {fd' : ℕ} (h : fd' ≠ fd) : (s.rmfd fd).ledger fd' = s.ledger fd' := by
  simp [ledger, rmfd, Function.update_of_ne h]

/-- Counting workers when one of them goes from `pc` to `pc'`. -/
theorem count_setWorker {pc : WorkerPc} (hw : s.workers[w]? = some pc) (pc' a : WorkerPc) :
    (s.setWorker w pc').workers.count a + (if pc = a then 1 else 0) =
      s.workers.count a + if pc' = a then 1 else 0 := by
  obtain ⟨hlt, heq⟩ := List.getElem?_eq_some_iff.mp hw
  have hpos : pc = a → 0 < s.workers.count a := by
    rintro rfl
    exact List.count_pos_iff.mpr (List.mem_of_getElem? hw)
  simp only [setWorker, List.count_set hlt, heq, beq_iff_eq]
  split
  · rename_i ha
    have := hpos ha
    omega
  · omega

/-- The entries about a connection, one more in front. -/
theorem countP_concerns (fd : ℕ) (events : Mask) (rest : List Report) (fd' : ℕ) :
    (Report.conn fd events :: rest).countP (Report.concerns fd') =
      rest.countP (Report.concerns fd') + if fd = fd' then 1 else 0 := by
  rw [List.countP_cons]
  simp [Report.concerns]

/-! ## Taking a connection in hand -/

/-- The one place an open connection is in is given up. -/
theorem Sound.inHand (h : Sound s) (hothers : ∀ fd', fd' ≠ fd → t.ledger fd' = s.ledger fd')
    (hopened : t.opened fd = s.opened fd) (hsockfd : (t.users fd).sockfd = (s.users fd).sockfd)
    (hpos : 0 < (s.ledger fd).armed + (s.ledger fd).main + (s.ledger fd).queued +
      (s.ledger fd).processing)
    (hfewer : (t.ledger fd).holders + 1 = (s.ledger fd).holders) : InHand t fd := by
  have hopen : s.opened fd = true := (h fd).opened_of_pos hpos
  obtain ⟨hsock, hsum, hclosing, hclosed⟩ := (h fd).held hopen
  refine ⟨fun fd' hne => ?_, hopened.trans hopen, hsockfd.trans hsock, ?_⟩
  · rw [hothers fd' hne]
    exact h fd'
  · unfold Ledger.holders at hfewer ⊢
    omega

/-- The main thread turns to the next entry. -/
theorem Sound.pop (h : Sound s) {events : Mask} {rest : List Report}
    (hev : s.events = .conn fd events :: rest) : InHand { s with events := rest } fd := by
  have hcount := countP_concerns fd events rest
  apply h.inHand
  · intro fd' hne
    simp only [ledger, hev, hcount, if_neg hne.symm, Nat.add_zero]
  · rfl
  · rfl
  · simp only [ledger, hev, hcount, if_true]
    omega
  · simp only [Ledger.holders, ledger, hev, hcount, if_true]
    omega

/-- A worker takes the front of the queue. -/
theorem Sound.dequeue (h : Sound s) {rest : List ℕ} (hq : s.workqueue = fd :: rest) :
    InHand { s with workqueue := rest } fd := by
  apply h.inHand
  · intro fd' hne
    simp only [ledger, hq, List.count_cons_of_ne hne.symm]
  · rfl
  · rfl
  · simp only [ledger, hq, List.count_cons_self]
    omega
  · simp only [Ledger.holders, ledger, hq, List.count_cons_self]
    omega

/-- The counts of the workers in a ledger when one of them goes from `pc` to `pc'`. -/
theorem ledger_setWorker {pc : WorkerPc} (hw : s.workers[w]? = some pc) (pc' : WorkerPc)
    (fd : ℕ) :
    ((s.setWorker w pc').ledger fd).processing + (if pc = .processing fd then 1 else 0) =
        (s.ledger fd).processing + (if pc' = .processing fd then 1 else 0) ∧
      ((s.setWorker w pc').ledger fd).closing + (if pc = .closing fd then 1 else 0) =
        (s.ledger fd).closing + (if pc' = .closing fd then 1 else 0) ∧
      ((s.setWorker w pc').ledger fd).closed + (if pc = .closed fd then 1 else 0) =
        (s.ledger fd).closed + (if pc' = .closed fd then 1 else 0) :=
  ⟨count_setWorker hw pc' _, count_setWorker hw pc' _, count_setWorker hw pc' _⟩

/-- A worker's move leaves the other places alone. -/
theorem ledger_setWorker_places (s : HttpServer) (w : ℕ) (pc' : WorkerPc) (fd : ℕ) :
    ((s.setWorker w pc').ledger fd).armed = (s.ledger fd).armed ∧
      ((s.setWorker w pc').ledger fd).main = (s.ledger fd).main ∧
      ((s.setWorker w pc').ledger fd).queued = (s.ledger fd).queued :=
  ⟨rfl, rfl, rfl⟩

/-- The ledger of a descriptor that neither `pc` nor `pc'` is about. -/
theorem ledger_setWorker_other {pc pc' : WorkerPc} (hw : s.workers[w]? = some pc)
    (hpc : ∀ f ∈ [WorkerPc.processing, .closing, .closed], pc ≠ f fd)
    (hpc' : ∀ f ∈ [WorkerPc.processing, .closing, .closed], pc' ≠ f fd) :
    (s.setWorker w pc').ledger fd = s.ledger fd := by
  have hsame : ∀ f ∈ [WorkerPc.processing, .closing, .closed],
      (s.setWorker w pc').workers.count (f fd) = s.workers.count (f fd) := by
    intro f hf
    have hcount := count_setWorker hw pc' (f fd)
    rw [if_neg (hpc f hf), if_neg (hpc' f hf)] at hcount
    exact hcount
  simp only [List.mem_cons, List.not_mem_nil, or_false] at hsame
  simp only [ledger, hsame, true_or, or_true]
  rfl

/-- A worker is at the end of its `process`. -/
theorem Sound.release (h : Sound s) (hw : s.workers[w]? = some (.processing fd)) :
    InHand (s.setWorker w .idle) fd := by
  have hpos : 0 < (s.ledger fd).processing :=
    List.count_pos_iff.mpr (List.mem_of_getElem? hw)
  obtain ⟨hprocessing, hclosing, hclosed⟩ := ledger_setWorker hw .idle fd
  simp only [reduceCtorEq, if_true, if_false] at hprocessing hclosing hclosed
  apply h.inHand
  · intro fd' hne
    exact ledger_setWorker_other hw (by simp [hne.symm]) (by simp)
  · rfl
  · rfl
  · omega
  · obtain ⟨harmed, hmain, hqueued⟩ := ledger_setWorker_places s w .idle fd
    unfold Ledger.holders
    omega

/-! ## Giving it away -/

/-- What becomes of a connection in hand decides about the others only if it touches them. -/
theorem InHand.sound (h : InHand s fd) (hothers : ∀ fd', fd' ≠ fd → t.ledger fd' = s.ledger fd')
    (hfd : (t.ledger fd).Sound fd) : Sound t := by
  intro fd'
  by_cases heq : fd' = fd
  · exact heq ▸ hfd
  · rw [hothers fd' heq]
    exact h.others fd' heq

theorem InHand.setUser (h : InHand s fd) {c : HttpConn} (hc : c.sockfd = fd) :
    InHand (s.setUser fd c) fd where
  others fd' hne := by
    rw [ledger_setUser_other hne]
    exact h.others fd' hne
  opened := h.opened
  sockfd := by
    show (Function.update s.users fd c fd).sockfd = fd
    rw [Function.update_self, hc]
  nowhere := h.nowhere

/-- A connection in hand may be armed again. -/
theorem InHand.modfd (h : InHand s fd) {ev : Arm} (hev : ev ≠ .none) : Sound (s.modfd fd ev) := by
  have hnowhere := h.nowhere
  unfold Ledger.holders at hnowhere
  have hmodfd : s.modfd fd ev = { s with armed := Function.update s.armed fd ev } := by
    simp [HttpServer.modfd, h.opened]
  rw [hmodfd]
  apply h.sound
  · intro fd' hne
    simp only [ledger, Function.update_of_ne hne]
  · have hledger : HttpServer.ledger { s with armed := Function.update s.armed fd ev } fd =
        { s.ledger fd with armed := 1 } := by
      simp only [ledger, Function.update_self, armCount_of_ne hev]
    rw [hledger]
    apply Ledger.Sound.of_open h.opened h.sockfd <;> simp only <;> omega

/-- It may be closed. -/
theorem InHand.closeConn (h : InHand s fd) : Sound (s.closeConn fd) := by
  have hnowhere := h.nowhere
  unfold Ledger.holders at hnowhere
  have hne : (fd : ℤ) ≠ -1 := by omega
  have hclose : s.closeConn fd = (s.rmfd fd).setUser fd (s.users fd).closeConn := by
    simp only [HttpServer.closeConn, h.sockfd, if_pos hne]
  have hsockfd : (s.users fd).closeConn.sockfd = -1 := by
    simp only [HttpConn.closeConn, h.sockfd, if_pos hne]
  rw [hclose]
  apply h.sound
  · intro fd' hne'
    rw [ledger_setUser_other hne', ledger_rmfd_other hne']
  · rw [ledger_setUser_self, ledger_rmfd_self]
    refine Ledger.Sound.of_closed rfl ?_ fun _ => hsockfd
    simp only
    omega

/-- It may be handed to the pool. -/
theorem InHand.enqueue (h : InHand s fd) :
    Sound { s with workqueue := s.workqueue ++ [fd] } := by
  have hnowhere := h.nowhere
  unfold Ledger.holders at hnowhere
  apply h.sound
  · intro fd' hne
    simp [ledger, hne.symm]
  · have hledger : HttpServer.ledger { s with workqueue := s.workqueue ++ [fd] } fd =
        { s.ledger fd with queued := (s.ledger fd).queued + 1 } := by
      simp [ledger]
    rw [hledger]
    apply Ledger.Sound.of_open h.opened h.sockfd <;> simp only <;> omega

/-- It may be handed to a worker. -/
theorem InHand.processing (h : InHand s fd) (hw : s.workers[w]? = some .idle) :
    Sound (s.setWorker w (.processing fd)) := by
  have hnowhere := h.nowhere
  unfold Ledger.holders at hnowhere
  obtain ⟨hprocessing, hclosing, hclosed⟩ := ledger_setWorker hw (.processing fd) fd
  simp only [reduceCtorEq, if_true, if_false] at hprocessing hclosing hclosed
  obtain ⟨harmed, hmain, hqueued⟩ := ledger_setWorker_places s w (.processing fd) fd
  apply h.sound
  · intro fd' hne
    exact ledger_setWorker_other hw (by simp) (by simp [hne.symm])
  · apply Ledger.Sound.of_open h.opened h.sockfd <;> omega

/-- `rmfd` of a worker's `close_conn` -/
theorem InHand.closing (h : InHand s fd) (hw : s.workers[w]? = some .idle) :
    Sound ((s.rmfd fd).setWorker w (.closing fd)) := by
  have hnowhere := h.nowhere
  unfold Ledger.holders at hnowhere
  have hw' : (s.rmfd fd).workers[w]? = some .idle := by
    rw [show (s.rmfd fd).workers = s.workers from by simp [HttpServer.rmfd]]
    exact hw
  obtain ⟨hprocessing, -, hclosed⟩ := ledger_setWorker hw' (.closing fd) fd
  simp only [reduceCtorEq, if_false, ledger_rmfd_self] at hprocessing hclosed
  obtain ⟨harmed, hmain, hqueued⟩ := ledger_setWorker_places (s.rmfd fd) w (.closing fd) fd
  simp only [ledger_rmfd_self] at harmed hmain hqueued
  have hopen : ((s.rmfd fd).setWorker w (.closing fd)).opened fd = false := by
    simp [HttpServer.rmfd, setWorker]
  apply h.sound
  · intro fd' hne
    rw [ledger_setWorker_other hw' (by simp) (by simp [hne.symm]), ledger_rmfd_other hne]
  · apply Ledger.Sound.of_closed hopen
    · omega
    · omega

/-! ## The steps of the main thread -/

/-- `epoll_wait` reports a connection at most once. -/
theorem countP_of_distinct {reports : List Report} (h : reports.Pairwise Report.Distinct)
    (fd : ℕ) : reports.countP (Report.concerns fd) ≤ 1 := by
  induction h with
  | nil => exact Nat.zero_le _
  | @cons r rest hr hrest ih =>
    cases r with
    | listen =>
      rw [List.countP_cons_of_neg (by simp [Report.concerns])]
      exact ih
    | conn fd' events =>
      rw [countP_concerns]
      split
      · rename_i heq
        -- nothing behind it is about the same descriptor
        have hzero : rest.countP (Report.concerns fd) = 0 := by
          rw [List.countP_eq_zero]
          intro r hmem
          cases r with
          | listen => simp [Report.concerns]
          | conn fd'' events' =>
            have hne : fd' ≠ fd'' := hr _ hmem
            simp only [Report.concerns, beq_iff_eq]
            omega
        omega
      · exact ih

/-- It reports none that is not armed. -/
theorem armed_of_reported {reports : List Report} (h : ∀ r ∈ reports, s.Reportable r)
    (hany : reports.any (Report.concerns fd) = true) : s.armed fd ≠ .none := by
  obtain ⟨r, hmem, hr⟩ := List.any_eq_true.mp hany
  cases r with
  | listen => cases hr
  | conn fd' events =>
    simp only [Report.concerns, beq_iff_eq] at hr
    exact hr ▸ (h _ hmem).1

/-- What `epoll_wait` reports goes from the `epoll` set to the main thread. -/
theorem Sound.wait (h : Sound s) {reports : List Report} (hempty : s.events = [])
    (hrep : ∀ r ∈ reports, s.Reportable r) (hdist : reports.Pairwise Report.Distinct) :
    Sound (s.wait reports) := by
  intro fd
  have hle := countP_of_distinct hdist fd
  have hmain : (s.ledger fd).main = 0 := by simp [ledger, hempty]
  by_cases hany : reports.any (Report.concerns fd) = true
  · have hpos : 0 < reports.countP (Report.concerns fd) :=
      List.countP_pos_iff.mpr (List.any_eq_true.mp hany)
    have harmed : (s.ledger fd).armed = 1 := armCount_of_ne (armed_of_reported hrep hany)
    have hopen : s.opened fd = true := (h fd).opened_of_pos (by omega)
    obtain ⟨hsockfd, hsum, hclosing, hclosed⟩ := (h fd).held hopen
    have hledger : (s.wait reports).ledger fd = { s.ledger fd with
        armed := 0
        main := reports.countP (Report.concerns fd) } := by
      simp only [ledger, HttpServer.wait, hany, if_true, armCount]
    rw [hledger]
    refine Ledger.Sound.of_open hopen hsockfd ?_ hclosing hclosed
    simp only
    omega
  · have hzero : reports.countP (Report.concerns fd) = 0 := by
      rw [List.countP_eq_zero]
      intro r hmem hr
      exact hany (List.any_eq_true.mpr ⟨r, hmem, hr⟩)
    have hledger : (s.wait reports).ledger fd = s.ledger fd := by
      simp only [ledger, HttpServer.wait, hany, Bool.false_eq_true, if_false, hzero, hempty,
        List.countP_nil]
    rw [hledger]
    exact h fd

/-- The ledger of a descriptor that `accept` gives out. -/
theorem ledger_accepted (s : HttpServer) (fd : ℕ) :
    ((s.setUser fd ((s.users fd).initConn fd)).addfd fd).ledger fd =
      { s.ledger fd with opened := true, sockfd := fd, armed := 1 } := by
  simp [ledger, addfd, setUser, HttpConn.initConn, armCount]

/-- A descriptor that is given out when no worker is left in its slot. -/
theorem Sound.accept (h : Sound s) (hfree : s.opened fd = false)
    (hout : (s.ledger fd).closing = 0 ∧ (s.ledger fd).closed = 0) :
    Sound ((s.setUser fd ((s.users fd).initConn fd)).addfd fd) := by
  intro fd'
  by_cases heq : fd' = fd
  · subst heq
    obtain ⟨-, hmain, hqueued, hprocessing⟩ := (h fd').free hfree
    rw [ledger_accepted]
    apply Ledger.Sound.of_open rfl rfl
    · simp only
      omega
    · exact hout.1
    · exact hout.2
  · have hsame : ((s.setUser fd ((s.users fd).initConn fd)).addfd fd).ledger fd' =
        s.ledger fd' := by
      simp [ledger, addfd, HttpServer.setUser, Function.update_of_ne heq]
    rw [hsame]
    exact h fd'

/-- A queue of at most `m_max_requests` entries takes one more. -/
theorem append_of_le {maxRequests : ℕ} (h : s.workqueue.length ≤ maxRequests) (fd : ℕ) :
    (s.append maxRequests fd).2 = { s with workqueue := s.workqueue ++ [fd] } := by
  rw [append, if_neg (Nat.not_lt.mpr h)]

/-- A longer one refuses it. -/
theorem append_of_lt {maxRequests : ℕ} (h : maxRequests < s.workqueue.length) (fd : ℕ) :
    (s.append maxRequests fd).2 = s := by
  rw [append, if_pos h]

theorem rearm_of_ne {ev : Arm} (h : ev ≠ .none) (sockfd : ℤ) :
    s.rearm sockfd ev = s.modfd sockfd ev := by
  cases ev with
  | none => exact absurd rfl h
  | epollin | epollout => rfl

/-- After the `modfd` of a `write` that fails, `close_conn` closes all the same. -/
theorem closeConn_rearm (h : (s.users fd).sockfd = fd) (ev : Arm) :
    (s.rearm fd ev).closeConn fd = s.closeConn fd := by
  cases ev with
  | none => rfl
  | epollin | epollout =>
    have hne : (fd : ℤ) ≠ -1 := by omega
    simp only [rearm, HttpServer.modfd]
    split
    · simp [HttpServer.closeConn, h, hne, HttpServer.rmfd, HttpServer.setUser]
    · rfl

/-- A report that `main` has a branch for. -/
def Handled : Report → Prop
  | .listen => True
  | .conn _ events => events &&& (EPOLLRDHUP ||| EPOLLHUP ||| EPOLLERR) ≠ 0 ∨
      events &&& EPOLLIN ≠ 0 ∨ events &&& EPOLLOUT ≠ 0

theorem and_eq_self {x mask : Mask} (h : x &&& ~~~mask = 0) : x &&& mask = x := by
  calc x &&& mask = (x &&& mask) ||| (x &&& ~~~mask) := by rw [h]; exact BitVec.or_zero.symm
    _ = x &&& (mask ||| ~~~mask) := by rw [BitVec.and_or_distrib_left]
    _ = x := by rw [BitVec.or_not_self, BitVec.and_allOnes]

/-- `epoll_wait` reports nothing that falls through the branches of `main`. -/
theorem handled_of_reportable {r : Report} (h : s.Reportable r) : Handled r := by
  cases r with
  | listen => trivial
  | conn fd events =>
    obtain ⟨harmed, hne, hmask⟩ := h
    have hself := and_eq_self hmask
    by_contra hnot
    simp only [Handled, not_or, ne_eq, not_not] at hnot
    obtain ⟨hhup, hin, hout⟩ := hnot
    -- the mask is made of the bits that the branches test
    have hzero : ∀ ready, events &&& ready = 0 →
        events &&& (EPOLLRDHUP ||| EPOLLHUP ||| EPOLLERR ||| ready) = 0 := by
      intro ready hready
      rw [BitVec.and_or_distrib_left, hhup, hready]
      exact BitVec.or_zero
    cases hev : s.armed fd with
    | none => exact harmed hev
    | epollin =>
      rw [hev, show wanted .epollin ||| EPOLLERR ||| EPOLLHUP =
        EPOLLRDHUP ||| EPOLLHUP ||| EPOLLERR ||| EPOLLIN from by decide, hzero _ hin] at hself
      exact hne hself.symm
    | epollout =>
      rw [hev, show wanted .epollout ||| EPOLLERR ||| EPOLLHUP =
        EPOLLRDHUP ||| EPOLLHUP ||| EPOLLERR ||| EPOLLOUT from by decide, hzero _ hout] at hself
      exact hne hself.symm

/-- The main thread deals with the connection it has in hand; only a request that the pool refuses
stays in its hand. -/
theorem InHand.handleEvent (h : InHand s fd) {maxRequests : ℕ} {events : Mask}
    (hhandled : Handled (.conn fd events)) {recvs : List ReadState.Recv}
    (writes : List WriteResult)
    (hroom : events &&& (EPOLLRDHUP ||| EPOLLHUP ||| EPOLLERR) = 0 → events &&& EPOLLIN ≠ 0 →
      ((s.users fd).read recvs).1 = true → s.workqueue.length ≤ maxRequests) :
    Sound (s.handleEvent maxRequests fd events recvs writes) := by
  unfold HttpServer.handleEvent
  by_cases hhup : events &&& (EPOLLRDHUP ||| EPOLLHUP ||| EPOLLERR) = 0
  · rw [if_neg (not_not.mpr hhup)]
    by_cases hin : events &&& EPOLLIN = 0
    · have hout : events &&& EPOLLOUT ≠ 0 := by
        rcases hhandled with hh | hh | hh
        · exact absurd hhup hh
        · exact absurd hin hh
        · exact hh
      rw [if_neg (not_not.mpr hin), if_pos hout]
      have hsockfd : ((s.users fd).write writes).2.sockfd = fd :=
        (HttpConn.sockfd_write _ _).trans h.sockfd
      have hset := h.setUser hsockfd
      simp only [hsockfd]
      split
      · rename_i hret
        have harm := HttpConn.arm_write hret
        rw [rearm_of_ne harm]
        exact hset.modfd harm
      · rw [closeConn_rearm hset.sockfd]
        exact hset.closeConn
    · rw [if_pos hin]
      have hset := h.setUser (c := ((s.users fd).read recvs).2) h.sockfd
      simp only
      split
      · rename_i hok
        have hle : (s.setUser fd ((s.users fd).read recvs).2).workqueue.length ≤ maxRequests :=
          hroom hhup hin hok
        rw [append_of_le hle]
        exact hset.enqueue
      · exact hset.closeConn
  · rw [if_pos hhup]
    exact h.closeConn

/-! ## The steps of the workers -/

/-- A worker that changes twice. -/
theorem setWorker_setWorker (s : HttpServer) (w : ℕ) (pc pc' : WorkerPc) :
    (s.setWorker w pc).setWorker w pc' = s.setWorker w pc' := by
  simp [HttpServer.setWorker]

theorem modfd_setWorker (s : HttpServer) (sockfd : ℤ) (ev : Arm) (w : ℕ) (pc : WorkerPc) :
    (s.setWorker w pc).modfd sockfd ev = (s.modfd sockfd ev).setWorker w pc := by
  unfold HttpServer.modfd
  split
  · rename_i hopen
    rw [if_pos (show 0 ≤ sockfd ∧ s.opened sockfd.toNat = true from hopen)]
    rfl
  · rename_i hclosed
    rw [if_neg (show ¬ (0 ≤ sockfd ∧ s.opened sockfd.toNat = true) from hclosed)]

theorem rmfd_setWorker (s : HttpServer) (sockfd : ℤ) (w : ℕ) (pc : WorkerPc) :
    (s.setWorker w pc).rmfd sockfd = (s.rmfd sockfd).setWorker w pc := by
  unfold HttpServer.rmfd
  split <;> rfl

/-- A request moves from the queue to a worker. -/
theorem Sound.take (h : Sound s) (ht : s.take w = some t) : Sound t := by
  unfold HttpServer.take at ht
  split at ht
  · rename_i fd rest hw hq
    cases ht
    exact (h.dequeue hq).processing hw
  · cases ht

/-- A worker arms the connection again, or begins to close it. -/
theorem Sound.process (h : Sound s) {typeText : List UInt8} {fs : FileSystem}
    (ht : s.process typeText w fs = some t) : Sound t := by
  unfold HttpServer.process at ht
  split at ht
  · rename_i fd hw
    have hhand := h.release hw
    obtain ⟨hev, hsock⟩ := HttpConn.process_socket typeText fs (s.users fd)
    have hsockfd : (s.users fd).sockfd = fd := hhand.sockfd
    have hne : (fd : ℤ) ≠ -1 := by omega
    have hidle : (s.setWorker w .idle).workers[w]? = some .idle := by
      simp [HttpServer.setWorker, (List.getElem?_eq_some_iff.mp hw).1]
    rw [hsockfd] at hsock
    simp only [hsockfd, ne_eq, hne, not_false_eq_true, true_and] at ht
    split at ht
    · -- the connection is closed, and the worker is still in `process`
      cases ht
      generalize (s.users fd).process typeText fs = p
      have hset := hhand.setUser (c := { p.2 with sockfd := fd }) rfl
      have hclosing := hset.closing (w := w) hidle
      rw [← setWorker_setWorker _ w .idle, ← rmfd_setWorker]
      exact hclosing
    · rename_i hkeep
      cases ht
      have hsame : ((s.users fd).process typeText fs).2.sockfd = fd := hsock.resolve_right hkeep
      rw [hsame, ← modfd_setWorker]
      exact (hhand.setUser hsame).modfd hev
  · cases ht

/-- A worker that has closed its connection: the descriptor is free. -/
theorem Ledger.Sound.closed_of_leaving {l : Ledger} (h : l.Sound fd)
    (hpos : 0 < l.closing + l.closed) : l.opened = false := by
  cases hl : l.opened with
  | false => rfl
  | true =>
    obtain ⟨-, -, hclosing, hclosed⟩ := h.held hl
    omega

/-- Such a worker moves on, and the socket of the slot stays or becomes `-1`. -/
theorem Sound.leaves (h : Sound s) {pc pc' : WorkerPc} (hw : s.workers[w]? = some pc)
    (hpc : pc = .closing fd ∨ pc = .closed fd) (hpc' : pc' = .closed fd ∨ pc' = .idle)
    {c : HttpConn} (hc : c.sockfd = -1) : Sound ((s.setUser fd c).setWorker w pc') := by
  have hw' : (s.setUser fd c).workers[w]? = some pc := hw
  intro fd'
  by_cases heq : fd' = fd
  · subst heq
    have hpos : 0 < (s.ledger fd').closing + (s.ledger fd').closed := by
      have hmem := List.count_pos_iff.mpr (List.mem_of_getElem? hw)
      rcases hpc with rfl | rfl
      · have : 0 < (s.ledger fd').closing := hmem
        omega
      · have : 0 < (s.ledger fd').closed := hmem
        omega
    have hfree := (h fd').closed_of_leaving hpos
    obtain ⟨harmed, hmain, hqueued, hprocessing⟩ := (h fd').free hfree
    have hcount := (ledger_setWorker hw' pc' fd').1
    rw [if_neg (by rcases hpc with rfl | rfl <;> simp),
      if_neg (by rcases hpc' with rfl | rfl <;> simp)] at hcount
    refine Ledger.Sound.of_closed hfree ?_ fun _ => ?_
    · rw [Nat.add_zero] at hcount
      rw [hcount]
      show (s.ledger fd').armed + (s.ledger fd').main + (s.ledger fd').queued +
        (s.ledger fd').processing = 0
      omega
    · show (Function.update s.users fd' c fd').sockfd = -1
      rw [Function.update_self, hc]
  · rw [ledger_setWorker_other hw', ledger_setUser_other heq]
    · exact h fd'
    · rcases hpc with rfl | rfl <;> simp [Ne.symm heq]
    · rcases hpc' with rfl | rfl <;> simp [Ne.symm heq]

/-- The steps that are left after `close(fd)` hold nothing. -/
theorem Sound.leave (h : Sound s) (ht : s.leave w = some t) : Sound t := by
  unfold HttpServer.leave at ht
  split at ht
  · rename_i fd hw
    cases ht
    exact h.leaves hw (.inl rfl) (.inl rfl) rfl
  · rename_i fd hw
    cases ht
    have hpos : 0 < (s.ledger fd).closed := List.count_pos_iff.mpr (List.mem_of_getElem? hw)
    have hsockfd : (s.users fd).sockfd = -1 := (h fd).left hpos
    -- the `modfd` is called with `-1`
    have hmodfd : s.modfd (s.users fd).sockfd .epollout = s.setUser fd (s.users fd) := by
      simp [HttpServer.modfd, hsockfd, HttpServer.setUser]
    rw [hmodfd]
    exact h.leaves hw (.inr rfl) (.inr rfl) hsockfd
  · cases ht

/-! ## The entries of `events` -/

@[simp] theorem events_setUser (s : HttpServer) (fd : ℕ) (c : HttpConn) :
    (s.setUser fd c).events = s.events := rfl

@[simp] theorem events_setWorker (s : HttpServer) (w : ℕ) (pc : WorkerPc) :
    (s.setWorker w pc).events = s.events := rfl

@[simp] theorem events_rmfd (s : HttpServer) (sockfd : ℤ) : (s.rmfd sockfd).events = s.events := by
  unfold rmfd
  split <;> rfl

@[simp] theorem events_modfd (s : HttpServer) (sockfd : ℤ) (ev : Arm) :
    (s.modfd sockfd ev).events = s.events := by
  unfold modfd
  split <;> rfl

@[simp] theorem events_rearm (s : HttpServer) (sockfd : ℤ) (ev : Arm) :
    (s.rearm sockfd ev).events = s.events := by
  cases ev with
  | none => rfl
  | epollin | epollout => exact events_modfd s sockfd _

@[simp] theorem events_closeConn (s : HttpServer) (fd : ℕ) :
    (s.closeConn fd).events = s.events := by
  unfold closeConn
  split
  · simp
  · rfl

@[simp] theorem events_append (maxRequests : ℕ) (s : HttpServer) (fd : ℕ) :
    (s.append maxRequests fd).2.events = s.events := by
  unfold append
  split <;> rfl

/-- Handling an entry adds none. -/
theorem events_handleEvent (maxRequests : ℕ) (s : HttpServer) (fd : ℕ) (events : Mask)
    (recvs : List ReadState.Recv) (writes : List WriteResult) :
    (s.handleEvent maxRequests fd events recvs writes).events = s.events := by
  unfold handleEvent
  split
  · simp
  · split
    · simp only
      split <;> simp
    · split
      · simp only
        split <;> simp
      · rfl

theorem events_take (ht : s.take w = some t) : t.events = s.events := by
  unfold take at ht
  split at ht <;> cases ht
  rfl

theorem events_process {typeText : List UInt8} {fs : FileSystem}
    (ht : s.process typeText w fs = some t) : t.events = s.events := by
  unfold process at ht
  split at ht
  · simp only at ht
    split at ht <;> cases ht <;> simp
  · cases ht

theorem events_leave (ht : s.leave w = some t) : t.events = s.events := by
  unfold leave at ht
  split at ht <;> cases ht <;> simp

/-! ## Whole runs -/

/-- `Sound`, with entries that `main` can handle. -/
structure Orderly (s : HttpServer) : Prop where
  sound : Sound s
  events : ∀ r ∈ s.events, Handled r

/-- The entry of the listening socket is about no connection. -/
theorem Sound.skip_listen (h : Sound s) {rest : List Report} (hev : s.events = .listen :: rest) :
    Sound { s with events := rest } := by
  intro fd
  have hsame : HttpServer.ledger { s with events := rest } fd = s.ledger fd := by
    simp only [ledger, hev, List.countP_cons_of_neg (show ¬ Report.concerns fd .listen = true by
      simp [Report.concerns])]
  rw [hsame]
  exact h fd

/-- `accept`, whatever it returns. -/
theorem Orderly.accept (h : Orderly s) {rest : List Report} (hev : s.events = .listen :: rest)
    {connfd : Option ℕ} {full : Bool}
    (ht : HttpServer.accept { s with events := rest } connfd full = some t)
    (hok : ∀ fd, connfd = some fd → full = false →
      (s.ledger fd).closing = 0 ∧ (s.ledger fd).closed = 0) : Orderly t := by
  have hskip := h.sound.skip_listen hev
  have hrest : ∀ r ∈ rest, Handled r := fun r hr =>
    h.events r (by rw [hev]; exact List.mem_cons_of_mem _ hr)
  unfold HttpServer.accept at ht
  split at ht
  · cases ht
    exact ⟨hskip, hrest⟩
  · rename_i fd
    split at ht
    · cases ht
    · rename_i hfree
      split at ht
      · cases ht
        exact ⟨hskip, hrest⟩
      · rename_i hfull
        cases ht
        exact ⟨hskip.accept (by simpa using hfree) (hok fd rfl (by simpa using hfull)), hrest⟩

/-- A step that meets the condition keeps the order. -/
theorem Orderly.step (h : Orderly s) {typeText : List UInt8} {maxRequests : ℕ} {a : Label}
    (ha : s.step typeText maxRequests a = some t) (hok : OwnedOk maxRequests s a) :
    Orderly t := by
  cases a with
  | wait reports =>
    simp only [HttpServer.step, Option.ite_none_right_eq_some, Option.some.injEq] at ha
    obtain ⟨⟨hempty, hrep, hdist⟩, rfl⟩ := ha
    exact ⟨h.sound.wait hempty hrep hdist, fun r hr => handled_of_reportable (hrep r hr)⟩
  | accept connfd full =>
    simp only [HttpServer.step] at ha
    split at ha
    · rename_i rest hev
      apply h.accept hev ha
      rintro fd rfl rfl
      exact hok
    · cases ha
  | handle recvs writes =>
    obtain ⟨fd, events, rest, hev, -, rfl⟩ := step_handle ha
    have hhandled : Handled (.conn fd events) := h.events _ (by simp [hev])
    refine ⟨(h.sound.pop hev).handleEvent hhandled writes ?_, ?_⟩
    · exact fun hhup hin hread => hok ⟨fd, events, rest, hev, hhup, hin, hread⟩
    · rw [events_handleEvent]
      exact fun r hr => h.events r (by rw [hev]; exact List.mem_cons_of_mem _ hr)
  | take w => exact ⟨h.sound.take ha, events_take ha ▸ h.events⟩
  | process w fs =>
    obtain ⟨-, ha⟩ := step_process ha
    exact ⟨h.sound.process ha, events_process ha ▸ h.events⟩
  | overrun w left => exact hok.elim
  | leave w => exact ⟨h.sound.leave ha, events_leave ha ▸ h.events⟩

/-- The steps after which a connection is nowhere, or in two places. -/
theorem Orderly.stepOk (h : Orderly s) {typeText : List UInt8} {maxRequests : ℕ} {a : Label}
    (ha : s.step typeText maxRequests a = some t) (hin : s.Contained a) (ht : Owned t) :
    OwnedOk maxRequests s a := by
  cases a with
  | accept connfd full =>
    cases connfd with
    | none => trivial
    | some fd =>
      cases full with
      | true => trivial
      | false =>
        simp only [HttpServer.step] at ha
        split at ha
        · rename_i rest hev
          simp only [HttpServer.accept, Bool.false_eq_true, if_false,
            Option.ite_none_left_eq_some, Option.some.injEq] at ha
          obtain ⟨-, rfl⟩ := ha
          have hone := ht fd (by simp [addfd])
          rw [ledger_accepted] at hone
          simp only [Ledger.holders, ledger] at hone
          constructor
          · simp only [ledger]
            omega
          · simp only [ledger]
            omega
        · cases ha
  | handle recvs writes =>
    rintro ⟨fd, events, rest, hev, hhup, hevin, hread⟩
    by_contra hfull
    have hhand := h.sound.pop hev
    have hlt : maxRequests < (HttpServer.setUser { s with events := rest } fd
        ((s.users fd).read recvs).2).workqueue.length := Nat.lt_of_not_le hfull
    have hset := hhand.setUser (c := ((s.users fd).read recvs).2) hhand.sockfd
    simp only [HttpServer.step, hev, Option.ite_none_right_eq_some, Option.some.injEq] at ha
    obtain ⟨-, rfl⟩ := ha
    simp only [handleEvent, hhup, ne_eq, not_true_eq_false, if_false, hevin, not_false_eq_true,
      if_true, hread, append_of_lt hlt] at ht
    have hone := ht fd hset.opened
    rw [hset.nowhere] at hone
    cases hone
  | overrun => exact hin.elim
  | wait | take | process | leave => trivial

end Moves

/-- The server before its first `epoll_wait`. -/
theorem orderly_start (threadNum : ℕ) : Orderly (start threadNum) :=
  ⟨sound_start threadNum, fun _ hr => absurd hr List.not_mem_nil⟩

/-- In every run of the main thread and any number of workers, whatever is reported, received and
written: as long as no request meets a queue with more than `m_max_requests` entries, no descriptor
is given out while a worker is still in `process` of the connection it belonged to, and no parser
stores outside `m_read_buf`, each open connection is at every moment in exactly one place. Of the
runs without such a store it is only these. -/
theorem owned_once_iff (typeText : List UInt8) (maxRequests threadNum : ℕ) (as : List Label) :
    (Machine.Along (step typeText maxRequests) (OwnedOk maxRequests) (start threadNum) as →
        Machine.Always (step typeText maxRequests) Owned (start threadNum) as) ∧
      (Machine.Along (step typeText maxRequests) Contained (start threadNum) as →
        (Machine.Always (step typeText maxRequests) Owned (start threadNum) as ↔
          Machine.Along (step typeText maxRequests) (OwnedOk maxRequests) (start threadNum)
            as)) := by
  have howned :
      Machine.Along (step typeText maxRequests) (OwnedOk maxRequests) (start threadNum) as →
      Machine.Always (step typeText maxRequests) Owned (start threadNum) as :=
    Machine.always_of_along (K := Orderly) (fun _ hs => hs.sound.owned)
      (fun _ _ _ hs ha hok => hs.step ha hok) (orderly_start threadNum)
  refine ⟨howned, fun hin => ⟨fun halways => ?_, howned⟩⟩
  exact Machine.along_of_always (K := Orderly) (fun _ _ _ hs ha hok => hs.step ha hok)
    (fun _ _ _ hs ha hin ht => hs.stepOk ha hin ht) (orderly_start threadNum) hin halways

/-- The run that accepts the three connections 5, 6 and 7 and then reads a byte of each. -/
def threeRequests : List Label :=
  [.wait [.listen], .accept (some 5) false, .wait [.listen], .accept (some 6) false,
    .wait [.listen], .accept (some 7) false,
    .wait [.conn 5 EPOLLIN, .conn 6 EPOLLIN, .conn 7 EPOLLIN],
    .handle [.data [71]] [], .handle [.data [71]] [], .handle [.data [71]] []]

/-- With the defaults of the pool, three requests before any worker has taken one: the last is
refused, and its connection is left open, disarmed and with nobody. -/
theorem third_request_stranded :
    ¬ Machine.Always (step [] 1) Owned (start 8) threeRequests := by
  intro h
  have hlast : (Machine.exec (step [] 1) (start 8) threeRequests).map
      (fun s => (s.opened 7, (s.ledger 7).holders)) = some (true, 0) := by
    decide +kernel
  obtain ⟨s, hs, hpair⟩ := Option.map_eq_some_iff.mp hlast
  rw [Prod.mk.injEq] at hpair
  have hone := h.last hs 7 hpair.1
  rw [hpair.2] at hone
  cases hone

end HttpServer
end Webservers
