import Webservers.HttpConn.AnswerTheorems
import Webservers.HttpServer.ClientTheorems
import Webservers.HttpServer.OwnershipTheorems

/-!
# The course of a session

The main thread and the workers take turns with a connection: the main thread reads, a worker
parses and may compose a response, the main thread writes it. Nobody says so in one place; it
follows from which event each of them arms, and from the registrations being one-shot.

* `Phase` is what the connection waits for, `Phase.next` whose turn comes after what was done.
* `Place` is all that a step of the server can know a connection by, and `InPhase` what it looks
  like in each phase.
* `session_conforms`: in every run what is done with a connection, between an `accept` and the
  closing, follows `Phase.next`.
-/

namespace Webservers

/-- The mask of an entry about this connection. -/
def Report.maskOf (fd : ℕ) : Report → Option Mask
  | .listen => none
  | .conn fd' events => if fd' = fd then some events else none

namespace HttpServer

open HttpConn (Arm Call twoByteFiles)

/-! ## The protocol -/

/-- What a connection waits for. -/
inductive Phase where
  | closed
  /-- for the client to send -/
  | request
  /-- for a worker to parse what was read -/
  | worker
  /-- for room to send the response -/
  | response
deriving Repr, DecidableEq

/-- What is done with a connection. -/
inductive Act where
  | accepted
  | hungUp
  | received (ok : Bool)
  /-- `process` arms the event, or closes the connection -/
  | processed (arm : Arm) (kept : Bool)
  | written (ret : Bool) (arm : Arm)
deriving Repr, DecidableEq

/-- The phase of a connection that is armed. -/
def Phase.awaiting : Arm → Phase
  | .none => .closed
  | .epollin => .request
  | .epollout => .response

/-- The phase after an act. -/
def Phase.next : Phase → Act → Option Phase
  | .closed, .accepted => some .request
  | .request, .hungUp | .response, .hungUp => some .closed
  | .request, .received ok => some (if ok then .worker else .closed)
  | .worker, .processed arm kept => some (if kept then awaiting arm else .closed)
  | .response, .written ret arm => some (if ret then awaiting arm else .closed)
  | _, _ => none

/-- The step gives out the descriptor `fd`. -/
def accepts (fd : ℕ) : Label → Bool
  | .accept (some fd') false => fd' == fd
  | _ => false

/-- The step finds that the peer of `fd` has gone. -/
def hangsUp (fd : ℕ) (s : HttpServer) : Label → Bool
  | .handle _ _ =>
    match s.events.head? with
    | some (.conn fd' events) =>
      fd' == fd && events &&& (EPOLLRDHUP ||| EPOLLHUP ||| EPOLLERR) != 0
    | _ => false
  | _ => false

/-- What the call does with the connection. -/
def actOf (typeText : List UInt8) (c : HttpConn) : Call → Act
  | .read recvs => .received (c.read recvs).1
  | .process fs => .processed (c.process typeText fs).1.1 ((c.process typeText fs).2.sockfd != -1)
  | .write writes => .written (c.write writes).1.ret (c.write writes).1.arm

/-- What a step does with the connection `fd`. -/
def actOn (typeText : List UInt8) (fd : ℕ) (s : HttpServer) (a : Label) : Option Act :=
  match s.callOn fd a with
  | some call => some (actOf typeText (s.users fd) call)
  | none =>
    if accepts fd a then some .accepted
    else if s.hangsUp fd a then some .hungUp
    else none

/-! ## Where a connection is -/

structure Place where
  opened : Bool
  armed : Arm
  /-- of the entries that the main thread still has to handle -/
  masks : List Mask
  queued : ℕ
  processing : ℕ

def place (s : HttpServer) (fd : ℕ) : Place where
  opened := s.opened fd
  armed := s.armed fd
  masks := s.events.filterMap (Report.maskOf fd)
  queued := s.workqueue.count fd
  processing := s.workers.count (.processing fd)

/-- What a connection can wait for where it is. A registration that was reported is gone, but the
mask tells which one it was. -/
def InPhase (p : Place) : Phase → Prop
  | .closed => p.opened = false
  | .request => p.opened = true ∧ p.armed ≠ .epollout ∧ (∀ m ∈ p.masks, m &&& EPOLLOUT = 0) ∧
      p.queued + p.processing = 0
  | .worker => p.opened = true ∧ p.armed = .none ∧ p.masks = []
  | .response => p.opened = true ∧ p.armed ≠ .epollin ∧ (∀ m ∈ p.masks, m &&& EPOLLIN = 0) ∧
      p.queued + p.processing = 0

section Places

variable {s t : HttpServer} {fd fd' w : ℕ}

theorem place_setUser (s : HttpServer) (fd fd' : ℕ) (c : HttpConn) :
    (s.setUser fd' c).place fd = s.place fd := rfl

/-- `rmfd` takes the descriptor out of the set. -/
theorem place_rmfd_self (s : HttpServer) (fd : ℕ) :
    (s.rmfd fd).place fd = { s.place fd with opened := false, armed := .none } := by
  simp [place, rmfd]

theorem place_rmfd_other (h : fd ≠ fd') : (s.rmfd fd').place fd = s.place fd := by
  simp [place, rmfd, Function.update_of_ne h]

/-- `modfd` arms it again. -/
theorem place_modfd_self (hopen : s.opened fd = true) (ev : Arm) :
    (s.modfd fd ev).place fd = { s.place fd with armed := ev } := by
  simp [place, modfd, hopen]

theorem place_modfd_other (h : fd ≠ fd') (ev : Arm) :
    (s.modfd fd' ev).place fd = s.place fd := by
  unfold modfd
  split
  · simp [place, Function.update_of_ne h]
  · rfl

theorem place_rearm_other (h : fd ≠ fd') (ev : Arm) :
    (s.rearm fd' ev).place fd = s.place fd := by
  cases ev with
  | none => rfl
  | epollin | epollout => exact place_modfd_other h _

/-- `close_conn` of a connection whose slot knows its descriptor. -/
theorem place_closeConn_self (hsockfd : (s.users fd).sockfd = fd) :
    (s.closeConn fd).place fd = { s.place fd with opened := false, armed := .none } := by
  have hne : (fd : ℤ) ≠ -1 := by omega
  rw [closeConn, hsockfd, if_pos hne, place_setUser, place_rmfd_self]

theorem place_closeConn_other (h : fd ≠ fd') (hsockfd : (s.users fd').sockfd = fd') :
    (s.closeConn fd').place fd = s.place fd := by
  have hne : (fd' : ℤ) ≠ -1 := by omega
  rw [closeConn, hsockfd, if_pos hne, place_setUser, place_rmfd_other h]

theorem place_append_other (h : fd ≠ fd') (maxRequests : ℕ) :
    (s.append maxRequests fd').2.place fd = s.place fd := by
  unfold append
  split
  · rfl
  · simp [place, h.symm]

/-- A worker that goes from `pc` to `pc'`, neither of which is about `fd`. -/
theorem place_setWorker {pc pc' : WorkerPc} (hw : s.workers[w]? = some pc)
    (hpc : pc ≠ .processing fd) (hpc' : pc' ≠ .processing fd) :
    (s.setWorker w pc').place fd = s.place fd := by
  have hcount := count_setWorker hw pc' (.processing fd)
  rw [if_neg hpc, if_neg hpc', Nat.add_zero, Nat.add_zero] at hcount
  rw [place, place, hcount]
  rfl

/-! ## The ledger and the place -/

/-- The entries with a mask are those that the ledger counts. -/
theorem length_masks (s : HttpServer) (fd : ℕ) :
    (s.place fd).masks.length = (s.ledger fd).main := by
  simp only [place, ledger, List.length_filterMap_eq_countP]
  apply List.countP_congr
  intro r _
  cases r with
  | listen => simp [Report.maskOf, Report.concerns]
  | conn fd' events =>
    simp only [Report.maskOf, Report.concerns]
    split <;> simp_all

theorem mem_masks {events : List Report} {m : Mask} :
    m ∈ events.filterMap (Report.maskOf fd) ↔ .conn fd m ∈ events := by
  rw [List.mem_filterMap]
  constructor
  · rintro ⟨r, hr, hmask⟩
    cases r with
    | listen => cases hmask
    | conn fd' events =>
      rw [Report.maskOf, Option.ite_none_right_eq_some, Option.some.injEq] at hmask
      obtain ⟨rfl, rfl⟩ := hmask
      exact hr
  · exact fun h => ⟨_, h, if_pos rfl⟩

theorem armed_of_count {ev : Arm} (h : armCount ev = 0) : ev = .none := by
  cases ev with
  | none => rfl
  | epollin | epollout => cases h

/-- A connection in hand is nowhere. -/
theorem InHand.place (h : InHand s fd) : s.place fd = ⟨true, .none, [], 0, 0⟩ := by
  have hnowhere := h.nowhere
  have hlen := length_masks s fd
  unfold Ledger.holders at hnowhere
  have harmed : (s.place fd).armed = .none := armed_of_count
    (show (s.ledger fd).armed = 0 by omega)
  have hmasks : (s.place fd).masks = [] := List.eq_nil_of_length_eq_zero (by omega)
  have hqueued : (s.place fd).queued = 0 := show (s.ledger fd).queued = 0 by omega
  have hprocessing : (s.place fd).processing = 0 := show (s.ledger fd).processing = 0 by omega
  calc
    s.place fd = ⟨(s.place fd).opened, (s.place fd).armed, (s.place fd).masks,
        (s.place fd).queued, (s.place fd).processing⟩ := rfl
    _ = _ := by
      rw [harmed, hmasks, hqueued, hprocessing, show (s.place fd).opened = true from h.opened]

/-- An open connection with a worker, or waiting for one, is nowhere else. -/
theorem InPhase.worker_of_pos (h : Sound s) {phase : Phase} (hphase : InPhase (s.place fd) phase)
    (hpos : 0 < (s.place fd).queued + (s.place fd).processing) : phase = .worker := by
  cases phase with
  | closed =>
    obtain ⟨-, -, hqueued, hprocessing⟩ := (h fd).free hphase
    have hqueued : (s.place fd).queued = 0 := hqueued
    have hprocessing : (s.place fd).processing = 0 := hprocessing
    omega
  | request | response =>
    have hzero := hphase.2.2.2
    omega
  | worker => rfl

theorem InPhase.closed_of_not_opened {p : Place} {phase : Phase} (hphase : InPhase p phase)
    (hopen : p.opened = false) : phase = .closed := by
  cases phase with
  | closed => rfl
  | request | worker | response => exact absurd (hphase.1.symm.trans hopen) Bool.noConfusion

/-- What is armed tells the phase. -/
theorem InPhase.awaiting_of_armed {p : Place} {phase : Phase} (hphase : InPhase p phase)
    (hopen : p.opened = true) (harmed : p.armed ≠ .none) : phase = .awaiting p.armed := by
  cases phase with
  | closed => exact absurd (hphase.symm.trans hopen) Bool.noConfusion
  | request =>
    cases hev : p.armed with
    | none => exact absurd hev harmed
    | epollin => rfl
    | epollout => exact absurd hev hphase.2.1
  | worker => exact absurd hphase.2.1 harmed
  | response =>
    cases hev : p.armed with
    | none => exact absurd hev harmed
    | epollin => exact absurd hev hphase.2.1
    | epollout => rfl

/-- A report is of a connection that was armed, for what its phase waits for. -/
theorem InPhase.awaited_of_mem (h : Sound s) {phase : Phase}
    (hphase : InPhase (s.place fd) phase) {m : Mask} (hmem : .conn fd m ∈ s.events) :
    (phase = .request ∧ m &&& EPOLLOUT = 0) ∨ (phase = .response ∧ m &&& EPOLLIN = 0) := by
  have hmask : m ∈ (s.place fd).masks := mem_masks.mpr hmem
  cases phase with
  | closed =>
    obtain ⟨-, hmain, -, -⟩ := (h fd).free hphase
    have hlen := length_masks s fd
    have hpos := List.length_pos_of_mem hmask
    omega
  | request => exact .inl ⟨rfl, hphase.2.2.1 m hmask⟩
  | worker =>
    rw [hphase.2.2] at hmask
    exact absurd hmask List.not_mem_nil
  | response => exact .inr ⟨rfl, hphase.2.2.1 m hmask⟩

/-! ## The steps of the main thread -/

/-- `epoll_wait` takes a registration and leaves a mask that says which one it was. -/
theorem inPhase_wait {reports : List Report}
    (hrep : ∀ r ∈ reports, s.Reportable r) {phase : Phase} (hphase : InPhase (s.place fd) phase) :
    InPhase ((s.wait reports).place fd) phase := by
  have harmed : ∀ ev, s.armed fd ≠ ev → ev ≠ .none → ((s.wait reports).place fd).armed ≠ ev := by
    intro ev hev hnone
    show (if reports.any (Report.concerns fd) then Arm.none else s.armed fd) ≠ ev
    split
    · exact hnone.symm
    · exact hev
  -- what is reported is among the events that were waited for
  have hmask : ∀ m ∈ ((s.wait reports).place fd).masks, s.armed fd ≠ .none ∧
      m &&& ~~~(wanted (s.armed fd) ||| EPOLLERR ||| EPOLLHUP) = 0 := by
    intro m hm
    obtain ⟨harm, -, hmask⟩ := hrep _ (mem_masks.mp hm)
    exact ⟨harm, hmask⟩
  have hout : ∀ {m mask ev : Mask}, m &&& ~~~mask = 0 → mask &&& ev = 0 → m &&& ev = 0 := by
    intro m mask ev hm hev
    rw [← and_eq_self hm, BitVec.and_assoc, hev]
    exact BitVec.and_zero
  cases phase with
  | closed => exact hphase
  | request =>
    obtain ⟨hopen, hnot, -, hzero⟩ := hphase
    refine ⟨hopen, harmed _ hnot Arm.noConfusion, fun m hm => ?_, hzero⟩
    obtain ⟨harm, hm⟩ := hmask m hm
    cases hev : s.armed fd with
    | none => exact absurd hev harm
    | epollin =>
      rw [hev] at hm
      exact hout hm (by decide)
    | epollout => exact absurd hev hnot
  | worker =>
    obtain ⟨hopen, hnone, -⟩ := hphase
    refine ⟨hopen, ?_, ?_⟩
    · show (if reports.any (Report.concerns fd) then Arm.none else s.armed fd) = Arm.none
      split
      · rfl
      · exact hnone
    · apply List.eq_nil_iff_forall_not_mem.mpr
      exact fun m hm => (hmask m hm).1 hnone
  | response =>
    obtain ⟨hopen, hnot, -, hzero⟩ := hphase
    refine ⟨hopen, harmed _ hnot Arm.noConfusion, fun m hm => ?_, hzero⟩
    obtain ⟨harm, hm⟩ := hmask m hm
    cases hev : s.armed fd with
    | none => exact absurd hev harm
    | epollin => exact absurd hev hnot
    | epollout =>
      rw [hev] at hm
      exact hout hm (by decide)

/-- A new connection is armed for reading and nowhere else. -/
theorem Sound.inPhase_accept (h : Sound s) (hfree : s.opened fd = false) :
    InPhase (((s.setUser fd ((s.users fd).initConn fd)).addfd fd).place fd) .request := by
  obtain ⟨-, hmain, hqueued, hprocessing⟩ := (h fd).free hfree
  rw [← length_masks] at hmain
  have hmasks : (s.place fd).masks = [] := List.eq_nil_of_length_eq_zero hmain
  have hplace : ((s.setUser fd ((s.users fd).initConn fd)).addfd fd).place fd =
      { s.place fd with opened := true, armed := .epollin } := by
    simp [place, addfd, setUser]
  rw [hplace]
  refine ⟨rfl, Arm.noConfusion, fun m hm => ?_, ?_⟩
  · rw [hmasks] at hm
    exact absurd hm List.not_mem_nil
  · show (s.ledger fd).queued + (s.ledger fd).processing = 0
    omega

theorem place_accepted_other (h : fd ≠ fd') (c : HttpConn) :
    ((s.setUser fd' c).addfd fd').place fd = s.place fd := by
  simp [place, addfd, setUser, Function.update_of_ne h]

/-- `accept`, whatever it returns. -/
theorem Sound.exec_accept (h : Sound s) {connfd : Option ℕ} {full : Bool}
    (ha : s.accept connfd full = some t) {phase : Phase} (hphase : InPhase (s.place fd) phase) :
    ∃ phase', Machine.exec Phase.next phase
        (if accepts fd (.accept connfd full) then some .accepted else none).toList = some phase' ∧
      InPhase (t.place fd) phase' := by
  unfold HttpServer.accept at ha
  split at ha
  · cases ha
    exact ⟨phase, rfl, hphase⟩
  · rename_i fd'
    rw [Option.ite_none_left_eq_some] at ha
    obtain ⟨hfree, ha⟩ := ha
    cases full with
    | true =>
      cases ha
      exact ⟨phase, rfl, hphase⟩
    | false =>
      cases ha
      by_cases heq : fd = fd'
      · subst heq
        have hclosed : s.opened fd = false := Bool.eq_false_iff.mpr hfree
        obtain rfl := hphase.closed_of_not_opened hclosed
        have hself : accepts fd (.accept (some fd) false) = true := beq_self_eq_true fd
        rw [hself]
        exact ⟨.request, rfl, h.inPhase_accept hclosed⟩
      · have hother : accepts fd (.accept (some fd') false) = false :=
          beq_eq_false_iff_ne.mpr (Ne.symm heq)
        rw [hother, place_accepted_other heq]
        exact ⟨phase, rfl, hphase⟩

/-- A connection in hand that is armed again. -/
theorem InHand.inPhase_modfd (h : InHand s fd) {ev : Arm} (hev : ev ≠ .none) :
    InPhase ((s.modfd fd ev).place fd) (.awaiting ev) := by
  rw [place_modfd_self h.opened, h.place]
  cases ev with
  | none => exact absurd rfl hev
  | epollin | epollout => exact ⟨rfl, Arm.noConfusion, fun _ hm => absurd hm List.not_mem_nil, rfl⟩

theorem InHand.inPhase_closeConn (h : InHand s fd) :
    InPhase ((s.closeConn fd).place fd) .closed := by
  rw [place_closeConn_self h.sockfd]
  rfl

/-- What the main thread does with the connection it has in hand. -/
def handledAct (s : HttpServer) (fd : ℕ) (events : Mask) (recvs : List ReadState.Recv)
    (writes : List WriteResult) : Act :=
  if events &&& (EPOLLRDHUP ||| EPOLLHUP ||| EPOLLERR) ≠ 0 then .hungUp
  else if events &&& EPOLLIN ≠ 0 then .received ((s.users fd).read recvs).1
  else .written ((s.users fd).write writes).1.ret ((s.users fd).write writes).1.arm

/-- The main thread arms a connection again, hands it over to the pool, or closes it, as the phase
says. -/
theorem InHand.inPhase_handleEvent (h : InHand s fd) {maxRequests : ℕ} {events : Mask}
    {recvs : List ReadState.Recv} {writes : List WriteResult} {phase : Phase}
    (hhandled : Handled (.conn fd events))
    (hphase : (phase = .request ∧ events &&& EPOLLOUT = 0) ∨
      (phase = .response ∧ events &&& EPOLLIN = 0))
    (hroom : events &&& (EPOLLRDHUP ||| EPOLLHUP ||| EPOLLERR) = 0 → events &&& EPOLLIN ≠ 0 →
      ((s.users fd).read recvs).1 = true → s.workqueue.length ≤ maxRequests) :
    ∃ phase', phase.next (s.handledAct fd events recvs writes) = some phase' ∧
      InPhase ((s.handleEvent maxRequests fd events recvs writes).place fd) phase' := by
  unfold HttpServer.handleEvent handledAct
  by_cases hhup : events &&& (EPOLLRDHUP ||| EPOLLHUP ||| EPOLLERR) = 0
  · rw [if_neg (not_not.mpr hhup), if_neg (not_not.mpr hhup)]
    by_cases hin : events &&& EPOLLIN = 0
    · have hout : events &&& EPOLLOUT ≠ 0 := (hhandled.resolve_left (not_not.mpr hhup)).resolve_left
        (not_not.mpr hin)
      obtain rfl : phase = .response := by
        rcases hphase with ⟨-, hnot⟩ | ⟨heq, -⟩
        · exact absurd hnot hout
        · exact heq
      rw [if_neg (not_not.mpr hin), if_neg (not_not.mpr hin), if_pos hout]
      have hsockfd : ((s.users fd).write writes).2.sockfd = fd :=
        (HttpConn.sockfd_write _ _).trans h.sockfd
      have hset := h.setUser hsockfd
      simp only [hsockfd]
      -- `write` has armed the connection again, or the connection is closed
      refine ⟨_, rfl, ?_⟩
      split
      · rename_i hret
        have harm := HttpConn.arm_write hret
        rw [rearm_of_ne harm]
        exact hset.inPhase_modfd harm
      -- what `write` armed is removed from the set again by `close_conn`
      · rw [closeConn_rearm hset.sockfd]
        exact hset.inPhase_closeConn
    · obtain rfl : phase = .request := by
        rcases hphase with ⟨heq, -⟩ | ⟨-, hnot⟩
        · exact heq
        · exact absurd hnot hin
      rw [if_pos hin, if_pos hin]
      have hset := h.setUser (c := ((s.users fd).read recvs).2) h.sockfd
      refine ⟨_, rfl, ?_⟩
      simp only
      split
      · rename_i hok
        have hle : (s.setUser fd ((s.users fd).read recvs).2).workqueue.length ≤ maxRequests :=
          hroom hhup hin hok
        have hplace := hset.place
        rw [append_of_le hle]
        exact ⟨hset.opened, congrArg Place.armed hplace, congrArg Place.masks hplace⟩
      · exact hset.inPhase_closeConn
  · rw [if_pos hhup, if_pos hhup]
    refine ⟨.closed, ?_, h.inPhase_closeConn⟩
    rcases hphase with ⟨rfl, -⟩ | ⟨rfl, -⟩ <;> rfl

/-- The other connections stay where they are. -/
theorem InHand.place_handleEvent (h : InHand s fd') (hne : fd ≠ fd') (maxRequests : ℕ)
    (events : Mask) (recvs : List ReadState.Recv) (writes : List WriteResult) :
    (s.handleEvent maxRequests fd' events recvs writes).place fd = s.place fd := by
  unfold HttpServer.handleEvent
  split
  · exact place_closeConn_other hne h.sockfd
  · split
    · have hset := h.setUser (c := ((s.users fd').read recvs).2) h.sockfd
      simp only
      split
      · exact place_append_other hne _
      · exact place_closeConn_other hne hset.sockfd
    · split
      · have hsockfd : ((s.users fd').write writes).2.sockfd = fd' :=
          (HttpConn.sockfd_write _ _).trans h.sockfd
        have hset := h.setUser hsockfd
        simp only [hsockfd]
        split
        · exact place_rearm_other hne _
        · rw [closeConn_rearm hset.sockfd]
          exact place_closeConn_other hne hset.sockfd
      · rfl

/-! ## The steps of the workers -/

/-- A request that a worker takes has only changed hands. -/
theorem Sound.inPhase_take (h : Sound s) (ht : s.take w = some t) {phase : Phase}
    (hphase : InPhase (s.place fd) phase) : InPhase (t.place fd) phase := by
  unfold HttpServer.take at ht
  split at ht
  · rename_i fd' rest hw hq
    cases ht
    by_cases heq : fd' = fd
    · subst heq
      have hpos : 0 < (s.place fd').queued :=
        List.count_pos_iff.mpr (by rw [hq]; exact List.mem_cons_self)
      obtain rfl := hphase.worker_of_pos h (Nat.add_pos_left hpos _)
      exact hphase
    · have hplace : HttpServer.place { s with workqueue := rest } fd = s.place fd := by
        simp only [place, hq, List.count_cons_of_ne heq]
      have hpc : WorkerPc.processing fd' ≠ .processing fd := by simpa using heq
      have hidle : WorkerPc.idle ≠ .processing fd := WorkerPc.noConfusion
      rw [place_setWorker (s := { s with workqueue := rest }) hw hidle hpc, hplace]
      exact hphase
  · cases ht

/-- `process` arms the connection, or closes it. -/
theorem Sound.inPhase_process (h : Sound s) {typeText : List UInt8} {fs : FileSystem}
    (hw : s.workers[w]? = some (.processing fd)) (ht : s.process typeText w fs = some t)
    {phase : Phase} (hphase : InPhase (s.place fd) phase) :
    ∃ phase', phase.next (actOf typeText (s.users fd) (.process fs)) = some phase' ∧
      InPhase (t.place fd) phase' := by
  have hpos : 0 < (s.place fd).processing := List.count_pos_iff.mpr (List.mem_of_getElem? hw)
  obtain rfl := hphase.worker_of_pos h (Nat.add_pos_right _ hpos)
  refine ⟨_, rfl, ?_⟩
  have hhand := h.release hw
  obtain ⟨hev, hsock⟩ := HttpConn.process_socket typeText fs (s.users fd)
  have hsockfd : (s.users fd).sockfd = fd := hhand.sockfd
  have hne : (fd : ℤ) ≠ -1 := by omega
  rw [hsockfd] at hsock
  simp only [HttpServer.process, hw, hsockfd, ne_eq, hne, not_false_eq_true, true_and] at ht
  split at ht
  · rename_i hclose
    cases ht
    rw [hclose]
    -- `process` has closed the connection: `rmfd`
    show (HttpServer.rmfd _ (fd : ℤ)).opened fd = false
    simp [HttpServer.rmfd]
  · rename_i hkeep
    cases ht
    have hsame : ((s.users fd).process typeText fs).2.sockfd = fd := hsock.resolve_right hkeep
    rw [hsame, if_pos (by simp), ← modfd_setWorker]
    exact (hhand.setUser hsame).inPhase_modfd hev

/-- It does nothing to the others. -/
theorem Sound.place_process (h : Sound s) {typeText : List UInt8} {fs : FileSystem}
    (hw : s.workers[w]? ≠ some (.processing fd)) (ht : s.process typeText w fs = some t) :
    t.place fd = s.place fd := by
  unfold HttpServer.process at ht
  split at ht
  · rename_i fd' hw'
    have hne : fd ≠ fd' := by
      rintro rfl
      exact hw hw'
    have hpc : WorkerPc.processing fd' ≠ .processing fd := by simpa using hne.symm
    have hhand := h.release hw'
    obtain ⟨-, hsock⟩ := HttpConn.process_socket typeText fs (s.users fd')
    have hsockfd : (s.users fd').sockfd = fd' := hhand.sockfd
    have hne' : (fd' : ℤ) ≠ -1 := by omega
    rw [hsockfd] at hsock
    simp only [hsockfd, ne_eq, hne', not_false_eq_true, true_and] at ht
    have hplace : ∀ pc, pc ≠ .processing fd → (s.setWorker w pc).place fd = s.place fd :=
      fun pc hpc' => place_setWorker hw' hpc hpc'
    split at ht
    · cases ht
      rw [← rmfd_setWorker, place_rmfd_other hne]
      exact hplace _ WorkerPc.noConfusion
    · rename_i hkeep
      cases ht
      rw [hsock.resolve_right hkeep, ← modfd_setWorker, place_modfd_other hne]
      exact hplace _ WorkerPc.noConfusion
  · cases ht

/-- Nor does a worker that comes out of its `close_conn`, as the slot has no socket by then. -/
theorem Sound.place_leave (h : Sound s) (ht : s.leave w = some t) : t.place fd = s.place fd := by
  unfold HttpServer.leave at ht
  split at ht
  · rename_i fd' hw
    cases ht
    exact place_setWorker hw WorkerPc.noConfusion WorkerPc.noConfusion
  · rename_i fd' hw
    cases ht
    have hpos : 0 < (s.ledger fd').closed := List.count_pos_iff.mpr (List.mem_of_getElem? hw)
    -- `m_sockfd` is -1 by now, and `modfd` of -1 fails
    have hmodfd : s.modfd (s.users fd').sockfd .epollout = s := by
      simp [HttpServer.modfd, show (s.users fd').sockfd = -1 from (h fd').left hpos]
    rw [hmodfd]
    exact place_setWorker hw WorkerPc.noConfusion WorkerPc.noConfusion
  · cases ht

/-! ## Steps and runs -/

/-- The act of the main thread for the entry at the front. -/
theorem actOn_handle {typeText : List UInt8} {events : Mask} {rest : List Report}
    (hev : s.events = .conn fd events :: rest) (hhandled : Handled (.conn fd events))
    (recvs : List ReadState.Recv) (writes : List WriteResult) :
    s.actOn typeText fd (.handle recvs writes) =
      some (s.handledAct fd events recvs writes) := by
  have hcall : s.callOn fd (.handle recvs writes) = eventCall events recvs writes := by
    simp only [callOn, hev, if_true]
  unfold actOn handledAct
  rw [hcall, eventCall]
  by_cases hhup : events &&& (EPOLLRDHUP ||| EPOLLHUP ||| EPOLLERR) = 0
  · by_cases hin : events &&& EPOLLIN = 0
    · have hout : events &&& EPOLLOUT ≠ 0 :=
        (hhandled.resolve_left (not_not.mpr hhup)).resolve_left (not_not.mpr hin)
      simp only [hhup, hin, hout, ne_eq, not_true_eq_false, not_false_eq_true, if_true, if_false]
      rfl
    · simp only [hhup, hin, ne_eq, not_true_eq_false, not_false_eq_true, if_true, if_false]
      rfl
  · have hhang : s.hangsUp fd (.handle recvs writes) = true := by
      simpa [hangsUp, hev] using hhup
    rw [if_pos hhup, if_pos hhup, hhang]
    rfl

/-- What is handled for one connection is nothing that is done with another. -/
theorem actOn_handle_other {typeText : List UInt8} {events : Mask} {rest : List Report}
    (hev : s.events = .conn fd' events :: rest) (hne : fd ≠ fd')
    (recvs : List ReadState.Recv) (writes : List WriteResult) :
    s.actOn typeText fd (.handle recvs writes) = none := by
  simp [actOn, callOn, hev, hne.symm, accepts, hangsUp]

/-- Every step does with a connection what its phase allows. -/
theorem Orderly.inPhase_step (h : Orderly s) {typeText : List UInt8} {maxRequests : ℕ} {a : Label}
    (ha : s.step typeText maxRequests a = some t) (hok : OwnedOk maxRequests s a) {phase : Phase}
    (hphase : InPhase (s.place fd) phase) :
    ∃ phase', Machine.exec Phase.next phase (s.actOn typeText fd a).toList = some phase' ∧
      InPhase (t.place fd) phase' := by
  have hquiet : s.actOn typeText fd a = none → InPhase (t.place fd) phase →
      ∃ phase', Machine.exec Phase.next phase (s.actOn typeText fd a).toList = some phase' ∧
        InPhase (t.place fd) phase' := fun hnone hsame => ⟨phase, by rw [hnone]; rfl, hsame⟩
  have hact : ∀ {act : Act}, s.actOn typeText fd a = some act →
      (∃ phase', phase.next act = some phase' ∧ InPhase (t.place fd) phase') →
      ∃ phase', Machine.exec Phase.next phase (s.actOn typeText fd a).toList = some phase' ∧
        InPhase (t.place fd) phase' := by
    rintro act hsome ⟨phase', hnext, hphase'⟩
    refine ⟨phase', ?_, hphase'⟩
    rw [hsome]
    exact Machine.exec_cons_eq_some.mpr ⟨phase', hnext, rfl⟩
  cases a with
  | wait reports =>
    simp only [HttpServer.step, Option.ite_none_right_eq_some, Option.some.injEq] at ha
    obtain ⟨⟨-, hrep, -⟩, rfl⟩ := ha
    exact hquiet rfl (inPhase_wait hrep hphase)
  | accept connfd full =>
    simp only [HttpServer.step] at ha
    split at ha
    · rename_i rest hev
      have hplace : HttpServer.place { s with events := rest } fd = s.place fd := by
        rw [place, place, hev]
        rfl
      rw [← hplace] at hphase
      have hactOn : s.actOn typeText fd (.accept connfd full) =
          if accepts fd (.accept connfd full) then some .accepted else none := rfl
      obtain ⟨phase', hnext, hphase'⟩ := (h.sound.skip_listen hev).exec_accept ha hphase
      refine ⟨phase', ?_, hphase'⟩
      rw [hactOn]
      exact hnext
    · cases ha
  | handle recvs writes =>
    obtain ⟨fd', events, rest, hev, -, rfl⟩ := step_handle ha
    have hhandled : Handled (.conn fd' events) := h.events _ (by simp [hev])
    have hhand := h.sound.pop hev
    by_cases heq : fd = fd'
    · subst heq
      have hmem : .conn fd events ∈ s.events := by simp [hev]
      refine hact (actOn_handle hev hhandled recvs writes)
        (hhand.inPhase_handleEvent hhandled (hphase.awaited_of_mem h.sound hmem) ?_)
      exact fun hhup hin hread => hok ⟨fd, events, rest, hev, hhup, hin, hread⟩
    · refine hquiet (actOn_handle_other hev heq recvs writes) ?_
      rw [hhand.place_handleEvent heq]
      have hplace : HttpServer.place { s with events := rest } fd = s.place fd := by
        simp [place, hev, Report.maskOf, Ne.symm heq]
      rw [hplace]
      exact hphase
  | take w => exact hquiet rfl (h.sound.inPhase_take ha hphase)
  | overrun w left => exact hok.elim
  | process w fs =>
    obtain ⟨-, ha⟩ := step_process ha
    by_cases hw : s.workers[w]? = some (.processing fd)
    · exact hact (by rw [actOn, callOn, if_pos hw]) (h.sound.inPhase_process hw ha hphase)
    · refine hquiet (by rw [actOn, callOn, if_neg hw]; rfl) ?_
      rw [h.sound.place_process hw ha]
      exact hphase
  | leave w =>
    refine hquiet rfl ?_
    rw [h.sound.place_leave ha]
    exact hphase

/-- Nothing is called on the slot of a descriptor that is not given out. -/
theorem untouched_step (hs : Orderly s) {typeText : List UInt8} {maxRequests : ℕ} {a : Label}
    (ha : s.step typeText maxRequests a = some t) (hok : OwnedOk maxRequests s a)
    (hclosed : InPhase (s.place fd) .closed) (hnot : accepts fd a = false) :
    InPhase (t.place fd) .closed ∧ t.slotApart fd = s.slotApart fd := by
  obtain ⟨phase, hnext, hphase⟩ := hs.inPhase_step ha hok hclosed
  cases hcall : s.callOn fd a with
  | some call =>
    rw [actOn, hcall] at hnext
    cases call <;> cases hnext
  | none =>
    have hslot : t.slotApart fd = s.slotApart fd := by
      rw [slotApart_step ha hok.contained, hcall]
      rfl
    rw [actOn, hcall, hnot] at hnext
    cases hhang : s.hangsUp fd a with
    | true =>
      rw [hhang] at hnext
      cases hnext
    | false =>
      rw [hhang] at hnext
      obtain rfl : Phase.closed = phase := Option.some.inj hnext
      exact ⟨hphase, hslot⟩

end Places

/-- What is done with the connection `fd` along a run. -/
def actsOn (typeText : List UInt8) (maxRequests fd : ℕ) (s : HttpServer) (as : List Label) :
    List Act :=
  Machine.project (step typeText maxRequests) (actOn typeText fd) s as

/-- In every run in which no request is refused, no descriptor is given out while a worker is still
in `process` of its last connection and no parser stores outside `m_read_buf`, what the threads do
with a connection is a path through the phases, and the phase says where the connection is. So it is
only read after it was armed for reading, parsed once after each time it was read, and written once
a response was composed. -/
theorem session_conforms (typeText : List UInt8) (maxRequests threadNum fd : ℕ) (as : List Label)
    {s : HttpServer}
    (hexec : Machine.exec (step typeText maxRequests) (start threadNum) as = some s)
    (hok : Machine.Along (step typeText maxRequests) (OwnedOk maxRequests) (start threadNum) as) :
    ∃ phase, Machine.exec Phase.next .closed
        (actsOn typeText maxRequests fd (start threadNum) as) = some phase ∧
      (s.opened fd = true ↔ phase ≠ .closed) ∧
      (s.armed fd ≠ .none → phase = .awaiting (s.armed fd)) ∧
      (∀ m, .conn fd m ∈ s.events →
        (phase = .request ∧ m &&& EPOLLOUT = 0) ∨ (phase = .response ∧ m &&& EPOLLIN = 0)) ∧
      (fd ∈ s.workqueue ∨ .processing fd ∈ s.workers → phase = .worker) := by
  have hstart : Orderly (start threadNum) ∧ InPhase ((start threadNum).place fd) .closed :=
    ⟨orderly_start threadNum, rfl⟩
  obtain ⟨phase, hphase, horderly, hin⟩ :=
    Machine.simulate_exec (R := fun s phase => Orderly s ∧ InPhase (s.place fd) phase)
      (fun s a t phase hs hok ha => by
        obtain ⟨phase', hnext, hphase'⟩ := hs.1.inPhase_step ha hok hs.2
        exact ⟨phase', hnext, hs.1.step ha hok, hphase'⟩)
      hstart hok hexec
  have hsound := horderly.sound
  refine ⟨phase, hphase, ?_, fun harmed => ?_, fun m => hin.awaited_of_mem hsound, fun hmem => ?_⟩
  · cases phase with
    | closed => exact ⟨fun h => absurd (hin.symm.trans h) Bool.noConfusion, fun h => absurd rfl h⟩
    | request | worker | response => exact ⟨fun _ => Phase.noConfusion, fun _ => hin.1⟩
  · apply hin.awaiting_of_armed _ harmed
    have hone : (s.ledger fd).armed = 1 := armCount_of_ne harmed
    exact (hsound fd).opened_of_pos (by omega)
  · apply hin.worker_of_pos hsound
    rcases hmem with hqueued | hprocessing
    · exact Nat.add_pos_left (List.count_pos_iff.mpr hqueued) _
    · exact Nat.add_pos_right _ (List.count_pos_iff.mpr hprocessing)

/-! ## A run of two clients -/

instance (s : HttpServer) (recvs : List ReadState.Recv) : Decidable (s.Requests recvs) :=
  match h : s.events with
  | .conn fd events :: rest =>
    decidable_of_iff (events &&& (EPOLLRDHUP ||| EPOLLHUP ||| EPOLLERR) = 0 ∧
        events &&& EPOLLIN ≠ 0 ∧ ((s.users fd).read recvs).1 = true)
      ⟨fun hready => ⟨fd, events, rest, h, hready⟩, fun ⟨fd', events', rest', h', hready⟩ => by
        rw [h, List.cons.injEq, Report.conn.injEq] at h'
        obtain ⟨⟨rfl, rfl⟩, -⟩ := h'
        exact hready⟩
  | .listen :: rest => .isFalse fun ⟨_, _, _, h', _⟩ => by
      rw [h, List.cons.injEq] at h'
      exact Report.noConfusion h'.1
  | [] => .isFalse fun ⟨_, _, _, h', _⟩ => by
      rw [h] at h'
      exact absurd h' (List.cons_ne_nil _ _).symm

instance (maxRequests : ℕ) (s : HttpServer) : DecidablePred (OwnedOk maxRequests s) := fun
  | .accept (some _) false => inferInstanceAs (Decidable (_ ∧ _))
  | .accept (some _) true | .accept none _ => .isTrue trivial
  | .handle _ _ => inferInstanceAs (Decidable (_ → _))
  | .overrun _ _ => .isFalse id
  | .wait _ | .take _ | .process _ _ | .leave _ => .isTrue trivial

/-- The request of 5 arrives in two pieces; 6 has sent part of one. -/
def twoClients : List Label :=
  [.wait [.listen], .accept (some 5) false, .wait [.listen], .accept (some 6) false,
    .wait [.conn 6 EPOLLIN, .conn 5 EPOLLIN], .handle [.data (ascii "GET ")] [],
    .handle [.data (ascii "GET /a HT")] [], .take 1, .take 0, .process 0 twoByteFiles,
    .wait [.conn 5 EPOLLIN],
    .handle [.data (ascii "TP/1.1\r\nConnection: keep-alive\r\n\r\n")] [], .take 0,
    .process 1 twoByteFiles, .process 0 twoByteFiles, .wait [.conn 6 EPOLLIN, .conn 5 EPOLLOUT]]

theorem session_conforms_twoClients :
    ∃ s phase, Machine.exec (step [] 1) (start 8) twoClients = some s ∧
      Machine.exec Phase.next .closed (actsOn [] 1 5 (start 8) twoClients) = some phase ∧
      phase ≠ .closed := by
  obtain ⟨s, hs, hopen⟩ : ∃ s, Machine.exec (step [] 1) (start 8) twoClients = some s ∧
      s.opened 5 = true := by
    have hrun : (Machine.exec (step [] 1) (start 8) twoClients).map (fun s => s.opened 5) =
        some true := by decide +kernel
    exact Option.map_eq_some_iff.mp hrun
  have hok : Machine.Along (step [] 1) (OwnedOk 1) (start 8) twoClients := by decide +kernel
  obtain ⟨phase, hphase, hopened, -⟩ := session_conforms [] 1 8 5 twoClients hs hok
  exact ⟨s, phase, hs, hphase, hopened.mp hopen⟩

end HttpServer
end Webservers
