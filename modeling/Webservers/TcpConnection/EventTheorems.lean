import Webservers.TcpConnection.Basic

/-!
# Which functions close a connection

`closeCallback_` is run by `handleClose` and by `connnectionDestroyed`; sending, flushing and
shutting down never run it. One report of the poller can reach `handleClose` twice, through the
test of `EPOLLHUP` and through a `readv` that finds the end of the stream. `count_handleEvent`
says how often it does, and `shut_handleEvent` how it leaves the connection.
-/

namespace Webservers
namespace TcpConnection

/-- As `handleClose` leaves a connection: no event is waited for, and the channel is not in the
`epoll` set. -/
structure Shut (c : TcpConnection) : Prop where
  state : c.state = .kDisconnected
  events : c.channel.events = Channel.kNoneEvent
  index : c.channel.index ≠ .kAdded

/-! ## Functions that do not close -/

/-- What sending and flushing do outside the connection, the end of the stream apart. -/
def Output : Effect → Prop
  | .write _ | .queueWriteComplete | .queueHighWaterMark _ => True
  | _ => False

theorem output_directWrite (c : TcpConnection) (message : List UInt8) (r : WriteResult) :
    ∀ e ∈ (c.directWrite message r).effects, Output e := by
  cases r with
  | failed e => exact fun _ h => absurd h List.not_mem_nil
  | wrote n =>
    unfold directWrite
    simp only
    split <;> simp [Output]

theorem output_sendInLoop (c : TcpConnection) (message : List UInt8) (r : WriteResult) :
    ∀ e ∈ (c.sendInLoop message r).2, Output e := by
  have hdirect := output_directWrite c message r
  unfold sendInLoop
  by_cases hstate : c.state = .kDisconnected
  · rw [if_pos hstate]
    exact fun _ h => absurd h List.not_mem_nil
  · rw [if_neg hstate]
    simp only
    -- the effects so far are those of the direct write, or none
    generalize hd : (if ¬ c.channel.isWriting ∧ c.outputBuffer.readableBytes = 0 then
      c.directWrite message r else ⟨0, message.length, false, []⟩ : Direct) = d
    have heffects : ∀ e ∈ d.effects, Output e := by
      rw [← hd]
      split
      · exact hdirect
      · exact fun _ h => absurd h List.not_mem_nil
    have hmark : ∀ len, ∀ e ∈ d.effects ++ [.queueHighWaterMark len], Output e := by
      intro len e he
      rcases List.mem_append.mp he with he | he
      · exact heffects e he
      · rw [List.mem_singleton.mp he]
        trivial
    split
    · split
      · split <;> exact hmark _
      · exact heffects
    · exact heffects

theorem closeCallback_sendInLoop (c : TcpConnection) (message : List UInt8) (r : WriteResult) :
    Effect.closeCallback ∉ (c.sendInLoop message r).2 :=
  fun h => output_sendInLoop c message r _ h

theorem closeCallback_send (c : TcpConnection) (message : List UInt8) (r : WriteResult) :
    Effect.closeCallback ∉ (c.send message r).2 := by
  unfold send
  split
  · exact closeCallback_sendInLoop c message r
  · exact List.not_mem_nil

theorem closeCallback_shutdownInLoop (c : TcpConnection) :
    Effect.closeCallback ∉ c.shutdownInLoop.2 := by
  unfold shutdownInLoop
  simp only
  split <;> simp

theorem closeCallback_shutdown (c : TcpConnection) : Effect.closeCallback ∉ c.shutdown.2 := by
  unfold shutdown
  split
  · exact closeCallback_shutdownInLoop _
  · exact List.not_mem_nil

theorem output_handleWrite (c : TcpConnection) (r : WriteResult) :
    ∀ e ∈ (c.handleWrite r).2, Output e ∨ e = .shutdownWrite := by
  unfold handleWrite
  split
  · cases r with
    | failed e => exact fun _ h => absurd h List.not_mem_nil
    | wrote n =>
      simp only
      split
      · split
        · -- flushed: the callback of the user, and perhaps the end of the stream
          split <;> split <;> simp [Output, shutdownInLoop]
        · simp [Output]
      · simp [Output]
  · exact fun _ h => absurd h List.not_mem_nil

theorem closeCallback_handleWrite (c : TcpConnection) (r : WriteResult) :
    Effect.closeCallback ∉ (c.handleWrite r).2 := by
  intro h
  rcases output_handleWrite c r _ h with hout | heq
  · exact hout
  · cases heq

theorem closeCallback_connectionEstablished (c : TcpConnection) :
    Effect.closeCallback ∉ c.connectionEstablished.2 := by
  simp [connectionEstablished]

theorem Shut.isWriting {c : TcpConnection} (h : Shut c) : c.channel.isWriting = false := by
  rw [Channel.isWriting, h.events]
  decide

/-! ## Functions that close -/

theorem shut_handleClose {c : TcpConnection} (h : c.channel.index = .kAdded) :
    Shut c.handleClose.1 where
  state := rfl
  events := by
    show (Channel.update { c.channel with events := Channel.kNoneEvent }).events = _
    rw [Channel.update_events]
  index := by
    show (Channel.update { c.channel with events := Channel.kNoneEvent }).index ≠ .kAdded
    rw [Channel.update_index, if_pos ⟨h, rfl⟩]
    decide

/-- `readFd` returns 0 exactly at the end of the stream. -/
theorem readFd_zero_iff (b : Buffer) (r : ReadvResult) :
    (b.readFd r).2 = .count 0 ↔ r = .got [] := by
  cases r with
  | failed e => simp [Buffer.readFd]
  | got data =>
    simp only [Buffer.readFd]
    split
    · simp
    · rename_i hlen
      -- more than fits is more than nothing
      have hne : data ≠ [] := by
        rintro rfl
        exact hlen (Nat.zero_le _)
      split <;> simp [hne]

theorem handleRead_eof (c : TcpConnection) :
    c.handleRead (.got []) =
      { c with inputBuffer := (c.inputBuffer.readFd (.got [])).1 }.handleClose := by
  have hres := (readFd_zero_iff c.inputBuffer (.got [])).mpr rfl
  rw [handleRead]
  generalize c.inputBuffer.readFd (.got []) = p at hres
  obtain ⟨b, res⟩ := p
  simp only at hres
  subst hres
  rfl

/-- Anything but the end of the stream changes the input buffer only. -/
theorem handleRead_other (c : TcpConnection) {r : ReadvResult} (h : r ≠ .got []) :
    (c.handleRead r).1.state = c.state ∧ (c.handleRead r).1.channel = c.channel ∧
      Effect.closeCallback ∉ (c.handleRead r).2 := by
  have hres := mt (readFd_zero_iff c.inputBuffer r).mp h
  rw [handleRead]
  generalize c.inputBuffer.readFd r = p at hres
  obtain ⟨b, res⟩ := p
  simp only at hres ⊢
  split
  · exact absurd rfl hres
  · exact ⟨rfl, rfl, by simp⟩
  · exact ⟨rfl, rfl, List.not_mem_nil⟩

/-! ## A report of the poller -/

/-- The report reaches `handleClose` through the test of `EPOLLHUP`. -/
abbrev Hup (revents : Mask) : Prop := revents &&& EPOLLHUP ≠ 0 ∧ revents &&& EPOLLIN = 0

/-- The report reaches `handleRead`. -/
abbrev Readable (revents : Mask) : Prop := revents &&& (EPOLLIN ||| EPOLLPRI) ≠ 0

/-- The connection after the first tests of `handleEventWithGuand`, before the one of
`EPOLLOUT`. -/
def beforeWrite (c : TcpConnection) (revents : Mask) (r : ReadvResult) :
    TcpConnection × List Effect :=
  let p := if Hup revents then c.handleClose else (c, [])
  if Readable revents then andThen p (handleRead · r) else p

theorem handleEvent_eq (c : TcpConnection) (revents : Mask) (r : ReadvResult) (w : WriteResult) :
    c.handleEvent revents r w =
      if revents &&& EPOLLOUT ≠ 0 then andThen (c.beforeWrite revents r) (handleWrite · w)
      else c.beforeWrite revents r := by
  -- the branch of `EPOLLERR` only logs
  have herror : ∀ p : TcpConnection × List Effect, andThen p handleError = p := by
    intro p
    rw [andThen, handleError, List.append_nil]
  unfold handleEvent
  simp only [herror, ite_self]
  rfl

theorem count_andThen (p : TcpConnection × List Effect)
    (f : TcpConnection → TcpConnection × List Effect) (e : Effect) :
    (andThen p f).2.count e = p.2.count e + (f p.1).2.count e := by
  rw [andThen, List.count_append]

theorem count_handleRead (c : TcpConnection) (r : ReadvResult) :
    (c.handleRead r).2.count .closeCallback = if r = .got [] then 1 else 0 := by
  by_cases heof : r = .got []
  · rw [if_pos heof, heof, handleRead_eof]
    rfl
  · rw [if_neg heof]
    exact List.count_eq_zero_of_not_mem (handleRead_other c heof).2.2

/-- How often a report closes the connection. -/
theorem count_handleEvent (c : TcpConnection) (revents : Mask) (r : ReadvResult)
    (w : WriteResult) :
    (c.handleEvent revents r w).2.count .closeCallback =
      (if Hup revents then 1 else 0) + if Readable revents ∧ r = .got [] then 1 else 0 := by
  have hbefore : (c.beforeWrite revents r).2.count .closeCallback =
      (if Hup revents then 1 else 0) + if Readable revents ∧ r = .got [] then 1 else 0 := by
    have hclose : (if Hup revents then c.handleClose else (c, [])).2.count .closeCallback =
        if Hup revents then 1 else 0 := by
      split <;> rfl
    unfold beforeWrite
    by_cases hread : Readable revents
    · have hiff : (Readable revents ∧ r = .got []) ↔ r = .got [] := and_iff_right hread
      simp only [if_pos hread, count_andThen, hclose, count_handleRead, hiff]
    · simp only [hclose, hread, false_and, if_false, Nat.add_zero]
  rw [handleEvent_eq]
  split
  · have hwrite := closeCallback_handleWrite (c.beforeWrite revents r).1 w
    rw [count_andThen, hbefore, List.count_eq_zero_of_not_mem hwrite, Nat.add_zero]
  · exact hbefore

/-- A report that closes a registered connection once leaves it shut. -/
theorem shut_handleEvent {c : TcpConnection} (h : c.channel.index = .kAdded) {revents : Mask}
    {r : ReadvResult} (w : WriteResult) (hclose : Hup revents ∨ Readable revents ∧ r = .got [])
    (honce : ¬ (Hup revents ∧ Readable revents ∧ r = .got [])) :
    Shut (c.handleEvent revents r w).1 := by
  have hbefore : Shut (c.beforeWrite revents r).1 := by
    unfold beforeWrite
    simp only
    by_cases hhup : Hup revents
    · have hshut := shut_handleClose h
      rw [if_pos hhup]
      split
      · rename_i hread
        have hdata : r ≠ .got [] := fun heof => honce ⟨hhup, hread, heof⟩
        obtain ⟨hstate, hchannel, -⟩ := handleRead_other c.handleClose.1 hdata
        show Shut (c.handleClose.1.handleRead r).1
        constructor
        · rw [hstate]
          exact hshut.state
        · rw [hchannel]
          exact hshut.events
        · rw [hchannel]
          exact hshut.index
      · exact hshut
    · obtain ⟨hread, heof⟩ := hclose.resolve_left hhup
      rw [if_neg hhup, if_pos hread]
      show Shut (c.handleRead r).1
      rw [heof, handleRead_eof]
      exact shut_handleClose h
  rw [handleEvent_eq]
  split
  · -- there is nothing to flush on a channel without events
    show Shut ((c.beforeWrite revents r).1.handleWrite w).1
    rw [handleWrite_notWriting hbefore.isWriting]
    exact hbefore
  · exact hbefore

end TcpConnection
end Webservers
