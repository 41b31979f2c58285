import Webservers.TcpConnection.InterestTheorems

/-!
# The user's callbacks

A user sees a connection through `connectionCallback_` and `messageCallback_`: it comes up,
messages arrive, it goes down. `Phase` is that protocol as an automaton over the callbacks of a
connection. `connectionEstablished` reports "up" and `handleClose` reports "down", but
`connnectionDestroyed` reports nothing, and after a hang-up one report of the poller can still
reach `handleRead`.

A report is handled only while the channel is registered, as `EpollPoller.registration_coherent`
says of the channels that a poll returns.
-/

namespace Webservers
namespace TcpConnection

/-- A callback as the user sees it: `connectionCallback_` asks `connected()`, which
`connectionEstablished` has just made true and `handleClose` false. -/
inductive UserCallback where
  | up
  | message
  | down
deriving Repr, DecidableEq

/-- How far the user has seen a connection. -/
inductive Phase where
  | fresh
  | live
  | gone
deriving Repr, DecidableEq

/-- Up once, then messages, then down once. -/
def Phase.next : Phase → UserCallback → Option Phase
  | .fresh, .up => some .live
  | .live, .message => some .live
  | .live, .down => some .gone
  | _, _ => none

/-- The phase a trace leads to, `none` when it breaks the protocol. -/
def phase (trace : List UserCallback) : Option Phase := trace.foldlM Phase.next .fresh

/-- The user's callbacks among the effects of a function in which `connectionCallback_` reports
`report`. -/
def callbacks (report : UserCallback) (effects : List Effect) : List UserCallback :=
  effects.filterMap fun
    | .connectionCallback => some report
    | .messageCallback => some .message
    | _ => none

structure LifeState where
  conn : TcpConnection
  trace : List UserCallback
  /-- `connnectionDestroyed` has finished -/
  destroyed : Bool
deriving Repr, DecidableEq

/-- A step of the loop thread on a connection. -/
inductive LifeStep where
  | connectionEstablished
  /-- `Channel::handlelEvent` with what the system calls of the handlers return -/
  | handleEvent (revents : Mask) (r : ReadvResult) (w : WriteResult)
  | send (message : List UInt8) (r : WriteResult)
  | sendInLoop (message : List UInt8) (r : WriteResult)
  | shutdown
  | shutdownInLoop
  | connnectionDestroyed
deriving Repr, DecidableEq

/-- A connection as `newConnection` constructs it. -/
def born (writeComplete highWater : Bool) (highWaterMark : ℕ) : LifeState where
  conn := new writeComplete highWater highWaterMark
  trace := []
  destroyed := false

/-- `p` is what a function did that reports `report`. -/
def LifeState.after (s : LifeState) (report : UserCallback) (p : TcpConnection × List Effect) :
    LifeState :=
  { s with conn := p.1, trace := s.trace ++ callbacks report p.2 }

/-- `connectionEstablished` is the first functor a connection's loop runs for it, and it is run
once. -/
def lifeStep (s : LifeState) : LifeStep → Option LifeState
  | .connectionEstablished =>
    if s.conn.state = .kConnecting then some (s.after .up s.conn.connectionEstablished) else none
  | .handleEvent revents r w =>
    if s.conn.state ≠ .kConnecting ∧ s.conn.channel.index = .kAdded then
      some (s.after .down (s.conn.handleEvent revents r w))
    else none
  | .send message r =>
    if s.conn.state ≠ .kConnecting then some (s.after .down (s.conn.send message r)) else none
  | .sendInLoop message r =>
    if s.conn.state ≠ .kConnecting then some (s.after .down (s.conn.sendInLoop message r))
    else none
  | .shutdown =>
    if s.conn.state ≠ .kConnecting then some (s.after .down s.conn.shutdown) else none
  | .shutdownInLoop =>
    if s.conn.state ≠ .kConnecting then some (s.after .down s.conn.shutdownInLoop) else none
  | .connnectionDestroyed =>
    if s.conn.state ≠ .kConnecting then
      some { s.after .down s.conn.connnectionDestroyed with destroyed := true }
    else none

/-- The callbacks so far follow the protocol, and once `connnectionDestroyed` has finished the
user has been told. -/
structure Protocol (s : LifeState) : Prop where
  followed : (phase s.trace).isSome
  told : s.destroyed = true → phase s.trace = some .gone

/-- `readFd` returns a number of bytes: `readv` did not fail, and the buffer could hold them. -/
def Reads (c : TcpConnection) (r : ReadvResult) : Prop :=
  ∃ n, (c.inputBuffer.readFd r).2 = .count n

/-- A report that hangs up does not read as well, and `connnectionDestroyed` comes after
`handleClose`. -/
def LifeStepOk (s : LifeState) : LifeStep → Prop
  | .handleEvent revents r _ => ¬ (Hup revents ∧ Readable revents ∧ Reads s.conn r)
  | .connnectionDestroyed => s.conn.state = .kDisconnected
  | _ => True

/-! ## The callbacks of each function -/

theorem callbacks_append (report : UserCallback) (e e' : List Effect) :
    callbacks report (e ++ e') = callbacks report e ++ callbacks report e' :=
  List.filterMap_append

theorem callbacks_output {report : UserCallback} {effects : List Effect}
    (h : ∀ e ∈ effects, Output e ∨ e = .shutdownWrite) : callbacks report effects = [] := by
  apply List.filterMap_eq_nil_iff.mpr
  intro e he
  rcases h e he with hout | rfl
  · cases e <;> first | rfl | exact absurd hout id
  · rfl

theorem callbacks_sendInLoop (report : UserCallback) (c : TcpConnection) (message : List UInt8)
    (r : WriteResult) : callbacks report (c.sendInLoop message r).2 = [] :=
  callbacks_output fun e he => .inl (output_sendInLoop c message r e he)

theorem callbacks_handleWrite (report : UserCallback) (c : TcpConnection) (r : WriteResult) :
    callbacks report (c.handleWrite r).2 = [] :=
  callbacks_output (output_handleWrite c r)

theorem callbacks_shutdownInLoop (report : UserCallback) (c : TcpConnection) :
    callbacks report c.shutdownInLoop.2 = [] := by
  unfold shutdownInLoop
  simp only
  split <;> rfl

theorem callbacks_connnectionDestroyed (report : UserCallback) (c : TcpConnection) :
    callbacks report c.connnectionDestroyed.2 = [] := by
  simp [connnectionDestroyed, StateE.toInt, callbacks]

/-- What `handleRead` tells the user. -/
def readCallbacks (c : TcpConnection) (r : ReadvResult) : List UserCallback :=
  match (c.inputBuffer.readFd r).2 with
  | .count 0 => [.down]
  | .count _ => [.message]
  | _ => []

theorem callbacks_handleRead (c : TcpConnection) (r : ReadvResult) :
    callbacks .down (c.handleRead r).2 = readCallbacks c r := by
  unfold handleRead readCallbacks
  simp only
  split <;> simp_all [callbacks, handleClose]

/-- What a report tells the user: the hang-up first, then what is read. -/
theorem callbacks_handleEvent (c : TcpConnection) (revents : Mask) (r : ReadvResult)
    (w : WriteResult) :
    callbacks .down (c.handleEvent revents r w).2 =
      (if Hup revents then [.down] else []) ++
        if Readable revents then readCallbacks c r else [] := by
  have hread : ∀ p : TcpConnection × List Effect, p.1.inputBuffer = c.inputBuffer →
      callbacks .down (andThen p (handleRead · r)).2 =
        callbacks .down p.2 ++ readCallbacks c r := by
    intro p hp
    rw [andThen, callbacks_append, callbacks_handleRead]
    simp only [readCallbacks, hp]
  have hbefore : callbacks .down (c.beforeWrite revents r).2 =
      (if Hup revents then [.down] else []) ++
        if Readable revents then readCallbacks c r else [] := by
    unfold beforeWrite
    by_cases hr : Readable revents
    · simp only [if_pos hr]
      rw [hread _ (by split <;> rfl)]
      split <;> rfl
    · simp only [if_neg hr, List.append_nil]
      split <;> rfl
  rw [handleEvent_eq]
  split
  · rw [andThen, callbacks_append, callbacks_handleWrite, List.append_nil, hbefore]
  · exact hbefore

/-! ## The state after each function -/

/-- A report that closes nothing leaves the state alone. -/
theorem handleEvent_state (c : TcpConnection) {revents : Mask} {r : ReadvResult}
    (w : WriteResult) (hopen : ¬ (Hup revents ∨ Readable revents ∧ r = .got [])) :
    (c.handleEvent revents r w).1.state = c.state := by
  obtain ⟨hhup, hread⟩ := not_or.mp hopen
  have hbefore : (c.beforeWrite revents r).1.state = c.state := by
    unfold beforeWrite
    simp only [if_neg hhup]
    split
    · rename_i hr
      exact (handleRead_other c fun heof => hread ⟨hr, heof⟩).1
    · rfl
  rw [handleEvent_eq]
  split
  · exact (handleWrite_state _ w).trans hbefore
  · exact hbefore

theorem shut_connnectionDestroyed (c : TcpConnection) : Shut c.connnectionDestroyed.1 where
  state := rfl
  events := by
    show (Channel.update { c.channel with events := Channel.kNoneEvent }).events = _
    rw [Channel.update_events]
  index := by
    show Index.kNew ≠ .kAdded
    decide

theorem reads_eof (c : TcpConnection) : Reads c (.got []) :=
  ⟨0, (readFd_zero_iff c.inputBuffer _).mpr rfl⟩

theorem readCallbacks_of_not_reads {c : TcpConnection} {r : ReadvResult} (h : ¬ Reads c r) :
    readCallbacks c r = [] := by
  unfold readCallbacks
  split
  · rename_i hcount
    exact absurd ⟨0, hcount⟩ h
  · rename_i n _ hcount
    exact absurd ⟨n, hcount⟩ h
  · rfl

/-- What is read after the hang-up breaks the protocol, whatever it is. -/
theorem readCallbacks_of_reads {c : TcpConnection} {r : ReadvResult} (h : Reads c r) :
    readCallbacks c r = [.down] ∨ readCallbacks c r = [.message] := by
  obtain ⟨n, hn⟩ := h
  unfold readCallbacks
  rw [hn]
  cases n with
  | zero => exact .inl rfl
  | succ n => exact .inr rfl

theorem readCallbacks_eof (c : TcpConnection) : readCallbacks c (.got []) = [.down] := by
  have hzero := (readFd_zero_iff c.inputBuffer (.got [])).mpr rfl
  simp only [readCallbacks, hzero]

/-- What is read before the end of the stream is a message, or nothing. -/
theorem readCallbacks_other (c : TcpConnection) {r : ReadvResult} (h : r ≠ .got []) :
    readCallbacks c r = [] ∨ readCallbacks c r = [.message] := by
  unfold readCallbacks
  split
  · rename_i hzero
    exact absurd ((readFd_zero_iff c.inputBuffer r).mp hzero) h
  · exact .inr rfl
  · exact .inl rfl

/-! ## Whole lives -/

theorem phase_append (trace cs : List UserCallback) :
    phase (trace ++ cs) = (phase trace).bind fun p => cs.foldlM Phase.next p :=
  List.foldlM_append

/-- Where a connection stands while its user has been told the truth. -/
inductive Standing (s : LifeState) : Prop
  | fresh (hstate : s.conn.state = .kConnecting) (htrace : s.trace = [])
      (hdestroyed : s.destroyed = false)
  | live (hconnecting : s.conn.state ≠ .kConnecting) (hstate : s.conn.state ≠ .kDisconnected)
      (hphase : phase s.trace = some .live) (hdestroyed : s.destroyed = false)
  | gone (hshut : Shut s.conn) (hphase : phase s.trace = some .gone)

theorem Standing.protocol {s : LifeState} (h : Standing s) : Protocol s := by
  cases h with
  | fresh _ htrace hdestroyed =>
    exact ⟨by simp [htrace, phase], fun hd => by rw [hdestroyed] at hd; cases hd⟩
  | live _ _ hphase hdestroyed =>
    exact ⟨by simp [hphase], fun hd => by rw [hdestroyed] at hd; cases hd⟩
  | gone _ hphase => exact ⟨by simp [hphase], fun _ => hphase⟩

/-- A function that tells the user nothing and keeps the state. -/
theorem Standing.quiet {s : LifeState} {p : TcpConnection × List Effect} (h : Standing s)
    (hconnecting : s.conn.state ≠ .kConnecting) (hnone : callbacks .down p.2 = [])
    (hlive : s.conn.state ≠ .kDisconnected →
      p.1.state ≠ .kConnecting ∧ p.1.state ≠ .kDisconnected)
    (hgone : Shut s.conn → Shut p.1) : Standing (s.after .down p) := by
  have htrace : (s.after .down p).trace = s.trace := by
    show s.trace ++ callbacks .down p.2 = s.trace
    rw [hnone, List.append_nil]
  cases h with
  | fresh hstate _ _ => exact absurd hstate hconnecting
  | live _ hstate hphase hdestroyed =>
    obtain ⟨hc, hd⟩ := hlive hstate
    exact .live hc hd (by rw [htrace, hphase]) hdestroyed
  | gone hshut hphase => exact .gone (hgone hshut) (by rw [htrace, hphase])

/-- The callbacks that a report of the poller makes on a live connection. -/
theorem Standing.handleEvent {s : LifeState} (h : Standing s)
    (hconnecting : s.conn.state ≠ .kConnecting) (hadded : s.conn.channel.index = .kAdded)
    {revents : Mask} {r : ReadvResult} (w : WriteResult)
    (hok : ¬ (Hup revents ∧ Readable revents ∧ Reads s.conn r)) :
    Standing (s.after .down (s.conn.handleEvent revents r w)) := by
  have hcallbacks := callbacks_handleEvent s.conn revents r w
  cases h with
  | fresh hstate _ _ => exact absurd hstate hconnecting
  | gone hshut _ => exact absurd hadded hshut.index
  | live _ hstate hphase hdestroyed =>
    have hphase' : phase (s.after .down (s.conn.handleEvent revents r w)).trace =
        List.foldlM Phase.next .live ((if Hup revents then [.down] else []) ++
          if Readable revents then readCallbacks s.conn r else []) := by
      rw [← hcallbacks, LifeState.after, phase_append, hphase, Option.bind_some]
    by_cases hclose : Hup revents ∨ Readable revents ∧ r = .got []
    · -- the connection goes down, once
      have honce : ¬ (Hup revents ∧ Readable revents ∧ r = .got []) := by
        rintro ⟨hhup, hread, rfl⟩
        exact hok ⟨hhup, hread, reads_eof s.conn⟩
      refine .gone (shut_handleEvent hadded w hclose honce) ?_
      rw [hphase']
      by_cases hhup : Hup revents
      · have hnone : (if Readable revents then readCallbacks s.conn r else []) = [] := by
          split
          · rename_i hread
            exact readCallbacks_of_not_reads fun hreads => hok ⟨hhup, hread, hreads⟩
          · rfl
        rw [if_pos hhup, hnone]
        rfl
      · obtain ⟨hread, rfl⟩ := hclose.resolve_left hhup
        rw [if_neg hhup, if_pos hread, readCallbacks_eof]
        rfl
    · -- at most a message
      have hstate' := handleEvent_state s.conn w hclose
      refine .live (by rw [← hstate'] at hconnecting; exact hconnecting)
        (by rw [← hstate'] at hstate; exact hstate) ?_ hdestroyed
      rw [hphase', if_neg fun hhup => hclose (.inl hhup)]
      split
      · rename_i hread
        obtain hnone | hmsg := readCallbacks_other s.conn fun heof => hclose (.inr ⟨hread, heof⟩)
        · rw [hnone]
          rfl
        · rw [hmsg]
          rfl
      · rfl

theorem Standing.sendInLoop {s : LifeState} (h : Standing s)
    (hconnecting : s.conn.state ≠ .kConnecting) (message : List UInt8) (r : WriteResult) :
    Standing (s.after .down (s.conn.sendInLoop message r)) := by
  have hstate := sendInLoop_state s.conn message r
  refine h.quiet hconnecting (callbacks_sendInLoop _ _ _ _) ?_ ?_
  · rw [hstate]
    exact fun hd => ⟨hconnecting, hd⟩
  · intro hshut
    rw [sendInLoop_disconnected hshut.state]
    exact hshut

theorem Standing.step {s t : LifeState} (h : Standing s) {a : LifeStep}
    (ha : lifeStep s a = some t) (hok : LifeStepOk s a) : Standing t := by
  cases a with
  | connectionEstablished =>
    simp only [lifeStep, Option.ite_none_right_eq_some, Option.some.injEq] at ha
    obtain ⟨hconnecting, rfl⟩ := ha
    cases h with
    | fresh _ htrace hdestroyed =>
      refine .live (by simp [LifeState.after, connectionEstablished, setState])
        (by simp [LifeState.after, connectionEstablished, setState]) ?_ hdestroyed
      rw [LifeState.after, htrace]
      rfl
    | live hne _ _ _ => exact absurd hconnecting hne
    | gone hshut _ =>
      rw [hshut.state] at hconnecting
      cases hconnecting
  | handleEvent revents r w =>
    simp only [lifeStep, Option.ite_none_right_eq_some, Option.some.injEq] at ha
    obtain ⟨⟨hconnecting, hadded⟩, rfl⟩ := ha
    exact h.handleEvent hconnecting hadded w hok
  | sendInLoop message r =>
    simp only [lifeStep, Option.ite_none_right_eq_some, Option.some.injEq] at ha
    obtain ⟨hconnecting, rfl⟩ := ha
    exact h.sendInLoop hconnecting message r
  | send message r =>
    simp only [lifeStep, Option.ite_none_right_eq_some, Option.some.injEq] at ha
    obtain ⟨hconnecting, rfl⟩ := ha
    by_cases hconnected : s.conn.state = .kConnected
    · rw [send, if_pos hconnected]
      exact h.sendInLoop hconnecting message r
    · rw [send, if_neg hconnected]
      exact h.quiet hconnecting rfl (fun hd => ⟨hconnecting, hd⟩) id
  | shutdownInLoop =>
    simp only [lifeStep, Option.ite_none_right_eq_some, Option.some.injEq] at ha
    obtain ⟨hconnecting, rfl⟩ := ha
    exact h.quiet hconnecting (callbacks_shutdownInLoop _ _) (fun hd => ⟨hconnecting, hd⟩) id
  | shutdown =>
    simp only [lifeStep, Option.ite_none_right_eq_some, Option.some.injEq] at ha
    obtain ⟨hconnecting, rfl⟩ := ha
    by_cases hconnected : s.conn.state = .kConnected
    · rw [shutdown, if_pos hconnected]
      refine h.quiet hconnecting (callbacks_shutdownInLoop _ _) ?_ ?_
      · exact fun _ => ⟨by simp [shutdownInLoop, setState], by simp [shutdownInLoop, setState]⟩
      · intro hshut
        rw [hshut.state] at hconnected
        cases hconnected
    · rw [shutdown, if_neg hconnected]
      exact h.quiet hconnecting rfl (fun hd => ⟨hconnecting, hd⟩) id
  | connnectionDestroyed =>
    simp only [lifeStep, Option.ite_none_right_eq_some, Option.some.injEq] at ha
    obtain ⟨hconnecting, rfl⟩ := ha
    cases h with
    | fresh hstate _ _ => exact absurd hstate hconnecting
    | live _ hstate _ _ => exact absurd hok hstate
    | gone _ hphase =>
      refine .gone (shut_connnectionDestroyed s.conn) ?_
      show phase (s.trace ++ callbacks .down s.conn.connnectionDestroyed.2) = _
      rw [callbacks_connnectionDestroyed, List.append_nil, hphase]

/-- The steps that break the protocol, from a state in which it was followed. -/
theorem Standing.stepOk {s t : LifeState} (h : Standing s) {a : LifeStep}
    (ha : lifeStep s a = some t) (ht : Protocol t) : LifeStepOk s a := by
  cases a with
  | handleEvent revents r w =>
    simp only [lifeStep, Option.ite_none_right_eq_some, Option.some.injEq] at ha
    obtain ⟨⟨hconnecting, hadded⟩, rfl⟩ := ha
    rintro ⟨hhup, hread, hreads⟩
    have hcallbacks := callbacks_handleEvent s.conn revents r w
    rw [if_pos hhup, if_pos hread] at hcallbacks
    cases h with
    | fresh hstate _ _ => exact hconnecting hstate
    | gone hshut _ => exact hshut.index hadded
    | live _ _ hphase _ =>
      -- "down" is followed by a message or by a second "down"
      have hfollowed := ht.followed
      rw [LifeState.after, hcallbacks, phase_append, hphase, Option.bind_some] at hfollowed
      obtain hdown | hmsg := readCallbacks_of_reads hreads
      · rw [hdown] at hfollowed
        cases hfollowed
      · rw [hmsg] at hfollowed
        cases hfollowed
  | connnectionDestroyed =>
    simp only [lifeStep, Option.ite_none_right_eq_some, Option.some.injEq] at ha
    obtain ⟨hconnecting, rfl⟩ := ha
    cases h with
    | fresh hstate _ _ => exact absurd hstate hconnecting
    | gone hshut _ => exact hshut.state
    | live _ _ hphase _ =>
      -- the user still takes the connection to be up
      have htold := ht.told rfl
      simp only [LifeState.after, callbacks_connnectionDestroyed, List.append_nil, hphase] at htold
      cases htold
  | connectionEstablished | send | sendInLoop | shutdown | shutdownInLoop => trivial

/-- Along every run of a connection's loop thread the user's callbacks follow the protocol
exactly when no report both hangs up and reads, and `connnectionDestroyed` runs only after
`handleClose`. -/
theorem callback_protocol_iff (writeComplete highWater : Bool) (highWaterMark : ℕ)
    (as : List LifeStep) :
    Machine.Always lifeStep Protocol (born writeComplete highWater highWaterMark) as ↔
      Machine.Along lifeStep LifeStepOk (born writeComplete highWater highWaterMark) as := by
  apply Machine.always_iff_along (K := Standing)
  · exact fun s hs => hs.protocol
  · exact fun s a t hs ha hok => hs.step ha hok
  · exact fun s a t hs ha ht => hs.stepOk ha ht
  · exact .fresh rfl rfl rfl

/-- The destructor of the server destroys a connection that is up: its user is never told. -/
theorem destroyed_without_down :
    ¬ Machine.Always lifeStep Protocol (born true true defaultHighWaterMark)
      [.connectionEstablished, .connnectionDestroyed] := by
  intro h
  have hlast : (Machine.exec lifeStep (born true true defaultHighWaterMark)
      [.connectionEstablished, .connnectionDestroyed]).map (fun s => (s.destroyed, s.trace)) =
        some (true, [.up]) := by
    decide +kernel
  obtain ⟨s, hs, hpair⟩ := Option.map_eq_some_iff.mp hlast
  rw [Prod.mk.injEq] at hpair
  have htold := (h.last hs).told hpair.1
  rw [hpair.2] at htold
  cases htold

end TcpConnection
end Webservers
