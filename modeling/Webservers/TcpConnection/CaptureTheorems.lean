import Webservers.Lib.CString
import Webservers.TcpConnection.Interleaving

/-!
# What a queued `send` has captured

`send(buf)` on a thread other than the loop's binds `buf.c_str()` and `buf.size()` into a functor.
The functor holds an address, not the bytes: what `sendInLoop` is given is read from the caller's
memory when the loop thread runs it, after `send` has returned.

* `SendingConn` adds the memory of the threads to `SharedConn`. A thread stores into its own memory,
  which stands for whatever it does to its strings, whenever it is not inside a call.
* `CopyingConn` is the machine as it should be: a functor holds the content of the string.
* `send_fixed` says when the two agree.
-/

namespace Webservers
namespace TcpConnection

/-- The argument of a call of `send`: where the string is, and what it holds at the call. -/
structure Passed where
  addr : ℕ
  content : List UInt8
deriving Repr, DecidableEq

/-- What the functor of a message refers to. -/
structure Capture (τ : Type*) where
  /-- the thread that called `send`, `none` before any did -/
  owner : Option τ
  string : Passed

/-- A call of `sendInLoop`: the content of the string at the call of `send`, and the bytes. -/
structure Handed where
  content : List UInt8
  given : List UInt8
deriving Repr, DecidableEq

/-- The memories are those of the threads, `none` for the loop thread. -/
structure SendingConn (τ : Type*) where
  shared : SharedConn τ
  memory : Option τ → ℕ → UInt8
  /-- the string of the call that each thread is in -/
  passed : Option τ → Passed
  /-- for each message that was queued -/
  captured : ℕ → Capture τ
  sent : List Handed

inductive SendLabel (τ : Type*) where
  /-- a thread writes to its memory -/
  | store (th : Option τ) (addr : ℕ) (bytes : List UInt8)
  /-- `send` on another thread, with the string at `addr` -/
  | send (th : τ) (addr : ℕ) (content : List UInt8)
  /-- `send` on the loop thread -/
  | ownSend (addr : ℕ) (content : List UInt8)
  | advance (th : τ)
  | proceed (r : WriteResult)
  | runFunctor (r : WriteResult)
  /-- a step that has to do with no string -/
  | other (a : ThreadStep τ)
deriving Repr, DecidableEq

/-- Not a step of `send` or of its functor. -/
def ThreadStep.plain {τ : Type*} : ThreadStep τ → Bool
  | .shutdown _ => true
  | .own (.send _) | .own (.runFunctor _ _) => false
  | .own _ => true
  | .send _ _ | .advance _ | .proceed _ => false

def SendLabel.isStore {τ : Type*} : SendLabel τ → Bool
  | .store _ _ _ => true
  | _ => false

namespace SendingConn

variable {τ : Type*} [DecidableEq τ]

def start (conn : TcpConnection) (memory : Option τ → ℕ → UInt8) : SendingConn τ where
  shared := .start conn
  memory := memory
  passed := fun _ => ⟨0, []⟩
  captured := fun _ => ⟨none, ⟨0, []⟩⟩
  sent := []

/-- The thread is inside a call of `send` or `shutdown`. -/
def busy (s : SendingConn τ) : Option τ → Bool
  | none => s.shared.pc ≠ .idle
  | some th => s.shared.calls th ≠ .idle

def step (s : SendingConn τ) : SendLabel τ → Option (SendingConn τ)
  | .store th addr bytes =>
    if s.busy th then none
    else some { s with
      memory := Function.update s.memory th (storeBytes (s.memory th) addr bytes) }
  | .send th addr content =>
    if slice (s.memory (some th)) addr content.length = content then
      (s.shared.step (.send th content.length)).map fun c =>
        { s with shared := c, passed := Function.update s.passed (some th) ⟨addr, content⟩ }
    else none
  | .ownSend addr content =>
    if slice (s.memory none) addr content.length = content then
      (s.shared.step (.own (.send content))).map fun c =>
        { s with shared := c, passed := Function.update s.passed none ⟨addr, content⟩ }
    else none
  | .advance th =>
    (s.shared.step (.advance th)).map fun c =>
      { s with
        shared := c
        captured := match s.shared.calls th with
          -- `std::bind(&TcpConnection::sendInLoop, this, buf.c_str(), buf.size())`
          | .sendLoaded _ =>
            Function.update s.captured s.shared.nextId ⟨some th, s.passed (some th)⟩
          | _ => s.captured }
  | .proceed r =>
    match s.shared.pc with
    | .sendCalled message =>
      let found := slice (s.memory none) (s.passed none).addr message.length
      (SharedConn.proceed { s.shared with pc := .sendCalled found } r).map fun c =>
        { s with shared := c, sent := s.sent ++ [⟨(s.passed none).content, found⟩] }
    | _ => (s.shared.proceed r).map fun c => { s with shared := c }
  | .runFunctor r =>
    match s.shared.queue.next with
    | some (.sendInLoop id len, _) =>
      let capture := s.captured id
      let found := slice (s.memory capture.owner) capture.string.addr len
      (s.shared.step (.own (.runFunctor found r))).map fun c =>
        { s with shared := c, sent := s.sent ++ [⟨capture.string.content, found⟩] }
    | _ => (s.shared.step (.own (.runFunctor [] r))).map fun c => { s with shared := c }
  | .other a =>
    if a.plain then (s.shared.step a).map fun c => { s with shared := c } else none

/-! ## What is to hold -/

/-- Every call of `sendInLoop` has been given the content of the string at the call of `send`. -/
def Faithful (s : SendingConn τ) : Prop := ∀ h ∈ s.sent, h.given = h.content

/-- A functor of `send` is run only while its string is still what it was. -/
def Intact (s : SendingConn τ) : SendLabel τ → Prop
  | .runFunctor _ => ∀ id len q, s.shared.queue.next = some (.sendInLoop id len, q) →
      slice (s.memory (s.captured id).owner) (s.captured id).string.addr len =
        (s.captured id).string.content
  | _ => True

/-- A thread leaves the bytes of its strings alone for which a functor is still to be run. -/
def Spares (s : SendingConn τ) : SendLabel τ → Prop
  | .store th addr bytes => ∀ id len, .sendInLoop id len ∈ s.shared.queue.all →
      (s.captured id).owner = th →
        slice (storeBytes (s.memory th) addr bytes) (s.captured id).string.addr len =
          slice (s.memory th) (s.captured id).string.addr len
  | _ => True

end SendingConn

/-! ## The machine that copies -/

structure CopyingConn (τ : Type*) where
  shared : SharedConn τ
  passed : τ → List UInt8
  captured : ℕ → List UInt8
  sent : List (List UInt8)

namespace CopyingConn

variable {τ : Type*} [DecidableEq τ]

def step (s : CopyingConn τ) : SendLabel τ → Option (CopyingConn τ)
  | .store _ _ _ => some s
  | .send th _ content =>
    (s.shared.step (.send th content.length)).map fun c =>
      { s with shared := c, passed := Function.update s.passed th content }
  | .ownSend _ content =>
    (s.shared.step (.own (.send content))).map fun c => { s with shared := c }
  | .advance th =>
    (s.shared.step (.advance th)).map fun c =>
      { s with
        shared := c
        captured := match s.shared.calls th with
          | .sendLoaded _ => Function.update s.captured s.shared.nextId (s.passed th)
          | _ => s.captured }
  | .proceed r =>
    match s.shared.pc with
    | .sendCalled message =>
      (s.shared.proceed r).map fun c => { s with shared := c, sent := s.sent ++ [message] }
    | _ => (s.shared.proceed r).map fun c => { s with shared := c }
  | .runFunctor r =>
    match s.shared.queue.next with
    | some (.sendInLoop id _, _) =>
      (s.shared.step (.own (.runFunctor (s.captured id) r))).map fun c =>
        { s with shared := c, sent := s.sent ++ [s.captured id] }
    | _ => (s.shared.step (.own (.runFunctor [] r))).map fun c => { s with shared := c }
  | .other a =>
    if a.plain then (s.shared.step a).map fun c => { s with shared := c } else none

end CopyingConn

/-! ## What the steps of the connection keep -/

namespace SharedConn

variable {τ : Type*} {s t : SharedConn τ}

/-- The end of a function of the loop thread changes the connection only. -/
structure SameCalls (s t : SharedConn τ) : Prop where
  calls : t.calls = s.calls
  nextId : t.nextId = s.nextId
  queue : ∀ f ∈ t.queue.all, f ∈ s.queue.all

theorem proceed_same {r : WriteResult} (h : s.proceed r = some t) :
    SameCalls s t ∧ t.pc = .idle := by
  unfold proceed at h
  split at h
  · cases h
  · have heq := (Option.some.inj h).symm
    subst heq
    exact ⟨⟨rfl, rfl, fun _ => id⟩, rfl⟩
  · have heq := (Option.some.inj h).symm
    subst heq
    exact ⟨⟨rfl, rfl, fun _ => id⟩, rfl⟩
  · have heq := (Option.some.inj h).symm
    subst heq
    exact ⟨⟨rfl, rfl, fun _ => id⟩, rfl⟩

theorem runFunctor_same {found : List UInt8} {r : WriteResult}
    (h : s.ownCall (.runFunctor found r) = some t) :
    SameCalls s t ∧ t.pc = .idle := by
  obtain ⟨⟨f, q⟩, hq, hrun⟩ := Option.bind_eq_some_iff.mp h
  have hqueue : ∀ g ∈ q.all, g ∈ s.queue.all := by
    intro g hg
    rw [TaskQueue.all_next hq]
    exact List.mem_cons_of_mem f hg
  cases f with
  | sendInLoop id len =>
    simp only [runTask, Option.ite_none_right_eq_some, Option.some.injEq] at hrun
    obtain ⟨-, rfl⟩ := hrun
    exact ⟨⟨rfl, rfl, hqueue⟩, rfl⟩
  | shutdownInLoop scope =>
    cases hrun
    exact ⟨⟨rfl, rfl, hqueue⟩, rfl⟩

theorem ownStep_eq {a : OwnStep} (h : s.ownStep a = some t) :
    s.pc = .idle ∧ s.ownCall a = some t := by
  simp only [ownStep, Option.ite_none_right_eq_some] at h
  exact ⟨h.1.1, h.2⟩

theorem ownStep_same {a : OwnStep} (h : s.ownStep a = some t) : SameCalls s t := by
  obtain ⟨-, h⟩ := ownStep_eq h
  cases a with
  | runFunctor found r => exact (runFunctor_same h).1
  | swap =>
    obtain ⟨q, hq, rfl⟩ := Option.map_eq_some_iff.mp h
    refine ⟨rfl, rfl, fun f hf => ?_⟩
    rw [← TaskQueue.all_swap hq]
    exact hf
  | handleRead r =>
    simp only [ownCall] at h
    split at h
    · cases h
      exact ⟨rfl, rfl, fun _ => id⟩
    · cases h
      exact ⟨rfl, rfl, fun _ => id⟩
  | send message =>
    cases h
    split <;> exact ⟨rfl, rfl, fun _ => id⟩
  | shutdown =>
    cases h
    split <;> exact ⟨rfl, rfl, fun _ => id⟩
  | connectionEstablished | handleWrite | handleClose | connnectionDestroyed =>
    cases h
    exact ⟨rfl, rfl, fun _ => id⟩

/-- Only `send` brings the loop thread into `send`. -/
theorem ownStep_pc {a : OwnStep} (h : s.ownStep a = some t) (ha : ∀ message, a ≠ .send message)
    (message : List UInt8) : t.pc ≠ .sendCalled message := by
  obtain ⟨hpc, h⟩ := ownStep_eq h
  cases a with
  | runFunctor found r =>
    rw [(runFunctor_same h).2]
    exact OwnPc.noConfusion
  | swap =>
    obtain ⟨q, hq, rfl⟩ := Option.map_eq_some_iff.mp h
    rw [hpc]
    exact OwnPc.noConfusion
  | handleRead r =>
    simp only [ownCall] at h
    split at h
    · cases h
      exact OwnPc.noConfusion
    · cases h
      exact OwnPc.noConfusion
  | send message => exact absurd rfl (ha message)
  | shutdown =>
    cases h
    split
    · exact OwnPc.noConfusion
    · rw [hpc]
      exact OwnPc.noConfusion
  | connectionEstablished | handleWrite | handleClose | connnectionDestroyed =>
    cases h
    exact OwnPc.noConfusion

variable [DecidableEq τ]

theorem step_send {th : τ} {len : ℕ} (h : s.step (.send th len) = some t) :
    s.calls th = .idle ∧ (t = s ∨ t = s.setCall th (.sendLoaded len)) := by
  simp only [step, Option.ite_none_right_eq_some, Option.some.injEq] at h
  obtain ⟨hidle, rfl⟩ := h
  refine ⟨hidle, ?_⟩
  split
  · exact Or.inr rfl
  · exact Or.inl rfl

theorem step_shutdown {th : τ} (h : s.step (.shutdown th) = some t) :
    t = s ∨ t = s.setCall th (.shutdownLoaded s.returned) := by
  simp only [step, Option.ite_none_right_eq_some, Option.some.injEq] at h
  obtain ⟨-, rfl⟩ := h
  split
  · exact Or.inr rfl
  · exact Or.inl rfl

/-- A call that goes on to anything but the load of `send`. -/
theorem setCall_loaded {th th' : τ} {pc : CallerPc} {len : ℕ} (hpc : ∀ len, pc ≠ .sendLoaded len)
    (h : (s.setCall th pc).calls th' = .sendLoaded len) : s.calls th' = .sendLoaded len := by
  by_cases hth : th' = th
  · subst hth
    have hself : (s.setCall th' pc).calls th' = pc := Function.update_self ..
    rw [hself] at h
    exact absurd h (hpc len)
  · have hother : (s.setCall th pc).calls th' = s.calls th' := Function.update_of_ne hth _ _
    rw [hother] at h
    exact h

/-- Apart from the one that queues a message, the steps of a call queue no message. -/
theorem advance_cases {th : τ} (h : s.advance th = some t) :
    (∃ len, s.calls th = .sendLoaded len ∧
        t = { s.setCall th (.sendQueued s.nextId) with
          queue := s.queue.emplace (.sendInLoop s.nextId len)
          nextId := s.nextId + 1 }) ∨
      (∀ len, s.calls th ≠ .sendLoaded len) ∧ t.nextId = s.nextId ∧
        (∀ th' len, t.calls th' = .sendLoaded len → s.calls th' = .sendLoaded len) ∧
        ∀ id len, .sendInLoop id len ∈ t.queue.all → .sendInLoop id len ∈ s.queue.all := by
  unfold advance at h
  cases hcall : s.calls th with
  | idle =>
    rw [hcall] at h
    cases h
  | sendLoaded len =>
    rw [hcall] at h
    exact Or.inl ⟨len, rfl, (Option.some.inj h).symm⟩
  | sendQueued k =>
    rw [hcall] at h
    have heq := (Option.some.inj h).symm
    subst heq
    exact Or.inr ⟨fun _ => CallerPc.noConfusion, rfl,
      fun _ _ => setCall_loaded fun _ => CallerPc.noConfusion, fun _ _ => id⟩
  | shutdownLoaded scope =>
    rw [hcall] at h
    have heq := (Option.some.inj h).symm
    subst heq
    exact Or.inr ⟨fun _ => CallerPc.noConfusion, rfl,
      fun _ _ => setCall_loaded fun _ => CallerPc.noConfusion, fun _ _ => id⟩
  | shutdownStored scope =>
    rw [hcall] at h
    have heq := (Option.some.inj h).symm
    subst heq
    refine Or.inr ⟨fun _ => CallerPc.noConfusion, rfl,
      fun _ _ => setCall_loaded fun _ => CallerPc.noConfusion, fun id len hmem => ?_⟩
    change _ ∈ (s.queue.emplace (.shutdownInLoop scope)).all at hmem
    rw [TaskQueue.all_emplace, List.mem_append, List.mem_singleton] at hmem
    exact hmem.resolve_right Task.noConfusion
  | shutdownQueued =>
    rw [hcall] at h
    have heq := (Option.some.inj h).symm
    subst heq
    exact Or.inr ⟨fun _ => CallerPc.noConfusion, rfl,
      fun _ _ => setCall_loaded fun _ => CallerPc.noConfusion, fun _ _ => id⟩

theorem advance_pc {th : τ} (h : s.advance th = some t) : t.pc = s.pc := by
  unfold advance at h
  split at h
  · cases h
  all_goals
    have heq := (Option.some.inj h).symm
    subst heq
    rfl

end SharedConn

namespace SendingConn

variable {τ : Type*} [DecidableEq τ] {s t : SendingConn τ}

/-! ## What a step can do -/

theorem step_store {th : Option τ} {addr : ℕ} {bytes : List UInt8}
    (h : s.step (.store th addr bytes) = some t) :
    s.busy th = false ∧
      t = { s with
        memory := Function.update s.memory th (storeBytes (s.memory th) addr bytes) } := by
  simp only [step] at h
  split at h
  · cases h
  · rename_i hidle
    exact ⟨Bool.eq_false_iff.mpr hidle, (Option.some.inj h).symm⟩

theorem step_send {th : τ} {addr : ℕ} {content : List UInt8}
    (h : s.step (.send th addr content) = some t) :
    slice (s.memory (some th)) addr content.length = content ∧
      ∃ c, s.shared.step (.send th content.length) = some c ∧
        t = { s with
          shared := c
          passed := Function.update s.passed (some th) ⟨addr, content⟩ } := by
  simp only [step] at h
  split at h
  · rename_i hcontent
    obtain ⟨c, hc, heq⟩ := Option.map_eq_some_iff.mp h
    exact ⟨hcontent, c, hc, heq.symm⟩
  · cases h

theorem step_ownSend {addr : ℕ} {content : List UInt8}
    (h : s.step (.ownSend addr content) = some t) :
    slice (s.memory none) addr content.length = content ∧
      ∃ c, s.shared.ownStep (.send content) = some c ∧
        t = { s with shared := c, passed := Function.update s.passed none ⟨addr, content⟩ } := by
  simp only [step] at h
  split at h
  · rename_i hcontent
    obtain ⟨c, hc, heq⟩ := Option.map_eq_some_iff.mp h
    exact ⟨hcontent, c, hc, heq.symm⟩
  · cases h

theorem step_advance {th : τ} (h : s.step (.advance th) = some t) :
    ∃ c, s.shared.advance th = some c ∧
      t = { s with
        shared := c
        captured := match s.shared.calls th with
          | .sendLoaded _ =>
            Function.update s.captured s.shared.nextId ⟨some th, s.passed (some th)⟩
          | _ => s.captured } := by
  obtain ⟨c, hc, heq⟩ := Option.map_eq_some_iff.mp h
  exact ⟨c, hc, heq.symm⟩

theorem step_proceed {r : WriteResult} (h : s.step (.proceed r) = some t) :
    (∃ message c, s.shared.pc = .sendCalled message ∧
        SharedConn.proceed { s.shared with
          pc := .sendCalled (slice (s.memory none) (s.passed none).addr message.length) } r =
            some c ∧
        t = { s with
          shared := c
          sent := s.sent ++ [⟨(s.passed none).content,
            slice (s.memory none) (s.passed none).addr message.length⟩] }) ∨
      ∃ c, (∀ message, s.shared.pc ≠ .sendCalled message) ∧ s.shared.proceed r = some c ∧
        t = { s with shared := c } := by
  simp only [step] at h
  split at h
  · rename_i message hpc
    obtain ⟨c, hc, heq⟩ := Option.map_eq_some_iff.mp h
    exact Or.inl ⟨message, c, hpc, hc, heq.symm⟩
  · rename_i hpc
    obtain ⟨c, hc, heq⟩ := Option.map_eq_some_iff.mp h
    exact Or.inr ⟨c, hpc, hc, heq.symm⟩

theorem step_runFunctor {r : WriteResult} (h : s.step (.runFunctor r) = some t) :
    (∃ id len q c, s.shared.queue.next = some (.sendInLoop id len, q) ∧
        s.shared.ownStep (.runFunctor
          (slice (s.memory (s.captured id).owner) (s.captured id).string.addr len) r) = some c ∧
        t = { s with
          shared := c
          sent := s.sent ++ [⟨(s.captured id).string.content,
            slice (s.memory (s.captured id).owner) (s.captured id).string.addr len⟩] }) ∨
      ∃ c, (∀ id len q, s.shared.queue.next ≠ some (.sendInLoop id len, q)) ∧
        s.shared.ownStep (.runFunctor [] r) = some c ∧ t = { s with shared := c } := by
  simp only [step] at h
  split at h
  · rename_i id len q hnext
    obtain ⟨c, hc, heq⟩ := Option.map_eq_some_iff.mp h
    exact Or.inl ⟨id, len, q, c, hnext, hc, heq.symm⟩
  · rename_i hnext
    obtain ⟨c, hc, heq⟩ := Option.map_eq_some_iff.mp h
    exact Or.inr ⟨c, hnext, hc, heq.symm⟩

theorem step_other {a : ThreadStep τ} (h : s.step (.other a) = some t) :
    ∃ c, s.shared.step a = some c ∧ t = { s with shared := c } ∧
      ((∃ th, a = .shutdown th) ∨ ∃ b, a = .own b ∧ (∀ message, b ≠ .send message)) := by
  simp only [step, Option.ite_none_right_eq_some] at h
  obtain ⟨hplain, h⟩ := h
  obtain ⟨c, hc, heq⟩ := Option.map_eq_some_iff.mp h
  refine ⟨c, hc, heq.symm, ?_⟩
  cases a with
  | shutdown th => exact Or.inl ⟨th, rfl⟩
  | own b =>
    refine Or.inr ⟨b, rfl, ?_⟩
    rintro message rfl
    cases hplain
  | send th len => cases hplain
  | advance th => cases hplain
  | proceed r => cases hplain

/-! ## `send` on the loop thread -/

/-- While the loop thread is inside `send`, its string is what it was at the call. -/
def OwnHeld (s : SendingConn τ) : Prop :=
  ∀ message, s.shared.pc = .sendCalled message →
    (s.passed none).content = message ∧
      slice (s.memory none) (s.passed none).addr message.length = message

omit [DecidableEq τ] in
theorem ownHeld_of_pc (h : ∀ message, s.shared.pc ≠ .sendCalled message) : OwnHeld s :=
  fun message hpc => absurd hpc (h message)

omit [DecidableEq τ] in
theorem OwnHeld.of_same (h : OwnHeld s) (hpc : t.shared.pc = s.shared.pc)
    (hpassed : t.passed none = s.passed none) (hmemory : t.memory none = s.memory none) :
    OwnHeld t := by
  intro message hsend
  rw [hpassed, hmemory]
  exact h message (hpc.symm.trans hsend)

theorem ownHeld_step {a : SendLabel τ} (h : OwnHeld s) (hstep : s.step a = some t) :
    OwnHeld t := by
  cases a with
  | store th addr bytes =>
    obtain ⟨hidle, rfl⟩ := step_store hstep
    cases th with
    | none =>
      have hpc : s.shared.pc = .idle := by simpa [busy] using hidle
      apply ownHeld_of_pc
      show ∀ message, s.shared.pc ≠ .sendCalled message
      rw [hpc]
      exact fun _ => OwnPc.noConfusion
    | some th =>
      have hother : Function.update s.memory (some th) (storeBytes (s.memory (some th)) addr bytes)
          none = s.memory none := Function.update_of_ne (Option.some_ne_none th).symm _ _
      exact h.of_same rfl rfl hother
  | send th addr content =>
    obtain ⟨-, c, hc, rfl⟩ := step_send hstep
    have hpc : c.pc = s.shared.pc := by
      rcases (SharedConn.step_send hc).2 with rfl | rfl <;> rfl
    have hother : Function.update s.passed (some th) ⟨addr, content⟩ none = s.passed none :=
      Function.update_of_ne (Option.some_ne_none th).symm _ _
    exact h.of_same hpc hother rfl
  | ownSend addr content =>
    obtain ⟨hcontent, c, hc, rfl⟩ := step_ownSend hstep
    obtain ⟨hidle, hcall⟩ := SharedConn.ownStep_eq hc
    intro message hsend
    have hsame : content = message := by
      have heq := (Option.some.inj hcall).symm
      change c.pc = _ at hsend
      rw [heq] at hsend
      split at hsend
      · exact OwnPc.sendCalled.inj hsend
      · rw [hidle] at hsend
        cases hsend
    have hpassed : Function.update s.passed none ⟨addr, content⟩ none = ⟨addr, content⟩ :=
      Function.update_self ..
    simp only [hpassed, ← hsame]
    exact ⟨trivial, hcontent⟩
  | advance th =>
    obtain ⟨c, hc, rfl⟩ := step_advance hstep
    exact h.of_same (SharedConn.advance_pc hc) rfl rfl
  | proceed r =>
    apply ownHeld_of_pc
    rcases step_proceed hstep with ⟨message, c, -, hc, rfl⟩ | ⟨c, -, hc, rfl⟩
    · intro message'
      rw [(SharedConn.proceed_same hc).2]
      exact OwnPc.noConfusion
    · intro message'
      rw [(SharedConn.proceed_same hc).2]
      exact OwnPc.noConfusion
  | runFunctor r =>
    apply ownHeld_of_pc
    rcases step_runFunctor hstep with ⟨id, len, q, c, -, hc, rfl⟩ | ⟨c, -, hc, rfl⟩
    · exact SharedConn.ownStep_pc hc fun _ => OwnStep.noConfusion
    · exact SharedConn.ownStep_pc hc fun _ => OwnStep.noConfusion
  | other a =>
    obtain ⟨c, hc, rfl, ⟨th, rfl⟩ | ⟨b, rfl, hb⟩⟩ := step_other hstep
    · have hpc : c.pc = s.shared.pc := by
        rcases SharedConn.step_shutdown hc with rfl | rfl <;> rfl
      exact h.of_same hpc rfl rfl
    · exact ownHeld_of_pc (SharedConn.ownStep_pc hc hb)

/-! ## What is handed over -/

/-- A step hands over at most one string, and it is the right one exactly when it was intact. -/
theorem sent_step {a : SendLabel τ} (h : OwnHeld s) (hstep : s.step a = some t) :
    (t.sent = s.sent ∧ Intact s a) ∨
      ∃ handed, t.sent = s.sent ++ [handed] ∧ (handed.given = handed.content ↔ Intact s a) := by
  cases a with
  | store th addr bytes =>
    obtain ⟨-, rfl⟩ := step_store hstep
    exact Or.inl ⟨rfl, trivial⟩
  | send th addr content =>
    obtain ⟨-, c, -, rfl⟩ := step_send hstep
    exact Or.inl ⟨rfl, trivial⟩
  | ownSend addr content =>
    obtain ⟨-, c, -, rfl⟩ := step_ownSend hstep
    exact Or.inl ⟨rfl, trivial⟩
  | advance th =>
    obtain ⟨c, -, rfl⟩ := step_advance hstep
    exact Or.inl ⟨rfl, trivial⟩
  | proceed r =>
    rcases step_proceed hstep with ⟨message, c, hpc, -, rfl⟩ | ⟨c, -, -, rfl⟩
    · obtain ⟨hcontent, hheld⟩ := h message hpc
      refine Or.inr ⟨_, rfl, ?_⟩
      exact iff_of_true (hheld.trans hcontent.symm) trivial
    · exact Or.inl ⟨rfl, trivial⟩
  | runFunctor r =>
    rcases step_runFunctor hstep with ⟨id, len, q, c, hnext, -, rfl⟩ | ⟨c, hnext, -, rfl⟩
    · refine Or.inr ⟨_, rfl, ?_⟩
      constructor
      · intro heq id' len' q' hnext'
        rw [hnext] at hnext'
        cases hnext'
        exact heq
      · exact fun hintact => hintact id len q hnext
    · exact Or.inl ⟨rfl, fun id len q hsend => absurd hsend (hnext id len q)⟩
  | other a =>
    obtain ⟨c, -, rfl, -⟩ := step_other hstep
    exact Or.inl ⟨rfl, trivial⟩

theorem faithful_step {a : SendLabel τ} (h : OwnHeld s) (hstep : s.step a = some t) :
    Faithful t ↔ Faithful s ∧ Intact s a := by
  unfold Faithful
  rcases sent_step h hstep with ⟨hsent, hintact⟩ | ⟨handed, hsent, hiff⟩
  · rw [hsent]
    exact (and_iff_left hintact).symm
  · rw [hsent, List.forall_mem_append, List.forall_mem_singleton, hiff]

/-! ## The machine that copies, again -/

/-- What a connection is when its functors hold the content of their strings. -/
def copying (s : SendingConn τ) : CopyingConn τ where
  shared := s.shared
  passed := fun th => (s.passed (some th)).content
  captured := fun id => (s.captured id).string.content
  sent := s.sent.map Handed.given

/-- A step that keeps to the condition is one of the machine that copies. -/
theorem step_copying {a : SendLabel τ} (h : OwnHeld s) (hintact : Intact s a)
    (hstep : s.step a = some t) : CopyingConn.step s.copying a = some t.copying := by
  cases a with
  | store th addr bytes =>
    obtain ⟨-, rfl⟩ := step_store hstep
    rfl
  | send th addr content =>
    obtain ⟨-, c, hc, rfl⟩ := step_send hstep
    have hpassed : (fun th' => (Function.update s.passed (some th) ⟨addr, content⟩
        (some th')).content) =
          Function.update (fun th' => (s.passed (some th')).content) th content := by
      funext th'
      by_cases hth : th' = th
      · subst hth
        rw [Function.update_self, Function.update_self]
      · rw [Function.update_of_ne (fun habs => hth (Option.some.inj habs)),
          Function.update_of_ne hth]
    simp only [CopyingConn.step, copying, hc, Option.map_some, hpassed]
  | ownSend addr content =>
    obtain ⟨-, c, hc, rfl⟩ := step_ownSend hstep
    have hc' : s.shared.step (.own (.send content)) = some c := hc
    have hpassed : ∀ th : τ, Function.update s.passed none ⟨addr, content⟩ (some th) =
        s.passed (some th) := fun th => Function.update_of_ne (Option.some_ne_none th) _ _
    simp only [CopyingConn.step, copying, hc', Option.map_some, hpassed]
  | advance th =>
    obtain ⟨c, hc, rfl⟩ := step_advance hstep
    have hc' : s.shared.step (.advance th) = some c := hc
    have hcaptured : ∀ id, (fun id' => (Function.update s.captured id
        ⟨some th, s.passed (some th)⟩ id').string.content) =
          Function.update (fun id' => (s.captured id').string.content) id
            (s.passed (some th)).content := by
      intro id
      funext id'
      by_cases hid : id' = id
      · subst hid
        rw [Function.update_self, Function.update_self]
      · rw [Function.update_of_ne hid, Function.update_of_ne hid]
    cases hcall : s.shared.calls th with
    | sendLoaded len =>
      simp only [CopyingConn.step, copying, hc', Option.map_some, hcall, hcaptured]
    | idle | sendQueued | shutdownLoaded | shutdownStored | shutdownQueued =>
      simp only [CopyingConn.step, copying, hc', Option.map_some, hcall]
  | proceed r =>
    rcases step_proceed hstep with ⟨message, c, hpc, hc, rfl⟩ | ⟨c, hpc, hc, rfl⟩
    · obtain ⟨-, hheld⟩ := h message hpc
      have hsame : { s.shared with pc := .sendCalled message } = s.shared := by rw [← hpc]
      rw [hheld, hsame] at hc
      simp only [CopyingConn.step, copying, hpc, hc, Option.map_some, hheld, List.map_append,
        List.map_singleton]
    · simp only [CopyingConn.step, copying, hc, Option.map_some]
  | runFunctor r =>
    rcases step_runFunctor hstep with ⟨id, len, q, c, hnext, hc, rfl⟩ | ⟨c, hnext, hc, rfl⟩
    · rw [hintact id len q hnext] at hc
      have hc' : s.shared.step (.own (.runFunctor (s.captured id).string.content r)) = some c := hc
      simp only [CopyingConn.step, copying, hnext, hc', Option.map_some, hintact id len q hnext,
        List.map_append, List.map_singleton]
    · have hc' : s.shared.step (.own (.runFunctor [] r)) = some c := hc
      simp only [CopyingConn.step, copying, hc', Option.map_some]
  | other a =>
    simp only [step, Option.ite_none_right_eq_some] at hstep
    obtain ⟨hplain, hstep⟩ := hstep
    obtain ⟨c, hc, rfl⟩ := Option.map_eq_some_iff.mp hstep
    simp only [CopyingConn.step, copying, hplain, if_true, hc, Option.map_some]

theorem exec_copying {as : List (SendLabel τ)} (h : OwnHeld s)
    (halong : Machine.Along step Intact s as) (hexec : Machine.exec step s as = some t) :
    Machine.exec CopyingConn.step s.copying as = some t.copying := by
  induction as generalizing s with
  | nil =>
    rw [Machine.exec_nil, Option.some.injEq] at hexec ⊢
    rw [hexec]
  | cons a as ih =>
    obtain ⟨u, hu, hrest⟩ := Machine.exec_cons_eq_some.mp hexec
    obtain ⟨hintact, halong⟩ := halong u hu
    exact Machine.exec_cons_eq_some.mpr
      ⟨u.copying, step_copying h hintact hu, ih (ownHeld_step h hu) halong hrest⟩

/-! ## Strings that are left alone -/

/-- The strings of the functors that are still to be run, and of the calls that are about to queue
one, are what they were at the call. -/
structure Waiting (s : SendingConn τ) : Prop where
  fresh : ∀ id len, .sendInLoop id len ∈ s.shared.queue.all → id < s.shared.nextId
  queued : ∀ id len, .sendInLoop id len ∈ s.shared.queue.all →
    slice (s.memory (s.captured id).owner) (s.captured id).string.addr len =
      (s.captured id).string.content
  loaded : ∀ th len, s.shared.calls th = .sendLoaded len →
    slice (s.memory (some th)) (s.passed (some th)).addr len = (s.passed (some th)).content

omit [DecidableEq τ] in
theorem Waiting.intact (h : Waiting s) (a : SendLabel τ) : Intact s a := by
  cases a with
  | runFunctor r =>
    intro id len q hnext
    apply h.queued id len
    rw [TaskQueue.all_next hnext]
    exact List.mem_cons_self
  | store | send | ownSend | advance | proceed | other => trivial

omit [DecidableEq τ] in
/-- A step that queues no message and writes to no memory. -/
theorem Waiting.of_frame (h : Waiting s) (hmemory : t.memory = s.memory)
    (hcaptured : t.captured = s.captured) (hnextId : t.shared.nextId = s.shared.nextId)
    (hqueue : ∀ id len, .sendInLoop id len ∈ t.shared.queue.all →
      .sendInLoop id len ∈ s.shared.queue.all)
    (hloaded : ∀ th len, t.shared.calls th = .sendLoaded len →
      slice (s.memory (some th)) (t.passed (some th)).addr len = (t.passed (some th)).content) :
    Waiting t where
  fresh id len hmem := hnextId.symm ▸ h.fresh id len (hqueue id len hmem)
  queued id len hmem := by
    rw [hmemory, hcaptured]
    exact h.queued id len (hqueue id len hmem)
  loaded th len hcall := by
    rw [hmemory]
    exact hloaded th len hcall

omit [DecidableEq τ] in
/-- A step of the loop thread. -/
theorem Waiting.of_own (h : Waiting s) {c : SharedConn τ} (hsame : SharedConn.SameCalls s.shared c)
    (sent : List Handed) : Waiting { s with shared := c, sent := sent } :=
  h.of_frame rfl rfl hsame.nextId (fun id len => hsame.queue (.sendInLoop id len))
    fun th len hcall => h.loaded th len (hsame.calls ▸ hcall)

theorem waiting_advance {th : τ} (h : Waiting s) (hstep : s.step (.advance th) = some t) :
    Waiting t := by
  obtain ⟨c, hc, rfl⟩ := step_advance hstep
  rcases SharedConn.advance_cases hc with ⟨len, hcall, rfl⟩ | ⟨hcall, hnextId, hcalls, hqueue⟩
  · -- the string that the call was passed is now the one of the functor
    have hold : ∀ id, id < s.shared.nextId → Function.update s.captured s.shared.nextId
        ⟨some th, s.passed (some th)⟩ id = s.captured id :=
      fun id hid => Function.update_of_ne (Nat.ne_of_lt hid) _ _
    have hnew : Function.update s.captured s.shared.nextId ⟨some th, s.passed (some th)⟩
        s.shared.nextId = ⟨some th, s.passed (some th)⟩ := Function.update_self ..
    have hmem : ∀ id len', .sendInLoop id len' ∈
        (s.shared.queue.emplace (.sendInLoop s.shared.nextId len)).all →
          .sendInLoop id len' ∈ s.shared.queue.all ∨ id = s.shared.nextId ∧ len' = len := by
      intro id len' hmem
      rw [TaskQueue.all_emplace, List.mem_append, List.mem_singleton, Task.sendInLoop.injEq] at hmem
      exact hmem
    simp only [hcall]
    refine ⟨fun id len' hin => ?_, fun id len' hin => ?_, fun th' len' hin => ?_⟩
    · show id < s.shared.nextId + 1
      rcases hmem id len' hin with hin | ⟨rfl, -⟩
      · have hlt := h.fresh id len' hin
        omega
      · omega
    · rcases hmem id len' hin with hin | ⟨rfl, rfl⟩
      · show slice (s.memory (Function.update s.captured _ _ id).owner)
          (Function.update s.captured _ _ id).string.addr len' =
            (Function.update s.captured _ _ id).string.content
        rw [hold id (h.fresh id len' hin)]
        exact h.queued id len' hin
      · show slice (s.memory (Function.update s.captured _ _ s.shared.nextId).owner)
          (Function.update s.captured _ _ s.shared.nextId).string.addr len' =
            (Function.update s.captured _ _ s.shared.nextId).string.content
        rw [hnew]
        exact h.loaded th len' hcall
    · exact h.loaded th' len' (SharedConn.setCall_loaded (fun _ => CallerPc.noConfusion) hin)
  · have hcaptured : (match s.shared.calls th with
        | .sendLoaded _ =>
          Function.update s.captured s.shared.nextId ⟨some th, s.passed (some th)⟩
        | _ => s.captured) = s.captured := by
      split
      · rename_i len hloaded
        exact absurd hloaded (hcall len)
      · rfl
    exact h.of_frame rfl hcaptured hnextId hqueue
      fun th' len hin => h.loaded th' len (hcalls th' len hin)

theorem waiting_step {a : SendLabel τ} (h : Waiting s) (hspares : Spares s a)
    (hstep : s.step a = some t) : Waiting t := by
  cases a with
  | store th addr bytes =>
    obtain ⟨hidle, rfl⟩ := step_store hstep
    refine ⟨h.fresh, fun id len hmem => ?_, fun th' len hcall => ?_⟩
    · have hqueued := h.queued id len hmem
      show slice (Function.update s.memory th _ (s.captured id).owner) _ len = _
      by_cases howner : (s.captured id).owner = th
      · rw [howner] at hqueued ⊢
        rw [Function.update_self, hspares id len hmem howner]
        exact hqueued
      · rw [Function.update_of_ne howner]
        exact hqueued
    · -- a thread that is about to queue a message does not store
      have hne : some th' ≠ th := by
        rintro rfl
        have hcall' : s.shared.calls th' = .sendLoaded len := hcall
        simp [busy, hcall'] at hidle
      show slice (Function.update s.memory th _ (some th')) _ len = _
      rw [Function.update_of_ne hne]
      exact h.loaded th' len hcall
  | send th addr content =>
    obtain ⟨hcontent, c, hc, rfl⟩ := step_send hstep
    obtain ⟨hidle, hcases⟩ := SharedConn.step_send hc
    have hqueue : c.queue = s.shared.queue ∧ c.nextId = s.shared.nextId := by
      rcases hcases with rfl | rfl <;> exact ⟨rfl, rfl⟩
    refine h.of_frame rfl rfl hqueue.2 (fun id len hmem => hqueue.1 ▸ hmem) fun th' len hcall => ?_
    show slice _ (Function.update s.passed (some th) ⟨addr, content⟩ (some th')).addr len =
      (Function.update s.passed (some th) ⟨addr, content⟩ (some th')).content
    by_cases hth : th' = th
    · subst hth
      rw [Function.update_self]
      have hlen : content.length = len := by
        change c.calls th' = _ at hcall
        rcases hcases with rfl | rfl
        · rw [hidle] at hcall
          cases hcall
        · have hself : (s.shared.setCall th' (.sendLoaded content.length)).calls th' =
              .sendLoaded content.length := Function.update_self ..
          rw [hself] at hcall
          exact CallerPc.sendLoaded.inj hcall
      rw [← hlen]
      exact hcontent
    · have hother : c.calls th' = s.shared.calls th' := by
        rcases hcases with rfl | rfl
        · rfl
        · exact Function.update_of_ne hth _ _
      rw [Function.update_of_ne (fun habs => hth (Option.some.inj habs))]
      exact h.loaded th' len (hother.symm.trans hcall)
  | ownSend addr content =>
    obtain ⟨-, c, hc, rfl⟩ := step_ownSend hstep
    have hsame := SharedConn.ownStep_same hc
    refine h.of_frame rfl rfl hsame.nextId (fun id len => hsame.queue _) fun th len hcall => ?_
    have hother : Function.update s.passed none ⟨addr, content⟩ (some th) = s.passed (some th) :=
      Function.update_of_ne (Option.some_ne_none th) _ _
    simp only [hother]
    exact h.loaded th len (hsame.calls ▸ hcall)
  | advance th => exact waiting_advance h hstep
  | proceed r =>
    rcases step_proceed hstep with ⟨message, c, -, hc, rfl⟩ | ⟨c, -, hc, rfl⟩
    · have hsame := (SharedConn.proceed_same hc).1
      exact h.of_own ⟨hsame.calls, hsame.nextId, hsame.queue⟩ _
    · exact h.of_own (SharedConn.proceed_same hc).1 _
  | runFunctor r =>
    rcases step_runFunctor hstep with ⟨id, len, q, c, -, hc, rfl⟩ | ⟨c, -, hc, rfl⟩
    · exact h.of_own (SharedConn.ownStep_same hc) _
    · exact h.of_own (SharedConn.ownStep_same hc) _
  | other a =>
    obtain ⟨c, hc, rfl, ⟨th, rfl⟩ | ⟨b, rfl, -⟩⟩ := step_other hstep
    · rcases SharedConn.step_shutdown hc with rfl | rfl
      · exact h
      · exact h.of_frame rfl rfl rfl (fun _ _ => id) fun th' len hcall =>
          h.loaded th' len (SharedConn.setCall_loaded (fun _ => CallerPc.noConfusion) hcall)
    · exact h.of_own (SharedConn.ownStep_same hc) _

/-! ## Whole runs -/

section Runs

variable (conn : TcpConnection) (memory : Option τ → ℕ → UInt8)

omit [DecidableEq τ] in
theorem ownHeld_start : OwnHeld (start conn memory : SendingConn τ) :=
  ownHeld_of_pc fun _ => OwnPc.noConfusion

omit [DecidableEq τ] in
theorem waiting_start : Waiting (start conn memory : SendingConn τ) where
  fresh _ _ hmem := absurd hmem List.not_mem_nil
  queued _ _ hmem := absurd hmem List.not_mem_nil
  loaded _ _ hcall := CallerPc.noConfusion hcall

/-- Functors are run with their strings intact exactly when every string is handed over as it was
at the call. -/
theorem always_faithful_iff (as : List (SendLabel τ)) :
    Machine.Always step Faithful (start conn memory) as ↔
      Machine.Along step Intact (start conn memory) as := by
  apply Machine.always_iff_along (K := fun s => OwnHeld s ∧ Faithful s)
  · exact fun s hs => hs.2
  · intro s a t hs hstep hintact
    exact ⟨ownHeld_step hs.1 hstep, (faithful_step hs.1 hstep).mpr ⟨hs.2, hintact⟩⟩
  · intro s a t hs hstep hfaithful
    exact ((faithful_step hs.1 hstep).mp hfaithful).2
  · exact ⟨ownHeld_start conn memory, fun handed hmem => absurd hmem List.not_mem_nil⟩

/-- Strings that are left alone are intact when their functors are run. -/
theorem along_intact_of_spares {as : List (SendLabel τ)}
    (h : Machine.Along step Spares (start conn memory) as) :
    Machine.Along step Intact (start conn memory) as := by
  apply Machine.along_of_along (K := Waiting) _ _ (waiting_start conn memory) h
  · exact fun s a t hs _ _ => hs.intact a
  · exact fun s a t hs hstep hspares => waiting_step hs hspares hstep

/-- Two runs that differ only in what the threads do to their strings. -/
theorem given_eq_of_intact {as bs : List (SendLabel τ)} {s t : SendingConn τ}
    (hsame : as.filter (fun a => !a.isStore) = bs.filter (fun a => !a.isStore))
    (has : Machine.exec step (start conn memory) as = some s)
    (hbs : Machine.exec step (start conn memory) bs = some t)
    (hintact : Machine.Along step Intact (start conn memory) as)
    (hintact' : Machine.Along step Intact (start conn memory) bs) :
    s.sent.map Handed.given = t.sent.map Handed.given := by
  have hstores : ∀ (s : CopyingConn τ) (a : SendLabel τ), (!a.isStore) = false →
      CopyingConn.step s a = some s := by
    intro s a ha
    cases a with
    | store th addr bytes => rfl
    | send | ownSend | advance | proceed | runFunctor | other => cases ha
  have hheld := ownHeld_start conn memory
  have hcopying : some s.copying = some t.copying := by
    rw [← exec_copying hheld hintact has, ← exec_copying hheld hintact' hbs,
      ← Machine.exec_filter hstores, hsame, Machine.exec_filter hstores]
  exact congrArg CopyingConn.sent (Option.some.inj hcopying)

end Runs

/-- For every run of a connection and its callers in which no thread touches a string before the
functor of its `send` has been run: each `sendInLoop` is given the content that the string had at
the call, and two such runs that differ only in what the threads do to their strings hand over the
same bytes. The exact condition is weaker: a string may be changed as long as it is back as it was
when its functor is run. -/
theorem send_fixed (conn : TcpConnection) (memory : Option τ → ℕ → UInt8)
    (as : List (SendLabel τ)) :
    (Machine.Along step Spares (start conn memory) as →
        Machine.Always step Faithful (start conn memory) as ∧
          ∀ bs s t, as.filter (fun a => !a.isStore) = bs.filter (fun a => !a.isStore) →
            Machine.exec step (start conn memory) as = some s →
            Machine.exec step (start conn memory) bs = some t →
            Machine.Along step Spares (start conn memory) bs →
              s.sent.map Handed.given = t.sent.map Handed.given) ∧
      (Machine.Always step Faithful (start conn memory) as ↔
        Machine.Along step Intact (start conn memory) as) ∧
      ∀ bs s t, as.filter (fun a => !a.isStore) = bs.filter (fun a => !a.isStore) →
        Machine.exec step (start conn memory) as = some s →
        Machine.exec step (start conn memory) bs = some t →
        Machine.Along step Intact (start conn memory) as →
        Machine.Along step Intact (start conn memory) bs →
          s.sent.map Handed.given = t.sent.map Handed.given := by
  refine ⟨fun hspares => ?_, always_faithful_iff conn memory as, ?_⟩
  · have hintact := along_intact_of_spares conn memory hspares
    refine ⟨(always_faithful_iff conn memory as).mpr hintact, ?_⟩
    intro bs s t hsame has hbs hspares'
    exact given_eq_of_intact conn memory hsame has hbs hintact
      (along_intact_of_spares conn memory hspares')
  · intro bs s t hsame has hbs hintact hintact'
    exact given_eq_of_intact conn memory hsame has hbs hintact hintact'

/-- A caller writes `hi` into a string, sends it and, once `send` has returned, does `later`; then
the loop thread runs the functor. -/
def sendHi (later : List (SendLabel Unit)) : List (SendLabel Unit) :=
  [.other (.own .connectionEstablished), .store (some ()) 0 (ascii "hi"),
    .send () 0 (ascii "hi"), .advance (), .advance ()] ++ later ++
  [.other (.own .swap), .runFunctor (.wrote 2)]

/-- The caller reuses the string before the functor is run: the other bytes are given to
`sendInLoop`, and the run that does not reuse it gives the right ones. -/
theorem reused_string_sent :
    let reuse := sendHi [.store (some ()) 0 (ascii "no")]
    let run := fun as => Machine.exec step (start (.new false false 0) fun _ _ => 0) as
    (run reuse).map sent = some [⟨ascii "hi", ascii "no"⟩] ∧
      (run (sendHi [])).map sent = some [⟨ascii "hi", ascii "hi"⟩] ∧
      reuse.filter (fun a => !a.isStore) = (sendHi []).filter (fun a => !a.isStore) ∧
      ¬ Machine.Always step Faithful (start (.new false false 0) fun _ _ => 0) reuse := by
  have hrun : (Machine.exec step (start (.new false false 0) fun _ _ => 0)
      (sendHi [.store (some ()) 0 (ascii "no")])).map sent =
        some [⟨ascii "hi", ascii "no"⟩] := by
    decide +kernel
  refine ⟨hrun, by decide +kernel, by decide +kernel, fun halways => ?_⟩
  obtain ⟨s, hs, hsent⟩ := Option.map_eq_some_iff.mp hrun
  have hmem : ⟨ascii "hi", ascii "no"⟩ ∈ s.sent := by
    rw [hsent]
    exact List.mem_cons_self
  have hfaithful := halways.last hs _ hmem
  revert hfaithful
  decide +kernel

end SendingConn

end TcpConnection
end Webservers
