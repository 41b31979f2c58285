import Mathlib.Logic.Function.Basic
import Webservers.Lib.Machine
import Webservers.Channel
import Webservers.Sys

/-!
# `EpollPoller` (src/Poller.cc, src/EpollPoller.cc, src/Channel.h)

One poller and the channels that register with it. Three places hold a channel's registration:
its own mask and index, the map `channels_`, and the kernel's epoll set. The channels are an
arbitrary type `ι`, standing for the `Channel *`s, and `fd` gives the descriptor of each.

`Webservers.Channel` follows the members of one channel through the same functions;
`updateChannel_eq_place` and `removeChannel_eq_place` connect the two.
-/

namespace Webservers

/-- `struct epoll_event`: a mask and `data.ptr`. -/
structure EpollEvent (ι : Type*) where
  events : Mask
  ptr : ι
deriving Repr, DecidableEq

/-- What the kernel holds for an epoll instance: an event for each registered descriptor. -/
abbrev EpollSet (ι : Type*) := ℕ → Option (EpollEvent ι)

/-- `epoll_ctl` on an open descriptor: the set after it, `none` where it returns `-1`. -/
def epollCtl {ι : Type*} (set : EpollSet ι) (operation : EpollCtl) (fd : ℕ)
    (event : EpollEvent ι) : Option (EpollSet ι) :=
  match operation, set fd with
  | .EPOLL_CTL_ADD, none => some (Function.update set fd (some event))
  | .EPOLL_CTL_ADD, some _ => none
  | .EPOLL_CTL_MOD, some _ => some (Function.update set fd (some event))
  | .EPOLL_CTL_MOD, none => none
  | .EPOLL_CTL_DEL, some _ => some (Function.update set fd none)
  | .EPOLL_CTL_DEL, none => none

structure EpollPoller (ι : Type*) where
  /-- the channels' own `events_` and `index_` -/
  channel : ι → Channel
  /-- the channels' own `revents_` -/
  revents : ι → Mask
  /-- `channels_` -/
  channels : ℕ → Option ι
  /-- the set behind `epollfd_` -/
  epoll : EpollSet ι
  /-- `events_.size()` -/
  eventsSize : ℕ
  /-- `activeChannels_` of the loop that polls -/
  activeChannels : List ι
  /-- history: the `epoll_ctl` calls that returned `-1` -/
  failures : List (EpollCtl × ι)

/-- What `epoll_wait` returns: `-1` with `errno`, or the descriptors that are ready, each with
the mask it is ready for. At a timeout there are none. -/
inductive EpollWait where
  | failed (e : Errno)
  | ready (fds : List (ℕ × Mask))
deriving Repr, DecidableEq

namespace EpollPoller

variable {ι : Type*} [DecidableEq ι]

def kInitEventListSize : ℕ := 16

/-- No channel has been registered yet. -/
def new : EpollPoller ι where
  channel := fun _ => Channel.new
  revents := fun _ => 0
  channels := fun _ => none
  epoll := fun _ => none
  eventsSize := kInitEventListSize
  activeChannels := []
  failures := []

def setEvents (s : EpollPoller ι) (i : ι) (events : Mask) : EpollPoller ι :=
  { s with channel := Function.update s.channel i { s.channel i with events := events } }

def setIndex (s : EpollPoller ι) (i : ι) (index : Index) : EpollPoller ι :=
  { s with channel := Function.update s.channel i { s.channel i with index := index } }

/-- `EpollPoller::update`. A failed call is logged and otherwise ignored. -/
def update (fd : ι → ℕ) (s : EpollPoller ι) (operation : EpollCtl) (i : ι) : EpollPoller ι :=
  let event : EpollEvent ι := { events := (s.channel i).events, ptr := i }
  match epollCtl s.epoll operation (fd i) event with
  | some set => { s with epoll := set }
  | none => { s with failures := (operation, i) :: s.failures }

def updateChannel (fd : ι → ℕ) (s : EpollPoller ι) (i : ι) : EpollPoller ι :=
  let index := (s.channel i).index
  if index = .kNew ∨ index = .kDeleted then
    let s :=
      if index = .kNew then { s with channels := Function.update s.channels (fd i) (some i) }
      else s
    (s.setIndex i .kAdded).update fd .EPOLL_CTL_ADD i
  else
    if (s.channel i).isNoneEvent then (s.update fd .EPOLL_CTL_DEL i).setIndex i .kDeleted
    else s.update fd .EPOLL_CTL_MOD i

def removeChannel (fd : ι → ℕ) (s : EpollPoller ι) (i : ι) : EpollPoller ι :=
  let index := (s.channel i).index
  let s := { s with channels := Function.update s.channels (fd i) none }
  let s := if index = .kAdded then s.update fd .EPOLL_CTL_DEL i else s
  s.setIndex i .kNew

/-- `Poller::hasChannel`. -/
def hasChannel (fd : ι → ℕ) (s : EpollPoller ι) (i : ι) : Bool :=
  match s.channels (fd i) with
  | some j => j == i
  | none => false

/-! ## The operations of a channel -/

inductive Op where
  | enableReading
  | disableReading
  | enableWriting
  | disableWriting
  | disableAll
  | remove
deriving Repr, DecidableEq

/-- `Channel::enableReading` to `Channel::remove` of the channel `i`: the first five store a new
mask and go through `EventLoop::updateChannel`. -/
def apply (fd : ι → ℕ) (s : EpollPoller ι) (i : ι) : Op → EpollPoller ι
  | .enableReading =>
    (s.setEvents i ((s.channel i).events ||| Channel.kReadEvent)).updateChannel fd i
  | .disableReading =>
    (s.setEvents i ((s.channel i).events &&& ~~~Channel.kReadEvent)).updateChannel fd i
  | .enableWriting =>
    (s.setEvents i ((s.channel i).events ||| Channel.kWriteEvent)).updateChannel fd i
  | .disableWriting =>
    (s.setEvents i ((s.channel i).events &&& ~~~Channel.kWriteEvent)).updateChannel fd i
  | .disableAll => (s.setEvents i Channel.kNoneEvent).updateChannel fd i
  | .remove => s.removeChannel fd i

/-! ## Polling -/

/-- The events `epoll_wait` stores for descriptors of the set, `none` if one of them is not
registered: the kernel reports `data.ptr` as it was registered. -/
def reported (set : EpollSet ι) : List (ℕ × Mask) → Option (List (EpollEvent ι))
  | [] => some []
  | (fd, revents) :: fds => do
    let event ← set fd
    let events ← reported set fds
    return { event with events := revents } :: events

def fillActiveChannel (s : EpollPoller ι) : List (EpollEvent ι) → EpollPoller ι
  | [] => s
  | event :: events =>
    fillActiveChannel
      { s with
        revents := Function.update s.revents event.ptr event.events
        activeChannels := s.activeChannels ++ [event.ptr] } events

/-- `EpollPoller::poll` on an `activeChannels_` just cleared. The kernel stores at most
`events_.size()` events. -/
def poll (s : EpollPoller ι) (answer : EpollWait) : Option (EpollPoller ι) :=
  let s := { s with activeChannels := [] }
  match answer with
  | .failed _ => some s
  | .ready fds =>
    if fds.length ≤ s.eventsSize then
      (reported s.epoll fds).map fun events =>
        if 0 < events.length then
          let s := s.fillActiveChannel events
          if events.length = s.eventsSize then { s with eventsSize := s.eventsSize * 2 } else s
        else s
    else none

/-- A step of the loop's thread: an operation on a channel, or a poll. -/
inductive Label (ι : Type*) where
  | op (i : ι) (op : Op)
  | poll (answer : EpollWait)
deriving Repr, DecidableEq

def step (fd : ι → ℕ) (s : EpollPoller ι) : Label ι → Option (EpollPoller ι)
  | .op i op => some (s.apply fd i op)
  | .poll answer => s.poll answer

/-! ## One operation -/

variable {fd : ι → ℕ} {s t : EpollPoller ι} {i : ι}

omit [DecidableEq ι] in
theorem update_add (h : s.epoll (fd i) = none) :
    s.update fd .EPOLL_CTL_ADD i =
      { s with epoll := Function.update s.epoll (fd i) (some ⟨(s.channel i).events, i⟩) } := by
  simp only [update, epollCtl, h]

omit [DecidableEq ι] in
theorem update_mod (h : (s.epoll (fd i)).isSome) :
    s.update fd .EPOLL_CTL_MOD i =
      { s with epoll := Function.update s.epoll (fd i) (some ⟨(s.channel i).events, i⟩) } := by
  obtain ⟨event, hevent⟩ := Option.isSome_iff_exists.mp h
  simp only [update, epollCtl, hevent]

omit [DecidableEq ι] in
theorem update_del (h : (s.epoll (fd i)).isSome) :
    s.update fd .EPOLL_CTL_DEL i = { s with epoll := Function.update s.epoll (fd i) none } := by
  obtain ⟨event, hevent⟩ := Option.isSome_iff_exists.mp h
  simp only [update, epollCtl, hevent]

/-- What `channels_` holds for a channel with these members. -/
def known (c : Channel) (i : ι) : Option ι := if c.index = .kNew then none else some i

/-- What the epoll set holds for a channel with these members. -/
def event (c : Channel) (i : ι) : Option (EpollEvent ι) :=
  if c.index = .kAdded then some ⟨c.events, i⟩ else none

/-- `s` with the members of the channel `i` replaced and the other two places following. -/
def place (fd : ι → ℕ) (s : EpollPoller ι) (i : ι) (c : Channel) : EpollPoller ι :=
  { s with
    channel := Function.update s.channel i c
    channels := Function.update s.channels (fd i) (known c i)
    epoll := Function.update s.epoll (fd i) (event c i) }

/-- What `updateChannel` relies on: `channels_` holds the channel once it is not new, and its
descriptor is in the epoll set exactly while the index says so. The registered mask may be
older than the channel's. -/
structure Placed (fd : ι → ℕ) (s : EpollPoller ι) (i : ι) : Prop where
  known : s.channels (fd i) = EpollPoller.known (s.channel i) i
  registered : (s.epoll (fd i)).isSome ↔ (s.channel i).index = .kAdded

/-- `updateChannel` does to the channel what `Channel.update` says, and the map and the epoll
set follow, without a failed call. -/
theorem updateChannel_eq_place (h : Placed fd s i) :
    s.updateChannel fd i = s.place fd i (s.channel i).update := by
  obtain ⟨hknown, hreg⟩ := h
  cases hindex : (s.channel i).index with
  | kNew =>
    have hnone : s.epoll (fd i) = none := by simpa [hindex] using hreg
    have hup : (s.channel i).update = { s.channel i with index := .kAdded } := by
      simp [Channel.update, Channel.updateChannel, hindex]
    rw [hup]
    simp only [updateChannel, hindex, true_or, if_true, setIndex]
    rw [update_add (by simpa using hnone)]
    simp [place, known, event]
  | kDeleted =>
    have hnone : s.epoll (fd i) = none := by simpa [hindex] using hreg
    have hself : s.channels (fd i) = some i := by simpa [known, hindex] using hknown
    have hup : (s.channel i).update = { s.channel i with index := .kAdded } := by
      simp [Channel.update, Channel.updateChannel, hindex]
    rw [hup]
    simp only [updateChannel, hindex, reduceCtorEq, or_true, if_true, if_false, setIndex]
    rw [update_add (by simpa using hnone)]
    simp [place, known, event, ← hself]
  | kAdded =>
    have hsome : (s.epoll (fd i)).isSome := hreg.mpr hindex
    have hself : s.channels (fd i) = some i := by simpa [known, hindex] using hknown
    simp only [updateChannel, hindex, reduceCtorEq, or_self, if_false]
    split
    case isTrue hnone =>
      have hup : (s.channel i).update = { s.channel i with index := .kDeleted } := by
        simp [Channel.update, Channel.updateChannel, hindex, hnone]
      rw [hup, update_del hsome]
      simp [place, known, event, setIndex, ← hself]
    case isFalse hsome' =>
      have hup : (s.channel i).update = s.channel i := by
        simp [Channel.update, Channel.updateChannel, hindex, hsome']
      rw [hup, update_mod hsome]
      simp [place, known, event, hindex, ← hself]

theorem removeChannel_eq_place (h : Placed fd s i) :
    s.removeChannel fd i = s.place fd i (s.channel i).remove := by
  have hrem : (s.channel i).remove = { s.channel i with index := .kNew } := rfl
  rw [hrem]
  simp only [removeChannel]
  split
  case isTrue hadded =>
    rw [update_del (by simpa using h.registered.mpr hadded)]
    simp [place, known, event, setIndex]
  case isFalse hother =>
    have hnone : s.epoll (fd i) = none := by
      simpa [hother] using h.registered
    simp [place, known, event, setIndex, ← hnone]

/-! ## Whole runs -/

/-- The three places agree about every channel, the epoll set holds nothing else, and no
`epoll_ctl` has failed. -/
structure Coherent (fd : ι → ℕ) (s : EpollPoller ι) : Prop where
  known_eq : ∀ i, s.channels (fd i) = known (s.channel i) i
  event_eq : ∀ i, s.epoll (fd i) = event (s.channel i) i
  ptr_fd : ∀ f e, s.epoll f = some e → fd e.ptr = f
  failures_nil : s.failures = []

omit [DecidableEq ι] in
theorem coherent_new (fd : ι → ℕ) : Coherent fd (new : EpollPoller ι) where
  known_eq _ := rfl
  event_eq _ := rfl
  ptr_fd _ _ h := by cases h
  failures_nil := rfl

/-- A new mask leaves the registration as it was. -/
theorem Coherent.placed (h : Coherent fd s) (i : ι) (m : Mask) : Placed fd (s.setEvents i m) i where
  known := by simpa [setEvents, EpollPoller.known] using h.known_eq i
  registered := by
    have := h.event_eq i
    simp only [setEvents, Function.update_self, this, event]
    split <;> simp_all

theorem Coherent.place (hfd : Function.Injective fd) (h : Coherent fd s) (i : ι) (c : Channel) :
    Coherent fd (s.place fd i c) where
  known_eq j := by
    by_cases hj : j = i
    · subst hj
      simp [EpollPoller.place]
    · simpa [EpollPoller.place, hj, hfd.ne hj] using h.known_eq j
  event_eq j := by
    by_cases hj : j = i
    · subst hj
      simp [EpollPoller.place]
    · simpa [EpollPoller.place, hj, hfd.ne hj] using h.event_eq j
  ptr_fd f e he := by
    by_cases hf : f = fd i
    · subst hf
      simp only [EpollPoller.place, Function.update_self, event, Option.ite_none_right_eq_some,
        Option.some.injEq] at he
      rw [← he.2]
    · simp only [EpollPoller.place, Function.update_of_ne hf] at he
      exact h.ptr_fd f e he
  failures_nil := h.failures_nil

/-- The members of a channel after an operation, as `Webservers.Channel` has them. -/
def Op.channel (c : Channel) : Op → Channel
  | .enableReading => c.enableReading
  | .disableReading => c.disableReading
  | .enableWriting => c.enableWriting
  | .disableWriting => c.disableWriting
  | .disableAll => c.disableAll
  | .remove => c.remove

theorem place_setEvents (m : Mask) (c : Channel) :
    (s.setEvents i m).place fd i c = s.place fd i c := by
  simp [place, setEvents]

/-- An operation in a coherent state: the channel moves as it does on its own, and the other two
places follow it. -/
theorem Coherent.apply_eq_place (h : Coherent fd s) (i : ι) (op : Op) :
    s.apply fd i op = s.place fd i (op.channel (s.channel i)) := by
  have hset : ∀ m, (s.setEvents i m).updateChannel fd i =
      s.place fd i (Channel.update { s.channel i with events := m }) := by
    intro m
    rw [updateChannel_eq_place (h.placed i m), place_setEvents]
    simp [setEvents]
  cases op with
  | remove =>
    have hself : s.setEvents i (s.channel i).events = s := by simp [setEvents]
    exact removeChannel_eq_place (hself ▸ h.placed i (s.channel i).events)
  | enableReading | disableReading | enableWriting | disableWriting | disableAll => exact hset _

/-! ## Polling -/

omit [DecidableEq ι] in
/-- The events come from the set, one for each descriptor. -/
theorem ptr_of_mem_reported {set : EpollSet ι} {fds : List (ℕ × Mask)}
    {events : List (EpollEvent ι)} (h : reported set fds = some events) :
    ∀ e ∈ events, ∃ f e', set f = some e' ∧ e'.ptr = e.ptr := by
  induction fds generalizing events with
  | nil =>
    cases h
    simp
  | cons p fds ih =>
    obtain ⟨f, m⟩ := p
    simp only [reported, Option.pure_def, Option.bind_eq_bind, Option.bind_eq_some_iff,
      Option.some.injEq] at h
    obtain ⟨e', he', rest, hrest, rfl⟩ := h
    intro e he
    rcases List.mem_cons.mp he with rfl | he
    · exact ⟨f, e', he', rfl⟩
    · exact ih hrest e he

/-- `fillActiveChannel` touches `revents_` and the list of active channels only. -/
theorem fillActiveChannel_eq (s : EpollPoller ι) (events : List (EpollEvent ι)) :
    ∃ revents, s.fillActiveChannel events =
      { s with
        revents := revents
        activeChannels := s.activeChannels ++ events.map (·.ptr) } := by
  induction events generalizing s with
  | nil => exact ⟨s.revents, by simp [fillActiveChannel]⟩
  | cons e events ih =>
    obtain ⟨revents, hrest⟩ := ih _
    exact ⟨revents, by rw [fillActiveChannel, hrest]; simp⟩

/-- What a poll does: the channels it reports are pointers of the epoll set, and the
registration is as before. -/
theorem poll_spec {answer : EpollWait} (h : s.poll answer = some t) :
    t.channel = s.channel ∧ t.channels = s.channels ∧ t.epoll = s.epoll ∧
      t.failures = s.failures ∧
      ∀ i ∈ t.activeChannels, ∃ f e, s.epoll f = some e ∧ e.ptr = i := by
  unfold poll at h
  cases answer with
  | failed e =>
    cases h
    simp
  | ready fds =>
    simp only [Option.ite_none_right_eq_some, Option.map_eq_some_iff] at h
    obtain ⟨-, events, hevents, rfl⟩ := h
    obtain ⟨revents, hfill⟩ :=
      fillActiveChannel_eq { s with activeChannels := [] } events
    have hmem : ∀ i ∈ events.map (·.ptr), ∃ f e, s.epoll f = some e ∧ e.ptr = i := by
      intro i hi
      obtain ⟨e, he, rfl⟩ := List.mem_map.mp hi
      exact ptr_of_mem_reported hevents e he
    split
    · rw [hfill]
      split <;> exact ⟨rfl, rfl, rfl, rfl, by simpa using hmem⟩
    · simp

theorem Coherent.step (hfd : Function.Injective fd) (h : Coherent fd s) {a : Label ι}
    (ha : step fd s a = some t) : Coherent fd t := by
  cases a with
  | op i op =>
    simp only [EpollPoller.step, Option.some.injEq] at ha
    rw [← ha, h.apply_eq_place]
    exact h.place hfd i _
  | poll answer =>
    obtain ⟨hchannel, hchannels, hepoll, hfailures, -⟩ := poll_spec ha
    constructor
    · rw [hchannels, hchannel]
      exact h.known_eq
    · rw [hepoll, hchannel]
      exact h.event_eq
    · rw [hepoll]
      exact h.ptr_fd
    · rw [hfailures]
      exact h.failures_nil

omit [DecidableEq ι] in
theorem Coherent.kAdded_iff (h : Coherent fd s) (i : ι) :
    (s.channel i).index = .kAdded ↔ (s.epoll (fd i)).isSome := by
  rw [h.event_eq, event]
  split <;> simp_all

omit [DecidableEq ι] in
theorem Coherent.known_iff (h : Coherent fd s) (i : ι) :
    (s.channel i).index ≠ .kNew ↔ s.channels (fd i) = some i := by
  rw [h.known_eq, known]
  split <;> simp_all

theorem hasChannel_iff : s.hasChannel fd i = true ↔ s.channels (fd i) = some i := by
  unfold hasChannel
  split <;> simp_all

omit [DecidableEq ι] in
/-- A channel the epoll set points to is registered. -/
theorem Coherent.kAdded_of_ptr (h : Coherent fd s) {f : ℕ} {e : EpollEvent ι}
    (he : s.epoll f = some e) : (s.channel e.ptr).index = .kAdded := by
  rw [h.kAdded_iff, h.ptr_fd f e he, he]
  rfl

/-- In every reachable state of a poller whose channels have descriptors of their own, the
index, the map and the epoll set say the same of every channel, no `epoll_ctl` has failed, and
what a poll reports is registered. -/
theorem registration_coherent (fd : ι → ℕ) (hfd : Function.Injective fd)
    (h : Machine.Reachable (step fd) new s) :
    (∀ i, ((s.channel i).index = .kAdded ↔ (s.epoll (fd i)).isSome) ∧
      ((s.channel i).index = .kAdded →
        s.epoll (fd i) = some { events := (s.channel i).events, ptr := i }) ∧
      ((s.channel i).index ≠ .kNew ↔ s.channels (fd i) = some i) ∧
      (s.hasChannel fd i = true ↔ (s.channel i).index ≠ .kNew)) ∧
    s.failures = [] ∧
    ∀ answer t, s.poll answer = some t →
      ∀ i ∈ t.activeChannels, (t.channel i).index = .kAdded := by
  have hc : Coherent fd s :=
    Machine.reachable_invariant (coherent_new fd) (fun _ _ _ hs ha => hs.step hfd ha) h
  refine ⟨fun i => ⟨hc.kAdded_iff i, fun hi => ?_, hc.known_iff i, ?_⟩, hc.failures_nil, ?_⟩
  · rw [hc.event_eq, event, if_pos hi]
  · rw [hasChannel_iff, hc.known_iff]
  · intro answer t ht i hi
    obtain ⟨hchannel, -, -, -, hptr⟩ := poll_spec ht
    obtain ⟨f, e, he, rfl⟩ := hptr i hi
    rw [hchannel]
    exact hc.kAdded_of_ptr he

/-- A channel with descriptor 5 is registered, dropped and registered again while another one is
only dropped. -/
theorem registration_coherent_reenabled :
    ∃ s : EpollPoller ℕ,
      Machine.exec (step id) new
        [.op 5 .enableReading, .op 7 .disableAll, .op 5 .disableAll, .op 5 .enableWriting]
          = some s ∧
      s.epoll 5 = some { events := Channel.kWriteEvent, ptr := 5 } ∧ s.failures = [] := by
  refine ⟨_, rfl, ?_⟩
  have h := registration_coherent id Function.injective_id
    ⟨[.op 5 .enableReading, .op 7 .disableAll, .op 5 .disableAll, .op 5 .enableWriting], rfl⟩
  exact ⟨(h.1 5).2.1 (by decide), h.2.1⟩

end EpollPoller
end Webservers
