import Mathlib.Data.Nat.Notation

/-!
# `Channel` and its registration (src/Channel.h, src/Channel.cc, src/EpollPoller.cc)

A channel is the interest mask of one descriptor together with the poller's note of how far it
is registered. `Channel::update` goes through the loop to `EpollPoller::updateChannel`, which
issues one `epoll_ctl` and moves the index.
-/

namespace Webservers

/-- Event masks are C `int`s. -/
abbrev Mask := BitVec 32

def EPOLLIN : Mask := 0x001
def EPOLLPRI : Mask := 0x002
def EPOLLOUT : Mask := 0x004
def EPOLLERR : Mask := 0x008
def EPOLLHUP : Mask := 0x010

/-- `channel->index()`: `-1`, `1` and `2` in the source. -/
inductive Index where
  | kNew
  | kAdded
  | kDeleted
deriving Repr, DecidableEq

structure Channel where
  events : Mask
  index : Index
deriving Repr, DecidableEq

/-- The operations of `epoll_ctl`. -/
inductive EpollCtl where
  | EPOLL_CTL_ADD
  | EPOLL_CTL_MOD
  | EPOLL_CTL_DEL
deriving Repr, DecidableEq

namespace Channel

def kNoneEvent : Mask := 0
def kReadEvent : Mask := EPOLLIN ||| EPOLLPRI
def kWriteEvent : Mask := EPOLLOUT

/-- The constructor: no interest, not known to any poller. -/
def new : Channel := { events := kNoneEvent, index := .kNew }

def isNoneEvent (ch : Channel) : Bool := ch.events == kNoneEvent
def isReading (ch : Channel) : Bool := ch.events &&& kReadEvent != 0
def isWriting (ch : Channel) : Bool := ch.events &&& kWriteEvent != 0

/-- `EpollPoller::updateChannel`, with the `epoll_ctl` it issues. -/
def updateChannel (ch : Channel) : Channel × EpollCtl :=
  match ch.index with
  | .kNew | .kDeleted => ({ ch with index := .kAdded }, .EPOLL_CTL_ADD)
  | .kAdded =>
    if ch.isNoneEvent then ({ ch with index := .kDeleted }, .EPOLL_CTL_DEL)
    else (ch, .EPOLL_CTL_MOD)

/-- `EpollPoller::removeChannel`, with the `epoll_ctl` it issues if any. -/
def removeChannel (ch : Channel) : Channel × Option EpollCtl :=
  ({ ch with index := .kNew }, if ch.index = .kAdded then some .EPOLL_CTL_DEL else none)

/-- `Channel::update`. -/
def update (ch : Channel) : Channel := ch.updateChannel.1

def enableReading (ch : Channel) : Channel := update { ch with events := ch.events ||| kReadEvent }
def disableReading (ch : Channel) : Channel :=
  update { ch with events := ch.events &&& ~~~kReadEvent }
def enableWriting (ch : Channel) : Channel :=
  update { ch with events := ch.events ||| kWriteEvent }
def disableWriting (ch : Channel) : Channel :=
  update { ch with events := ch.events &&& ~~~kWriteEvent }
def disableAll (ch : Channel) : Channel := update { ch with events := kNoneEvent }
def remove (ch : Channel) : Channel := ch.removeChannel.1

@[simp] theorem update_events (ch : Channel) : ch.update.events = ch.events := by
  unfold update updateChannel
  split
  · rfl
  · rfl
  · split <;> rfl

theorem update_index (ch : Channel) :
    ch.update.index = if ch.index = .kAdded ∧ ch.isNoneEvent then .kDeleted else .kAdded := by
  unfold update updateChannel
  cases h : ch.index with
  | kNew | kDeleted => simp
  | kAdded => cases hn : ch.isNoneEvent <;> simp [h]

end Channel
end Webservers
