import Webservers.EpollPoller

/-!
# Channels without interest

`updateChannel` asks `isNoneEvent()` only of a channel that is in the epoll set, and then takes it
out. A channel that is not in the set is put into it whatever its mask: `disableAll` on a channel
that was never added, or was disabled before, registers its descriptor for no events, and
`EPOLLERR` and `EPOLLHUP` are reported even so. `watched_iff` says exactly which calls keep such
channels out of the set.
-/

namespace Webservers
namespace EpollPoller

variable {ι : Type*} [DecidableEq ι] {fd : ι → ℕ} {s t : EpollPoller ι}

/-- Every descriptor of the set belongs to a channel with some interest, and a poll reports no
other channels. -/
def Watched (fd : ι → ℕ) (s : EpollPoller ι) : Prop :=
  (∀ f e, s.epoll f = some e → fd e.ptr = f ∧ (s.channel e.ptr).events ≠ Channel.kNoneEvent) ∧
    ∀ answer t, s.poll answer = some t → ∀ i ∈ t.activeChannels, (t.channel i).isNoneEvent = false

/-- The mask that an operation stores in `events_`. -/
def Op.events (m : Mask) : Op → Mask
  | .enableReading => m ||| Channel.kReadEvent
  | .disableReading => m &&& ~~~Channel.kReadEvent
  | .enableWriting => m ||| Channel.kWriteEvent
  | .disableWriting => m &&& ~~~Channel.kWriteEvent
  | .disableAll => Channel.kNoneEvent
  | .remove => m

/-- An operation that leaves a channel without interest meets it in the epoll set. -/
def StepOk (s : EpollPoller ι) : Label ι → Prop
  | .op i op => op ≠ .remove → op.events (s.channel i).events = Channel.kNoneEvent →
      (s.channel i).index = .kAdded
  | .poll _ => True

/-! ## One operation -/

theorem Op.channel_events (c : Channel) (op : Op) : (op.channel c).events = op.events c.events := by
  cases op <;> first | exact Channel.update_events _ | rfl

theorem Op.channel_index (c : Channel) {op : Op} (h : op ≠ .remove) :
    (op.channel c).index =
      if c.index = .kAdded ∧ op.events c.events = Channel.kNoneEvent then .kDeleted
      else .kAdded := by
  have hupdate : ∀ m : Mask, (Channel.update { c with events := m }).index =
      if c.index = .kAdded ∧ m = Channel.kNoneEvent then .kDeleted else .kAdded := by
    intro m
    rw [Channel.update_index]
    simp only [Channel.isNoneEvent, beq_iff_eq]
  cases op with
  | remove => exact absurd rfl h
  | enableReading | disableReading | enableWriting | disableWriting | disableAll =>
    exact hupdate _

/-- Which operations leave a channel in the set with an empty mask. -/
theorem Op.registers_none_iff (c : Channel) (op : Op) :
    (op.channel c).index = .kAdded ∧ (op.channel c).events = Channel.kNoneEvent ↔
      op ≠ .remove ∧ op.events c.events = Channel.kNoneEvent ∧ c.index ≠ .kAdded := by
  by_cases hop : op = .remove
  · subst hop
    have hindex : (Op.channel c .remove).index = .kNew := rfl
    simp [hindex]
  · rw [Op.channel_index c hop, Op.channel_events]
    by_cases hnone : op.events c.events = Channel.kNoneEvent <;>
      by_cases hadded : c.index = .kAdded <;> simp [hop, hnone, hadded]

/-! ## Whole runs -/

/-- No channel of the set has an empty mask. -/
def NoneOut (s : EpollPoller ι) : Prop :=
  ∀ i, ¬ ((s.channel i).index = .kAdded ∧ (s.channel i).events = Channel.kNoneEvent)

theorem Coherent.watched_iff_noneOut (h : Coherent fd s) : Watched fd s ↔ NoneOut s := by
  constructor
  · rintro ⟨hset, -⟩ i ⟨hadded, hnone⟩
    have hevent : s.epoll (fd i) = some ⟨(s.channel i).events, i⟩ := by
      rw [h.event_eq, event, if_pos hadded]
    exact (hset _ _ hevent).2 hnone
  · intro hout
    refine ⟨fun f e he => ⟨h.ptr_fd f e he, fun hnone => ?_⟩, fun answer t ht i hi => ?_⟩
    · exact hout e.ptr ⟨h.kAdded_of_ptr he, hnone⟩
    · obtain ⟨hchannel, -, -, -, hptr⟩ := poll_spec ht
      obtain ⟨f, e, he, rfl⟩ := hptr i hi
      rw [hchannel, Channel.isNoneEvent, beq_eq_false_iff_ne]
      exact fun hnone => hout e.ptr ⟨h.kAdded_of_ptr he, hnone⟩

/-- A step keeps channels without interest out of the set exactly when it is `StepOk`. -/
theorem Coherent.noneOut_step (h : Coherent fd s) (hout : NoneOut s) {a : Label ι}
    (ha : EpollPoller.step fd s a = some t) : NoneOut t ↔ StepOk s a := by
  cases a with
  | poll answer =>
    obtain ⟨hchannel, -⟩ := poll_spec ha
    have ht : NoneOut t := by
      unfold NoneOut
      rw [hchannel]
      exact hout
    exact iff_of_true ht trivial
  | op i op =>
    simp only [EpollPoller.step, Option.some.injEq] at ha
    have hself : t.channel i = op.channel (s.channel i) := by
      rw [← ha, h.apply_eq_place]
      exact Function.update_self ..
    have hother : ∀ j, j ≠ i → t.channel j = s.channel j := by
      intro j hj
      rw [← ha, h.apply_eq_place]
      exact Function.update_of_ne hj ..
    -- only the channel `i` has changed
    have hone : NoneOut t ↔
        ¬ ((t.channel i).index = .kAdded ∧ (t.channel i).events = Channel.kNoneEvent) := by
      refine ⟨fun ht => ht i, fun hi j => ?_⟩
      by_cases hj : j = i
      · rwa [hj]
      · rw [hother j hj]
        exact hout j
    rw [hone, hself, Op.registers_none_iff, StepOk]
    tauto

/-- In every run of a poller whose channels have descriptors of their own, channels without
interest are not watched exactly when no operation takes the interest of a channel that is not in
the epoll set. -/
theorem watched_iff (fd : ι → ℕ) (hfd : Function.Injective fd) (as : List (Label ι)) :
    Machine.Always (step fd) (Watched fd) new as ↔ Machine.Along (step fd) StepOk new as := by
  apply Machine.always_iff_along (K := fun s => Coherent fd s ∧ NoneOut s)
  · exact fun s hs => hs.1.watched_iff_noneOut.mpr hs.2
  · exact fun s a t hs ha hok => ⟨hs.1.step hfd ha, (hs.1.noneOut_step hs.2 ha).mpr hok⟩
  · intro s a t hs ha ht
    exact (hs.1.noneOut_step hs.2 ha).mp ((hs.1.step hfd ha).watched_iff_noneOut.mp ht)
  · exact ⟨coherent_new fd, fun i h => by cases h.1⟩

/-- A channel that is enabled, disabled and enabled again is watched only while it is enabled. -/
theorem watched_iff_reenabled :
    Machine.Always (step id) (Watched id) (new : EpollPoller ℕ)
      [.op 5 .enableReading, .op 5 .disableAll, .op 5 .enableWriting] := by
  apply (watched_iff id Function.injective_id _).mpr
  intro t₁ h₁
  cases h₁
  refine ⟨fun _ h => absurd h (by decide), fun t₂ h₂ => ?_⟩
  cases h₂
  refine ⟨fun _ _ => rfl, fun t₃ h₃ => ?_⟩
  cases h₃
  exact ⟨fun _ h => absurd h (by decide), trivial⟩

/-- The calls that tear a connection down: `handleClose` takes its interest, and `disableAll` in
`connnectionDestroyed` puts the descriptor into the set again, with an empty mask. -/
theorem disabled_twice_watched :
    ¬ Machine.Always (step id) (Watched id) (new : EpollPoller ℕ)
      [.op 5 .enableReading, .op 5 .disableAll, .op 5 .disableAll] := by
  intro h
  have hlast := h.last rfl
  have hset := hlast.1 5 ⟨0, 5⟩ rfl
  exact hset.2 rfl

end EpollPoller
end Webservers
