import Mathlib.Data.Finset.Card
import Webservers.EpollPoller

/-!
# The room for events

`poll` offers the kernel `events_.size()` places and doubles them when all were used. The kernel
picks which of the ready descriptors it reports, so with too little room a channel can be left out
again and again.

* `poll_reports`: what one poll does with the answer, as a whole;
* `eventsSize_lower`: while at least `m` descriptors are ready, each poll doubles the room until
  there is more than that;
* `eventsSize_upper`: the room is never more than twice what was in use.
-/

namespace Webservers
namespace EpollPoller

variable {ι : Type*} [DecidableEq ι] {fd : ι → ℕ} {s t : EpollPoller ι}

/-- What `epoll_wait` may answer to a call with `size` places while the descriptors `ready` are
ready: as many of them as fit, none of them twice. -/
structure Answers (ready : Finset ℕ) (size : ℕ) (fds : List (ℕ × Mask)) : Prop where
  nodup : (fds.map Prod.fst).Nodup
  subset : ∀ f ∈ fds.map Prod.fst, f ∈ ready
  length : fds.length = min ready.card size

/-- `epoll_wait` keeps its contract, with at least `m` descriptors ready. -/
def Busy (m : ℕ) (s : EpollPoller ι) : Label ι → Prop
  | .poll (.ready fds) => ∃ ready : Finset ℕ, m ≤ ready.card ∧ Answers ready s.eventsSize fds
  | _ => True

/-- The polls of a run that come back with events or at a timeout. -/
def polls : List (Label ι) → ℕ
  | [] => 0
  | .poll (.ready _) :: as => polls as + 1
  | _ :: as => polls as

/-! ## One poll -/

omit [DecidableEq ι] in
theorem Answers.toFinset_eq {ready : Finset ℕ} {size : ℕ} {fds : List (ℕ × Mask)}
    (h : Answers ready size fds) (hfit : ready.card ≤ size) :
    (fds.map Prod.fst).toFinset = ready := by
  apply Finset.eq_of_subset_of_card_le
  · intro f hf
    exact h.subset f (List.mem_toFinset.mp hf)
  · rw [List.toFinset_card_of_nodup h.nodup, List.length_map, h.length]
    omega

omit [DecidableEq ι] in
/-- The events that the kernel stores belong to the channels of the descriptors. -/
theorem Coherent.reported_eq (h : Coherent fd s) {fds : List (ℕ × Mask)}
    {events : List (EpollEvent ι)} (hevents : reported s.epoll fds = some events) :
    events.map (fun e => (fd e.ptr, e.events)) = fds := by
  induction fds generalizing events with
  | nil =>
    cases hevents
    rfl
  | cons p fds ih =>
    obtain ⟨f, mask⟩ := p
    simp only [reported, Option.pure_def, Option.bind_eq_bind, Option.bind_eq_some_iff,
      Option.some.injEq] at hevents
    obtain ⟨e, he, rest, hrest, rfl⟩ := hevents
    rw [List.map_cons, ih hrest, h.ptr_fd f e he]

theorem revents_fillActiveChannel_of_not_mem {events : List (EpollEvent ι)} {i : ι}
    (h : i ∉ events.map (·.ptr)) : (s.fillActiveChannel events).revents i = s.revents i := by
  induction events generalizing s with
  | nil => rfl
  | cons e events ih =>
    rw [List.map_cons, List.mem_cons, not_or] at h
    rw [fillActiveChannel, ih h.2]
    exact Function.update_of_ne h.1 _ _

/-- `revents_` of a channel that is reported, none being reported twice. -/
theorem revents_fillActiveChannel {events : List (EpollEvent ι)}
    (h : (events.map (·.ptr)).Nodup) {e : EpollEvent ι} (he : e ∈ events) :
    (s.fillActiveChannel events).revents e.ptr = e.events := by
  induction events generalizing s with
  | nil => cases he
  | cons e' events ih =>
    rw [List.map_cons, List.nodup_cons] at h
    rw [fillActiveChannel]
    rcases List.mem_cons.mp he with rfl | he
    · rw [revents_fillActiveChannel_of_not_mem h.1]
      exact Function.update_self _ _ _
    · exact ih h.2 he

omit [DecidableEq ι] in
theorem length_reported {set : EpollSet ι} {fds : List (ℕ × Mask)} {events : List (EpollEvent ι)}
    (h : reported set fds = some events) : events.length = fds.length := by
  induction fds generalizing events with
  | nil =>
    cases h
    rfl
  | cons p fds ih =>
    simp only [reported, Option.pure_def, Option.bind_eq_bind, Option.bind_eq_some_iff,
      Option.some.injEq] at h
    obtain ⟨e, -, rest, hrest, rfl⟩ := h
    rw [List.length_cons, List.length_cons, ih hrest]

/-- The poller after a poll that was answered. -/
theorem poll_eq {fds : List (ℕ × Mask)} (h : s.poll (.ready fds) = some t) :
    fds.length ≤ s.eventsSize ∧ ∃ events, reported s.epoll fds = some events ∧
      t.activeChannels = events.map (·.ptr) ∧
      t.revents = (fillActiveChannel { s with activeChannels := [] } events).revents ∧
      t.eventsSize =
        if 0 < fds.length ∧ fds.length = s.eventsSize then s.eventsSize * 2 else s.eventsSize := by
  simp only [poll, Option.ite_none_right_eq_some, Option.map_eq_some_iff] at h
  obtain ⟨hle, events, hevents, rfl⟩ := h
  refine ⟨hle, events, hevents, ?_⟩
  rw [← length_reported hevents]
  by_cases hpos : 0 < events.length
  · obtain ⟨revents, hfill⟩ := fillActiveChannel_eq { s with activeChannels := [] } events
    simp only [hpos, if_true, true_and, hfill, List.nil_append]
    split <;> exact ⟨rfl, rfl, rfl⟩
  · have hnil : events = [] := List.eq_nil_of_length_eq_zero (by omega)
    subst hnil
    exact ⟨rfl, rfl, rfl⟩

/-- What a poll does with an answer: the active channels are those of the reported descriptors, in
the same order, and each has the mask that was reported for it. -/
theorem Coherent.poll_reports (hfd : Function.Injective fd) (h : Coherent fd s)
    {fds : List (ℕ × Mask)} (hnodup : (fds.map Prod.fst).Nodup)
    (hpoll : s.poll (.ready fds) = some t) :
    t.activeChannels.map fd = fds.map Prod.fst ∧
      ∀ i mask, (fd i, mask) ∈ fds → t.revents i = mask := by
  obtain ⟨-, events, hevents, hactive, hrevents, -⟩ := poll_eq hpoll
  have hfds := h.reported_eq hevents
  have hmap : (events.map (·.ptr)).map fd = fds.map Prod.fst := by
    rw [← hfds, List.map_map, List.map_map]
    rfl
  refine ⟨by rw [hactive, hmap], fun i mask hmem => ?_⟩
  rw [← hfds] at hmem
  obtain ⟨e, he, heq⟩ := List.mem_map.mp hmem
  rw [Prod.mk.injEq] at heq
  rw [hrevents, ← hfd heq.1, ← heq.2]
  refine revents_fillActiveChannel ?_ he
  rw [← hmap] at hnodup
  exact hnodup.of_map fd

/-! ## The room along a run -/

omit [DecidableEq ι] in
theorem eventsSize_update (s : EpollPoller ι) (operation : EpollCtl) (i : ι) :
    (s.update fd operation i).eventsSize = s.eventsSize := by
  unfold update
  simp only
  split <;> rfl

theorem eventsSize_updateChannel (s : EpollPoller ι) (i : ι) :
    (s.updateChannel fd i).eventsSize = s.eventsSize := by
  unfold updateChannel
  simp only
  split
  · rw [eventsSize_update]
    show (if _ then _ else _ : EpollPoller ι).eventsSize = _
    split <;> rfl
  · split
    · exact eventsSize_update s _ i
    · exact eventsSize_update s _ i

theorem eventsSize_removeChannel (s : EpollPoller ι) (i : ι) :
    (s.removeChannel fd i).eventsSize = s.eventsSize := by
  unfold removeChannel
  simp only [setIndex]
  split
  · rw [eventsSize_update]
  · rfl

theorem eventsSize_apply (s : EpollPoller ι) (i : ι) (op : Op) :
    (s.apply fd i op).eventsSize = s.eventsSize := by
  cases op with
  | remove => exact eventsSize_removeChannel s i
  | enableReading | disableReading | enableWriting | disableWriting | disableAll =>
    exact eventsSize_updateChannel _ i

/-- A poll that does not fail while `m` descriptors are ready doubles the room, or there is room
for more than `m` already. -/
theorem eventsSize_poll {m : ℕ} {fds : List (ℕ × Mask)} (hpos : 0 < s.eventsSize)
    (hbusy : Busy m s (.poll (.ready fds))) (h : s.poll (.ready fds) = some t) :
    min (m + 1) (s.eventsSize * 2) ≤ t.eventsSize := by
  obtain ⟨-, -, -, -, -, hsize⟩ := poll_eq h
  obtain ⟨ready, hm, hanswers⟩ := hbusy
  have hlength := hanswers.length
  rw [hsize]
  split <;> omega

theorem eventsSize_step_le {a : Label ι} (h : step fd s a = some t) :
    s.eventsSize ≤ t.eventsSize := by
  cases a with
  | op i op =>
    simp only [step, Option.some.injEq] at h
    rw [← h, eventsSize_apply]
  | poll answer =>
    cases answer with
    | failed e =>
      cases h
      exact Nat.le_refl _
    | ready fds =>
      obtain ⟨-, -, -, -, -, hsize⟩ := poll_eq h
      rw [hsize]
      split <;> omega

/-- While at least `m` descriptors are ready, every poll doubles the room until it is more. -/
theorem eventsSize_lower {m : ℕ} {as : List (Label ι)} (hpos : 0 < s.eventsSize)
    (hbusy : Machine.Along (step fd) (Busy m) s as)
    (h : Machine.exec (step fd) s as = some t) :
    min (m + 1) (s.eventsSize * 2 ^ polls as) ≤ t.eventsSize := by
  induction as generalizing s with
  | nil =>
    cases h
    rw [polls, Nat.pow_zero, Nat.mul_one]
    exact Nat.min_le_right _ _
  | cons a as ih =>
    obtain ⟨u, hu, hrest⟩ := Machine.exec_cons_eq_some.mp h
    obtain ⟨hfirst, hafter⟩ := hbusy u hu
    have hgrown := eventsSize_step_le hu
    have hlast := ih (Nat.lt_of_lt_of_le hpos hgrown) hafter hrest
    have hstep : s.eventsSize * 2 ^ polls as ≤ u.eventsSize * 2 ^ polls as :=
      Nat.mul_le_mul_right _ hgrown
    cases a with
    | op i op =>
      show min (m + 1) (s.eventsSize * 2 ^ polls as) ≤ t.eventsSize
      omega
    | poll answer =>
      cases answer with
      | failed e =>
        show min (m + 1) (s.eventsSize * 2 ^ polls as) ≤ t.eventsSize
        omega
      | ready fds =>
        have hpoll := eventsSize_poll hpos hfirst hu
        rw [polls]
        rcases Nat.lt_or_ge m u.eventsSize with hroom | hfull
        · have hroom' : u.eventsSize * 1 ≤ u.eventsSize * 2 ^ polls as :=
            Nat.mul_le_mul_left _ Nat.one_le_two_pow
          omega
        · have hdouble : s.eventsSize * 2 ≤ u.eventsSize := by omega
          have hdouble' : s.eventsSize * 2 ^ (polls as + 1) ≤ u.eventsSize * 2 ^ polls as := by
            rw [Nat.pow_succ, Nat.mul_comm (2 ^ _), ← Nat.mul_assoc]
            exact Nat.mul_le_mul_right _ hdouble
          omega

/-- From any state of any run: once `epoll_wait` has come back `n` times while at least `m`
descriptors were ready, with `m` less than 16 · 2 ^ n, a poll that finds at most `m` of them ready
makes the channels of all of them active, each once and with its mask. Whichever ones the kernel
preferred before, none of them is left out. -/
theorem all_ready_active (fd : ι → ℕ) (hfd : Function.Injective fd) {s t u : EpollPoller ι}
    (hs : Machine.Reachable (step fd) new s) (as : List (Label ι)) {m : ℕ}
    (hbusy : Machine.Along (step fd) (Busy m) s as) (hrun : Machine.exec (step fd) s as = some t)
    (hpolls : m < 16 * 2 ^ polls as) {ready : Finset ℕ} (hready : ready.card ≤ m)
    {fds : List (ℕ × Mask)} (hanswers : Answers ready t.eventsSize fds)
    (hpoll : t.poll (.ready fds) = some u) :
    u.activeChannels.Nodup ∧ (∀ i, fd i ∈ ready ↔ i ∈ u.activeChannels) ∧
      ∀ i mask, (fd i, mask) ∈ fds → u.revents i = mask := by
  obtain ⟨hcoherent, hsize⟩ : Coherent fd s ∧ 16 ≤ s.eventsSize :=
    Machine.reachable_invariant (I := fun s => Coherent fd s ∧ 16 ≤ s.eventsSize)
      ⟨coherent_new fd, Nat.le_refl 16⟩
      (fun _ _ _ hI ha => ⟨hI.1.step hfd ha, Nat.le_trans hI.2 (eventsSize_step_le ha)⟩) hs
  have hcoherent' : Coherent fd t :=
    Machine.exec_invariant (fun _ _ _ hI ha => hI.step hfd ha) hcoherent hrun
  have hroom : ready.card ≤ t.eventsSize := by
    have hlower := eventsSize_lower (by omega) hbusy hrun
    have hpow : 16 * 2 ^ polls as ≤ s.eventsSize * 2 ^ polls as := Nat.mul_le_mul_right _ hsize
    omega
  obtain ⟨hactive, hrevents⟩ := hcoherent'.poll_reports hfd hanswers.nodup hpoll
  refine ⟨?_, fun i => ?_, hrevents⟩
  · have hnodup := hanswers.nodup
    rw [← hactive] at hnodup
    exact hnodup.of_map fd
  · rw [← hanswers.toFinset_eq hroom, ← hactive, List.mem_toFinset, List.mem_map_of_injective hfd]

/-- Seventeen channels are enabled. -/
def seventeen : List (Label ℕ) := (List.range 17).map fun i => .op i .enableReading

/-- The first `n` descriptors, readable. -/
def readable (n : ℕ) : List (ℕ × Mask) := (List.range n).map fun f => (f, EPOLLIN)

omit [DecidableEq ι] in
theorem answers_readable {n size : ℕ} (h : size ≤ n) :
    Answers (Finset.range n) size (readable size) := by
  have hfst : (readable size).map Prod.fst = List.range size := by
    rw [readable, List.map_map]
    exact List.map_id _
  refine ⟨hfst ▸ List.nodup_range, fun f hf => ?_, ?_⟩
  · rw [hfst, List.mem_range] at hf
    exact Finset.mem_range.mpr (Nat.lt_of_lt_of_le hf h)
  · rw [readable, List.length_map, List.length_range, Finset.card_range, Nat.min_eq_right h]

/-- The seventeenth is left out of the first poll, which makes room for it. -/
theorem all_ready_active_seventeen :
    ∃ s t u, Machine.exec (step id) new seventeen = some s ∧
      s.poll (.ready (readable 16)) = some t ∧ 16 ∉ t.activeChannels ∧
      t.poll (.ready (readable 17)) = some u ∧ 16 ∈ u.activeChannels := by
  have hrun : (Machine.exec (step id) new seventeen).bind (fun s =>
      (s.poll (.ready (readable 16))).bind fun t => (t.poll (.ready (readable 17))).map fun u =>
        (s.eventsSize, t.eventsSize, decide (16 ∈ t.activeChannels))) = some (16, 32, false) := by
    decide +kernel
  obtain ⟨s, hs, ht⟩ := Option.bind_eq_some_iff.mp hrun
  obtain ⟨t, ht, hu⟩ := Option.bind_eq_some_iff.mp ht
  obtain ⟨u, hu, hpair⟩ := Option.map_eq_some_iff.mp hu
  rw [Prod.mk.injEq, Prod.mk.injEq] at hpair
  obtain ⟨hsize, hsize', hout⟩ := hpair
  have hfirst : Busy 17 s (.poll (.ready (readable 16))) :=
    ⟨Finset.range 17, by simp, hsize.symm ▸ answers_readable (show 16 ≤ 17 by decide)⟩
  have hsecond : Answers (Finset.range 17) t.eventsSize (readable 17) := by
    obtain ⟨hnodup, hsubset, -⟩ := answers_readable (Nat.le_refl 17)
    exact ⟨hnodup, hsubset, by rw [hsize']; decide⟩
  have hactive := all_ready_active id Function.injective_id ⟨seventeen, hs⟩
    [.poll (.ready (readable 16))] (fun _ _ => ⟨hfirst, trivial⟩)
    (Machine.exec_cons_eq_some.mpr ⟨t, ht, rfl⟩) (by decide) (by simp) hsecond hu
  exact ⟨s, t, u, hs, ht, of_decide_eq_false hout, hu, (hactive.2.1 16).mp (by simp)⟩

/-! ## No more than twice what is in use -/

/-- At most `M` descriptors are in the epoll set. -/
def Watches (M : ℕ) (s : EpollPoller ι) : Prop :=
  ∀ S : Finset ℕ, (∀ f ∈ S, (s.epoll f).isSome) → S.card ≤ M

omit [DecidableEq ι] in
theorem isSome_of_reported {set : EpollSet ι} {fds : List (ℕ × Mask)}
    {events : List (EpollEvent ι)} (h : reported set fds = some events) :
    ∀ f ∈ fds.map Prod.fst, (set f).isSome := by
  induction fds generalizing events with
  | nil => exact fun f hf => absurd hf List.not_mem_nil
  | cons p fds ih =>
    simp only [reported, Option.pure_def, Option.bind_eq_bind, Option.bind_eq_some_iff,
      Option.some.injEq] at h
    obtain ⟨e, he, rest, hrest, -⟩ := h
    intro f hf
    rcases List.mem_cons.mp hf with rfl | hf
    · rw [he]
      rfl
    · exact ih hrest f hf

theorem eventsSize_step_upper {M : ℕ} (hs : s.eventsSize ≤ max 16 (2 * M)) (hwatch : Watches M s)
    {a : Label ι} (hbusy : Busy 0 s a) (h : step fd s a = some t) :
    t.eventsSize ≤ max 16 (2 * M) := by
  cases a with
  | op i op =>
    simp only [step, Option.some.injEq] at h
    rw [← h, eventsSize_apply]
    exact hs
  | poll answer =>
    cases answer with
    | failed e =>
      cases h
      exact hs
    | ready fds =>
      obtain ⟨-, events, hevents, -, -, hsize⟩ := poll_eq h
      obtain ⟨ready, -, hanswers⟩ := hbusy
      rw [hsize]
      split
      · -- all the places were used, by descriptors of the set
        rename_i hfull
        have hcard := hwatch (fds.map Prod.fst).toFinset fun f hf =>
          isSome_of_reported hevents f (List.mem_toFinset.mp hf)
        rw [List.toFinset_card_of_nodup hanswers.nodup, List.length_map] at hcard
        omega
      · exact hs

/-- In every run in which `epoll_wait` keeps its contract, and in which at most `M` descriptors are
in the epoll set at a time, there is never room for more than 16 events and for more than twice
`M`. -/
theorem eventsSize_le_twice_watched (fd : ι → ℕ) {M : ℕ} (as : List (Label ι))
    (hsteps : Machine.Along (step fd) (fun s a => Busy 0 s a ∧ Watches M s) new as)
    {s : EpollPoller ι} (h : Machine.exec (step fd) new as = some s) :
    s.eventsSize ≤ max 16 (2 * M) := by
  refine Machine.exec_invariant_along (I := fun s => s.eventsSize ≤ max 16 (2 * M)) ?_ ?_ hsteps h
  · exact fun s a t hs hP ha => eventsSize_step_upper hs hP.2 hP.1 ha
  · exact Nat.le_max_left _ _

/-- A step brings only the descriptor of its channel into the epoll set. -/
theorem isSome_epoll_step (h : Coherent fd s) {F : Finset ℕ}
    (hF : ∀ f, (s.epoll f).isSome → f ∈ F) {a : Label ι} (ha : ∀ i op, a = .op i op → fd i ∈ F)
    (hstep : step fd s a = some t) : ∀ f, (t.epoll f).isSome → f ∈ F := by
  cases a with
  | op i op =>
    simp only [step, Option.some.injEq] at hstep
    rw [← hstep, h.apply_eq_place]
    intro f hf
    by_cases hfi : f = fd i
    · exact hfi ▸ ha i op rfl
    · have hother : (place fd s i (op.channel (s.channel i))).epoll f = s.epoll f :=
        Function.update_of_ne hfi _ _
      exact hF f (hother ▸ hf)
  | poll answer =>
    obtain ⟨-, -, hepoll, -⟩ := poll_spec hstep
    rw [hepoll]
    exact hF

/-- So a run watches no more descriptors than its channels have. -/
theorem along_watches (hfd : Function.Injective fd) {F : Finset ℕ} {as : List (Label ι)}
    (hops : ∀ i op, .op i op ∈ as → fd i ∈ F) :
    Machine.Along (step fd) (fun s _ => Watches F.card s) new as := by
  have hlabels : Machine.Along (step fd) (fun _ a => ∀ i op, a = .op i op → fd i ∈ F) new as :=
    Machine.along_of_forall fun a hmem i op heq => hops i op (heq ▸ hmem)
  refine Machine.along_of_along
    (K := fun s => Coherent fd s ∧ ∀ f, (s.epoll f).isSome → f ∈ F) ?_ ?_ ?_ hlabels
  · exact fun s a t hs _ _ S hS => Finset.card_le_card fun f hf => hs.2 f (hS f hf)
  · exact fun s a t hs hstep ha => ⟨hs.1.step hfd hstep, isSome_epoll_step hs.1 hs.2 ha hstep⟩
  · exact ⟨coherent_new fd, fun f hf => Bool.noConfusion hf⟩

/-- All seventeen are readable at two polls. -/
def seventeenReadable : List (Label ℕ) :=
  seventeen ++ [.poll (.ready (readable 16)), .poll (.ready (readable 17))]

/-- The first poll uses all sixteen places and doubles them; the second one needs seventeen. -/
theorem eventsSize_le_twice_watched_seventeen :
    ∃ s : EpollPoller ℕ, Machine.exec (step id) new seventeenReadable = some s ∧
      s.activeChannels = List.range 17 ∧ s.eventsSize = 32 ∧ s.eventsSize ≤ max 16 (2 * 17) := by
  have hrun : (Machine.exec (step id) new seventeen).bind (fun s =>
      (s.poll (.ready (readable 16))).bind fun t => (t.poll (.ready (readable 17))).map fun u =>
        (s.eventsSize, t.eventsSize, u.activeChannels, u.eventsSize)) =
      some (16, 32, List.range 17, 32) := by
    decide +kernel
  obtain ⟨s, hs, ht⟩ := Option.bind_eq_some_iff.mp hrun
  obtain ⟨t, ht, hu⟩ := Option.bind_eq_some_iff.mp ht
  obtain ⟨u, hu, heq⟩ := Option.map_eq_some_iff.mp hu
  simp only [Prod.mk.injEq] at heq
  obtain ⟨hsize, hsize', hactive, hsize''⟩ := heq
  have hexec : Machine.exec (step id) new seventeenReadable = some u :=
    Machine.exec_append_eq_some.mpr ⟨s, hs, Machine.exec_cons_eq_some.mpr
      ⟨t, ht, Machine.exec_cons_eq_some.mpr ⟨u, hu, rfl⟩⟩⟩
  have hops : ∀ i op, .op i op ∈ seventeenReadable → id i ∈ Finset.range 17 := by
    intro i op hmem
    obtain ⟨j, hj, heq⟩ : ∃ j < 17, Label.op j .enableReading = Label.op i op := by
      simpa [seventeenReadable, seventeen] using hmem
    cases heq
    exact Finset.mem_range.mpr hj
  have hwatches := along_watches Function.injective_id hops
  rw [Finset.card_range] at hwatches
  have hfirst : Busy 0 s (.poll (.ready (readable 16))) :=
    ⟨Finset.range 17, Nat.zero_le _, hsize.symm ▸ answers_readable (show 16 ≤ 17 by decide)⟩
  have hsecond : Busy 0 t (.poll (.ready (readable 17))) := by
    obtain ⟨hnodup, hsubset, -⟩ := answers_readable (Nat.le_refl 17)
    exact ⟨Finset.range 17, Nat.zero_le _, hnodup, hsubset, by rw [hsize']; decide⟩
  have hbusy : Machine.Along (step id) (Busy 0) new seventeenReadable := by
    refine Machine.along_append.mpr ⟨?_, fun s' hs' => ?_⟩
    · refine Machine.along_of_along (K := fun _ => True) (Q := fun _ a => a ∈ seventeen)
        (fun s a t _ _ ha => ?_) (fun _ _ _ _ _ _ => trivial) trivial
        (Machine.along_of_forall fun a ha => ha)
      obtain ⟨j, -, rfl⟩ := List.mem_map.mp ha
      trivial
    · obtain rfl : s = s' := Option.some.inj (hs.symm.trans hs')
      intro t' ht'
      obtain rfl : t = t' := Option.some.inj (ht.symm.trans ht')
      exact ⟨hfirst, fun _ _ => ⟨hsecond, trivial⟩⟩
  have hle := eventsSize_le_twice_watched id _ (hbusy.and hwatches) hexec
  exact ⟨u, hexec, hactive, hsize'', hle⟩

end EpollPoller
end Webservers
