import Mathlib.Data.List.Count
import Webservers.Lib.Machine
import Webservers.HttpServer.Basic

/-!
# `threadpool` (bck/include/threadpool.h, bck/src/locker.cpp)

The pool of the thread-pool server: any threads append requests, the workers take them. A step
of the machine is one critical section under `m_queuelocker`, one operation on the semaphore
`m_queuestat`, or a call of `process()` or its return.

* A request is a pointer to `T`, an `Option ρ` here: `append` does not look at it, and a worker
  that finds a null pointer goes on to its next round.
* `sem_wait` may return early, interrupted by a signal, without having taken a token; `run` does
  not look at its result. `sem_post` is taken to succeed.
* `m_stop` is false: it is set when the pool is destroyed, after which no thread may use it.

`accepted`, `returned`, `removed` and `passed` are history, each in the order of the steps that
made it. `HttpServer` has the pool without its semaphore; `Serves` says that its queue is this one.
-/

namespace Webservers

namespace ThreadPool

/-- Where a worker stands in `run`. -/
inductive Pc (ρ : Type*) where
  /-- at `m_queuestat.wait()` -/
  | waiting
  /-- `wait()` has returned, with or without a token -/
  | woken (token : Bool)
  /-- this request was taken off the queue -/
  | taken (request : Option ρ)
  /-- inside its `process()` -/
  | processing (request : ρ)
deriving Repr, DecidableEq

/-- The request a worker has taken and not yet passed on. -/
def Pc.held {ρ : Type*} : Pc ρ → Option ρ
  | .taken request => request
  | _ => none

end ThreadPool

structure ThreadPool (τ ρ : Type*) where
  workqueue : List (Option ρ)
  /-- the value of `m_queuestat` -/
  queuestat : ℕ
  workers : List (ThreadPool.Pc ρ)
  /-- the threads in `append` between `push_back` and `post()`, with their requests -/
  posting : List (τ × Option ρ)
  /-- the requests that were pushed -/
  accepted : List (Option ρ)
  /-- those whose `append` has returned `true` -/
  returned : List (Option ρ)
  /-- those that were popped, each with its worker -/
  removed : List (ℕ × Option ρ)
  /-- those whose `process()` was called, each with its worker -/
  passed : List (ℕ × ρ)
deriving Repr, DecidableEq

namespace ThreadPool

variable {τ ρ : Type*}

/-- The constructor: all workers wait. -/
def start (threadNum : ℕ) : ThreadPool τ ρ where
  workqueue := []
  queuestat := 0
  workers := List.replicate threadNum .waiting
  posting := []
  accepted := []
  returned := []
  removed := []
  passed := []

def setWorker (s : ThreadPool τ ρ) (w : ℕ) (pc : Pc ρ) : ThreadPool τ ρ :=
  { s with workers := s.workers.set w pc }

/-- `append(request)` up to its `unlock()`: `push_back`, or `return false`. -/
def append (maxRequests : ℕ) (s : ThreadPool τ ρ) (th : τ) (request : Option ρ) :
    ThreadPool τ ρ :=
  if maxRequests < s.workqueue.length then s
  else
    { s with
      workqueue := s.workqueue ++ [request]
      accepted := s.accepted ++ [request]
      posting := s.posting ++ [(th, request)] }

/-- `m_queuestat.post()` and `return true`. -/
def post [DecidableEq τ] [DecidableEq ρ] (s : ThreadPool τ ρ) (th : τ) (request : Option ρ) :
    ThreadPool τ ρ :=
  { s with
    queuestat := s.queuestat + 1
    posting := s.posting.erase (th, request)
    returned := s.returned ++ [request] }

/-- `m_queuestat.wait()`, which takes a token or returns early. -/
def wait (s : ThreadPool τ ρ) (w : ℕ) (token : Bool) : Option (ThreadPool τ ρ) :=
  if token then
    if 0 < s.queuestat then
      some ({ s with queuestat := s.queuestat - 1 }.setWorker w (.woken true))
    else none
  else some (s.setWorker w (.woken false))

/-- The part of `run` under `m_queuelocker`. -/
def take (s : ThreadPool τ ρ) (w : ℕ) : ThreadPool τ ρ :=
  match s.workqueue with
  | [] => s.setWorker w .waiting
  | request :: rest =>
    { s with workqueue := rest, removed := s.removed ++ [(w, request)] }.setWorker w
      (.taken request)

/-- `if(!request) continue;` or the call of `process()`. -/
def call (s : ThreadPool τ ρ) (w : ℕ) : Option ρ → ThreadPool τ ρ
  | none => s.setWorker w .waiting
  | some request =>
    { s with passed := s.passed ++ [(w, request)] }.setWorker w (.processing request)

inductive Label (τ ρ : Type*) where
  | append (th : τ) (request : Option ρ)
  | post (th : τ) (request : Option ρ)
  | wait (w : ℕ) (token : Bool)
  /-- the next step of a worker that is past `wait()` -/
  | advance (w : ℕ)
deriving Repr, DecidableEq

/-- A thread is in one call of `append` at a time. -/
def step [DecidableEq τ] [DecidableEq ρ] (maxRequests : ℕ) (s : ThreadPool τ ρ) :
    Label τ ρ → Option (ThreadPool τ ρ)
  | .append th request =>
    if th ∈ s.posting.map Prod.fst then none else some (s.append maxRequests th request)
  | .post th request => if (th, request) ∈ s.posting then some (s.post th request) else none
  | .wait w token => if s.workers[w]? = some .waiting then s.wait w token else none
  | .advance w =>
    match s.workers[w]? with
    | some (.woken _) => some (s.take w)
    | some (.taken request) => some (s.call w request)
    | some (.processing _) => some (s.setWorker w .waiting)
    | _ => none

/-! ## What a step can do -/

variable {maxRequests : ℕ} {s t : ThreadPool τ ρ}

/-- One constructor for each kind of step. -/
inductive Trans [DecidableEq τ] [DecidableEq ρ] (s : ThreadPool τ ρ) : ThreadPool τ ρ → Prop
  /-- `append` returns `false` -/
  | refused : Trans s s
  | push (th : τ) (request : Option ρ) :
      Trans s { s with
        workqueue := s.workqueue ++ [request]
        accepted := s.accepted ++ [request]
        posting := s.posting ++ [(th, request)] }
  | post {th : τ} {request : Option ρ} (h : (th, request) ∈ s.posting) :
      Trans s (s.post th request)
  | wakeToken {w : ℕ} (hw : s.workers[w]? = some .waiting) (hpos : 0 < s.queuestat) :
      Trans s ({ s with queuestat := s.queuestat - 1 }.setWorker w (.woken true))
  | wakeEarly {w : ℕ} (hw : s.workers[w]? = some .waiting) :
      Trans s (s.setWorker w (.woken false))
  /-- the queue is empty -/
  | retry {w : ℕ} {token : Bool} (hw : s.workers[w]? = some (.woken token))
      (hempty : s.workqueue = []) : Trans s (s.setWorker w .waiting)
  | take {w : ℕ} {token : Bool} {request : Option ρ} {rest : List (Option ρ)}
      (hw : s.workers[w]? = some (.woken token)) (hqueue : s.workqueue = request :: rest) :
      Trans s ({ s with workqueue := rest, removed := s.removed ++ [(w, request)] }.setWorker w
        (.taken request))
  /-- a null pointer -/
  | skip {w : ℕ} (hw : s.workers[w]? = some (.taken none)) : Trans s (s.setWorker w .waiting)
  | call {w : ℕ} {request : ρ} (hw : s.workers[w]? = some (.taken (some request))) :
      Trans s ({ s with passed := s.passed ++ [(w, request)] }.setWorker w (.processing request))
  | finish {w : ℕ} {request : ρ} (hw : s.workers[w]? = some (.processing request)) :
      Trans s (s.setWorker w .waiting)

theorem step_trans [DecidableEq τ] [DecidableEq ρ] {a : Label τ ρ}
    (h : step maxRequests s a = some t) : Trans s t := by
  cases a with
  | append th request =>
    simp only [step] at h
    split at h <;> cases h
    unfold append
    split
    · exact .refused
    · exact .push th request
  | post th request =>
    simp only [step] at h
    split at h <;> cases h
    exact .post ‹_›
  | wait w token =>
    simp only [step] at h
    split at h
    · rename_i hw
      unfold wait at h
      cases token with
      | true =>
        rw [if_pos rfl] at h
        split at h <;> cases h
        exact .wakeToken hw ‹_›
      | false =>
        cases h
        exact .wakeEarly hw
    · cases h
  | advance w =>
    simp only [step] at h
    split at h
    · rename_i token hw
      cases h
      unfold take
      cases hqueue : s.workqueue with
      | nil => exact .retry hw hqueue
      | cons request rest => exact .take hw hqueue
    · rename_i request hw
      cases h
      cases request with
      | none => exact .skip hw
      | some request => exact .call hw
    · rename_i request hw
      cases h
      exact .finish hw
    · cases h

/-! ## Who has a request -/

/-- The requests that worker `w` has popped, null pointers apart. -/
def removedBy (s : ThreadPool τ ρ) (w : ℕ) : List ρ :=
  (s.removed.filter (·.1 = w)).filterMap Prod.snd

/-- The requests that worker `w` has passed to `process()`. -/
def passedBy (s : ThreadPool τ ρ) (w : ℕ) : List ρ := (s.passed.filter (·.1 = w)).map Prod.snd

/-- The request that worker `w` is about to pass on. -/
def takenBy (s : ThreadPool τ ρ) (w : ℕ) : List ρ := (s.workers[w]?.bind Pc.held).toList

/-- The requests that workers have taken and not yet passed on. -/
def taken (s : ThreadPool τ ρ) : List ρ := s.workers.filterMap Pc.held

structure Conserved [DecidableEq ρ] (s : ThreadPool τ ρ) : Prop where
  order : s.accepted = s.removed.map Prod.snd ++ s.workqueue
  byWorker : ∀ w, s.removedBy w = s.passedBy w ++ s.takenBy w
  count : ∀ r : ρ, (s.removed.filterMap Prod.snd).count r =
    (s.passed.map Prod.snd).count r + s.taken.count r
  returned : ∀ r, s.accepted.count r = s.returned.count r + (s.posting.map Prod.snd).count r

/-- The workers around the one that moves. -/
theorem workers_split {w : ℕ} {pc : Pc ρ} (hw : s.workers[w]? = some pc) :
    ∃ before after, s.workers = before ++ pc :: after ∧
      ∀ pc', s.workers.set w pc' = before ++ pc' :: after := by
  obtain ⟨hlt, heq⟩ := List.getElem?_eq_some_iff.mp hw
  refine ⟨s.workers.take w, s.workers.drop (w + 1), ?_, fun pc' => ?_⟩
  · rw [← heq, ← List.drop_eq_getElem_cons hlt, List.take_append_drop]
  · rw [List.set_eq_take_append_cons_drop, if_pos hlt]

theorem takenBy_setWorker {w : ℕ} {pc : Pc ρ} (hw : s.workers[w]? = some pc) (pc' : Pc ρ)
    (w' : ℕ) :
    (s.setWorker w pc').takenBy w' = if w = w' then pc'.held.toList else s.takenBy w' := by
  obtain ⟨hlt, -⟩ := List.getElem?_eq_some_iff.mp hw
  unfold takenBy setWorker
  rw [List.getElem?_set]
  split
  · rfl
  · rfl

variable [DecidableEq ρ]

theorem conserved_start (threadNum : ℕ) : Conserved (start threadNum : ThreadPool τ ρ) where
  order := rfl
  byWorker := by
    intro w
    have hnone : (start threadNum : ThreadPool τ ρ).takenBy w = [] := by
      unfold takenBy start
      rw [List.getElem?_replicate]
      split <;> rfl
    rw [hnone]
    rfl
  count := by
    intro r
    have hnone : (start threadNum : ThreadPool τ ρ).taken = [] := by
      apply List.filterMap_eq_nil_iff.mpr
      intro pc hpc
      rw [List.eq_of_mem_replicate hpc]
      rfl
    rw [hnone]
    rfl
  returned := fun _ => rfl

theorem count_taken_setWorker {w : ℕ} {pc : Pc ρ} (hw : s.workers[w]? = some pc) (pc' : Pc ρ)
    (r : ρ) :
    (s.setWorker w pc').taken.count r + pc.held.toList.count r =
      s.taken.count r + pc'.held.toList.count r := by
  obtain ⟨before, after, hs, hset⟩ := workers_split hw
  unfold taken setWorker
  rw [hset, hs]
  simp only [List.filterMap_append, List.filterMap_cons, List.count_append]
  cases pc.held <;> cases pc'.held <;> simp only [Option.toList, List.count_cons, List.count_nil]
    <;> omega

/-- A worker goes on without taking or passing on a request. -/
theorem Conserved.setWorker (h : Conserved s) {w : ℕ} {pc pc' : Pc ρ}
    (hw : s.workers[w]? = some pc) (hheld : pc'.held = pc.held) :
    Conserved (s.setWorker w pc') where
  order := h.order
  byWorker := by
    intro w'
    have hsame : (s.setWorker w pc').takenBy w' = s.takenBy w' := by
      rw [takenBy_setWorker hw]
      split
      · rename_i heq
        rw [← heq, takenBy, hw, hheld]
        rfl
      · rfl
    rw [hsame]
    exact h.byWorker w'
  count := by
    intro r
    have hcount := count_taken_setWorker hw pc' r
    rw [hheld] at hcount
    have hbefore := h.count r
    show (s.removed.filterMap Prod.snd).count r = (s.passed.map Prod.snd).count r + _
    omega
  returned := h.returned

theorem Conserved.push (h : Conserved s) (th : τ) (request : Option ρ) :
    Conserved { s with
      workqueue := s.workqueue ++ [request]
      accepted := s.accepted ++ [request]
      posting := s.posting ++ [(th, request)] } where
  order := by
    show s.accepted ++ [request] = s.removed.map Prod.snd ++ (s.workqueue ++ [request])
    rw [h.order, List.append_assoc]
  byWorker := h.byWorker
  count := h.count
  returned := by
    intro r
    have hbefore := h.returned r
    simp only [List.count_append, List.map_append, List.map_cons, List.map_nil]
    omega

theorem Conserved.post [DecidableEq τ] (h : Conserved s) {th : τ} {request : Option ρ}
    (hmem : (th, request) ∈ s.posting) : Conserved (s.post th request) where
  order := h.order
  byWorker := h.byWorker
  count := h.count
  returned := by
    intro r
    have hbefore := h.returned r
    have hperm : (s.posting.map Prod.snd).Perm
        (request :: (s.posting.erase (th, request)).map Prod.snd) :=
      (List.perm_cons_erase hmem).map Prod.snd
    show s.accepted.count r = (s.returned ++ [request]).count r +
      ((s.posting.erase (th, request)).map Prod.snd).count r
    rw [hbefore, hperm.count_eq, List.count_append, List.count_cons, List.count_cons,
      List.count_nil]
    omega

/-- A worker pops the front of the queue. -/
theorem Conserved.take (h : Conserved s) {w : ℕ} {token : Bool} {request : Option ρ}
    {rest : List (Option ρ)} (hw : s.workers[w]? = some (.woken token))
    (hqueue : s.workqueue = request :: rest) :
    Conserved ({ s with workqueue := rest, removed := s.removed ++ [(w, request)] }.setWorker w
      (.taken request)) where
  order := by
    show s.accepted = (s.removed ++ [(w, request)]).map Prod.snd ++ rest
    rw [h.order, hqueue, List.map_append, List.append_assoc]
    rfl
  byWorker := by
    intro w'
    have hbefore := h.byWorker w'
    have htaken := takenBy_setWorker hw (.taken request) w'
    show ((s.removed ++ [(w, request)]).filter (·.1 = w')).filterMap Prod.snd =
      s.passedBy w' ++ (s.setWorker w (.taken request)).takenBy w'
    rw [htaken, List.filter_append, List.filterMap_append]
    change s.removedBy w' ++ _ = _
    rw [hbefore]
    by_cases hww : w = w'
    · -- it had no request in hand before
      have hnone : s.takenBy w' = [] := by
        rw [takenBy, ← hww, hw]
        rfl
      rw [if_pos hww, hnone, List.append_nil]
      cases request <;> simp [hww, Pc.held]
    · rw [if_neg hww]
      simp [hww]
  count := by
    intro r
    have hbefore := h.count r
    have hcount := count_taken_setWorker hw (.taken request) r
    show ((s.removed ++ [(w, request)]).filterMap Prod.snd).count r =
      (s.passed.map Prod.snd).count r + (s.setWorker w (.taken request)).taken.count r
    rw [List.filterMap_append, List.count_append]
    cases request <;> simp [Pc.held] at hcount ⊢ <;> omega
  returned := h.returned

/-- A worker passes on the request it has taken. -/
theorem Conserved.call (h : Conserved s) {w : ℕ} {request : ρ}
    (hw : s.workers[w]? = some (.taken (some request))) :
    Conserved ({ s with passed := s.passed ++ [(w, request)] }.setWorker w
      (.processing request)) where
  order := h.order
  byWorker := by
    intro w'
    have hbefore := h.byWorker w'
    have htaken := takenBy_setWorker hw (.processing request) w'
    show s.removedBy w' = ((s.passed ++ [(w, request)]).filter (·.1 = w')).map Prod.snd ++
      (s.setWorker w (.processing request)).takenBy w'
    rw [htaken, List.filter_append, List.map_append, hbefore]
    change _ = s.passedBy w' ++ _ ++ _
    by_cases hww : w = w'
    · have hone : s.takenBy w' = [request] := by
        rw [takenBy, ← hww, hw]
        rfl
      rw [if_pos hww, hone]
      simp [hww, Pc.held]
    · rw [if_neg hww]
      simp [hww]
  count := by
    intro r
    have hbefore := h.count r
    have hcount := count_taken_setWorker hw (.processing request) r
    show (s.removed.filterMap Prod.snd).count r =
      ((s.passed ++ [(w, request)]).map Prod.snd).count r +
        (s.setWorker w (.processing request)).taken.count r
    rw [List.map_append, List.count_append]
    simp [Pc.held] at hcount ⊢
    omega
  returned := h.returned

theorem conserved_step [DecidableEq τ] {a : Label τ ρ} (h : Conserved s)
    (ha : step maxRequests s a = some t) : Conserved t := by
  cases step_trans ha with
  | refused => exact h
  | push th request => exact h.push th request
  | post hmem => exact h.post hmem
  | wakeToken hw hpos =>
    have hset : Conserved (s.setWorker _ (.woken true)) := h.setWorker hw rfl
    exact ⟨hset.order, hset.byWorker, hset.count, hset.returned⟩
  | wakeEarly hw => exact h.setWorker hw rfl
  | retry hw hempty => exact h.setWorker hw rfl
  | take hw hqueue => exact h.take hw hqueue
  | skip hw => exact h.setWorker hw rfl
  | call hw => exact h.call hw
  | finish hw => exact h.setWorker hw rfl

/-! ## Tokens -/

/-- Every request in the queue has a token in the semaphore, at a worker that is about to look at
the queue, or with an `append` that is about to post it. A worker that returned early from
`wait()` only takes from the left side. -/
def Covered (s : ThreadPool τ ρ) : Prop :=
  s.workqueue.length ≤ s.queuestat + s.workers.count (.woken true) + s.posting.length

theorem count_woken_setWorker {w : ℕ} {pc : Pc ρ} (hw : s.workers[w]? = some pc) (pc' : Pc ρ) :
    (s.setWorker w pc').workers.count (.woken true) + (if pc = .woken true then 1 else 0) =
      s.workers.count (.woken true) + if pc' = .woken true then 1 else 0 := by
  obtain ⟨before, after, hs, hset⟩ := workers_split hw
  unfold setWorker
  rw [hset, hs]
  simp only [List.count_append, List.count_cons, beq_iff_eq]
  omega

theorem covered_step [DecidableEq τ] {a : Label τ ρ} (h : Covered s)
    (ha : step maxRequests s a = some t) : Covered t := by
  unfold Covered at h ⊢
  cases step_trans ha with
  | refused => exact h
  | push th request =>
    simp only [List.length_append, List.length_singleton]
    omega
  | @post th request hmem =>
    have hlen := List.length_erase_of_mem hmem
    have hpos := List.length_pos_of_mem hmem
    show s.workqueue.length ≤ s.queuestat + 1 + s.workers.count (.woken true) +
      (s.posting.erase (th, request)).length
    omega
  | @wakeToken w hw hpos =>
    have hcount := count_woken_setWorker hw (.woken true)
    rw [if_neg (by simp), if_pos rfl] at hcount
    show s.workqueue.length ≤ s.queuestat - 1 +
      (s.setWorker w (.woken true)).workers.count (.woken true) + s.posting.length
    omega
  | @wakeEarly w hw =>
    have hcount := count_woken_setWorker hw (.woken false)
    rw [if_neg (by simp), if_neg (by simp)] at hcount
    show s.workqueue.length ≤ s.queuestat +
      (s.setWorker w (.woken false)).workers.count (.woken true) + s.posting.length
    omega
  | retry hw hempty =>
    show s.workqueue.length ≤ _
    rw [hempty]
    exact Nat.zero_le _
  | @take w token request rest hw hqueue =>
    have hcount := count_woken_setWorker hw (.taken request)
    rw [hqueue, List.length_cons] at h
    rw [if_neg (show ¬ Pc.taken request = .woken true by simp)] at hcount
    show rest.length ≤ s.queuestat +
      (s.setWorker w (.taken request)).workers.count (.woken true) + s.posting.length
    split at hcount <;> omega
  | @skip w hw =>
    have hcount := count_woken_setWorker hw .waiting
    rw [if_neg (by simp), if_neg (by simp)] at hcount
    show s.workqueue.length ≤ s.queuestat +
      (s.setWorker w .waiting).workers.count (.woken true) + s.posting.length
    omega
  | @call w request hw =>
    have hcount := count_woken_setWorker hw (.processing request)
    rw [if_neg (by simp), if_neg (by simp)] at hcount
    show s.workqueue.length ≤ s.queuestat +
      (s.setWorker w (.processing request)).workers.count (.woken true) + s.posting.length
    omega
  | @finish w request hw =>
    have hcount := count_woken_setWorker hw .waiting
    rw [if_neg (by simp), if_neg (by simp)] at hcount
    show s.workqueue.length ≤ s.queuestat +
      (s.setWorker w .waiting).workers.count (.woken true) + s.posting.length
    omega

/-- While there is a request in the queue, somebody is on the way to it. -/
theorem Covered.awake (h : Covered s) (hqueue : s.workqueue ≠ []) :
    0 < s.queuestat ∨ (∃ w : ℕ, s.workers[w]? = some (.woken true)) ∨ s.posting ≠ [] := by
  have hlen : 0 < s.workqueue.length := List.length_pos_iff.mpr hqueue
  by_cases hposting : s.posting = []
  · by_cases hsem : 0 < s.queuestat
    · exact Or.inl hsem
    · have hcount : 0 < s.workers.count (.woken true) := by
        unfold Covered at h
        rw [hposting, List.length_nil] at h
        omega
      exact Or.inr (Or.inl (List.getElem?_of_mem (List.count_pos_iff.mp hcount)))
  · exact Or.inr (Or.inr hposting)

/-! ## Whole runs -/

/-- Accepted is passed on, taken, or still in the queue. -/
theorem Conserved.count_accepted (h : Conserved s) (r : ρ) :
    s.accepted.count (some r) =
      (s.passed.map Prod.snd).count r + s.taken.count r + s.workqueue.count (some r) := by
  have hpopped : (s.removed.map Prod.snd).count (some r) =
      (s.removed.filterMap Prod.snd).count r := by
    induction s.removed with
    | nil => rfl
    | cons p rest ih =>
      obtain ⟨w, request⟩ := p
      cases request <;> simp [List.count_cons, ih]
  rw [h.order, List.count_append, hpopped, h.count]

/-- In every state that any number of appending threads and workers can reach, whether or not
`sem_wait` returns early: requests leave the queue in the order in which they were accepted, each
worker passes those it takes on in that order, each at most once and none of them lost, and as long
as the queue is not empty somebody is on the way to it. -/
theorem requests_conserved [DecidableEq τ] (maxRequests threadNum : ℕ)
    (h : Machine.Reachable (step maxRequests) (start threadNum) s) :
    s.accepted = s.removed.map Prod.snd ++ s.workqueue ∧
      (∀ w, s.removedBy w = s.passedBy w ++ s.takenBy w) ∧
      (∀ r : ρ, s.accepted.count (some r) =
          (s.passed.map Prod.snd).count r + s.taken.count r + s.workqueue.count (some r) ∧
        s.returned.count (some r) ≤ s.accepted.count (some r)) ∧
      (s.workqueue ≠ [] →
        0 < s.queuestat ∨ (∃ w : ℕ, s.workers[w]? = some (.woken true)) ∨ s.posting ≠ []) := by
  have hc : Conserved s :=
    Machine.reachable_invariant (conserved_start threadNum) (fun _ _ _ => conserved_step) h
  have htokens : Covered s :=
    Machine.reachable_invariant (I := Covered) (Nat.zero_le _) (fun _ _ _ => covered_step) h
  refine ⟨hc.order, hc.byWorker, fun r => ⟨hc.count_accepted r, ?_⟩, htokens.awake⟩
  have hreturned := hc.returned (some r)
  omega

/-- Two requests are appended and taken, and the worker of the second one is the first to call
`process()`. -/
def overtaking : List (Label Unit ℕ) :=
  [.append () (some 1), .post () (some 1), .append () (some 2), .post () (some 2),
    .wait 0 true, .advance 0, .wait 1 true, .advance 1, .advance 1, .advance 0]

/-- The state it leads to. -/
def overtaken : ThreadPool Unit ℕ where
  workqueue := []
  queuestat := 0
  workers := [.processing 1, .processing 2]
  posting := []
  accepted := [some 1, some 2]
  returned := [some 1, some 2]
  removed := [(0, some 1), (1, some 2)]
  passed := [(1, 2), (0, 1)]

theorem exec_overtaking : Machine.exec (step 1) (start 2) overtaking = some overtaken := by
  decide

/-- Both requests are accounted for, each at its worker. -/
theorem requests_conserved_overtaken :
    Machine.exec (step 1) (start 2) overtaking = some overtaken ∧
      overtaken.accepted = overtaken.removed.map Prod.snd ++ overtaken.workqueue ∧
      overtaken.removedBy 0 = [1] :=
  have h := requests_conserved 1 2 ⟨overtaking, exec_overtaking⟩
  ⟨exec_overtaking, h.1, by decide⟩

/-- The requests 1 and 2 were accepted in this order, and passed to `process()` in the other. -/
theorem second_request_first :
    ∃ s : ThreadPool Unit ℕ, Machine.Reachable (step 1) (start 2) s ∧
      s.accepted = [some 1, some 2] ∧ s.passed.map Prod.snd = [2, 1] ∧
      ¬ ((s.passed.map Prod.snd).map some).Sublist s.accepted :=
  ⟨overtaken, ⟨overtaking, exec_overtaking⟩, rfl, rfl, by decide⟩

/-! ## The bound on the queue -/

def Bounded (maxRequests : ℕ) (s : ThreadPool τ ρ) : Prop := s.workqueue.length ≤ maxRequests

/-- `append` returns `false`, queues nothing and lets no `post()` follow exactly when the queue
holds `m_max_requests` requests. -/
def RefusedWhenFull (maxRequests : ℕ) (s : ThreadPool τ ρ) : Label τ ρ → Prop
  | .append th request =>
    s.append maxRequests th request = s ↔ s.workqueue.length = maxRequests
  | .post _ _ | .wait _ _ | .advance _ => True

/-- No `append` meets a queue of exactly `m_max_requests` requests, the one length at which
`size() > m_max_requests` and `size() >= m_max_requests` differ. -/
def OffLimit (maxRequests : ℕ) (s : ThreadPool τ ρ) : Label τ ρ → Prop
  | .append _ _ => s.workqueue.length ≠ maxRequests
  | .post _ _ | .wait _ _ | .advance _ => True

omit [DecidableEq ρ] in
theorem append_eq_self_iff {th : τ} {request : Option ρ} :
    s.append maxRequests th request = s ↔ maxRequests < s.workqueue.length := by
  unfold append
  split
  · rename_i hover
    exact iff_of_true rfl hover
  · rename_i hroom
    refine iff_of_false (fun h => ?_) hroom
    have hlen := congrArg (fun s => s.workqueue.length) h
    simp only [List.length_append, List.length_singleton] at hlen
    omega

theorem step_append_eq [DecidableEq τ] {th : τ} {request : Option ρ}
    (ha : step maxRequests s (.append th request) = some t) :
    t = s.append maxRequests th request := by
  simp only [step] at ha
  split at ha
  · cases ha
  · exact (Option.some.inj ha).symm

omit [DecidableEq ρ] in
theorem length_workqueue_append {th : τ} {request : Option ρ} :
    (s.append maxRequests th request).workqueue.length =
      if maxRequests < s.workqueue.length then s.workqueue.length
      else s.workqueue.length + 1 := by
  unfold append
  split
  · rfl
  · rw [List.length_append, List.length_singleton]

/-- Only `append` makes the queue longer. -/
theorem length_workqueue_step [DecidableEq τ] {a : Label τ ρ}
    (ha : step maxRequests s a = some t) (hother : ∀ th request, a ≠ .append th request) :
    t.workqueue.length ≤ s.workqueue.length := by
  cases a with
  | append th request => exact absurd rfl (hother th request)
  | post th request =>
    simp only [step] at ha
    split at ha
    · rw [← Option.some.inj ha]
      exact Nat.le_refl _
    · cases ha
  | wait w token =>
    simp only [step, wait] at ha
    split at ha
    · split at ha
      · split at ha
        · rw [← Option.some.inj ha]
          exact Nat.le_refl _
        · cases ha
      · rw [← Option.some.inj ha]
        exact Nat.le_refl _
    · cases ha
  | advance w =>
    simp only [step] at ha
    split at ha
    · rw [← Option.some.inj ha]
      unfold take
      split
      · exact Nat.le_refl _
      · rename_i hqueue
        rw [hqueue]
        exact Nat.le_succ _
    · rename_i request _
      rw [← Option.some.inj ha]
      cases request <;> exact Nat.le_refl _
    · rw [← Option.some.inj ha]
      exact Nat.le_refl _
    · cases ha

/-- The queue stays within `m_max_requests` and `append` refuses exactly at that length, over every
interleaving of any number of threads, exactly when no `append` of the run meets a queue of that
length. -/
theorem queue_bounded_iff [DecidableEq τ] (maxRequests threadNum : ℕ) (as : List (Label τ ρ)) :
    (Machine.Always (step maxRequests) (Bounded maxRequests) (start threadNum) as ∧
      Machine.Along (step maxRequests) (RefusedWhenFull maxRequests) (start threadNum) as) ↔
      Machine.Along (step maxRequests) (OffLimit maxRequests) (start threadNum) as := by
  have hstart : Bounded maxRequests (start threadNum : ThreadPool τ ρ) := Nat.zero_le _
  have hkeep : ∀ (s : ThreadPool τ ρ) a t, Bounded maxRequests s →
      step maxRequests s a = some t → OffLimit maxRequests s a → Bounded maxRequests t := by
    intro s a t hlen ha hoff
    unfold Bounded at hlen ⊢
    by_cases happend : ∃ th request, a = .append th request
    · obtain ⟨th, request, rfl⟩ := happend
      simp only [OffLimit] at hoff
      rw [step_append_eq ha, length_workqueue_append]
      split <;> omega
    · have hle := length_workqueue_step ha fun th request h => happend ⟨th, request, h⟩
      omega
  have hbound : Machine.Always (step maxRequests) (Bounded maxRequests) (start threadNum) as ↔
      Machine.Along (step maxRequests) (OffLimit maxRequests) (start threadNum) as := by
    apply Machine.always_iff_along (fun _ hlen => hlen) hkeep _ hstart
    intro s a t hlen ha hafter
    unfold Bounded at hlen hafter
    cases a with
    | append th request =>
      intro hfull
      rw [step_append_eq ha, length_workqueue_append, if_neg (by omega)] at hafter
      omega
    | post | wait | advance => trivial
  refine ⟨fun h => hbound.mp h.1, fun h => ⟨hbound.mpr h, ?_⟩⟩
  -- below the limit nothing is refused, and above it no run gets
  apply Machine.along_of_along _ hkeep hstart h
  intro s a t hlen ha hoff
  unfold Bounded at hlen
  cases a with
  | append th request =>
    simp only [OffLimit] at hoff
    simp only [RefusedWhenFull]
    rw [append_eq_self_iff]
    omega
  | post | wait | advance => trivial

/-- Two requests are appended while no worker takes one. -/
def twoAppends : List (Label Unit ℕ) :=
  [.append () (some 1), .post () (some 1), .append () (some 2)]

/-- A queue for one request holds both of them. -/
theorem queue_exceeds_limit : ¬ Machine.Always (step 1) (Bounded 1) (start 2) twoAppends := by
  intro h
  have hlen : (Machine.exec (step 1) (start 2) twoAppends).map (fun s => s.workqueue.length)
      = some 2 := by
    decide
  obtain ⟨s, hs, hlen⟩ := Option.map_eq_some_iff.mp hlen
  have hbound := h.last hs
  unfold Bounded at hbound
  omega

/-! ## The pool in the server -/

/-- The server and its pool have the same requests in `m_workqueue`. -/
def Serves (p : ThreadPool τ ℕ) (s : HttpServer) : Prop := p.workqueue = s.workqueue.map some

/-- `HttpServer.append` is `append` here. -/
theorem Serves.append {p : ThreadPool τ ℕ} {s : HttpServer} (h : Serves p s) (maxRequests : ℕ)
    (th : τ) (fd : ℕ) :
    Serves (p.append maxRequests th (some fd)) (s.append maxRequests fd).2 := by
  have hlen : p.workqueue.length = s.workqueue.length := by rw [h, List.length_map]
  unfold ThreadPool.append HttpServer.append
  rw [hlen]
  split
  · exact h
  · show p.workqueue ++ [some fd] = (s.workqueue ++ [fd]).map some
    rw [h, List.map_append]
    rfl

/-- `HttpServer.take` is what a worker does here once it is past `wait()`. -/
theorem Serves.take {p : ThreadPool τ ℕ} {s t : HttpServer} (h : Serves p s) {w : ℕ}
    (ht : s.take w = some t) : Serves (p.take w) t := by
  unfold HttpServer.take at ht
  split at ht <;> cases ht
  rename_i fd rest _ hqueue
  have hp : p.workqueue = some fd :: rest.map some := by rw [h, hqueue, List.map_cons]
  unfold ThreadPool.take
  rw [hp]
  rfl

end ThreadPool
end Webservers
