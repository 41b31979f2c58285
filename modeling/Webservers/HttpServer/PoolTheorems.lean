import Webservers.HttpServer.RestTheorems
import Webservers.ThreadPool

/-!
# The server with the semaphore of its pool (bck/include/threadpool.h)

`HttpServer` lets a worker take a request whenever there is one. In the code the worker has to get
past `m_queuestat.wait()` first: `append` posts the semaphore after it has given back
`m_queuelocker`, `sem_wait` may return early, and a worker that comes too late finds the queue
empty and waits again. `PooledServer` is the server with these steps.

* `pooled_refines`: the semaphore apart, its runs are runs of `HttpServer`, and the pool in it is a
  `ThreadPool`, so that somebody is on the way when there is a request in the queue.
* `comes_to_rest`: it gets done with what `epoll_wait` has reported, unless it gets to a call that
  does not come back as it should.

A worker that is at a store outside `m_read_buf` has no step here, and stays where it is.
-/

namespace Webservers

structure PooledServer where
  server : HttpServer
  /-- the value of `m_queuestat` -/
  queuestat : ℕ
  /-- the request in whose `append` the main thread is, between `push_back` and `post()` -/
  posting : Option ℕ
  /-- for each worker that is past `m_queuestat.wait()`, whether it took a token -/
  woken : List (Option Bool)

namespace PooledServer

def start (threadNum : ℕ) : PooledServer where
  server := .start threadNum
  queuestat := 0
  posting := none
  woken := List.replicate threadNum none

inductive Label where
  | serve (a : HttpServer.Label)
  /-- `m_queuestat.post()` -/
  | post
  /-- `m_queuestat.wait()`, which takes a token or returns early -/
  | wait (w : ℕ) (token : Bool)

def step (typeText : List UInt8) (maxRequests : ℕ) (p : PooledServer) :
    Label → Option PooledServer
  | .serve (.take w) =>
    match p.woken[w]? with
    | some (some _) =>
      if p.server.workqueue = [] then some { p with woken := p.woken.set w none }
      else (p.server.take w).map fun t => { p with server := t, woken := p.woken.set w none }
    | _ => none
  | .serve (.overrun _ _) => none
  | .serve a =>
    if a.isMain then
      -- the main thread does nothing else until its `append` has returned
      if p.posting = none then
        (p.server.step typeText maxRequests a).map fun t =>
          { p with server := t, posting := t.workqueue[p.server.workqueue.length]? }
      else none
    else (p.server.step typeText maxRequests a).map fun t => { p with server := t }
  | .post => p.posting.map fun _ => { p with posting := none, queuestat := p.queuestat + 1 }
  | .wait w token =>
    if p.server.workers[w]? = some .idle ∧ p.woken[w]? = some none then
      if token then
        if 0 < p.queuestat then
          some { p with queuestat := p.queuestat - 1, woken := p.woken.set w (some true) }
        else none
      else some { p with woken := p.woken.set w (some false) }
    else none

section Steps

variable {typeText : List UInt8} {maxRequests w : ℕ} {p q : PooledServer} {a : Label}

/-! ## What a step can do -/

/-- One constructor for each kind of step. -/
inductive Trans (typeText : List UInt8) (maxRequests : ℕ) (p : PooledServer) :
    Label → PooledServer → Prop
  | main {a : HttpServer.Label} {t : HttpServer} (hmain : a.isMain = true)
      (hposting : p.posting = none) (ht : p.server.step typeText maxRequests a = some t) :
      Trans typeText maxRequests p (.serve a)
        { p with server := t, posting := t.workqueue[p.server.workqueue.length]? }
  | process {w : ℕ} {fs : FileSystem} {t : HttpServer}
      (ht : p.server.step typeText maxRequests (.process w fs) = some t) :
      Trans typeText maxRequests p (.serve (.process w fs)) { p with server := t }
  | leave {w : ℕ} {t : HttpServer}
      (ht : p.server.step typeText maxRequests (.leave w) = some t) :
      Trans typeText maxRequests p (.serve (.leave w)) { p with server := t }
  | take {w : ℕ} {token : Bool} {t : HttpServer} (hw : p.woken[w]? = some (some token))
      (ht : p.server.step typeText maxRequests (.take w) = some t) :
      Trans typeText maxRequests p (.serve (.take w))
        { p with server := t, woken := p.woken.set w none }
  /-- the queue is empty -/
  | retry {w : ℕ} {token : Bool} (hw : p.woken[w]? = some (some token))
      (hempty : p.server.workqueue = []) :
      Trans typeText maxRequests p (.serve (.take w)) { p with woken := p.woken.set w none }
  | post {fd : ℕ} (hposting : p.posting = some fd) :
      Trans typeText maxRequests p .post { p with posting := none, queuestat := p.queuestat + 1 }
  | wakeToken {w : ℕ} (hidle : p.server.workers[w]? = some .idle) (hw : p.woken[w]? = some none)
      (hpos : 0 < p.queuestat) :
      Trans typeText maxRequests p (.wait w true)
        { p with queuestat := p.queuestat - 1, woken := p.woken.set w (some true) }
  | wakeEarly {w : ℕ} (hidle : p.server.workers[w]? = some .idle) (hw : p.woken[w]? = some none) :
      Trans typeText maxRequests p (.wait w false) { p with woken := p.woken.set w (some false) }

theorem step_trans (ha : p.step typeText maxRequests a = some q) :
    Trans typeText maxRequests p a q := by
  cases a with
  | serve a =>
    cases a with
    | wait | accept | handle =>
      simp only [step, HttpServer.Label.isMain, if_true] at ha
      split at ha
      · obtain ⟨t, ht, rfl⟩ := Option.map_eq_some_iff.mp ha
        exact .main rfl ‹_› ht
      · cases ha
    | overrun => cases ha
    | process w fs =>
      obtain ⟨t, ht, rfl⟩ := Option.map_eq_some_iff.mp ha
      exact .process ht
    | leave w =>
      obtain ⟨t, ht, rfl⟩ := Option.map_eq_some_iff.mp ha
      exact .leave ht
    | take w =>
      simp only [step] at ha
      split at ha
      · rename_i token hw
        split at ha
        · cases ha
          exact .retry hw ‹_›
        · obtain ⟨t, ht, rfl⟩ := Option.map_eq_some_iff.mp ha
          exact .take hw ht
      · cases ha
  | post =>
    obtain ⟨fd, hposting, rfl⟩ := Option.map_eq_some_iff.mp ha
    exact .post hposting
  | wait w token =>
    simp only [step] at ha
    split at ha
    · rename_i hwaits
      cases token with
      | true =>
        rw [if_pos rfl, Option.ite_none_right_eq_some, Option.some.injEq] at ha
        obtain ⟨hpos, rfl⟩ := ha
        exact .wakeToken hwaits.1 hwaits.2 hpos
      | false =>
        cases ha
        exact .wakeEarly hwaits.1 hwaits.2
    · cases ha

/-! ## The server in it -/

/-- The step of `HttpServer` that a step is, if it is one. -/
def seen (p : PooledServer) : Label → Option HttpServer.Label
  | .serve (.take w) => if p.server.workqueue = [] then none else some (.take w)
  | .serve a => some a
  | .post | .wait _ _ => none

theorem seen_of_main {a : HttpServer.Label} (h : a.isMain = true) : p.seen (.serve a) = some a := by
  cases a with
  | wait | accept | handle => rfl
  | take | process | overrun | leave => cases h

theorem exec_seen (ha : p.step typeText maxRequests a = some q) :
    Machine.exec (HttpServer.step typeText maxRequests) p.server (p.seen a).toList =
      some q.server := by
  have hone : ∀ {b : HttpServer.Label} {t : HttpServer},
      p.server.step typeText maxRequests b = some t →
      Machine.exec (HttpServer.step typeText maxRequests) p.server [b] = some t :=
    fun hb => Machine.exec_cons_eq_some.mpr ⟨_, hb, rfl⟩
  cases step_trans ha with
  | main hmain _ ht =>
    rw [seen_of_main hmain]
    exact hone ht
  | process ht | leave ht => exact hone ht
  | take hw ht =>
    obtain ⟨fd, rest, -, hq, -⟩ := HttpServer.take_eq_some ht
    rw [seen, if_neg (by rw [hq]; exact List.cons_ne_nil _ _)]
    exact hone ht
  | retry hw hempty =>
    rw [seen, if_pos hempty]
    rfl
  | post | wakeToken | wakeEarly => rfl

/-- What a step is for the server in it. -/
theorem server_step (ha : p.step typeText maxRequests a = some q) :
    (p.seen a = none ∧ q.server = p.server) ∨
      ∃ b ∈ p.seen a, p.server.step typeText maxRequests b = some q.server := by
  have hserver := exec_seen ha
  cases hseen : p.seen a with
  | none =>
    rw [hseen, Option.toList_none, Machine.exec_nil, Option.some.injEq] at hserver
    exact .inl ⟨rfl, hserver.symm⟩
  | some b =>
    rw [hseen] at hserver
    obtain ⟨t, ht, hq⟩ := Machine.exec_cons_eq_some.mp hserver
    cases hq
    exact .inr ⟨b, rfl, ht⟩

/-- No parser stores outside `m_read_buf`. -/
theorem contained_seen (ha : p.step typeText maxRequests a = some q) {b : HttpServer.Label}
    (hb : b ∈ p.seen a) : p.server.Contained b := by
  cases b with
  | overrun w left =>
    cases a with
    | serve a =>
      cases a with
      | take w =>
        rw [seen, Option.mem_def, Option.ite_none_left_eq_some] at hb
        cases hb.2
      | overrun => cases ha
      | wait | accept | handle | process | leave => cases hb
    | post | wait => cases hb
  | wait | accept | handle | take | process | leave => exact trivial

/-! ## The pool in it -/

/-- A worker, as the pool sees it. -/
def poolPc (pc : WorkerPc) (woken : Option Bool) : ThreadPool.Pc ℕ :=
  match pc.request with
  | some fd => .processing fd
  | none => woken.elim .waiting .woken

/-- The worker `w` in the pool. -/
def pcAt (p : PooledServer) (w : ℕ) : Option (ThreadPool.Pc ℕ) :=
  (p.server.workers[w]?).map fun pc => poolPc pc p.woken[w]?.join

/-- `t` is the pool of `p`. -/
structure Pools (p : PooledServer) (t : ThreadPool Unit ℕ) : Prop where
  workqueue : t.Serves p.server
  queuestat : t.queuestat = p.queuestat
  posting : t.posting = p.posting.toList.map fun fd => ((), some fd)
  workers : ∀ w : ℕ, t.workers[w]? = p.pcAt w
  /-- only a worker that has nothing to do waits -/
  idle : ∀ (w : ℕ) token, p.woken[w]? = some (some token) → p.server.workers[w]? = some .idle

theorem pools_start (threadNum : ℕ) : Pools (start threadNum) (ThreadPool.start threadNum) where
  workqueue := rfl
  queuestat := rfl
  posting := rfl
  workers w := by
    simp only [pcAt, start, HttpServer.start, ThreadPool.start, List.getElem?_replicate]
    split <;> rfl
  idle w token h := by
    simp only [start, List.getElem?_replicate] at h
    split at h <;> cases h

/-- A worker that is past `wait()`. -/
theorem Pools.woken_at {t : ThreadPool Unit ℕ} (h : Pools p t) {token : Bool}
    (hw : p.woken[w]? = some (some token)) : t.workers[w]? = some (.woken token) := by
  rw [h.workers, pcAt, h.idle w token hw, hw]
  rfl

/-- A worker that has a request. -/
theorem Pools.busy_at {t : ThreadPool Unit ℕ} (h : Pools p t) {pc : WorkerPc} {fd : ℕ}
    (hw : p.server.workers[w]? = some pc) (hpc : pc.request = some fd) :
    t.workers[w]? = some (.processing fd) ∧ p.woken[w]?.join = none := by
  constructor
  · rw [h.workers, pcAt, hw, Option.map_some, poolPc, hpc]
  · cases hwoken : p.woken[w]?.join with
    | none => rfl
    | some token =>
      have hidle := h.idle w token (Option.join_eq_some_iff.mp hwoken)
      rw [hw, Option.some.injEq] at hidle
      rw [hidle] at hpc
      cases hpc

/-- A step that concerns one worker. -/
theorem pools_workers {t : ThreadPool Unit ℕ} (h : Pools p t) {old pc : ThreadPool.Pc ℕ}
    (hold : t.workers[w]? = some old) (hw : q.pcAt w = some pc)
    (hothers : ∀ i, i ≠ w → q.pcAt i = p.pcAt i) (i : ℕ) :
    (t.workers.set w pc)[i]? = q.pcAt i := by
  by_cases heq : w = i
  · subst heq
    obtain ⟨hlt, -⟩ := List.getElem?_eq_some_iff.mp hold
    rw [List.getElem?_set_self hlt, hw]
  · rw [List.getElem?_set_ne heq, h.workers, hothers i (Ne.symm heq)]

theorem woken_set {woken : List (Option Bool)} {x : Option Bool} {i : ℕ} {token : Bool}
    (h : (woken.set w x)[i]? = some (some token)) :
    (i = w ∧ x = some token) ∨ (i ≠ w ∧ woken[i]? = some (some token)) := by
  rw [List.getElem?_set] at h
  split at h
  · rename_i heq
    rw [Option.ite_none_right_eq_some, Option.some.injEq] at h
    exact .inl ⟨heq.symm, h.2⟩
  · rename_i hne
    exact .inr ⟨Ne.symm hne, h⟩

/-- `append` of the main thread, if it calls it. -/
theorem Pools.main {t : ThreadPool Unit ℕ} (h : Pools p t) {s : HttpServer}
    (hposting : p.posting = none) (hfeeds : HttpServer.Feeds maxRequests p.server s) :
    ∃ bs u, Machine.exec (ThreadPool.step maxRequests) t bs = some u ∧
      Pools { p with server := s, posting := s.workqueue[p.server.workqueue.length]? } u := by
  obtain ⟨hworkers, hsame | ⟨fd, hroom, hpushed⟩⟩ := hfeeds
  · have hnone : s.workqueue[p.server.workqueue.length]? = none := by
      rw [hsame]
      exact List.getElem?_eq_none (Nat.le_refl _)
    refine ⟨[], t, rfl, ?_, h.queuestat, ?_, fun w => ?_, fun w token hw => ?_⟩
    · rw [ThreadPool.Serves, hsame]
      exact h.workqueue
    · simp only [hnone]
      rw [h.posting, hposting]
    · rw [h.workers, pcAt, pcAt, hworkers]
    · rw [hworkers]
      exact h.idle w token hw
  · have hsome : s.workqueue[p.server.workqueue.length]? = some fd := by
      rw [hpushed, List.getElem?_concat_length]
    have hlen : t.workqueue.length = p.server.workqueue.length := by
      rw [h.workqueue, List.length_map]
    have hnobody : t.posting = [] := by
      rw [h.posting, hposting]
      rfl
    have hstep : ThreadPool.step maxRequests t (.append () (some fd)) =
        some { t with
          workqueue := t.workqueue ++ [some fd]
          accepted := t.accepted ++ [some fd]
          posting := t.posting ++ [((), some fd)] } := by
      have hfree : () ∉ t.posting.map Prod.fst := by
        rw [hnobody]
        exact List.not_mem_nil
      rw [ThreadPool.step, if_neg hfree, ThreadPool.append, if_neg (by omega)]
    refine ⟨[.append () (some fd)], _, Machine.exec_cons_eq_some.mpr ⟨_, hstep, rfl⟩, ?_,
      h.queuestat, ?_, fun w => ?_, fun w token hw => ?_⟩
    · show t.workqueue ++ [some fd] = s.workqueue.map some
      rw [h.workqueue, hpushed, List.map_append]
      rfl
    · simp only [hsome, hnobody]
      rfl
    · rw [pcAt, hworkers]
      exact h.workers w
    · rw [hworkers]
      exact h.idle w token hw

/-- `process` of a worker, and its return. -/
theorem Pools.goesOn {t : ThreadPool Unit ℕ} (h : Pools p t) {s : HttpServer}
    (hgoes : HttpServer.GoesOn w p.server s) :
    ∃ bs u, Machine.exec (ThreadPool.step maxRequests) t bs = some u ∧
      Pools { p with server := s } u := by
  obtain ⟨hqueue, fd, pc, pc', hw, hpc, hworkers, hpc'⟩ := hgoes
  obtain ⟨hbusy, hnot⟩ := h.busy_at hw hpc
  obtain ⟨hlt, -⟩ := List.getElem?_eq_some_iff.mp hw
  have hserves : t.Serves s := by
    rw [ThreadPool.Serves, hqueue]
    exact h.workqueue
  have hself : s.workers[w]? = some pc' := by rw [hworkers, List.getElem?_set_self hlt]
  have hothers : ∀ i, i ≠ w → pcAt { p with server := s } i = p.pcAt i := by
    intro i hne
    rw [pcAt, pcAt, hworkers, List.getElem?_set_ne (Ne.symm hne)]
  have hidle : ∀ (i : ℕ) token, p.woken[i]? = some (some token) → s.workers[i]? = some .idle := by
    intro i token hi
    have hne : w ≠ i := by
      rintro rfl
      rw [hi] at hnot
      cases hnot
    rw [hworkers, List.getElem?_set_ne hne]
    exact h.idle i token hi
  rcases hpc' with hsame | rfl
  · refine ⟨[], t, rfl, hserves, h.queuestat, h.posting, fun i => ?_, hidle⟩
    by_cases heq : i = w
    · rw [heq, hbusy, pcAt, hself, Option.map_some, poolPc, hsame]
    · rw [hothers i heq, h.workers]
  · refine ⟨[.advance w], t.setWorker w .waiting, ?_, hserves, h.queuestat, h.posting,
      pools_workers h hbusy ?_ hothers, hidle⟩
    · exact Machine.exec_cons_eq_some.mpr ⟨_, by rw [ThreadPool.step, hbusy], rfl⟩
    · rw [pcAt, hself, Option.map_some, hnot]
      rfl

/-- A worker takes a request, and finds that it is not a null pointer. -/
theorem Pools.take {t : ThreadPool Unit ℕ} (h : Pools p t) {token : Bool} {s : HttpServer}
    (hw : p.woken[w]? = some (some token)) (ht : p.server.take w = some s) :
    ∃ bs u, Machine.exec (ThreadPool.step maxRequests) t bs = some u ∧
      Pools { p with server := s, woken := p.woken.set w none } u := by
  obtain ⟨fd, rest, hidle, hq, rfl⟩ := HttpServer.take_eq_some ht
  obtain ⟨hlt, -⟩ := List.getElem?_eq_some_iff.mp hidle
  have hat := h.woken_at hw
  have hqueue : t.workqueue = some fd :: rest.map some := by
    rw [h.workqueue, hq, List.map_cons]
  obtain ⟨hlt', -⟩ := List.getElem?_eq_some_iff.mp hat
  have htake : ThreadPool.step maxRequests t (.advance w) =
      some ({ t with
        workqueue := rest.map some
        removed := t.removed ++ [(w, some fd)] }.setWorker w (.taken (some fd))) := by
    rw [ThreadPool.step, hat]
    simp only [ThreadPool.take, hqueue]
  have hcall : ∀ u : ThreadPool Unit ℕ, u.workers[w]? = some (.taken (some fd)) →
      ThreadPool.step maxRequests u (.advance w) =
        some ({ u with passed := u.passed ++ [(w, fd)] }.setWorker w (.processing fd)) := by
    intro u hu
    rw [ThreadPool.step, hu]
    rfl
  have hself : ({ t with
      workqueue := rest.map some
      removed := t.removed ++ [(w, some fd)] }.setWorker w (.taken (some fd)) :
        ThreadPool Unit ℕ).workers[w]? = some (.taken (some fd)) :=
    List.getElem?_set_self hlt'
  refine ⟨[.advance w, .advance w], _, Machine.exec_cons_eq_some.mpr ⟨_, htake,
    Machine.exec_cons_eq_some.mpr ⟨_, hcall _ hself, rfl⟩⟩, rfl, h.queuestat, h.posting,
    fun i => ?_, fun i token' hi => ?_⟩
  · show ((t.workers.set w (.taken (some fd))).set w (.processing fd))[i]? = _
    rw [List.set_set]
    refine pools_workers h hat ?_ (fun j hne => ?_) i
    · simp only [pcAt, HttpServer.setWorker, List.getElem?_set_self hlt, Option.map_some]
      rfl
    · simp only [pcAt, HttpServer.setWorker, List.getElem?_set_ne (Ne.symm hne)]
  · obtain ⟨-, hx⟩ | ⟨hne, hi⟩ := woken_set hi
    · cases hx
    · show (p.server.workers.set w (.processing fd))[i]? = some .idle
      rw [List.getElem?_set_ne (Ne.symm hne)]
      exact h.idle i token' hi

/-- A worker goes on around `m_queuestat.wait()`. -/
theorem Pools.setWoken {t : ThreadPool Unit ℕ} (h : Pools p t) {old : Option Bool}
    (hw : p.woken[w]? = some old) (hidle : p.server.workers[w]? = some .idle) (woken : Option Bool)
    (queuestat : ℕ) :
    Pools { p with woken := p.woken.set w woken, queuestat := queuestat }
      ({ t with queuestat := queuestat }.setWorker w (woken.elim .waiting .woken)) := by
  obtain ⟨hlt, -⟩ := List.getElem?_eq_some_iff.mp hw
  refine ⟨h.workqueue, rfl, h.posting, ?_, fun i token hi => ?_⟩
  · refine pools_workers h (by rw [h.workers, pcAt, hidle]; rfl) ?_ fun i hne => ?_
    · rw [pcAt, hidle, List.getElem?_set_self hlt]
      rfl
    · simp only [pcAt, List.getElem?_set_ne (Ne.symm hne)]
  · obtain ⟨rfl, -⟩ | ⟨-, hi⟩ := woken_set hi
    · exact hidle
    · exact h.idle i token hi

/-- Every step is a step of the pool, two of them, or none. -/
theorem Pools.step {t : ThreadPool Unit ℕ} (h : Pools p t)
    (ha : p.step typeText maxRequests a = some q) :
    ∃ bs u, Machine.exec (ThreadPool.step maxRequests) t bs = some u ∧ Pools q u := by
  cases step_trans ha with
  | main hmain hposting ht => exact h.main hposting (HttpServer.feeds_step hmain ht)
  | process ht => exact h.goesOn (HttpServer.goesOn_process (HttpServer.step_process ht).2)
  | leave ht => exact h.goesOn (HttpServer.goesOn_leave ht)
  | take hw ht => exact h.take hw ht
  | @retry w token hw hempty =>
    have hnone : t.workqueue = [] := by rw [h.workqueue, hempty, List.map_nil]
    have htake : t.take w = t.setWorker w .waiting := by
      unfold ThreadPool.take
      rw [hnone]
    refine ⟨[.advance w], _, Machine.exec_cons_eq_some.mpr ⟨_, ?_, rfl⟩,
      h.setWoken hw (h.idle w token hw) none p.queuestat⟩
    rw [ThreadPool.step, h.woken_at hw, ← h.queuestat]
    exact congrArg some htake
  | @post fd hposting =>
    have hone : t.posting = [((), some fd)] := by
      rw [h.posting, hposting]
      rfl
    refine ⟨[.post () (some fd)], t.post () (some fd),
      Machine.exec_cons_eq_some.mpr ⟨_, ?_, rfl⟩, h.workqueue, ?_, ?_, h.workers, h.idle⟩
    · rw [ThreadPool.step, hone, if_pos List.mem_cons_self]
    · show t.queuestat + 1 = p.queuestat + 1
      rw [h.queuestat]
    · show t.posting.erase ((), some fd) = []
      rw [hone, List.erase_cons_head]
  | @wakeToken w hidle hw hpos =>
    have hat : t.workers[w]? = some .waiting := by
      rw [h.workers, pcAt, hidle, hw]
      rfl
    refine ⟨[.wait w true], _, Machine.exec_cons_eq_some.mpr ⟨_, ?_, rfl⟩,
      h.setWoken hw hidle (some true) (p.queuestat - 1)⟩
    rw [← h.queuestat] at hpos ⊢
    rw [ThreadPool.step, if_pos hat, ThreadPool.wait, if_pos rfl, if_pos hpos]
    rfl
  | @wakeEarly w hidle hw =>
    have hat : t.workers[w]? = some .waiting := by
      rw [h.workers, pcAt, hidle, hw]
      rfl
    refine ⟨[.wait w false], _, Machine.exec_cons_eq_some.mpr ⟨_, ?_, rfl⟩,
      h.setWoken hw hidle (some false) p.queuestat⟩
    rw [ThreadPool.step, if_pos hat, ThreadPool.wait, if_neg Bool.false_ne_true, ← h.queuestat]
    rfl

/-! ## What is left to do -/

/-- What the environment decides: when `epoll_wait` returns, and when `sem_wait` returns early. -/
def Label.isExternal : Label → Bool
  | .serve a => a.isWait
  | .post => false
  | .wait _ token => !token

/-- `HttpServer.work`, and the way of each request and each token to a worker. -/
def work (p : PooledServer) : ℕ :=
  p.server.work + 3 * p.posting.toList.length + 2 * p.queuestat + p.woken.countP Option.isSome

/-- Nothing is left to do until the next `epoll_wait`, and every worker is at `m_queuestat.wait()`
without a token to take. -/
def AtRest (p : PooledServer) : Prop :=
  p.server.AtRest ∧ p.posting = none ∧ p.queuestat = 0 ∧ ∀ x ∈ p.woken, x = none

theorem countP_set {woken : List (Option Bool)} {x : Option Bool} (hw : woken[w]? = some x)
    (y : Option Bool) :
    (woken.set w y).countP Option.isSome + x.toList.length =
      woken.countP Option.isSome + y.toList.length := by
  induction woken generalizing w with
  | nil => cases hw
  | cons a woken ih =>
    have hone : ∀ z : Option Bool, (if z.isSome = true then 1 else 0) = z.toList.length := by
      intro z
      cases z <;> rfl
    cases w with
    | zero =>
      cases hw
      rw [List.set_cons_zero, List.countP_cons, List.countP_cons, hone, hone]
      omega
    | succ w =>
      have hrest := ih hw
      rw [List.set_cons_succ, List.countP_cons, List.countP_cons]
      omega

/-- Every step that the environment does not decide leaves less to do. -/
theorem work_step (hext : a.isExternal = false) (ha : p.step typeText maxRequests a = some q) :
    q.work < p.work := by
  cases step_trans ha with
  | @main a t hmain hposting ht =>
    have hless := HttpServer.work_main hmain hext ht
    have hone : t.workqueue[p.server.workqueue.length]?.toList.length ≤ 1 := by
      cases t.workqueue[p.server.workqueue.length]? <;> simp
    simp only [work, hposting, Option.toList_none, List.length_nil]
    omega
  | @process w fs t ht =>
    have hless := HttpServer.work_step (a := .process w fs) trivial rfl ht
    simp only [work]
    omega
  | @leave w t ht =>
    have hless := HttpServer.work_step (a := .leave w) trivial rfl ht
    simp only [work]
    omega
  | @take w token t hw ht =>
    have hless := HttpServer.work_step (a := .take w) trivial rfl ht
    have hcount := countP_set hw none
    simp only [work]
    simp only [Option.toList_none, Option.toList_some, List.length_nil, List.length_singleton]
      at hcount
    omega
  | @retry w token hw hempty =>
    have hcount := countP_set hw none
    simp only [work]
    simp only [Option.toList_none, Option.toList_some, List.length_nil, List.length_singleton]
      at hcount
    omega
  | @post fd hposting =>
    simp only [work, hposting, Option.toList_none, Option.toList_some, List.length_nil,
      List.length_singleton]
    omega
  | @wakeToken w hidle hw hpos =>
    have hcount := countP_set hw (some true)
    simp only [work]
    simp only [Option.toList_none, Option.toList_some, List.length_nil, List.length_singleton]
      at hcount
    omega
  | wakeEarly => cases hext

/-! ## Going on -/

/-- Every step of the server in it meets the condition. -/
def OwnedOk (maxRequests : ℕ) (p : PooledServer) (a : Label) : Prop :=
  ∀ b ∈ p.seen a, HttpServer.OwnedOk maxRequests p.server b

/-- A new connection finds nothing left to send in its slot. -/
def Unsent (p : PooledServer) (a : Label) : Prop :=
  ∀ b ∈ p.seen a, p.server.Unsent b

/-- `accept` fails. -/
def Label.acceptFails : Label → Bool
  | .serve (.accept none _) => true
  | _ => false

/-- A step that the server makes by itself, and that refuses nobody. -/
structure Proceeds (maxRequests : ℕ) (p : PooledServer) (a : Label) : Prop where
  own : a.isExternal = false
  owned : OwnedOk maxRequests p a
  unsent : p.Unsent a

/-- Steps that are no steps of the server in it. -/
theorem Proceeds.of_unseen (hown : a.isExternal = false) (hseen : p.seen a = none) :
    Proceeds maxRequests p a := by
  have hnone : ∀ b, b ∉ p.seen a := fun b hb => Option.some_ne_none b (hb.symm.trans hseen)
  exact ⟨hown, fun b hb => absurd hb (hnone b), fun b hb => absurd hb (hnone b)⟩

theorem Proceeds.of_seen {b : HttpServer.Label} (hown : a.isExternal = false)
    (hseen : p.seen a = some b) (howned : HttpServer.OwnedOk maxRequests p.server b)
    (hunsent : p.server.Unsent b) : Proceeds maxRequests p a := by
  have hall : ∀ c ∈ p.seen a, b = c := fun c hc => Option.some.inj (hseen.symm.trans hc)
  exact ⟨hown, fun c hc => hall c hc ▸ howned, fun c hc => hall c hc ▸ hunsent⟩

/-- A token in the pool's hands is one in the server. -/
theorem Pools.woken_of {t : ThreadPool Unit ℕ} (h : Pools p t) {token : Bool}
    (hw : t.workers[w]? = some (.woken token)) : p.woken[w]? = some (some token) := by
  rw [h.workers, pcAt, Option.map_eq_some_iff] at hw
  obtain ⟨pc, -, hpc⟩ := hw
  unfold poolPc at hpc
  split at hpc
  · cases hpc
  · cases hwoken : p.woken[w]?.join with
    | none =>
      rw [hwoken] at hpc
      cases hpc
    | some token' =>
      rw [hwoken] at hpc
      cases hpc
      exact Option.join_eq_some_iff.mp hwoken

/-- While there is a request in the queue, somebody is on the way to it. -/
theorem Pools.awake {t : ThreadPool Unit ℕ} (h : Pools p t) (hcov : t.Covered)
    (hqueue : p.server.workqueue ≠ []) :
    0 < p.queuestat ∨ p.posting ≠ none ∨ ∃ w : ℕ, p.woken[w]? = some (some true) := by
  have hsome : t.workqueue ≠ [] := by
    rw [h.workqueue]
    exact fun hnil => hqueue (List.map_eq_nil_iff.mp hnil)
  obtain hpos | ⟨w, hw⟩ | hposting := hcov.awake hsome
  · exact .inl (h.queuestat ▸ hpos)
  · exact .inr (.inr ⟨w, h.woken_of hw⟩)
  · refine .inr (.inl fun hnone => hposting ?_)
    rw [h.posting, hnone]
    rfl

/-- `post()` of the main thread. -/
theorem exists_step_of_posting (typeText : List UInt8) (maxRequests : ℕ) (h : p.posting ≠ none) :
    ∃ a q, p.step typeText maxRequests a = some q ∧ Proceeds maxRequests p a ∧
      a.acceptFails = false := by
  obtain ⟨fd, hfd⟩ := Option.ne_none_iff_exists'.mp h
  exact ⟨.post, { p with posting := none, queuestat := p.queuestat + 1 },
    by rw [step, hfd, Option.map_some], .of_unseen rfl rfl, rfl⟩

/-- A worker that is past `wait()` looks at the queue. -/
theorem exists_step_of_woken (typeText : List UInt8) (maxRequests : ℕ) {token : Bool}
    (hw : p.woken[w]? = some (some token)) (hidle : p.server.workers[w]? = some .idle) :
    ∃ a q, p.step typeText maxRequests a = some q ∧ Proceeds maxRequests p a ∧
      a.acceptFails = false := by
  cases hq : p.server.workqueue with
  | nil =>
    refine ⟨.serve (.take w), { p with woken := p.woken.set w none }, ?_, .of_unseen rfl ?_,
      rfl⟩
    · simp only [step, hw, hq, if_true]
    · rw [seen, if_pos hq]
  | cons fd rest =>
    obtain ⟨t, ht⟩ : ∃ t, p.server.take w = some t := by
      simp only [HttpServer.take, hidle, hq]
      exact ⟨_, rfl⟩
    refine ⟨.serve (.take w), { p with server := t, woken := p.woken.set w none }, ?_,
      .of_seen (b := .take w) rfl ?_ trivial trivial, rfl⟩
    · simp only [step, hw, hq, reduceCtorEq, if_false, ht, Option.map_some]
    · rw [seen, if_neg (by rw [hq]; exact List.cons_ne_nil _ _)]

/-- `process` of a worker, or its return. -/
theorem exists_step_of_busy (typeText : List UInt8) (maxRequests : ℕ) (fs : FileSystem)
    {pc : WorkerPc} (hw : p.server.workers[w]? = some pc) (hbusy : pc ≠ .idle)
    (hgood : ¬ p.server.Faulty) :
    ∃ a q, p.step typeText maxRequests a = some q ∧ Proceeds maxRequests p a ∧
      a.acceptFails = false := by
  obtain ⟨u, hu⟩ | ⟨u, hu⟩ :=
    HttpServer.exists_step_of_busy typeText maxRequests fs hw hbusy hgood
  · exact ⟨.serve (.process w fs), { p with server := u }, congrArg (Option.map _) hu,
      .of_seen rfl rfl trivial trivial, rfl⟩
  · exact ⟨.serve (.leave w), { p with server := u }, congrArg (Option.map _) hu,
      .of_seen rfl rfl trivial trivial, rfl⟩

/-- A worker takes a token. -/
theorem exists_step_of_token (typeText : List UInt8) (maxRequests : ℕ) (h : 0 < p.queuestat)
    (hidle : p.server.workers[w]? = some .idle) (hw : p.woken[w]? = some none) :
    ∃ a q, p.step typeText maxRequests a = some q ∧ Proceeds maxRequests p a ∧
      a.acceptFails = false := by
  refine ⟨.wait w true, { p with
    queuestat := p.queuestat - 1
    woken := p.woken.set w (some true) }, ?_, .of_unseen rfl rfl, rfl⟩
  rw [step, if_pos ⟨hidle, hw⟩, if_pos rfl, if_pos h]

/-- What the main thread does when nobody else has anything to do. -/
theorem step_of_main (hposting : p.posting = none) {a : HttpServer.Label} (hmain : a.isMain = true)
    {t : HttpServer} (ht : p.server.step typeText maxRequests a = some t) :
    p.step typeText maxRequests (.serve a) = some { p with
      server := t
      posting := t.workqueue[p.server.workqueue.length]? } := by
  cases a with
  | wait | accept | handle =>
    simp only [step, HttpServer.Label.isMain, if_true, if_pos hposting, ht, Option.map_some]
  | take | process | overrun | leave => cases hmain

/-- The main thread looks at an entry about a connection; while the queue is empty, no request is
refused. -/
theorem exists_step_of_conn (typeText : List UInt8) (maxRequests : ℕ) (hposting : p.posting = none)
    (hempty : p.server.workqueue = []) {fd : ℕ} {events : Mask} {rest : List Report}
    (hev : p.server.events = .conn fd events :: rest) (hgood : ¬ p.server.Faulty) :
    ∃ a q, p.step typeText maxRequests a = some q ∧ Proceeds maxRequests p a ∧
      a.acceptFails = false := by
  obtain ⟨writes, t, ht⟩ := HttpServer.exists_handle typeText maxRequests hev hgood
  have howned : HttpServer.OwnedOk maxRequests p.server (.handle [] writes) := fun _ => by
    rw [hempty]
    exact Nat.zero_le _
  exact ⟨_, _, step_of_main hposting rfl ht, .of_seen rfl (seen_of_main rfl) howned trivial, rfl⟩

/-- It looks at the entry about the listening socket. -/
theorem exists_step_of_listen (typeText : List UInt8) (maxRequests : ℕ)
    (hposting : p.posting = none) {rest : List Report} (hev : p.server.events = .listen :: rest)
    {connfd : Option ℕ} (hfree : ∀ fd ∈ connfd, p.server.Untouched fd) :
    ∃ q, p.step typeText maxRequests (.serve (.accept connfd false)) = some q ∧
      Proceeds maxRequests p (.serve (.accept connfd false)) := by
  obtain ⟨t, ht⟩ := HttpServer.exists_accept typeText maxRequests hev fun fd hfd =>
    (hfree fd hfd).closed
  refine ⟨_, step_of_main hposting rfl ht, .of_seen rfl (seen_of_main rfl) ?_ ?_⟩
  · cases connfd with
    | none => trivial
    | some fd => exact (hfree fd rfl).ownedOk maxRequests
  · cases connfd with
    | none => trivial
    | some fd => exact (hfree fd rfl).unsent

/-- As long as something is left, some thread can go on, and refuses nobody; or it is the turn of
the listening socket. -/
theorem Pools.exists_step {t : ThreadPool Unit ℕ} (h : Pools p t) (hcov : t.Covered)
    (typeText : List UInt8) (maxRequests : ℕ) (fs : FileSystem)
    (hlen : p.woken.length = p.server.workers.length) (hworkers : p.server.workers ≠ [])
    (hrest : ¬ p.AtRest) (hgood : ¬ p.server.Faulty) :
    (∃ a q, p.step typeText maxRequests a = some q ∧ Proceeds maxRequests p a ∧
        a.acceptFails = false) ∨
      (p.posting = none ∧ ∃ rest, p.server.events = .listen :: rest) := by
  by_cases hposting : p.posting = none
  swap
  · exact .inl (exists_step_of_posting typeText maxRequests hposting)
  by_cases hwoken : ∀ x ∈ p.woken, x = none
  swap
  · obtain ⟨x, hx⟩ := not_forall.mp hwoken
    obtain ⟨hmem, hsome⟩ := Classical.not_imp.mp hx
    obtain ⟨token, rfl⟩ := Option.ne_none_iff_exists'.mp hsome
    obtain ⟨w, hw⟩ := List.mem_iff_getElem?.mp hmem
    exact .inl (exists_step_of_woken typeText maxRequests hw (h.idle w token hw))
  by_cases hidle : ∀ pc ∈ p.server.workers, pc = .idle
  swap
  · obtain ⟨pc, hpc⟩ := not_forall.mp hidle
    obtain ⟨hmem, hbusy⟩ := Classical.not_imp.mp hpc
    obtain ⟨w, hw⟩ := List.mem_iff_getElem?.mp hmem
    exact .inl (exists_step_of_busy typeText maxRequests fs hw hbusy hgood)
  by_cases hsem : p.queuestat = 0
  · -- nobody is on the way, so there is nothing in the queue
    have hempty : p.server.workqueue = [] := by
      by_contra hqueue
      obtain hpos | hpost | ⟨w, hw⟩ := h.awake hcov hqueue
      · omega
      · exact hpost hposting
      · exact absurd (hwoken _ (List.mem_of_getElem? hw)) (Option.some_ne_none _)
    have hevents : p.server.events ≠ [] := fun hnil =>
      hrest ⟨⟨hnil, hempty, hidle⟩, hposting, hsem, hwoken⟩
    obtain ⟨r, rest, hev⟩ := List.exists_cons_of_ne_nil hevents
    cases r with
    | listen => exact .inr ⟨hposting, rest, hev⟩
    | conn fd events =>
      exact .inl (exists_step_of_conn typeText maxRequests hposting hempty hev hgood)
  · have hpos : 0 < p.server.workers.length := List.length_pos_iff.mpr hworkers
    have hidle₀ : p.server.workers[0]? = some .idle := by
      rw [List.getElem?_eq_getElem hpos, hidle _ (List.getElem_mem hpos)]
    have hwoken₀ : p.woken[0]? = some none := by
      rw [List.getElem?_eq_getElem (hlen ▸ hpos), hwoken _ (List.getElem_mem _)]
    exact .inl
      (exists_step_of_token typeText maxRequests (Nat.pos_of_ne_zero hsem) hidle₀ hwoken₀)

/-! ## Whole runs -/

theorem length_woken_step (ha : p.step typeText maxRequests a = some q) :
    q.woken.length = p.woken.length := by
  cases step_trans ha with
  | main | process | leave | post => rfl
  | take | retry | wakeToken | wakeEarly => exact List.length_set

end Steps

/-- What is known of a server with its semaphore in every run: who is on the way to the queue. -/
structure Staffed (maxRequests threadNum : ℕ) (p : PooledServer) : Prop where
  workers : p.server.workers.length = threadNum
  woken : p.woken.length = threadNum
  pool : ∃ t, Machine.Reachable (ThreadPool.step maxRequests) (ThreadPool.start threadNum) t ∧
    Pools p t

section Runs

variable {typeText : List UInt8} {maxRequests threadNum : ℕ} {p q : PooledServer}

theorem staffed_start (maxRequests threadNum : ℕ) :
    Staffed maxRequests threadNum (start threadNum) where
  workers := List.length_replicate
  woken := List.length_replicate
  pool := ⟨_, ⟨[], rfl⟩, pools_start threadNum⟩

theorem Staffed.step (h : Staffed maxRequests threadNum p) {a : Label}
    (ha : p.step typeText maxRequests a = some q) : Staffed maxRequests threadNum q where
  workers := by
    rcases server_step ha with ⟨-, heq⟩ | ⟨b, hb, ht⟩
    · rw [heq]
      exact h.workers
    · exact (HttpServer.length_workers_step (contained_seen ha hb) ht).trans h.workers
  woken := (length_woken_step ha).trans h.woken
  pool := by
    obtain ⟨t, ⟨as, has⟩, hpools⟩ := h.pool
    obtain ⟨bs, u, hu, hpools'⟩ := hpools.step ha
    exact ⟨u, ⟨as ++ bs, Machine.exec_append_eq_some.mpr ⟨t, has, hu⟩⟩, hpools'⟩

theorem covered_of_reachable {t : ThreadPool Unit ℕ}
    (h : Machine.Reachable (ThreadPool.step maxRequests) (ThreadPool.start threadNum) t) :
    t.Covered :=
  Machine.reachable_invariant (Nat.zero_le _) (fun _ _ _ hs hb => ThreadPool.covered_step hs hb) h

theorem Staffed.exec (h : Staffed maxRequests threadNum p) {as : List Label}
    (ha : Machine.exec (PooledServer.step typeText maxRequests) p as = some q) :
    Staffed maxRequests threadNum q :=
  Machine.exec_invariant (fun _ _ _ hs hb => hs.step hb) h ha

theorem Staffed.covered (h : Staffed maxRequests threadNum p) :
    ∃ t, Pools p t ∧ t.Covered := by
  obtain ⟨t, ht, hpools⟩ := h.pool
  exact ⟨t, hpools, covered_of_reachable ht⟩

/-- What is known in a run in which nobody is refused: who is at work on a connection, that its slot
has to send what is due there, and that there is a descriptor for the next one. -/
structure Prompt (p : PooledServer) : Prop where
  orderly : p.server.Orderly
  onTime : ∀ fd, p.server.OnTime fd
  supplied : p.server.Supplied

theorem prompt_start (threadNum : ℕ) : Prompt (start threadNum) where
  orderly := HttpServer.orderly_start threadNum
  onTime _ := ⟨.closed, rfl, trivial⟩
  supplied := HttpServer.supplied_start threadNum

theorem Prompt.step {a : Label} (h : Prompt p) (ha : p.step typeText maxRequests a = some q)
    (hok : OwnedOk maxRequests p a) (hunsent : p.Unsent a) : Prompt q := by
  rcases server_step ha with ⟨-, heq⟩ | ⟨b, hb, ht⟩
  · exact ⟨heq ▸ h.orderly, heq ▸ h.onTime, heq ▸ h.supplied⟩
  · exact ⟨h.orderly.step ht (hok b hb),
      fun fd => (h.onTime fd).step h.orderly ht (hok b hb) (hunsent b hb),
      h.supplied.step h.orderly ht (hok b hb)⟩

/-- A step that refuses nobody, and for which the slot of a new connection has nothing to send. -/
theorem Prompt.proceeds {a : Label} (h : Prompt p) (ha : Proceeds maxRequests p a)
    (hstep : p.step typeText maxRequests a = some q) : Prompt q :=
  h.step hstep ha.owned ha.unsent

theorem Prompt.not_hangs (h : Prompt p) : ¬ p.server.Hangs :=
  HttpServer.OnTime.not_hangs h.orderly h.onTime

/-- A server that is not at rest goes on, unless it is at a call that does not come back. A new
connection is given the descriptor `connfd`, if there is one. -/
theorem Staffed.goes_on (h : Staffed maxRequests threadNum p) (hpos : 0 < threadNum)
    (typeText : List UInt8) (fs : FileSystem) (hrest : ¬ p.AtRest) (hgood : ¬ p.server.Faulty)
    {connfd : Option ℕ} (hfree : ∀ fd ∈ connfd, p.server.Untouched fd) :
    ∃ a q, p.step typeText maxRequests a = some q ∧ Proceeds maxRequests p a ∧
      (a.acceptFails = true → connfd = none) := by
  obtain ⟨t, hpools, hcov⟩ := h.covered
  have hworkers : p.server.workers ≠ [] := by
    intro hnil
    have hnone := h.workers
    rw [hnil, List.length_nil] at hnone
    omega
  have hlen : p.woken.length = p.server.workers.length := h.woken.trans h.workers.symm
  rcases hpools.exists_step hcov typeText maxRequests fs hlen hworkers hrest hgood with
    ⟨a, q, hq, ha, hnot⟩ | ⟨hposting, rest, hev⟩
  · exact ⟨a, q, hq, ha, fun hfails => absurd (hnot.symm.trans hfails) Bool.noConfusion⟩
  · obtain ⟨q, hq, ha⟩ := exists_step_of_listen typeText maxRequests hposting hev hfree
    refine ⟨_, q, hq, ha, fun hfails => ?_⟩
    cases connfd with
    | none => rfl
    | some fd => cases hfails

/-- It goes on with less to do, and every `accept` gives a connection. -/
theorem Staffed.goes_on_accepting (h : Staffed maxRequests threadNum p) (hprompt : Prompt p)
    (hpos : 0 < threadNum) (typeText : List UInt8) (fs : FileSystem)
    (hnot : ¬ (p.AtRest ∨ p.server.Faulty)) :
    ∃ a q, p.step typeText maxRequests a = some q ∧
      (Proceeds maxRequests p a ∧ a.acceptFails = false) ∧
      (Staffed maxRequests threadNum q ∧ Prompt q) ∧ q.work < p.work := by
  obtain ⟨hrest, hgood⟩ := not_or.mp hnot
  obtain ⟨n, hn⟩ := hprompt.supplied
  have hfree : ∀ fd ∈ some n, p.server.Untouched fd := fun fd hfd =>
    Option.some.inj hfd ▸ hn n (Nat.le_refl n)
  obtain ⟨a, q, hq, ha, hfails⟩ := h.goes_on hpos typeText fs hrest hgood hfree
  have hgives : a.acceptFails = false :=
    Bool.eq_false_iff.mpr fun h => Option.some_ne_none n (hfails h)
  exact ⟨a, q, hq, ⟨ha, hgives⟩, ⟨h.step hq, hprompt.proceeds ha hq⟩, work_step ha.own hq⟩

end Runs

/-- The worker 0, whose `sem_wait` returns early, takes the first of three requests; the worker 1,
which took the token for it, finds an empty queue. Then comes the second. -/
def overtaken : List Label :=
  (HttpServer.threeRequests.take 8).map .serve ++
    [.post, .wait 1 true, .wait 0 false, .serve (.take 0), .serve (.take 1),
      .serve (.handle [.data [71]] [])]

/-- From every state that is reached, with at least one worker, without a refused request and with
`m_bytes_to_send` at 0 in the slot of every new connection: until the next `epoll_wait` or early
return of `sem_wait`, the server makes at most `work` steps, whatever the threads do first and
whatever the calls find; when none of them can go on, everything that was reported is done and every
worker waits, or the server is at a call that does not come back as it should. As long as no request
is refused, that call is not `write`, which always returns; and the end can be reached so, with
every `accept` giving a connection: then every open connection is armed, or a worker is at a store
outside `m_read_buf`. -/
theorem comes_to_rest (typeText : List UInt8) (maxRequests threadNum : ℕ) (hpos : 0 < threadNum)
    (fs : FileSystem) (as : List Label) {p : PooledServer}
    (hexec : Machine.exec (step typeText maxRequests) (start threadNum) as = some p)
    (hok : Machine.Along (step typeText maxRequests) (OwnedOk maxRequests) (start threadNum) as)
    (hunsent : Machine.Along (step typeText maxRequests) Unsent (start threadNum) as) :
    (∀ bs q, Machine.exec (step typeText maxRequests) p bs = some q →
        (∀ a ∈ bs, a.isExternal = false) → bs.length + q.work ≤ p.work ∧
        ((∀ a, a.isExternal = false → q.step typeText maxRequests a = none) →
          q.AtRest ∨ q.server.Faulty)) ∧
      (∀ bs q, Machine.exec (step typeText maxRequests) p bs = some q →
        Machine.Along (step typeText maxRequests) (Proceeds maxRequests) p bs →
        ¬ q.server.Hangs) ∧
      ∃ bs q, Machine.exec (step typeText maxRequests) p bs = some q ∧
        Machine.Along (step typeText maxRequests)
          (fun p a => Proceeds maxRequests p a ∧ a.acceptFails = false) p bs ∧
        (q.AtRest ∧ (∀ fd, q.server.opened fd = true → q.server.armed fd ≠ .none) ∨
          ∃ w, q.server.overruns w = true) := by
  have hstaffed := (staffed_start maxRequests threadNum).exec hexec
  have hprompt : Prompt p :=
    Machine.exec_invariant_along (I := Prompt)
      (fun _ _ _ h hoka ha => h.step ha hoka.1 hoka.2) (prompt_start threadNum)
      (hok.and hunsent) hexec
  refine ⟨fun bs q hq hown => ?_, fun bs q hq halong => ?_, ?_⟩
  · have hless : ∀ (p : PooledServer) (a : Label) (q : PooledServer), a.isExternal = false →
        p.step typeText maxRequests a = some q → q.work < p.work := fun _ _ _ => work_step
    refine ⟨Machine.exec_length_le work hless (Machine.along_of_forall hown) hq, ?_⟩
    intro hstuck
    by_contra hnot
    obtain ⟨hrest, hgood⟩ := not_or.mp hnot
    have hnone : ∀ fd ∈ none, q.server.Untouched fd := fun _ hfd =>
      absurd hfd (Option.not_mem_none _)
    obtain ⟨a, u, hu, ha, -⟩ := (hstaffed.exec hq).goes_on hpos typeText fs hrest hgood hnone
    rw [hstuck a ha.own] at hu
    cases hu
  · have hlast : Prompt q := Machine.exec_invariant_along (I := Prompt)
      (fun _ _ _ h ha hstep => h.proceeds ha hstep) hprompt halong hq
    exact hlast.not_hangs
  · obtain ⟨bs, q, hq, halong, ⟨-, hprompt'⟩, hdone⟩ :=
      Machine.exists_exec_of_measure
        (I := fun q => Staffed maxRequests threadNum q ∧ Prompt q) work
        (fun q => q.AtRest ∨ q.server.Faulty)
        (fun q hq hnot => hq.1.goes_on_accepting hq.2 hpos typeText fs hnot) ⟨hstaffed, hprompt⟩
    refine ⟨bs, q, hq, halong, ?_⟩
    rcases hdone with hrest | hover | hhangs
    · left
      exact ⟨hrest, fun fd => hprompt'.orderly.sound.armed_of_atRest hrest.1⟩
    · exact .inr hover
    · exact absurd hhangs hprompt'.not_hangs

instance (s : HttpServer) : DecidablePred s.Unsent := fun
  | .accept (some _) false => inferInstanceAs (Decidable (_ = _))
  | .accept (some _) true | .accept none _ => .isTrue trivial
  | .wait _ | .handle _ _ | .take _ | .process _ _ | .overrun _ _ | .leave _ => .isTrue trivial

instance (maxRequests : ℕ) (p : PooledServer) : DecidablePred (OwnedOk maxRequests p) :=
  fun a => inferInstanceAs (Decidable (∀ b ∈ p.seen a, HttpServer.OwnedOk maxRequests p.server b))

instance (p : PooledServer) : DecidablePred p.Unsent :=
  fun a => inferInstanceAs (Decidable (∀ b ∈ p.seen a, p.server.Unsent b))

/-- Three requests have been reported, there is one worker, and the queue has room for one. -/
theorem comes_to_rest_threeRequests :
    ∃ p q bs, Machine.exec (step [] 1) (start 1) ((HttpServer.threeRequests.take 7).map .serve) =
        some p ∧ p.server.events.length = 3 ∧
      Machine.exec (step [] 1) p bs = some q ∧ (q.AtRest ∨ ∃ w, q.server.overruns w = true) := by
  have hrun : (Machine.exec (step [] 1) (start 1)
      ((HttpServer.threeRequests.take 7).map .serve)).map (fun p => p.server.events.length) =
      some 3 := by decide +kernel
  obtain ⟨p, hp, hevents⟩ := Option.map_eq_some_iff.mp hrun
  have hok : Machine.Along (step [] 1) (OwnedOk 1) (start 1)
      ((HttpServer.threeRequests.take 7).map .serve) := by decide +kernel
  have hunsent : Machine.Along (step [] 1) Unsent (start 1)
      ((HttpServer.threeRequests.take 7).map .serve) := by decide +kernel
  obtain ⟨-, -, bs, q, hq, -, hdone⟩ := comes_to_rest [] 1 1 Nat.one_pos HttpConn.twoByteFiles
    ((HttpServer.threeRequests.take 7).map .serve) hp hok hunsent
  exact ⟨p, q, bs, hp, hevents, hq, hdone.imp_left And.left⟩

end PooledServer
end Webservers
