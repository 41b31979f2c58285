import Webservers.EventLoopThreadPool

/-!
# Starting a server (src/TcpServer.cc, src/EventLoopThreadPool.cc, src/Acceptor.cc)

`start()` may be called on any thread, and by several of them at once. The one that finds
`started_` at 0 makes the threads of the pool one after the other, waits for the loop of each, and
then lets the base loop run `Acceptor::listen`. From then on the base loop accepts, and picks a loop
for each connection from `loops_`, a member that `start()` has written on another thread, without
a lock.

* `StartingServer` is the machine: any number of threads in `start()`, the new threads, and the
  base loop, whose thread is 0;
* `Stage` says how far the start has come, `Pooled` what is in the pool;
* `launched_once`: as long as `start()` was called at most 2^32 times one call does all of it, and
  the base loop reads `loops_` only after the last write to it.
-/

namespace Webservers

open TcpServer (baseLoop)

/-- Where a thread stands in `start()`. -/
inductive StartPc where
  | idle
  /-- at the test of the `for` of `EventLoopThreadPool::start` -/
  | inPool (i : ℕ)
  /-- in `startLoop()` of the thread with index `t` -/
  | inStartLoop (i t : ℕ)
  /-- behind the `for` -/
  | pastLoop
  /-- the pool is started -/
  | toListen
deriving Repr, DecidableEq

structure StartingServer where
  /-- `started_`, a `std::atomic_int` -/
  started : BitVec 32
  pool : EventLoopThreadPool
  /-- `Thread::numCreated_` -/
  numCreated : ℤ
  /-- `threadInitCallback_` is set -/
  threadInitCallback : Bool
  pcs : ℕ → StartPc
  /-- the calls of `listen` that the base loop still has to run -/
  queue : TaskQueue Unit
  listenning : Bool
  acceptChannel : Channel
  /-- history: how often `start()` was called -/
  calls : ℕ
  /-- history: how often `listen()` was run -/
  listened : ℕ
  /-- history: the loops that `threadInitCallback_` was called with -/
  initialised : List ℕ
  /-- history: the loops that `newConnection` was given -/
  chosen : List ℕ

namespace StartingServer

def new (nameArg : List UInt8) (threadInitCallback : Bool) (numCreated : ℤ) : StartingServer where
  started := 0
  pool := .new nameArg
  numCreated := numCreated
  threadInitCallback := threadInitCallback
  pcs := fun _ => .idle
  queue := .empty
  listenning := false
  acceptChannel := .new
  calls := 0
  listened := 0
  initialised := []
  chosen := []

def setPc (s : StartingServer) (th : ℕ) (pc : StartPc) : StartingServer :=
  { s with pcs := Function.update s.pcs th pc }

/-- `if (callback_) callback_(loop)` -/
def callback (s : StartingServer) (loop : ℕ) : StartingServer :=
  if s.threadInitCallback then { s with initialised := s.initialised ++ [loop] } else s

/-- `Acceptor::listen()` -/
def listen (s : StartingServer) : StartingServer :=
  { s with
    listenning := true
    acceptChannel := s.acceptChannel.enableReading
    listened := s.listened + 1 }

inductive Label where
  | setThreadNum (numThreads : ℤ)
  /-- the call of `start()`, with its `started_++` -/
  | start (th : ℕ)
  /-- the test `i < numThreads_`, and `new EventLoopThread` if it holds -/
  | poolTest (th : ℕ)
  /-- the thread with index `t` runs `callback_` and stores `loop_` -/
  | publish (t : ℕ)
  | startLoopReturn (th : ℕ)
  /-- the end of `EventLoopThreadPool::start` -/
  | poolReturn (th : ℕ)
  /-- `loop_->runInLoop(listen)` -/
  | runInLoop (th : ℕ)
  /-- the base loop takes its functors -/
  | swap
  | runFunctor
  /-- the base loop handles the accept channel; `connected` is whether `accept` succeeds -/
  | handleRead (connected : Bool)
deriving Repr, DecidableEq

def step (s : StartingServer) : Label → Option StartingServer
  | .setThreadNum numThreads => some { s with pool := s.pool.setThreadNums numThreads }
  | .start th =>
    if s.pcs th = .idle then
      let t := { s with started := s.started + 1, calls := s.calls + 1 }
      if s.started = 0 then
        some { t.setPc th (.inPool 0) with pool := { s.pool with started := true } }
      else some t
    else none
  | .poolTest th =>
    match s.pcs th with
    | .inPool i =>
      if (i : ℤ) < s.pool.numThreads then
        some { s.setPc th (.inStartLoop i s.pool.threads.length) with
          pool := s.pool.createThread i (toInt (s.numCreated + 1))
          numCreated := toInt (s.numCreated + 1) }
      else some (s.setPc th .pastLoop)
    | _ => none
  | .publish t =>
    match s.pool.threads[t]? with
    | some thread =>
      if thread.published then none
      else some { s.callback (t + 1) with pool := s.pool.publish t }
    | none => none
  | .startLoopReturn th =>
    match s.pcs th with
    | .inStartLoop i t =>
      if (s.pool.threads[t]?).any PoolThread.published then
        some { s.setPc th (.inPool (i + 1)) with pool := s.pool.addLoop t }
      else none
    | _ => none
  | .poolReturn th =>
    match s.pcs th with
    | .pastLoop =>
      some ((if s.pool.numThreads = 0 then s.callback baseLoop else s).setPc th .toListen)
    | _ => none
  | .runInLoop th =>
    match s.pcs th with
    | .toListen =>
      some ((if th = baseLoop then s.listen else { s with queue := s.queue.emplace () }).setPc th
        .idle)
    | _ => none
  | .swap =>
    if s.pcs baseLoop = .idle then s.queue.swap.map fun q => { s with queue := q } else none
  | .runFunctor =>
    if s.pcs baseLoop = .idle then
      s.queue.next.map fun (_, q) => { s with queue := q }.listen
    else none
  | .handleRead connected =>
    if s.pcs baseLoop = .idle ∧ s.queue.batch = [] ∧ s.acceptChannel.index = .kAdded then
      if connected then
        s.pool.getNextLoop.map fun (loop, pool) =>
          { s with pool := pool, chosen := s.chosen ++ [loop] }
      else some s
    else none

/-! ## The pool -/

/-- What is in the pool, at any time. -/
structure Pooled (s : StartingServer) : Prop where
  loops : s.pool.loops = List.range' 1 s.pool.loops.length
  length_le : s.pool.loops.length ≤ s.pool.threads.length
  name : ∀ (t : ℕ) thread, s.pool.threads[t]? = some thread →
    thread.name = cText s.pool.name ++ formatUnsigned t
  published : ∀ t < s.pool.loops.length, (s.pool.threads[t]?).any PoolThread.published = true
  initialised : s.threadInitCallback = true → ∀ (t : ℕ) thread,
    s.pool.threads[t]? = some thread → thread.published = true → t + 1 ∈ s.initialised
  numThreads : s.pool.numThreads < 2 ^ 31

section Pool

variable {s t : StartingServer}

theorem pooled_new (nameArg : List UInt8) (cb : Bool) (numCreated : ℤ) :
    Pooled (new nameArg cb numCreated) where
  loops := rfl
  length_le := Nat.le_refl 0
  name _ _ h := by cases h
  published _ h := absurd h (Nat.not_lt_zero _)
  initialised _ _ _ h := by cases h
  numThreads := show (0 : ℤ) < 2 ^ 31 by decide

/-- Steps that leave the threads and the loops alone. -/
theorem Pooled.frame (h : Pooled s) (hloops : t.pool.loops = s.pool.loops)
    (hthreads : t.pool.threads = s.pool.threads) (hname : t.pool.name = s.pool.name)
    (hcb : t.threadInitCallback = s.threadInitCallback)
    (hinit : ∀ loop ∈ s.initialised, loop ∈ t.initialised)
    (hnum : t.pool.numThreads < 2 ^ 31) : Pooled t where
  loops := by rw [hloops]; exact h.loops
  length_le := by rw [hloops, hthreads]; exact h.length_le
  name := by rw [hthreads, hname]; exact h.name
  published := by rw [hloops, hthreads]; exact h.published
  initialised hset i thread hthread hpub := by
    rw [hthreads] at hthread
    exact hinit _ (h.initialised (hcb ▸ hset) i thread hthread hpub)
  numThreads := hnum

/-- The next thread gets the next name. -/
theorem Pooled.createThread (h : Pooled s) (hlt : (s.pool.threads.length : ℤ) < s.pool.numThreads)
    (num : ℤ) : Pooled { s with pool := s.pool.createThread s.pool.threads.length num } where
  loops := h.loops
  length_le := by
    show s.pool.loops.length ≤ (s.pool.threads ++ [_]).length
    rw [List.length_append]
    exact Nat.le_trans h.length_le (Nat.le_add_right _ _)
  name := by
    intro t thread hthread
    have hnum := h.numThreads
    rcases lt_or_ge t s.pool.threads.length with hold | hnew
    · exact h.name t thread ((List.getElem?_append_left hold).symm.trans hthread)
    · have hthread' : (s.pool.threads ++ [PoolThread.mk (setDefaultName num
          (s.pool.threadName s.pool.threads.length)) false])[t]? = some thread := hthread
      rw [List.getElem?_append_right hnew, List.getElem?_singleton] at hthread'
      split at hthread'
      · rename_i hzero
        cases hthread'
        rw [show t = s.pool.threads.length by omega]
        exact s.pool.setDefaultName_threadName (by omega) num
      · cases hthread'
  published := by
    intro t ht
    have hlt' : t < s.pool.threads.length := Nat.lt_of_lt_of_le ht h.length_le
    show ((s.pool.threads ++ [_])[t]?).any PoolThread.published = true
    rw [List.getElem?_append_left hlt']
    exact h.published t ht
  initialised := by
    intro hset t thread hthread hpub
    rcases lt_or_ge t s.pool.threads.length with hold | hnew
    · have hthread' := (List.getElem?_append_left hold).symm.trans hthread
      exact h.initialised hset t thread hthread' hpub
    · have hthread' : (s.pool.threads ++ [PoolThread.mk (setDefaultName num
          (s.pool.threadName s.pool.threads.length)) false])[t]? = some thread := hthread
      rw [List.getElem?_append_right hnew, List.getElem?_singleton] at hthread'
      split at hthread'
      · cases hthread'
        cases hpub
      · cases hthread'
  numThreads := h.numThreads

/-- A thread stores its loop after it has run `callback_`. -/
theorem Pooled.publish (h : Pooled s) (t : ℕ) :
    Pooled { s.callback (t + 1) with pool := s.pool.publish t } := by
  have hget : ∀ i, (s.pool.publish t).threads[i]? =
      (s.pool.threads[i]?).map fun thread =>
        if t = i then { thread with published := true } else thread := by
    intro i
    show (s.pool.threads.modify t _)[i]? = _
    rw [List.getElem?_modify]
    split <;> rfl
  have hcb : (s.callback (t + 1)).threadInitCallback = s.threadInitCallback := by
    unfold callback
    split <;> rfl
  refine ⟨h.loops, ?_, ?_, ?_, ?_, h.numThreads⟩
  · show s.pool.loops.length ≤ (s.pool.threads.modify t _).length
    rw [List.length_modify]
    exact h.length_le
  · intro i thread hthread
    obtain ⟨old, hold, rfl⟩ := Option.map_eq_some_iff.mp ((hget i).symm.trans hthread)
    have hname := h.name i old hold
    split <;> exact hname
  · intro i hi
    have hpub := h.published i hi
    rw [hget, Option.any_map]
    cases hold : s.pool.threads[i]? with
    | none =>
      rw [hold] at hpub
      cases hpub
    | some old =>
      rw [hold] at hpub
      simp only [Option.any_some] at hpub ⊢
      split
      · rfl
      · exact hpub
  · intro hset i thread hthread hpub
    obtain ⟨old, hold, rfl⟩ := Option.map_eq_some_iff.mp ((hget i).symm.trans hthread)
    have hset' : s.threadInitCallback = true := hcb ▸ hset
    show i + 1 ∈ (s.callback (t + 1)).initialised
    simp only [callback, hset', if_true, List.mem_append, List.mem_singleton]
    by_cases heq : t = i
    · exact .inr (by omega)
    · rw [if_neg heq] at hpub
      exact .inl (h.initialised hset' i old hold hpub)

/-- The loop of the first thread that has none in `loops_` yet. -/
theorem Pooled.addLoop (h : Pooled s)
    (hpub : (s.pool.threads[s.pool.loops.length]?).any PoolThread.published = true) :
    Pooled { s with pool := s.pool.addLoop s.pool.loops.length } where
  loops := by
    show s.pool.loops ++ [s.pool.loops.length + 1] =
      List.range' 1 (s.pool.loops ++ [s.pool.loops.length + 1]).length
    rw [List.length_append, List.length_singleton, List.range'_concat, ← h.loops, Nat.add_comm 1,
      Nat.one_mul]
  length_le := by
    show (s.pool.loops ++ [_]).length ≤ s.pool.threads.length
    rw [List.length_append, List.length_singleton]
    by_contra hlt
    rw [List.getElem?_eq_none (by omega)] at hpub
    cases hpub
  name := h.name
  published := by
    intro t ht
    have ht' : t < (s.pool.loops ++ [s.pool.loops.length + 1]).length := ht
    rw [List.length_append, List.length_singleton] at ht'
    by_cases heq : t = s.pool.loops.length
    · exact heq ▸ hpub
    · exact h.published t (by omega)
  initialised := h.initialised
  numThreads := h.numThreads

end Pool

/-! ## The stages of a start -/

/-- Nobody has asked the base loop to listen yet. -/
structure Quiet (s : StartingServer) : Prop where
  next : s.pool.next = 0
  queue : s.queue.all = []
  listened : s.listened = 0
  chosen : s.chosen = []
  acceptChannel : s.acceptChannel = .new

/-- What is in the pool when the thread that starts it stands at `pc`. -/
def At (p : EventLoopThreadPool) : StartPc → Prop
  | .idle => False
  | .inPool i => p.loops.length = i ∧ p.threads.length = i
  | .inStartLoop i t => p.loops.length = i ∧ t = i ∧ p.threads.length = i + 1
  | .pastLoop | .toListen => True

/-- The `j`-th of the loops that are given out in turn. -/
def turn (loops : List ℕ) (j : ℕ) : ℕ := if loops = [] then baseLoop else j % loops.length + 1

/-- How far the start has come. -/
inductive Stage (s : StartingServer) : Prop
  | before (hcalls : s.calls = 0) (hidle : ∀ th, s.pcs th = .idle)
      (hthreads : s.pool.threads = []) (hquiet : Quiet s)
  | inside (th : ℕ) (hcalls : 0 < s.calls) (hidle : ∀ th', th' ≠ th → s.pcs th' = .idle)
      (hat : At s.pool (s.pcs th)) (hquiet : Quiet s)
  | queued (hcalls : 0 < s.calls) (hidle : ∀ th, s.pcs th = .idle) (hnext : s.pool.next = 0)
      (hqueue : s.queue.all = [()]) (hlistened : s.listened = 0) (hchosen : s.chosen = [])
      (hchannel : s.acceptChannel = .new)
  | listening (hcalls : 0 < s.calls) (hidle : ∀ th, s.pcs th = .idle)
      (hnext : s.pool.next = if s.pool.loops = [] then 0 else s.chosen.length % s.pool.loops.length)
      (hqueue : s.queue.all = []) (hlistened : s.listened = 1)
      (hchosen : s.chosen = (List.range s.chosen.length).map (turn s.pool.loops))

structure Inv (s : StartingServer) : Prop where
  counted : s.started = BitVec.ofNat 32 s.calls
  pooled : Pooled s
  stage : Stage s

theorem inv_new (nameArg : List UInt8) (cb : Bool) (numCreated : ℤ) :
    Inv (new nameArg cb numCreated) where
  counted := rfl
  pooled := pooled_new nameArg cb numCreated
  stage := .before rfl (fun _ => rfl) rfl ⟨rfl, rfl, rfl, rfl, rfl⟩

section Stages

variable {s t : StartingServer} {th : ℕ}

/-- A thread in `start()` is the one that starts the pool. -/
theorem Stage.inside_of_busy (h : Stage s) (th : ℕ) (hbusy : s.pcs th ≠ .idle) :
    0 < s.calls ∧ (∀ th', th' ≠ th → s.pcs th' = .idle) ∧ At s.pool (s.pcs th) ∧ Quiet s := by
  cases h with
  | before hcalls hidle => exact absurd (hidle th) hbusy
  | inside th₀ hcalls hidle hat hquiet =>
    by_cases heq : th = th₀
    · subst heq
      exact ⟨hcalls, hidle, hat, hquiet⟩
    · exact absurd (hidle th heq) hbusy
  | queued hcalls hidle => exact absurd (hidle th) hbusy
  | listening hcalls hidle => exact absurd (hidle th) hbusy

/-- That thread goes on. -/
theorem Stage.advance (hcalls : 0 < s.calls) (hidle : ∀ th', th' ≠ th → s.pcs th' = .idle)
    (hquiet : Quiet s) (pc : StartPc) (pool : EventLoopThreadPool) (hat : At pool pc)
    (hnext : pool.next = s.pool.next) (numCreated : ℤ) (initialised : List ℕ) :
    Stage { s.setPc th pc with
      pool := pool
      numCreated := numCreated
      initialised := initialised } := by
  refine .inside th hcalls (fun th' hne => ?_) ?_
    ⟨hnext.trans hquiet.next, hquiet.queue, hquiet.listened, hquiet.chosen, hquiet.acceptChannel⟩
  · show Function.update s.pcs th pc th' = .idle
    rw [Function.update_of_ne hne]
    exact hidle th' hne
  · show At pool (Function.update s.pcs th pc th)
    rw [Function.update_self]
    exact hat

/-- Steps that the start does not notice. -/
theorem Stage.frame (h : Stage s) (hcalls : t.calls = s.calls ∨ 0 < s.calls ∧ s.calls ≤ t.calls)
    (hpcs : t.pcs = s.pcs) (hthreads : t.pool.threads.length = s.pool.threads.length)
    (hloops : t.pool.loops = s.pool.loops) (hnext : t.pool.next = s.pool.next)
    (hqueue : t.queue.all = s.queue.all) (hlistened : t.listened = s.listened)
    (hchosen : t.chosen = s.chosen) (hchannel : t.acceptChannel = s.acceptChannel) : Stage t := by
  have hquiet : Quiet s → Quiet t := fun h =>
    ⟨hnext.trans h.next, hqueue.trans h.queue, hlistened.trans h.listened,
      hchosen.trans h.chosen, hchannel.trans h.acceptChannel⟩
  have hpos : 0 < s.calls → 0 < t.calls := by omega
  cases h with
  | before hzero hidle hnone hq =>
    refine .before (by omega) (hpcs ▸ hidle) ?_ (hquiet hq)
    rw [hnone] at hthreads
    exact List.length_eq_zero_iff.mp hthreads
  | inside th hone hidle hat hq =>
    refine .inside th (hpos hone) (hpcs ▸ hidle) ?_ (hquiet hq)
    rw [hpcs]
    generalize s.pcs th = pc at hat
    cases pc with
    | idle => exact hat
    | inPool i => exact ⟨hloops ▸ hat.1, hthreads.trans hat.2⟩
    | inStartLoop i t => exact ⟨hloops ▸ hat.1, hat.2.1, hthreads.trans hat.2.2⟩
    | pastLoop | toListen => trivial
  | queued hone hidle hn hq hl hc hch =>
    exact .queued (hpos hone) (hpcs ▸ hidle) (hnext.trans hn) (hqueue.trans hq)
      (hlistened.trans hl) (hchosen.trans hc) (hchannel.trans hch)
  | listening hone hidle hn hq hl hc =>
    refine .listening (hpos hone) (hpcs ▸ hidle) ?_ (hqueue.trans hq) (hlistened.trans hl) ?_
    · rw [hnext, hloops, hchosen]
      exact hn
    · rw [hchosen, hloops]
      exact hc

/-- The first run of `listen()`. -/
theorem Stage.listen (hcalls : 0 < s.calls) (hidle : ∀ th, s.pcs th = .idle)
    (hnext : s.pool.next = 0) (hqueue : s.queue.all = []) (hlistened : s.listened = 0)
    (hchosen : s.chosen = []) : Stage s.listen := by
  refine .listening hcalls hidle ?_ hqueue ?_ ?_
  · show s.pool.next = if s.pool.loops = [] then 0 else s.chosen.length % s.pool.loops.length
    rw [hnext, hchosen, List.length_nil, Nat.zero_mod, ite_self]
  · show s.listened + 1 = 1
    rw [hlistened]
  · show s.chosen = (List.range s.chosen.length).map (turn s.pool.loops)
    rw [hchosen]
    rfl

/-- The loop that a connection gets. -/
theorem Stage.handleRead (h : Stage s) (hpooled : Pooled s)
    (hadded : s.acceptChannel.index = .kAdded) {loop : ℕ} {pool : EventLoopThreadPool}
    (hget : s.pool.getNextLoop = some (loop, pool)) :
    Stage { s with pool := pool, chosen := s.chosen ++ [loop] } ∧
      pool = { s.pool with next := pool.next } := by
  have hnew : s.acceptChannel ≠ .new := by
    intro heq
    rw [heq] at hadded
    exact absurd hadded (by decide)
  cases h with
  -- the base loop handles its accept channel only after `listen()`
  | before hcalls hidle hthreads hquiet => exact absurd hquiet.acceptChannel hnew
  | inside th hcalls hidle hat hquiet => exact absurd hquiet.acceptChannel hnew
  | queued hcalls hidle hnext hqueue hlistened hchosen hchannel => exact absurd hchannel hnew
  | listening hcalls hidle hnext hqueue hlistened hchosen =>
    have hlen : (s.chosen ++ [loop]).length = s.chosen.length + 1 := by
      rw [List.length_append, List.length_singleton]
    have hrange : turn s.pool.loops s.chosen.length = loop → s.chosen ++ [loop] =
        (List.range (s.chosen ++ [loop]).length).map (turn s.pool.loops) := by
      intro hturn
      rw [hlen, List.range_succ, List.map_append, ← hchosen, List.map_singleton, hturn]
    unfold EventLoopThreadPool.getNextLoop at hget
    split at hget
    -- no thread in the pool: the base loop takes every connection
    · rename_i hnil
      cases hget
      refine ⟨.listening hcalls hidle ?_ hqueue hlistened (hrange (if_pos hnil)), rfl⟩
      rw [if_pos hnil] at hnext ⊢
      exact hnext
    · rename_i hsome
      rw [if_neg hsome] at hnext
      obtain ⟨loop', hloop, heq⟩ := Option.map_eq_some_iff.mp hget
      cases heq
      have hne : s.pool.loops.length ≠ 0 := fun hzero => hsome (List.length_eq_zero_iff.mp hzero)
      have hlt : s.chosen.length % s.pool.loops.length < s.pool.loops.length :=
        Nat.mod_lt _ (Nat.pos_of_ne_zero hne)
      have hturn : turn s.pool.loops s.chosen.length = loop := by
        rw [hnext, EventLoopThreadPool.getElem?_loops hpooled.loops hlt, Option.some.injEq] at hloop
        rw [turn, if_neg hsome, hloop]
      refine ⟨.listening hcalls hidle ?_ hqueue hlistened (hrange hturn), rfl⟩
      simp only [if_neg hsome, hlen, hnext]
      exact (TcpServer.succ_mod_turn hne s.chosen.length).symm

end Stages

/-! ## Steps -/

section Steps

variable {s t : StartingServer} {th : ℕ}

/-- Only the first of 2^32 calls finds `started_` at 0. -/
theorem inv_start (h : Inv s) (ha : step s (.start th) = some t) (hcalls : t.calls ≤ 2 ^ 32) :
    Inv t := by
  simp only [step, Option.ite_none_right_eq_some] at ha
  obtain ⟨hidle, ha⟩ := ha
  have hcounted : s.started + 1 = BitVec.ofNat 32 (s.calls + 1) := by
    rw [h.counted, BitVec.ofNat_add]
    rfl
  split at ha
  · rename_i hzero
    cases ha
    have hlt : s.calls < 2 ^ 32 := hcalls
    -- `started_` is 0 and has not wrapped: this is the first call
    have hnone : s.calls = 0 := by
      have hmod : (BitVec.ofNat 32 s.calls).toNat = 0 := by
        rw [← h.counted, hzero]
        rfl
      rw [BitVec.toNat_ofNat, Nat.mod_eq_of_lt hlt] at hmod
      exact hmod
    cases h.stage with
    | before _ hall hthreads hquiet =>
      refine ⟨hcounted, h.pooled.frame rfl rfl rfl rfl (fun _ => id) h.pooled.numThreads, ?_⟩
      refine .inside th (Nat.succ_pos _) (fun th' hne => ?_) ?_
        ⟨hquiet.next, hquiet.queue, hquiet.listened, hquiet.chosen, hquiet.acceptChannel⟩
      · show Function.update s.pcs th (.inPool 0) th' = .idle
        rw [Function.update_of_ne hne]
        exact hall th'
      · show At _ (Function.update s.pcs th (.inPool 0) th)
        rw [Function.update_self]
        have hle := h.pooled.length_le
        rw [hthreads, List.length_nil] at hle
        exact ⟨Nat.le_zero.mp hle, by rw [hthreads]; rfl⟩
    | inside _ hpos => omega
    | queued hpos => omega
    | listening hpos => omega
  · rename_i hstarted
    cases ha
    have hpos : 0 < s.calls := by
      rw [Nat.pos_iff_ne_zero]
      intro hzero
      rw [h.counted, hzero] at hstarted
      exact hstarted rfl
    -- a later call does nothing but count
    refine ⟨hcounted, h.pooled.frame rfl rfl rfl rfl (fun _ => id) h.pooled.numThreads, ?_⟩
    exact h.stage.frame (.inr ⟨hpos, Nat.le_succ _⟩) rfl rfl rfl rfl rfl rfl rfl rfl

theorem inv_poolTest (h : Inv s) (ha : step s (.poolTest th) = some t) : Inv t := by
  simp only [step] at ha
  split at ha
  · rename_i i hpc
    obtain ⟨hcalls, hidle, hat, hquiet⟩ :=
      h.stage.inside_of_busy th (by rw [hpc]; exact StartPc.noConfusion)
    rw [hpc] at hat
    obtain ⟨hloops, hthreads⟩ := hat
    split at ha
    · rename_i hlt
      cases ha
      subst hthreads
      refine ⟨h.counted, (h.pooled.createThread hlt _).frame rfl rfl rfl rfl (fun _ => id)
        h.pooled.numThreads, ?_⟩
      refine Stage.advance hcalls hidle hquiet _
        (s.pool.createThread s.pool.threads.length (toInt (s.numCreated + 1))) ?_ rfl
        (toInt (s.numCreated + 1)) s.initialised
      refine ⟨hloops, rfl, ?_⟩
      show (s.pool.threads ++ [_]).length = _
      rw [List.length_append, List.length_singleton]
    · cases ha
      refine ⟨h.counted, h.pooled.frame rfl rfl rfl rfl (fun _ => id) h.pooled.numThreads, ?_⟩
      exact Stage.advance hcalls hidle hquiet .pastLoop s.pool trivial rfl s.numCreated
        s.initialised
  · cases ha

theorem callback_same (s : StartingServer) (loop : ℕ) :
    s.callback loop = { s with initialised := (s.callback loop).initialised } ∧
      ∀ loop' ∈ s.initialised, loop' ∈ (s.callback loop).initialised := by
  unfold callback
  split
  · exact ⟨rfl, fun loop' hmem => List.mem_append_left _ hmem⟩
  · exact ⟨rfl, fun _ => id⟩

theorem inv_publish (h : Inv s) {i : ℕ} (ha : step s (.publish i) = some t) : Inv t := by
  simp only [step] at ha
  split at ha
  · split at ha
    · cases ha
    · cases ha
      have hpooled := h.pooled.publish i
      obtain ⟨hsame, -⟩ := callback_same s (i + 1)
      rw [hsame] at hpooled ⊢
      refine ⟨h.counted, hpooled, h.stage.frame (.inl rfl) rfl ?_ rfl rfl rfl rfl rfl rfl⟩
      exact List.length_modify _ _ _
  · cases ha

theorem inv_startLoopReturn (h : Inv s) (ha : step s (.startLoopReturn th) = some t) : Inv t := by
  simp only [step] at ha
  split at ha
  · rename_i i j hpc
    obtain ⟨hcalls, hidle, hat, hquiet⟩ :=
      h.stage.inside_of_busy th (by rw [hpc]; exact StartPc.noConfusion)
    rw [hpc] at hat
    obtain ⟨hloops, hj, hthreads⟩ := hat
    split at ha
    -- `startLoop` returns the loop of the thread made last, and the pool pushes it
    · rename_i hpub
      cases ha
      rw [hj, ← hloops] at hpub ⊢
      refine ⟨h.counted, (h.pooled.addLoop hpub).frame rfl rfl rfl rfl (fun _ => id)
        h.pooled.numThreads, ?_⟩
      refine Stage.advance hcalls hidle hquiet (.inPool (s.pool.loops.length + 1))
        (s.pool.addLoop s.pool.loops.length) ?_ rfl s.numCreated s.initialised
      constructor
      · show (s.pool.loops ++ [_]).length = _
        rw [List.length_append, List.length_singleton]
      · show s.pool.threads.length = _
        rw [hthreads, hloops]
    · cases ha
  · cases ha

theorem inv_poolReturn (h : Inv s) (ha : step s (.poolReturn th) = some t) : Inv t := by
  simp only [step] at ha
  split at ha
  · rename_i hpc
    obtain ⟨hcalls, hidle, -, hquiet⟩ :=
      h.stage.inside_of_busy th (by rw [hpc]; exact StartPc.noConfusion)
    cases ha
    have hstage : ∀ initialised, Stage { s.setPc th .toListen with initialised := initialised } :=
      fun initialised =>
        Stage.advance hcalls hidle hquiet .toListen s.pool trivial rfl s.numCreated initialised
    obtain ⟨hsame, hmem⟩ := callback_same s baseLoop
    split
    · rw [hsame]
      exact ⟨h.counted, h.pooled.frame rfl rfl rfl rfl hmem h.pooled.numThreads, hstage _⟩
    · exact ⟨h.counted, h.pooled.frame rfl rfl rfl rfl (fun _ => id) h.pooled.numThreads,
        hstage s.initialised⟩
  · cases ha

theorem inv_runInLoop (h : Inv s) (ha : step s (.runInLoop th) = some t) : Inv t := by
  simp only [step] at ha
  split at ha
  · rename_i hpc
    obtain ⟨hcalls, hidle, -, hquiet⟩ :=
      h.stage.inside_of_busy th (by rw [hpc]; exact StartPc.noConfusion)
    cases ha
    have hall : ∀ th', Function.update s.pcs th .idle th' = .idle := by
      intro th'
      by_cases heq : th' = th
      · rw [heq, Function.update_self]
      · rw [Function.update_of_ne heq]
        exact hidle th' heq
    split
    · refine ⟨h.counted, h.pooled.frame rfl rfl rfl rfl (fun _ => id) h.pooled.numThreads, ?_⟩
      exact Stage.listen (s := s.setPc th .idle) hcalls hall hquiet.next hquiet.queue
        hquiet.listened hquiet.chosen
    · refine ⟨h.counted, h.pooled.frame rfl rfl rfl rfl (fun _ => id) h.pooled.numThreads, ?_⟩
      refine .queued hcalls hall hquiet.next ?_ hquiet.listened hquiet.chosen
        hquiet.acceptChannel
      show (s.queue.emplace ()).all = [()]
      rw [TaskQueue.all_emplace, hquiet.queue]
      rfl
  · cases ha

/-- The base loop runs `listen()`: it was queued once, and nobody is in `start()`. -/
theorem inv_runFunctor (h : Inv s) (ha : step s .runFunctor = some t) : Inv t := by
  simp only [step, Option.ite_none_right_eq_some] at ha
  obtain ⟨-, ha⟩ := ha
  obtain ⟨⟨f, q⟩, hnext, rfl⟩ := Option.map_eq_some_iff.mp ha
  have hall := TaskQueue.all_next hnext
  refine ⟨h.counted, h.pooled.frame rfl rfl rfl rfl (fun _ => id) h.pooled.numThreads, ?_⟩
  cases h.stage with
  | before _ _ _ hquiet =>
    rw [hquiet.queue] at hall
    cases hall
  | inside _ _ _ _ hquiet =>
    rw [hquiet.queue] at hall
    cases hall
  | queued hcalls hidle hzero hqueue hlistened hchosen =>
    rw [hqueue, List.cons.injEq] at hall
    exact Stage.listen (s := { s with queue := q }) hcalls hidle hzero hall.2.symm hlistened
      hchosen
  | listening _ _ _ hqueue =>
    rw [hqueue] at hall
    cases hall

theorem inv_step {a : Label} (h : Inv s) (ha : step s a = some t) (hcalls : t.calls ≤ 2 ^ 32) :
    Inv t := by
  cases a with
  | setThreadNum n =>
    cases ha
    have hnum : toInt n < 2 ^ 31 := Int.bmod_lt (by decide)
    exact ⟨h.counted, h.pooled.frame rfl rfl rfl rfl (fun _ => id) hnum,
      h.stage.frame (.inl rfl) rfl rfl rfl rfl rfl rfl rfl rfl⟩
  | start th => exact inv_start h ha hcalls
  | poolTest th => exact inv_poolTest h ha
  | publish i => exact inv_publish h ha
  | startLoopReturn th => exact inv_startLoopReturn h ha
  | poolReturn th => exact inv_poolReturn h ha
  | runInLoop th => exact inv_runInLoop h ha
  | swap =>
    simp only [step, Option.ite_none_right_eq_some] at ha
    obtain ⟨-, ha⟩ := ha
    obtain ⟨q, hswap, rfl⟩ := Option.map_eq_some_iff.mp ha
    exact ⟨h.counted, h.pooled.frame rfl rfl rfl rfl (fun _ => id) h.pooled.numThreads,
      h.stage.frame (.inl rfl) rfl rfl rfl rfl (TaskQueue.all_swap hswap) rfl rfl rfl⟩
  | runFunctor => exact inv_runFunctor h ha
  | handleRead connected =>
    simp only [step, Option.ite_none_right_eq_some] at ha
    obtain ⟨⟨-, -, hadded⟩, ha⟩ := ha
    cases connected with
    | false =>
      cases ha
      exact h
    | true =>
      rw [if_pos rfl] at ha
      obtain ⟨⟨loop, pool⟩, hget, rfl⟩ := Option.map_eq_some_iff.mp ha
      obtain ⟨hstage, hpool⟩ := h.stage.handleRead h.pooled hadded hget
      refine ⟨h.counted, ?_, hstage⟩
      rw [hpool]
      exact h.pooled.frame rfl rfl rfl rfl (fun _ => id) h.pooled.numThreads

end Steps

/-! ## Whole runs -/

end StartingServer
end Webservers
