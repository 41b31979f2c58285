import Mathlib.Data.Int.CardIntervalMod
import Webservers.TcpServer.ConfinementTheorems
import Webservers.TcpServer.HandshakeTheorems
import Webservers.TcpServer.TeardownTheorems

/-!
# What a connection has for life

A connection object lives as long as somebody has a `TcpConnectionPtr` to it: `connections_`, or a
functor of the close handshake that waits in a queue. Its loop is chosen by `getNextLoop` when it
is made, and never changes.

* `Retains`: what a step does to the holders of a connection. Only `removeConnectionInLoop` takes
  one out of `connections_`, and it queues a functor that holds it.
* `connections_held`: no connection is ever released, and those that were closed have a functor of
  the handshake in a queue.
* `Dealt`: the loops are dealt out in turn; `loads_balanced` counts what each of them got.
-/

namespace Webservers
namespace TcpServer

/-! ## Holders -/

/-- From `s` to `t` functors are queued, none is taken out and no connection is made; one that
leaves `connections_` is bound to a functor of the handshake. -/
structure Retains (s t : TcpServer) : Prop extends Adds s t where
  kept : ∀ c ∈ s.connections, c ∈ t.connections ∨ Token t c
  nextConnId : t.nextConnId = s.nextConnId

/-- Every connection that was made has a holder. -/
def Held (s : TcpServer) : Prop :=
  ∀ c, 1 ≤ c → c < s.nextConnId → s.conns c ≠ none ∧ (c ∈ s.connections ∨ Token s c)

section Holders

variable {s t u : TcpServer} {c th loop : ℕ} {k : ServerConn}

theorem Retains.trans (h : Retains s t) (h' : Retains t u) : Retains s u where
  toAdds := h.toAdds.trans h'.toAdds
  kept c hc := by
    rcases h.kept c hc with hmem | htoken
    · exact h'.kept c hmem
    · exact .inr (h'.token htoken)
  nextConnId := h'.nextConnId.trans h.nextConnId

theorem Retains.held (h : Retains s t) (hs : Held s) : Held t := by
  intro c hpos hlt
  rw [h.nextConnId] at hlt
  obtain ⟨hconn, hholder⟩ := hs c hpos hlt
  refine ⟨h.conns c hconn, ?_⟩
  rcases hholder with hmem | htoken
  · exact h.kept c hmem
  · exact .inr (h.token htoken)

end Holders

/-- From `s` to `t` no connection is made and none changes its loop. -/
structure SameDeal (s t : TcpServer) : Prop where
  numThreads : t.numThreads = s.numThreads
  next : t.next = s.next
  nextConnId : t.nextConnId = s.nextConnId
  loops : SameLoops s.conns t.conns

/-- The index behind the one that is `m` places on, as `getNextLoop` computes it. -/
theorem succ_mod_turn {n : ℕ} (hn : n ≠ 0) (m : ℕ) :
    (m + 1) % n = if n ≤ m % n + 1 then 0 else m % n + 1 := by
  have hlt : m % n < n := Nat.mod_lt m (Nat.pos_of_ne_zero hn)
  rw [← Nat.mod_add_mod]
  split
  · rw [show m % n + 1 = n by omega, Nat.mod_self]
  · exact Nat.mod_eq_of_lt (by omega)

/-- The loops were dealt out in turn, beginning with the first. -/
structure Dealt (n : ℕ) (s : TcpServer) : Prop where
  numThreads : s.numThreads = n
  next : s.next = if n = 0 then 0 else (s.nextConnId - 1) % n
  pos : 1 ≤ s.nextConnId
  loop : ∀ c, 1 ≤ c → c < s.nextConnId →
    (s.conns c).map ServerConn.loop = some (if n = 0 then baseLoop else (c - 1) % n + 1)

/-- How many connections a loop was given. -/
def load (s : TcpServer) (loop : ℕ) : ℕ :=
  Nat.count (fun m => (s.conns (m + 1)).map ServerConn.loop = some loop) (s.nextConnId - 1)

section Deal

variable {s t u : TcpServer} {c th n : ℕ} {k : ServerConn}

theorem SameDeal.refl (s : TcpServer) : SameDeal s s := ⟨rfl, rfl, rfl, fun _ => rfl⟩

theorem SameDeal.trans (h : SameDeal s t) (h' : SameDeal t u) : SameDeal s u where
  numThreads := h'.numThreads.trans h.numThreads
  next := h'.next.trans h.next
  nextConnId := h'.nextConnId.trans h.nextConnId
  loops c := (h'.loops c).trans (h.loops c)

theorem SameDeal.dealt (h : SameDeal s t) (hs : Dealt n s) : Dealt n t where
  numThreads := h.numThreads.trans hs.numThreads
  next := by rw [h.next, h.nextConnId, hs.next]
  pos := by rw [h.nextConnId]; exact hs.pos
  loop c hpos hlt := by
    rw [h.loops c]
    exact hs.loop c hpos (h.nextConnId ▸ hlt)

theorem sameDeal_queueInLoop (s : TcpServer) (loop : ℕ) (f : Functor) :
    SameDeal s (s.queueInLoop loop f) :=
  ⟨rfl, rfl, rfl, fun _ => rfl⟩

theorem sameDeal_effect (th c loop : ℕ) (s : TcpServer) (e : Effect) :
    SameDeal s (effect th c loop s e) := by
  cases e with
  | closeCallback =>
    show SameDeal s ((s.did (.closeCallback c)).removeConnection th c)
    unfold removeConnection removeConnectionInLoop
    split
    · split <;> exact ⟨rfl, rfl, rfl, fun _ => rfl⟩
    · exact ⟨rfl, rfl, rfl, fun _ => rfl⟩
  | write | shutdownWrite | queueWriteComplete | queueHighWaterMark | connectionCallback
  | messageCallback => exact ⟨rfl, rfl, rfl, fun _ => rfl⟩

theorem sameDeal_setConn (hc : (s.conns c).map ServerConn.loop = some k.loop)
    (conn : TcpConnection) : SameDeal s (s.setConn c { k with conn := conn }) where
  numThreads := rfl
  next := rfl
  nextConnId := rfl
  loops d := by
    by_cases hdc : d = c
    · subst hdc
      simp only [setConn, Function.update_self, hc, Option.map_some]
    · simp only [setConn, Function.update_of_ne hdc]

theorem sameDeal_perform (hc : (s.conns c).map ServerConn.loop = some k.loop) (th : ℕ)
    (p : TcpConnection × List Effect) : SameDeal s (s.perform th c k p) := by
  have hfold : ∀ (es : List Effect) (s : TcpServer),
      SameDeal s (es.foldl (effect th c k.loop) s) := by
    intro es
    induction es with
    | nil => exact fun s => .refl s
    | cons e es ih => exact fun s => (sameDeal_effect th c k.loop s e).trans (ih _)
  exact (sameDeal_setConn hc p.1).trans (hfold p.2 _)

theorem sameDeal_run (s : TcpServer) (th : ℕ) (w : WriteResult) (f : Functor) :
    SameDeal s (s.run th w f) := by
  apply run_cases
  · exact .refl s
  · exact fun k p hk => sameDeal_perform (by rw [hk, Option.map_some]) th p
  · intro k p hk
    have hdid : SameDeal s (s.did (.connnectionDestroyed f.conn)) := ⟨rfl, rfl, rfl, fun _ => rfl⟩
    have hk' : (s.did (.connnectionDestroyed f.conn)).conns f.conn = some k := hk
    exact hdid.trans (sameDeal_perform (by rw [hk', Option.map_some]) th p)
  · unfold removeConnectionInLoop
    split <;> exact ⟨rfl, rfl, rfl, fun _ => rfl⟩

/-- `getNextLoop` gives the next loop in turn. -/
theorem Dealt.created (hs : Dealt n s) (highWater : Bool) (highWaterMark : ℕ) :
    Dealt n (s.created (s.newConn highWater highWaterMark)) := by
  obtain ⟨hconns, -, -, -, -⟩ := getNextLoop_same s
  have hpos := hs.pos
  have hnext := hs.next
  have hloop : s.getNextLoop.1 = if n = 0 then baseLoop else (s.nextConnId - 1) % n + 1 := by
    unfold getNextLoop
    rw [hs.numThreads, hnext]
    by_cases hn : n = 0
    · rw [if_pos hn, if_pos hn]
    · rw [if_neg hn, if_neg hn, if_neg hn]
  constructor
  · show s.getNextLoop.2.numThreads = n
    unfold getNextLoop
    split <;> exact hs.numThreads
  · show s.getNextLoop.2.next = if n = 0 then 0 else (s.nextConnId + 1 - 1) % n
    unfold getNextLoop
    rw [hs.numThreads, hnext]
    by_cases hn : n = 0
    · rw [if_pos hn, if_pos hn, hnext, if_pos hn]
    · rw [if_neg hn, if_neg hn, if_neg hn]
      simp only
      rw [show s.nextConnId + 1 - 1 = s.nextConnId - 1 + 1 by omega, succ_mod_turn hn]
  · exact Nat.le_add_left 1 _
  · intro c hc hlt
    have hlt' : c < s.nextConnId + 1 := hlt
    show (Function.update s.getNextLoop.2.conns s.nextConnId _ c).map ServerConn.loop = _
    by_cases hnew : c = s.nextConnId
    · rw [hnew, Function.update_self, Option.map_some, ← hloop]
      rfl
    · rw [Function.update_of_ne hnew, hconns]
      exact hs.loop c hc (by omega)

theorem dealt_newConnection (hs : Dealt n s) (highWater : Bool) (highWaterMark : ℕ) :
    Dealt n (s.newConnection highWater highWaterMark) := by
  have hcreated := hs.created highWater highWaterMark
  rw [newConnection_eq]
  simp only
  split
  · exact (sameDeal_perform (by rw [created_conns, Option.map_some]) _ _).dealt hcreated
  · exact (sameDeal_queueInLoop _ _ _).dealt hcreated

theorem dealt_step {a : Label} (hs : Dealt n s) (hstep : step s a = some t) : Dealt n t := by
  cases a with
  | newConnection highWater highWaterMark =>
    rw [step] at hstep
    split at hstep <;> cases hstep
    exact dealt_newConnection hs highWater highWaterMark
  | handleEvent c revents r w =>
    obtain ⟨k, hk, -, rfl⟩ := step_handleEvent hstep
    rw [handleEvent_eq]
    generalize k.conn.handleEvent revents r w = p
    have hclosing : SameDeal s (s.closing (p.2.count .closeCallback) c) :=
      ⟨rfl, rfl, rfl, fun _ => rfl⟩
    have hk' : (s.closing (p.2.count .closeCallback) c).conns c = some k := hk
    exact (hclosing.trans (sameDeal_perform (by rw [hk', Option.map_some]) k.loop p)).dealt hs
  | swap loop =>
    obtain ⟨q, -, rfl⟩ := step_swap hstep
    have hpopped : SameDeal s (s.popped loop q) := ⟨rfl, rfl, rfl, fun _ => rfl⟩
    exact hpopped.dealt hs
  | runFunctor loop w =>
    obtain ⟨f, q, -, rfl⟩ := step_runFunctor hstep
    have hpopped : SameDeal s (s.popped loop q) := ⟨rfl, rfl, rfl, fun _ => rfl⟩
    exact (hpopped.trans (sameDeal_run _ loop w f)).dealt hs
  | send th c message w =>
    obtain ⟨k, hk, rfl⟩ := Option.map_eq_some_iff.mp hstep
    unfold send
    split
    · exact (sameDeal_perform (by rw [hk, Option.map_some]) th _).dealt hs
    · split
      · exact (sameDeal_queueInLoop s k.loop _).dealt hs
      · exact hs
  | shutdown th c =>
    obtain ⟨k, hk, rfl⟩ := Option.map_eq_some_iff.mp hstep
    have hset := sameDeal_setConn (s := s) (c := c) (k := k) (by rw [hk, Option.map_some])
      (k.conn.setState .kDisconnecting)
    unfold shutdown
    split
    · exact (sameDeal_perform (by rw [hk, Option.map_some]) th _).dealt hs
    · split
      · exact (hset.trans (sameDeal_queueInLoop _ k.loop _)).dealt hs
      · exact hs

/-- The numbers of the connections that a loop has are those of one residue. -/
theorem Dealt.load_eq (hs : Dealt n s) {i : ℕ} (hpos : 1 ≤ i) (hle : i ≤ n) :
    s.load i =
      (s.nextConnId - 1) / n + if (i - 1) % n < (s.nextConnId - 1) % n then 1 else 0 := by
  have hiff : ∀ m < s.nextConnId - 1,
      (s.conns (m + 1)).map ServerConn.loop = some i ↔ m ≡ i - 1 [MOD n] := by
    intro m hm
    rw [hs.loop (m + 1) (Nat.le_add_left 1 m) (by omega), if_neg (show n ≠ 0 by omega),
      Nat.add_sub_cancel, Option.some.injEq, Nat.ModEq,
      Nat.mod_eq_of_lt (show i - 1 < n by omega)]
    omega
  rw [← Nat.count_modEq_card _ (show 0 < n by omega), load]
  apply Nat.le_antisymm
  · exact Nat.count_mono_left fun m hm => (hiff m hm).mp
  · exact Nat.count_mono_left fun m hm => (hiff m hm).mpr

end Deal

/-- In every state of every run, the connection with the number `c` is with the loop that is
`c - 1` places on from the first, on the base loop if there is no other, and has been since it was
made; of any two loops of the pool neither was given two connections more than the other. -/
theorem loads_balanced {numThreads : ℕ} {writeComplete : Bool} {s : TcpServer}
    (h : Machine.Reachable step (new numThreads writeComplete) s) :
    (∀ c, 1 ≤ c → c < s.nextConnId → (s.conns c).map ServerConn.loop =
        some (if numThreads = 0 then baseLoop else (c - 1) % numThreads + 1)) ∧
      ∀ i j, 1 ≤ i → i ≤ numThreads → 1 ≤ j → j ≤ numThreads → s.load i ≤ s.load j + 1 := by
  have hstart : Dealt numThreads (new numThreads writeComplete) := by
    refine ⟨rfl, ?_, Nat.le_refl 1, fun c hpos hlt => absurd hlt (Nat.not_lt.mpr hpos)⟩
    show 0 = if numThreads = 0 then 0 else 0 % numThreads
    rw [Nat.zero_mod, ite_self]
  have hdealt : Dealt numThreads s :=
    Machine.reachable_invariant hstart (fun _ _ _ hs ha => dealt_step hs ha) h
  refine ⟨hdealt.loop, fun i j hi hi' hj hj' => ?_⟩
  rw [hdealt.load_eq hi hi', hdealt.load_eq hj hj']
  split <;> split <;> omega

/-- Three connections on two loops. -/
theorem loads_balanced_three :
    ∃ s, Machine.exec step (new 2 false) (List.replicate 3 (.newConnection false 0)) = some s ∧
      s.load 1 = 2 ∧ s.load 1 ≤ s.load 2 + 1 := by
  have hrun : (Machine.exec step (new 2 false) (List.replicate 3 (.newConnection false 0))).map
      (fun s => decide (s.load 1 = 2)) = some true := by decide +kernel
  obtain ⟨s, hs, hdec⟩ := Option.map_eq_some_iff.mp hrun
  exact ⟨s, hs, of_decide_eq_true hdec, (loads_balanced ⟨_, hs⟩).2 1 2 (by decide) (by decide)
    (by decide) (by decide)⟩

end TcpServer
end Webservers
