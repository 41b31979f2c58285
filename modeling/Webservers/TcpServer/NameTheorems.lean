import Webservers.Lib.Format
import Webservers.TcpServer.TeardownTheorems

/-!
# Names of connections (src/TcpServer.cc, src/InetAddress.cc)

The keys of `connections_` are names: the server's name, its address and the value of
`nextConnId_`, of which all but the first are written to a buffer of 64 bytes. `TcpServer` knows a
connection by its number instead. `NamedServer` has the names beside the numbers, and
`connection_table_exact` says that nothing is lost: along every run that does not exhaust
`nextConnId_`, the table has under each name the connection that `TcpServer.connections` lists.

* `length_toIpPort_le` bounds the text of an address, `connText_eq` says that the buffer is large
  enough for the whole name.
* `Named` is the invariant; `Named.newConnection` and `Named.removeConnectionInLoop` are its step
  lemmas.
-/

namespace Webservers

/-! ## Addresses -/

/-- The address and `ntohs` of the port of a `sockaddr_in`. -/
structure InetAddress where
  octets : Fin 4 → UInt8
  port : UInt16

namespace InetAddress

/-- `toIp()`: what `inet_ntop(AF_INET, ...)` writes -/
def toIp (a : InetAddress) : List UInt8 :=
  formatUnsigned (a.octets 0).toNat ++ ascii "." ++ formatUnsigned (a.octets 1).toNat ++
    ascii "." ++ formatUnsigned (a.octets 2).toNat ++ ascii "." ++
    formatUnsigned (a.octets 3).toNat

/-- `toIpPort()` -/
def toIpPort (a : InetAddress) : List UInt8 := a.toIp ++ ascii ":" ++ formatUnsigned a.port.toNat

theorem length_toIpPort_le (a : InetAddress) : a.toIpPort.length ≤ 21 := by
  have hoctet : ∀ i, (formatUnsigned (a.octets i).toNat).length ≤ 3 := by
    intro i
    have hlt := (a.octets i).toNat_lt
    exact length_formatUnsigned_le (by omega) (by omega)
  have hport : (formatUnsigned a.port.toNat).length ≤ 5 := by
    have hlt := a.port.toNat_lt
    exact length_formatUnsigned_le (by omega) (by omega)
  have h0 := hoctet 0
  have h1 := hoctet 1
  have h2 := hoctet 2
  have h3 := hoctet 3
  have hdot : (ascii ".").length = 1 := by decide
  have hcolon : (ascii ":").length = 1 := by decide
  simp only [toIpPort, toIp, List.length_append, hdot, hcolon]
  omega

theorem nul_not_mem_toIpPort (a : InetAddress) : 0 ∉ a.toIpPort := by
  have hdot : 0 ∉ ascii "." := by decide
  have hcolon : 0 ∉ ascii ":" := by decide
  simp only [toIpPort, toIp, List.mem_append, nul_not_mem_formatUnsigned, hdot, hcolon, or_self,
    not_false_eq_true]

end InetAddress

/-! ## The table of a server -/

/-- A server with the members that the names of its connections depend on. -/
structure NamedServer extends TcpServer where
  /-- `name_` -/
  name : List UInt8
  /-- `ipPort_` -/
  ipPort : List UInt8
  /-- `nextConnId_`, an `int` -/
  connId : ℤ
  /-- `name()` of each connection object -/
  connName : ℕ → List UInt8
  /-- `connections_` -/
  table : List UInt8 → Option ℕ

namespace NamedServer

/-- `TcpServer(loop, listenAddr, nameArg)` -/
def new (numThreads : ℕ) (writeComplete : Bool) (listenAddr : InetAddress) (nameArg : List UInt8) :
    NamedServer where
  toTcpServer := .new numThreads writeComplete
  name := nameArg
  ipPort := listenAddr.toIpPort
  connId := 1
  connName := fun _ => []
  table := fun _ => none

/-- The string in `buf` after `snprintf(buf, sizeof(buf), "~%s#%d", ipPort_.c_str(), connId)`. -/
def connText (ipPort : List UInt8) (connId : ℤ) : List UInt8 :=
  cText ((ascii "~" ++ cText ipPort ++ ascii "#" ++ formatInt connId).take (64 - 1))

/-- The name of the next connection. -/
def nextName (s : NamedServer) : List UInt8 := s.name ++ connText s.ipPort s.connId

/-- `newConnection(sockfd, peerAddr)`: the object has the number `s.nextConnId`. -/
def newConnection (s : NamedServer) (highWater : Bool) (highWaterMark : ℕ) : NamedServer :=
  { s with
    toTcpServer := s.toTcpServer.newConnection highWater highWaterMark
    connId := toInt (s.connId + 1)
    connName := Function.update s.connName s.nextConnId s.nextName
    table := Function.update s.table s.nextName (some s.nextConnId) }

/-- `removeConnectionInLoop(conn)` -/
def removeConnectionInLoop (s : NamedServer) (c : ℕ) : NamedServer :=
  { s with
    toTcpServer := s.toTcpServer.removeConnectionInLoop c
    table := Function.update s.table (s.connName c) none }

inductive Label where
  | newConnection (highWater : Bool) (highWaterMark : ℕ)
  | removeConnectionInLoop (c : ℕ)
deriving Repr, DecidableEq

/-- A connection of this server is removed, for the first time or again. -/
def step (s : NamedServer) : Label → Option NamedServer
  | .newConnection highWater highWaterMark => some (s.newConnection highWater highWaterMark)
  | .removeConnectionInLoop c =>
    if (s.conns c).isSome then some (s.removeConnectionInLoop c) else none

/-- Whether a label is a call of `newConnection`. -/
def Label.isNew : Label → Bool
  | .newConnection _ _ => true
  | .removeConnectionInLoop _ => false

/-- No entry but that of the connection concerned is changed: a new one gets a name that is not in
use, and with `c` no other connection is removed. -/
def KeepsOthers (s : NamedServer) : Label → Prop
  | .newConnection _ _ => s.table s.nextName = none
  | .removeConnectionInLoop c =>
    ∀ name, (s.removeConnectionInLoop c).table name = s.table name ∨ s.table name = some c

/-! ## The text of a name -/

/-- The buffer holds the text of every number that `nextConnId_` can have. -/
theorem connText_eq (a : InetAddress) {c : ℕ} (hc : c < 2 ^ 31) :
    connText a.toIpPort c = ascii "~" ++ a.toIpPort ++ ascii "#" ++ formatUnsigned c := by
  have hlen : (ascii "~" ++ a.toIpPort ++ ascii "#" ++ formatUnsigned c).length ≤ 64 - 1 := by
    have haddr := a.length_toIpPort_le
    have hnumber : (formatUnsigned c).length ≤ 10 := length_formatUnsigned_le (by omega) (by omega)
    have htilde : (ascii "~").length = 1 := by decide
    have hhash : (ascii "#").length = 1 := by decide
    simp only [List.length_append, htilde, hhash]
    omega
  have hnul : 0 ∉ ascii "~" ++ a.toIpPort ++ ascii "#" ++ formatUnsigned c := by
    have htilde : 0 ∉ ascii "~" := by decide
    have hhash : 0 ∉ ascii "#" := by decide
    simp only [List.mem_append, htilde, hhash, nul_not_mem_formatUnsigned, a.nul_not_mem_toIpPort,
      or_self, not_false_eq_true]
  rw [connText, cText_of_not_mem a.nul_not_mem_toIpPort, formatInt_natCast,
    List.take_of_length_le hlen, cText_of_not_mem hnul]

theorem connText_injective (a : InetAddress) {c d : ℕ} (hc : c < 2 ^ 31) (hd : d < 2 ^ 31)
    (h : connText a.toIpPort c = connText a.toIpPort d) : c = d := by
  rw [connText_eq a hc, connText_eq a hd] at h
  exact formatUnsigned_injective (List.append_cancel_left h)

/-! ## The numbers of the connections -/

section Numbers

variable (s : TcpServer)

theorem connections_newConnection (highWater : Bool) (highWaterMark : ℕ) :
    (s.newConnection highWater highWaterMark).connections = s.nextConnId :: s.connections := by
  have hnext : s.getNextLoop.2.connections = s.connections := by
    unfold TcpServer.getNextLoop
    split <;> rfl
  have hcreated : ∀ k, (s.created k).connections = s.nextConnId :: s.connections :=
    fun k => congrArg (s.nextConnId :: ·) hnext
  rw [TcpServer.newConnection_eq]
  simp only
  split
  · have hsilent := TcpConnection.closeCallback_connectionEstablished
      (s.newConn highWater highWaterMark).conn
    rw [(TcpServer.connections_perform _ _ _ _ _).2 (Or.inl hsilent), hcreated]
  · exact hcreated (s.newConn highWater highWaterMark)

/-- A connection object is made under the number `nextConnId`. -/
theorem conns_newConnection (highWater : Bool) (highWaterMark : ℕ) (c : ℕ) :
    (s.newConnection highWater highWaterMark).conns c ≠ none ↔
      s.conns c ≠ none ∨ c = s.nextConnId := by
  by_cases hc : c = s.nextConnId
  · subst hc
    have hmade : (s.newConnection highWater highWaterMark).conns s.nextConnId ≠ none := by
      rw [TcpServer.newConnection_eq]
      simp only
      split
      · rw [TcpServer.conns_perform_self]
        exact Option.some_ne_none _
      · show Function.update s.getNextLoop.2.conns s.nextConnId
          (some (s.newConn highWater highWaterMark)) s.nextConnId ≠ none
        rw [Function.update_self]
        exact Option.some_ne_none _
    exact ⟨fun _ => Or.inr rfl, fun _ => hmade⟩
  · rw [(TcpServer.sameAt_newConnection hc highWater highWaterMark).conns]
    simp only [hc, or_false]

theorem conns_removeConnectionInLoop (c : ℕ) :
    (s.removeConnectionInLoop c).conns = s.conns := by
  unfold TcpServer.removeConnectionInLoop
  split <;> rfl

end Numbers

/-! ## The invariant -/

/-- The table is `TcpServer.connections` under the names. -/
structure Named (listenAddr : InetAddress) (nameArg : List UInt8) (s : NamedServer) : Prop where
  name : s.name = nameArg
  ipPort : s.ipPort = listenAddr.toIpPort
  connId : s.connId = s.nextConnId
  nextConnId_pos : 1 ≤ s.nextConnId
  created : ∀ c, s.conns c ≠ none ↔ 1 ≤ c ∧ c < s.nextConnId
  connName : ∀ c, s.conns c ≠ none → s.connName c = nameArg ++ connText listenAddr.toIpPort c
  nodup : s.connections.Nodup
  made : ∀ c ∈ s.connections, s.conns c ≠ none
  table : ∀ name c, s.table name = some c ↔ c ∈ s.connections ∧ s.connName c = name

section Invariant

variable {a : InetAddress} {nameArg : List UInt8} {s : NamedServer}

theorem named_new (numThreads : ℕ) (writeComplete : Bool) (a : InetAddress) (nameArg : List UInt8) :
    Named a nameArg (new numThreads writeComplete a nameArg) where
  name := rfl
  ipPort := rfl
  connId := rfl
  nextConnId_pos := Nat.le_refl 1
  created c := by
    show none ≠ none ↔ 1 ≤ c ∧ c < 1
    constructor
    · exact fun h => absurd rfl h
    · omega
  connName c hc := absurd rfl hc
  nodup := List.nodup_nil
  made c hc := absurd hc List.not_mem_nil
  table name c := by
    show none = some c ↔ c ∈ [] ∧ _
    simp

theorem Named.next_not_made (h : Named a nameArg s) : ¬ s.conns s.nextConnId ≠ none := by
  rw [h.created]
  omega

theorem Named.nextName_eq (h : Named a nameArg s) :
    s.nextName = nameArg ++ connText a.toIpPort s.nextConnId := by
  rw [nextName, h.name, h.ipPort, h.connId]

/-- Names of connections are different as long as `nextConnId_` has not run over. -/
theorem Named.injective (h : Named a nameArg s) (hsize : s.nextConnId ≤ 2 ^ 31) {c d : ℕ}
    (hc : s.conns c ≠ none) (hd : s.conns d ≠ none) (hname : s.connName c = s.connName d) :
    c = d := by
  have hclt := (h.created c).mp hc
  have hdlt := (h.created d).mp hd
  rw [h.connName c hc, h.connName d hd] at hname
  exact connText_injective a (by omega) (by omega) (List.append_cancel_left hname)

/-- The name of the next connection is not that of an earlier one. -/
theorem Named.fresh (h : Named a nameArg s) (hsize : s.nextConnId < 2 ^ 31) {c : ℕ}
    (hc : s.conns c ≠ none) : s.connName c ≠ s.nextName := by
  intro hname
  have hclt := (h.created c).mp hc
  rw [h.connName c hc, h.nextName_eq] at hname
  have heq := connText_injective a (by omega) hsize (List.append_cancel_left hname)
  omega

theorem Named.keepsOthers (h : Named a nameArg s) {l : Label} {t : NamedServer}
    (hsize : s.nextConnId < 2 ^ 31) (hstep : step s l = some t) : KeepsOthers s l := by
  cases l with
  | newConnection highWater highWaterMark =>
    show s.table s.nextName = none
    rw [Option.eq_none_iff_forall_ne_some]
    intro c hc
    obtain ⟨hmem, hname⟩ := (h.table _ c).mp hc
    exact h.fresh hsize (h.made c hmem) hname
  | removeConnectionInLoop c =>
    intro name
    by_cases hname : name = s.connName c
    · subst hname
      have hc : s.conns c ≠ none := by
        intro hnone
        rw [step, hnone] at hstep
        cases hstep
      cases hentry : s.table (s.connName c) with
      | none => exact Or.inl (Function.update_self _ _ _)
      | some d =>
        -- an entry under the name of `c` is that of `c`
        obtain ⟨hmem, hsame⟩ := (h.table _ d).mp hentry
        rw [h.injective (Nat.le_of_lt hsize) (h.made d hmem) hc hsame]
        exact Or.inr rfl
    · exact Or.inl (Function.update_of_ne hname _ _)

theorem Named.newConnection (h : Named a nameArg s) (hsize : s.nextConnId < 2 ^ 31 - 1)
    (highWater : Bool) (highWaterMark : ℕ) :
    Named a nameArg (s.newConnection highWater highWaterMark) where
  name := h.name
  ipPort := h.ipPort
  connId := by
    show toInt (s.connId + 1) = _
    rw [h.connId]
    show toInt (s.nextConnId + 1) = ((s.toTcpServer.newConnection _ _).nextConnId : ℤ)
    rw [TcpServer.nextConnId_newConnection, toInt, Int.bmod_eq_of_le (by omega) (by omega)]
    rfl
  nextConnId_pos := by
    show 1 ≤ (s.toTcpServer.newConnection _ _).nextConnId
    rw [TcpServer.nextConnId_newConnection]
    omega
  created c := by
    show (s.toTcpServer.newConnection _ _).conns c ≠ none ↔
      1 ≤ c ∧ c < (s.toTcpServer.newConnection _ _).nextConnId
    have hpos := h.nextConnId_pos
    rw [conns_newConnection, TcpServer.nextConnId_newConnection, h.created]
    omega
  connName c hc := by
    show Function.update s.connName s.nextConnId s.nextName c = _
    by_cases hnew : c = s.nextConnId
    · subst hnew
      rw [Function.update_self, h.nextName_eq]
    · rw [Function.update_of_ne hnew]
      exact h.connName c (((conns_newConnection s.toTcpServer _ _ c).mp hc).resolve_right hnew)
  nodup := by
    show (s.toTcpServer.newConnection _ _).connections.Nodup
    rw [connections_newConnection, List.nodup_cons]
    exact ⟨fun hmem => h.next_not_made (h.made _ hmem), h.nodup⟩
  made c hc := by
    show (s.toTcpServer.newConnection _ _).conns c ≠ none
    rw [conns_newConnection]
    have hmem : c ∈ s.nextConnId :: s.connections := by
      rw [← connections_newConnection]
      exact hc
    rcases List.mem_cons.mp hmem with rfl | hmem
    · exact Or.inr rfl
    · exact Or.inl (h.made c hmem)
  table name c := by
    show Function.update s.table s.nextName (some s.nextConnId) name = some c ↔
      c ∈ (s.toTcpServer.newConnection _ _).connections ∧
        Function.update s.connName s.nextConnId s.nextName c = name
    rw [connections_newConnection, List.mem_cons]
    by_cases hnew : c = s.nextConnId
    · subst hnew
      rw [Function.update_self]
      by_cases hname : name = s.nextName
      · subst hname
        rw [Function.update_self]
        simp
      · -- the new connection has one entry only
        rw [Function.update_of_ne hname, h.table]
        constructor
        · rintro ⟨hmem, -⟩
          exact absurd (h.made _ hmem) h.next_not_made
        · rintro ⟨-, heq⟩
          exact absurd heq.symm hname
    · rw [Function.update_of_ne hnew]
      by_cases hname : name = s.nextName
      · subst hname
        rw [Function.update_self, Option.some.injEq]
        constructor
        · exact fun heq => absurd heq.symm hnew
        · rintro ⟨hmem, heq⟩
          exact absurd heq (h.fresh (by omega) (h.made c (hmem.resolve_left hnew)))
      · rw [Function.update_of_ne hname, h.table]
        simp only [hnew, false_or]

theorem Named.removeConnectionInLoop (h : Named a nameArg s) (hsize : s.nextConnId ≤ 2 ^ 31) {c : ℕ}
    (hc : s.conns c ≠ none) : Named a nameArg (s.removeConnectionInLoop c) where
  name := h.name
  ipPort := h.ipPort
  connId := by
    show s.connId = ((s.toTcpServer.removeConnectionInLoop c).nextConnId : ℤ)
    rw [TcpServer.nextConnId_removeConnectionInLoop, h.connId]
  nextConnId_pos := by
    show 1 ≤ (s.toTcpServer.removeConnectionInLoop c).nextConnId
    rw [TcpServer.nextConnId_removeConnectionInLoop]
    exact h.nextConnId_pos
  created d := by
    show (s.toTcpServer.removeConnectionInLoop c).conns d ≠ none ↔
      1 ≤ d ∧ d < (s.toTcpServer.removeConnectionInLoop c).nextConnId
    rw [conns_removeConnectionInLoop, TcpServer.nextConnId_removeConnectionInLoop, h.created]
  connName d hd := by
    apply h.connName d
    rwa [← conns_removeConnectionInLoop]
  nodup := by
    show (s.toTcpServer.removeConnectionInLoop c).connections.Nodup
    rw [TcpServer.connections_removeConnectionInLoop hc]
    exact h.nodup.erase c
  made d hd := by
    show (s.toTcpServer.removeConnectionInLoop c).conns d ≠ none
    rw [conns_removeConnectionInLoop]
    have hmem : d ∈ s.connections.erase c := by
      rw [← TcpServer.connections_removeConnectionInLoop hc]
      exact hd
    exact h.made d (List.mem_of_mem_erase hmem)
  table name d := by
    show Function.update s.table (s.connName c) none name = some d ↔
      d ∈ (s.toTcpServer.removeConnectionInLoop c).connections ∧ s.connName d = name
    rw [TcpServer.connections_removeConnectionInLoop hc, h.nodup.mem_erase_iff]
    by_cases hname : name = s.connName c
    · subst hname
      rw [Function.update_self]
      constructor
      · exact fun hnone => nomatch hnone
      · rintro ⟨⟨hne, hmem⟩, hsame⟩
        exact absurd (h.injective hsize (h.made d hmem) hc hsame) hne
    · rw [Function.update_of_ne hname, h.table]
      constructor
      · rintro ⟨hmem, rfl⟩
        exact ⟨⟨fun hdc => hname (by rw [hdc]), hmem⟩, rfl⟩
      · rintro ⟨⟨-, hmem⟩, heq⟩
        exact ⟨hmem, heq⟩

end Invariant

/-! ## Runs -/

section Runs

variable {a : InetAddress} {nameArg : List UInt8} {s t : NamedServer} {l : Label}

theorem step_removeConnectionInLoop {c : ℕ} (h : step s (.removeConnectionInLoop c) = some t) :
    s.conns c ≠ none ∧ t = s.removeConnectionInLoop c := by
  rw [step] at h
  split at h
  · rename_i hsome
    exact ⟨Option.isSome_iff_ne_none.mp hsome, (Option.some.inj h).symm⟩
  · cases h

/-- The numbers that are left for further connections, before and after a step. -/
theorem nextConnId_step (h : step s l = some t) :
    t.nextConnId = s.nextConnId + [l].countP Label.isNew := by
  cases l with
  | newConnection highWater highWaterMark =>
    cases h
    exact TcpServer.nextConnId_newConnection _ _ _
  | removeConnectionInLoop c =>
    obtain ⟨-, rfl⟩ := step_removeConnectionInLoop h
    exact TcpServer.nextConnId_removeConnectionInLoop _ _

theorem named_step (h : Named a nameArg s)
    (hsize : s.nextConnId + [l].countP Label.isNew ≤ 2 ^ 31 - 1) (hstep : step s l = some t) :
    Named a nameArg t := by
  cases l with
  | newConnection highWater highWaterMark =>
    cases hstep
    have hone : [Label.newConnection highWater highWaterMark].countP Label.isNew = 1 := rfl
    exact h.newConnection (by omega) highWater highWaterMark
  | removeConnectionInLoop c =>
    obtain ⟨hc, rfl⟩ := step_removeConnectionInLoop hstep
    exact h.removeConnectionInLoop (by omega) hc

theorem mem_connections_step (h : Named a nameArg s) (hstep : step s l = some t) (c : ℕ) :
    c ∈ t.connections ↔
      (c ∈ s.connections ∨ s.nextConnId ≤ c ∧ c < t.nextConnId) ∧
        l ≠ .removeConnectionInLoop c := by
  have hnext := nextConnId_step hstep
  cases l with
  | newConnection highWater highWaterMark =>
    have hone : [Label.newConnection highWater highWaterMark].countP Label.isNew = 1 := rfl
    have hnew : s.nextConnId ≤ c ∧ c < t.nextConnId ↔ c = s.nextConnId := by omega
    cases hstep
    rw [hnew]
    show c ∈ (s.toTcpServer.newConnection _ _).connections ↔ _
    rw [connections_newConnection, List.mem_cons]
    simp only [ne_eq, reduceCtorEq, not_false_eq_true, and_true]
    exact or_comm
  | removeConnectionInLoop d =>
    have hzero : [Label.removeConnectionInLoop d].countP Label.isNew = 0 := rfl
    have hnew : ¬ (s.nextConnId ≤ c ∧ c < t.nextConnId) := by omega
    obtain ⟨hd, rfl⟩ := step_removeConnectionInLoop hstep
    show c ∈ (s.toTcpServer.removeConnectionInLoop d).connections ↔ _
    rw [TcpServer.connections_removeConnectionInLoop hd, h.nodup.mem_erase_iff]
    simp only [hnew, or_false, ne_eq, Label.removeConnectionInLoop.injEq, eq_comm]
    exact and_comm

variable {as : List Label}

theorem exec_nextConnId (h : Machine.exec step s as = some t) :
    t.nextConnId = s.nextConnId + as.countP Label.isNew := by
  induction as generalizing s with
  | nil =>
    cases h
    rfl
  | cons l as ih =>
    obtain ⟨v, hv, hrest⟩ := Machine.exec_cons_eq_some.mp h
    have hsplit : (l :: as).countP Label.isNew =
        [l].countP Label.isNew + as.countP Label.isNew := by
      rw [← List.countP_append, List.singleton_append]
    rw [ih hrest, nextConnId_step hv, hsplit, Nat.add_assoc]

/-- What a run does to the table as a whole. -/
theorem exec_named (h : Named a nameArg s)
    (hsize : s.nextConnId + as.countP Label.isNew ≤ 2 ^ 31 - 1)
    (hexec : Machine.exec step s as = some t) :
    Named a nameArg t ∧ Machine.Along step KeepsOthers s as ∧
      ∀ c, c ∈ t.connections ↔
        (c ∈ s.connections ∨ s.nextConnId ≤ c ∧ c < t.nextConnId) ∧
          Label.removeConnectionInLoop c ∉ as := by
  induction as generalizing s with
  | nil =>
    cases hexec
    refine ⟨h, trivial, fun c => ?_⟩
    have hnew : ¬ (t.nextConnId ≤ c ∧ c < t.nextConnId) := by omega
    simp only [hnew, or_false, List.not_mem_nil, not_false_eq_true, and_true]
  | cons l as ih =>
    obtain ⟨v, hv, hrest⟩ := Machine.exec_cons_eq_some.mp hexec
    have hsplit : (l :: as).countP Label.isNew =
        [l].countP Label.isNew + as.countP Label.isNew := by
      rw [← List.countP_append, List.singleton_append]
    have hnext := nextConnId_step hv
    have hnamed : Named a nameArg v := named_step h (by omega) hv
    obtain ⟨ht, halong, hmem⟩ := ih hnamed (by omega) hrest
    have hlast := exec_nextConnId hrest
    refine ⟨ht, fun u hu => ?_, fun c => ?_⟩
    · rw [hv, Option.some.injEq] at hu
      subst hu
      exact ⟨h.keepsOthers (by omega) hv, halong⟩
    · -- a connection that is made later is not the one removed now
      have hlater : v.nextConnId ≤ c → l ≠ .removeConnectionInLoop c := by
        rintro hc rfl
        obtain ⟨hmade, -⟩ := step_removeConnectionInLoop hv
        have hlt := ((h.created c).mp hmade).2
        omega
      have hrange : s.nextConnId ≤ c ∧ c < t.nextConnId ↔
          (s.nextConnId ≤ c ∧ c < v.nextConnId) ∨ v.nextConnId ≤ c ∧ c < t.nextConnId := by omega
      rw [hmem, mem_connections_step h hv, List.mem_cons, not_or, hrange, ne_comm]
      constructor
      · rintro ⟨⟨hold | hnow, hne⟩ | hnew, hnot⟩
        · exact ⟨Or.inl hold, hne, hnot⟩
        · exact ⟨Or.inr (Or.inl hnow), hne, hnot⟩
        · exact ⟨Or.inr (Or.inr hnew), (hlater hnew.1).symm, hnot⟩
      · rintro ⟨hold | hnow | hnew, hne, hnot⟩
        · exact ⟨Or.inl ⟨Or.inl hold, hne⟩, hnot⟩
        · exact ⟨Or.inl ⟨Or.inr hnow, hne⟩, hnot⟩
        · exact ⟨Or.inr hnew, hnot⟩

/-- In every run of fewer than 2³¹ - 1 calls of `newConnection`, with connections removed in any
order and any number of times: the names are not cut off and all different, the table has exactly
the connections that were made and not removed, each under its name, and no call changes an entry
that is not its own. -/
theorem connection_table_exact (numThreads : ℕ) (writeComplete : Bool) (listenAddr : InetAddress)
    (nameArg : List UInt8)
    (hexec : Machine.exec step (new numThreads writeComplete listenAddr nameArg) as = some t)
    (hcount : as.countP Label.isNew < 2 ^ 31 - 1) :
    (∀ c, t.conns c ≠ none ↔ 1 ≤ c ∧ c ≤ as.countP Label.isNew) ∧
      (∀ c, t.conns c ≠ none → t.connName c =
        nameArg ++ (ascii "~" ++ listenAddr.toIpPort ++ ascii "#" ++ formatInt c)) ∧
      (∀ c d, t.conns c ≠ none → t.conns d ≠ none → t.connName c = t.connName d → c = d) ∧
      (∀ name c, t.table name = some c ↔
        t.conns c ≠ none ∧ Label.removeConnectionInLoop c ∉ as ∧ t.connName c = name) ∧
      Machine.Along step KeepsOthers (new numThreads writeComplete listenAddr nameArg) as := by
  have hstart := named_new numThreads writeComplete listenAddr nameArg
  have hone : (new numThreads writeComplete listenAddr nameArg).nextConnId = 1 := rfl
  obtain ⟨h, halong, hmem⟩ := exec_named hstart (by omega) hexec
  have hnext := exec_nextConnId hexec
  have hcreated : ∀ c, t.conns c ≠ none ↔ 1 ≤ c ∧ c ≤ as.countP Label.isNew := by
    intro c
    rw [h.created]
    omega
  refine ⟨hcreated, fun c hc => ?_, fun c d => h.injective (by omega), fun name c => ?_, halong⟩
  · have hlt := (hcreated c).mp hc
    rw [h.connName c hc, connText_eq listenAddr (by omega), formatInt_natCast]
  · have hempty : c ∉ (new numThreads writeComplete listenAddr nameArg).connections :=
      List.not_mem_nil
    rw [h.table, hmem, h.created, hone, and_assoc]
    simp only [hempty, false_or]

/-- Three connections, the first of which is removed twice. -/
def removedTwice : List Label :=
  [.newConnection false 0, .newConnection false 0, .removeConnectionInLoop 1,
    .removeConnectionInLoop 1, .newConnection false 0]

/-- The address 127.0.0.1:8000. -/
def loopback : InetAddress := ⟨fun i => if i = 0 then 127 else if i = 3 then 1 else 0, 8000⟩

/-- The third connection is in the table under its name, and the first one under none. -/
theorem connection_table_exact_removedTwice :
    ∃ t, Machine.exec step (new 2 false loopback (ascii "srv")) removedTwice = some t ∧
      t.table (ascii "srv~127.0.0.1:8000#3") = some 3 ∧ ∀ name, t.table name ≠ some 1 := by
  have hsome : (Machine.exec step (new 2 false loopback (ascii "srv")) removedTwice).isSome := by
    decide
  obtain ⟨t, ht⟩ := Option.isSome_iff_exists.mp hsome
  obtain ⟨hcreated, hnames, -, htable, -⟩ :=
    connection_table_exact 2 false loopback (ascii "srv") ht (by decide)
  refine ⟨t, ht, ?_, ?_⟩
  · have hmade : t.conns 3 ≠ none := (hcreated 3).mpr (by decide)
    rw [htable, hnames 3 hmade]
    exact ⟨hmade, by decide, by decide +kernel⟩
  · intro name hentry
    exact ((htable name 1).mp hentry).2.1 (by decide)

end Runs

end NamedServer
end Webservers
