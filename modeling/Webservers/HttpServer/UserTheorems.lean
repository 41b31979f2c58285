import Webservers.HttpServer.OwnershipTheorems

/-!
# The table of users and `m_user_count` (bck/src/main.cpp)

`main` admits a connection by looking at `m_user_count` and then uses the descriptor as an index of
`users`. `CountedServer` is the server with `m_user_count`; `clients` and `indices` are history, for
the connections that `init` has been called on and `close_conn` has not closed, and for the indices
of `users` that `main` has formed.

* `init` and `close_conn` are one step each: `m_user_count` is a plain `int` that the main thread
  and the workers change without a lock, and the updates that get lost when two of them do so at the
  same time are left out. A worker's `process` is therefore one step as well, and `step_refines`
  says which steps of `HttpServer` it stands for.
* `init` of `users[-1]`, or of a slot behind the array, counts as a user here; in the program it
  stores outside the array and may end it.
* `Tracked` is the invariant that ties the slots to `clients`.
* `users_in_range_iff` says that indices and count are right exactly as long as `accept` returns
  descriptors below `MAX_FD`. It is the count that is tested, so nothing keeps a `-1` or a larger
  descriptor from being used.
-/

namespace Webservers

def maxFd : ℕ := 65355

structure CountedServer extends HttpServer where
  /-- `m_user_count` -/
  userCount : ℤ
  /-- `m_sockfd` of the connections that are initialised and not closed -/
  clients : List ℤ
  /-- the indices of `users` -/
  indices : List ℤ

namespace CountedServer

open HttpConn (Arm)

def start (threadNum : ℕ) : CountedServer where
  toHttpServer := .start threadNum
  userCount := 0
  clients := []
  indices := []

/-- `main` forms `users[i]`. -/
def use (s : CountedServer) (i : ℤ) : CountedServer := { s with indices := s.indices ++ [i] }

/-- `init(sockfd, addr)` of `users[fd]` -/
def initConn (s : CountedServer) (fd : ℕ) : CountedServer :=
  { s with
    toHttpServer := (s.setUser fd ((s.users fd).initConn fd)).addfd fd
    userCount := s.userCount + 1
    clients := s.clients ++ [(fd : ℤ)] }

/-- `close_conn()` of `users[fd]`, called by the main thread -/
def closeConn (s : CountedServer) (fd : ℕ) : CountedServer :=
  if (s.users fd).sockfd ≠ -1 then
    { s with
      toHttpServer := s.toHttpServer.closeConn fd
      userCount := s.userCount - 1
      clients := s.clients.erase (s.users fd).sockfd }
  else s

/-- The branch for the listening socket; `none` is the `-1` of an `accept` that fails. Then `init`
sets a member outside the array to `-1`, and counts a user all the same. -/
def accept (s : CountedServer) (connfd : Option ℕ) : Option CountedServer :=
  match connfd with
  | none =>
    if maxFd ≤ s.userCount then some s
    else some { s.use (-1) with userCount := s.userCount + 1 }
  | some fd =>
    if s.opened fd then none
    else if maxFd ≤ s.userCount then some s
    else some ((s.use fd).initConn fd)

/-- The branches of the loop of `main` for a connection. -/
def handleEvent (maxRequests : ℕ) (s : CountedServer) (fd : ℕ) (events : Mask)
    (recvs : List ReadState.Recv) (writes : List WriteResult) : CountedServer :=
  if events &&& (EPOLLRDHUP ||| EPOLLHUP ||| EPOLLERR) ≠ 0 then (s.use fd).closeConn fd
  else if events &&& EPOLLIN ≠ 0 then
    let (ok, c) := (s.users fd).read recvs
    let s := { s.use fd with toHttpServer := s.setUser fd c }
    if ok then { s with toHttpServer := (s.append maxRequests fd).2 } else s.closeConn fd
  else if events &&& EPOLLOUT ≠ 0 then
    let (written, c) := (s.users fd).write writes
    let s := { s.use fd with toHttpServer := (s.setUser fd c).rearm c.sockfd written.arm }
    if written.ret then s else s.closeConn fd
  else s

/-- `process()` of a worker, to its end -/
def process (typeText : List UInt8) (s : CountedServer) (w : ℕ) (fs : FileSystem) :
    Option CountedServer :=
  match s.workers[w]? with
  | some (.processing fd) =>
    let c := s.users fd
    let ((ev, _), c') := c.process typeText fs
    if c.sockfd ≠ -1 ∧ c'.sockfd = -1 then
      -- it ends in `close_conn`; the `modfd` behind it finds no socket
      some
        { s with
          toHttpServer := ((s.setUser fd c').rmfd c.sockfd).setWorker w .idle
          userCount := s.userCount - 1
          clients := s.clients.erase c.sockfd }
    else
      some { s with toHttpServer := ((s.setUser fd c').modfd c'.sockfd ev).setWorker w .idle }
  | _ => none

inductive Label where
  | wait (reports : List Report)
  | accept (connfd : Option ℕ)
  | handle (recvs : List ReadState.Recv) (writes : List WriteResult)
  | take (w : ℕ)
  | process (w : ℕ) (fs : FileSystem)

def step (typeText : List UInt8) (maxRequests : ℕ) (s : CountedServer) :
    Label → Option CountedServer
  | .wait reports =>
    if s.events = [] ∧ (∀ r ∈ reports, s.Reportable r) ∧ reports.Pairwise Report.Distinct then
      some { s with toHttpServer := s.toHttpServer.wait reports }
    else none
  | .accept connfd =>
    match s.events with
    | .listen :: rest => { s with events := rest }.accept connfd
    | _ => none
  | .handle recvs writes =>
    match s.events with
    | .conn fd events :: rest =>
      some ({ s with events := rest }.handleEvent maxRequests fd events recvs writes)
    | _ => none
  | .take w => (s.toHttpServer.take w).map fun t => { s with toHttpServer := t }
  | .process w fs => s.process typeText w fs

/-- Every index lies in the array, and `m_user_count` is the number of clients. -/
def InRange (s : CountedServer) : Prop :=
  (∀ i ∈ s.indices, 0 ≤ i ∧ i < maxFd) ∧ s.userCount = s.clients.length

/-- An `accept` whose connection is not turned away returns a descriptor that is an index. -/
def InRangeOk (s : CountedServer) : Label → Prop
  | .accept connfd => maxFd ≤ s.userCount ∨ ∃ fd, connfd = some fd ∧ fd < maxFd
  | _ => True

end CountedServer

/-! ## Slots and clients -/

namespace HttpServer

open HttpConn (Arm)

/-- Some thread is going to use the slot `fd`. -/
def Known (s : HttpServer) (fd : ℕ) : Prop :=
  (∃ events, Report.conn fd events ∈ s.events) ∨ fd ∈ s.workqueue ∨ .processing fd ∈ s.workers

/-- The slot `fd` is in the array, and its connection is open unless it has been closed. -/
def Usable (s : HttpServer) (fd : ℕ) : Prop :=
  fd < maxFd ∧ ((s.users fd).sockfd = -1 ∨ s.opened fd = true)

structure Tracked (clients : List ℤ) (s : HttpServer) : Prop where
  opened : ∀ fd, s.opened fd = true → fd < maxFd ∧ (s.users fd).sockfd = fd ∧ (fd : ℤ) ∈ clients
  armed : ∀ fd, s.armed fd ≠ .none → s.opened fd = true
  known : ∀ fd, s.Known fd → s.Usable fd

section Tracked

variable {s t : HttpServer} {clients : List ℤ} {fd : ℕ}

/-- A socket that is set belongs to an open connection, one of the clients. -/
theorem Tracked.client (h : Tracked clients s) (hfd : s.Usable fd)
    (hne : (s.users fd).sockfd ≠ -1) :
    s.opened fd = true ∧ (s.users fd).sockfd = fd ∧ (s.users fd).sockfd ∈ clients := by
  have hopen : s.opened fd = true := hfd.2.resolve_left hne
  obtain ⟨-, hsock, hmem⟩ := h.opened fd hopen
  exact ⟨hopen, hsock, hsock ▸ hmem⟩

/-- Steps that neither open nor close a connection, nor change the socket of a slot. -/
theorem Tracked.of_same (h : Tracked clients s) (hopened : t.opened = s.opened)
    (hsock : ∀ fd, (t.users fd).sockfd = (s.users fd).sockfd)
    (harmed : ∀ fd, t.armed fd ≠ .none → s.opened fd = true)
    (hknown : ∀ fd, t.Known fd → s.Usable fd) : Tracked clients t where
  opened fd' hopen := by
    rw [hsock]
    exact h.opened fd' (hopened ▸ hopen)
  armed fd' harm := by
    rw [hopened]
    exact harmed fd' harm
  known fd' hk := by
    rw [Usable, hsock, hopened]
    exact hknown fd' hk

theorem Tracked.setUser (h : Tracked clients s) {c : HttpConn}
    (hc : c.sockfd = (s.users fd).sockfd) : Tracked clients (s.setUser fd c) := by
  refine h.of_same rfl (fun fd' => ?_) h.armed h.known
  show (Function.update s.users fd c fd').sockfd = _
  by_cases heq : fd' = fd
  · subst heq
    rw [Function.update_self, hc]
  · rw [Function.update_of_ne heq]

theorem Usable.setUser (h : s.Usable fd) {c : HttpConn} (hc : c.sockfd = (s.users fd).sockfd) :
    (s.setUser fd c).Usable fd := by
  refine ⟨h.1, ?_⟩
  show (Function.update s.users fd c fd).sockfd = -1 ∨ _
  rw [Function.update_self, hc]
  exact h.2

theorem Usable.rearm (h : s.Usable fd) (sockfd : ℤ) (ev : Arm) : (s.rearm sockfd ev).Usable fd := by
  have hmodfd : ∀ ev, (s.modfd sockfd ev).Usable fd := by
    intro ev
    unfold HttpServer.modfd
    split <;> exact h
  cases ev with
  | none => exact h
  | epollin | epollout => exact hmodfd _

theorem Tracked.modfd (h : Tracked clients s) (sockfd : ℤ) (ev : Arm) :
    Tracked clients (s.modfd sockfd ev) := by
  unfold HttpServer.modfd
  split
  · rename_i hset
    refine h.of_same rfl (fun _ => rfl) (fun fd' harm => ?_) h.known
    by_cases heq : fd' = sockfd.toNat
    · exact heq ▸ hset.2
    · have hsame : Function.update s.armed sockfd.toNat ev fd' = s.armed fd' :=
        Function.update_of_ne heq _ _
      exact h.armed fd' fun hnone => harm (hsame.trans hnone)
  · exact h

theorem Tracked.rearm (h : Tracked clients s) (sockfd : ℤ) (ev : Arm) :
    Tracked clients (s.rearm sockfd ev) := by
  cases ev with
  | none => exact h
  | epollin | epollout => exact h.modfd sockfd _

/-- A connection that is open is closed, and its slot gets the socket `-1`. -/
theorem Tracked.closed (h : Tracked clients s)
    (hopened : t.opened = Function.update s.opened fd false)
    (hsock : ∀ fd', fd' ≠ fd → (t.users fd').sockfd = (s.users fd').sockfd)
    (hself : (t.users fd).sockfd = -1)
    (harmed : t.armed = Function.update s.armed fd .none)
    (hknown : ∀ fd', t.Known fd' → s.Usable fd') :
    Tracked (clients.erase (fd : ℤ)) t where
  opened fd' hopen := by
    rw [hopened] at hopen
    by_cases heq : fd' = fd
    · rw [heq, Function.update_self] at hopen
      cases hopen
    · rw [Function.update_of_ne heq] at hopen
      obtain ⟨hlt, hsock', hmem⟩ := h.opened fd' hopen
      refine ⟨hlt, (hsock fd' heq).trans hsock', ?_⟩
      exact (List.mem_erase_of_ne (by omega)).mpr hmem
  armed fd' harm := by
    rw [harmed] at harm
    rw [hopened]
    by_cases heq : fd' = fd
    · rw [heq, Function.update_self] at harm
      exact absurd rfl harm
    · rw [Function.update_of_ne heq] at harm ⊢
      exact h.armed fd' harm
  known fd' hk := by
    obtain ⟨hlt, hstate⟩ := hknown fd' hk
    by_cases heq : fd' = fd
    · exact ⟨hlt, Or.inl (heq ▸ hself)⟩
    · rw [Usable, hsock fd' heq, hopened, Function.update_of_ne heq]
      exact ⟨hlt, hstate⟩

theorem Tracked.closeConn (h : Tracked clients s) (hfd : s.Usable fd)
    (hne : (s.users fd).sockfd ≠ -1) :
    Tracked (clients.erase (s.users fd).sockfd) (s.closeConn fd) := by
  obtain ⟨hopen, hsock, -⟩ := h.client hfd hne
  have hclose : s.closeConn fd = (s.rmfd fd).setUser fd (s.users fd).closeConn := by
    rw [HttpServer.closeConn, if_pos hne, hsock]
  have hrmfd : s.rmfd fd = { s with
      opened := Function.update s.opened fd false
      armed := Function.update s.armed fd .none } := by
    rw [HttpServer.rmfd, if_pos (Int.natCast_nonneg fd), Int.toNat_natCast]
  rw [hsock, hclose, hrmfd]
  apply h.closed rfl
  · intro fd' heq
    show (Function.update s.users fd _ fd').sockfd = _
    rw [Function.update_of_ne heq]
  · show (Function.update s.users fd _ fd).sockfd = -1
    rw [Function.update_self, HttpConn.closeConn, if_pos hne]
  · rfl
  · exact h.known

theorem Tracked.append (h : Tracked clients s) (hfd : s.Usable fd) (maxRequests : ℕ) :
    Tracked clients (s.append maxRequests fd).2 := by
  unfold HttpServer.append
  split
  · exact h
  · refine h.of_same rfl (fun _ => rfl) h.armed fun fd' hk => ?_
    rcases hk with hev | hmem | hworker
    · exact h.known fd' (Or.inl hev)
    · rcases List.mem_append.mp hmem with hmem | hmem
      · exact h.known fd' (Or.inr (Or.inl hmem))
      · exact List.mem_singleton.mp hmem ▸ hfd
    · exact h.known fd' (Or.inr (Or.inr hworker))

theorem Tracked.pop (h : Tracked clients s) {r : Report} {rest : List Report}
    (hev : s.events = r :: rest) : Tracked clients { s with events := rest } := by
  refine h.of_same rfl (fun _ => rfl) h.armed fun fd' hk => ?_
  rcases hk with ⟨events, hmem⟩ | hother
  · exact h.known fd' (Or.inl ⟨events, hev ▸ List.mem_cons_of_mem r hmem⟩)
  · exact h.known fd' (Or.inr hother)

theorem Tracked.wait (h : Tracked clients s) {reports : List Report}
    (hrep : ∀ r ∈ reports, s.Reportable r) : Tracked clients (s.wait reports) := by
  refine h.of_same rfl (fun _ => rfl) (fun fd' harm => ?_) fun fd' hk => ?_
  · apply h.armed fd'
    intro hnone
    apply harm
    show (if _ then Arm.none else s.armed fd') = .none
    rw [hnone, ite_self]
  · rcases hk with ⟨events, hmem⟩ | hother
    · -- what is reported was armed
      have hopen := h.armed fd' (hrep _ hmem).1
      exact ⟨(h.opened fd' hopen).1, Or.inr hopen⟩
    · exact h.known fd' (Or.inr hother)

theorem Tracked.take (h : Tracked clients s) {w : ℕ} (ht : s.take w = some t) :
    Tracked clients t := by
  unfold HttpServer.take at ht
  split at ht <;> cases ht
  rename_i fd rest hw hq
  refine h.of_same rfl (fun _ => rfl) h.armed fun fd' hk => ?_
  rcases hk with hev | hmem | hworker
  · exact h.known fd' (Or.inl hev)
  · exact h.known fd' (Or.inr (Or.inl (hq ▸ List.mem_cons_of_mem fd hmem)))
  · rcases List.mem_or_eq_of_mem_set hworker with hworker | heq
    · exact h.known fd' (Or.inr (Or.inr hworker))
    · cases heq
      exact h.known _ (Or.inr (Or.inl (hq ▸ List.mem_cons_self)))

/-- A worker that is done with its slot. -/
theorem Tracked.idle (h : Tracked clients s) (w : ℕ) : Tracked clients (s.setWorker w .idle) := by
  refine h.of_same rfl (fun _ => rfl) h.armed fun fd' hk => ?_
  rcases hk with hev | hmem | hworker
  · exact h.known fd' (Or.inl hev)
  · exact h.known fd' (Or.inr (Or.inl hmem))
  · rcases List.mem_or_eq_of_mem_set hworker with hworker | heq
    · exact h.known fd' (Or.inr (Or.inr hworker))
    · cases heq

/-- `rmfd` of a worker, in a slot that has the socket `-1` afterwards. -/
theorem Tracked.rmfd (h : Tracked clients s) (hfd : s.Usable fd) (hne : (s.users fd).sockfd ≠ -1)
    {c : HttpConn} (hc : c.sockfd = -1) :
    Tracked (clients.erase (s.users fd).sockfd)
      ((s.setUser fd c).rmfd (s.users fd).sockfd) := by
  obtain ⟨-, hsock, -⟩ := h.client hfd hne
  rw [hsock, HttpServer.rmfd, if_pos (Int.natCast_nonneg fd), Int.toNat_natCast]
  apply h.closed rfl
  · intro fd' heq
    show (Function.update s.users fd c fd').sockfd = _
    rw [Function.update_of_ne heq]
  · show (Function.update s.users fd c fd).sockfd = -1
    rw [Function.update_self, hc]
  · rfl
  · exact h.known

/-- A connection is put in a slot whose descriptor was free. -/
theorem Tracked.initConn (h : Tracked clients s) (hlt : fd < maxFd) :
    Tracked (clients ++ [(fd : ℤ)])
      ((s.setUser fd ((s.users fd).initConn fd)).addfd fd) where
  opened fd' hopen := by
    have hopen' : Function.update s.opened fd true fd' = true := hopen
    show fd' < maxFd ∧ (Function.update s.users fd _ fd').sockfd = fd' ∧ _
    by_cases heq : fd' = fd
    · subst heq
      rw [Function.update_self]
      exact ⟨hlt, rfl, List.mem_append_right _ (List.mem_singleton_self _)⟩
    · rw [Function.update_of_ne heq] at hopen' ⊢
      obtain ⟨hlt', hsock, hmem⟩ := h.opened fd' hopen'
      exact ⟨hlt', hsock, List.mem_append_left _ hmem⟩
  armed fd' harm := by
    have harm' : Function.update s.armed fd .epollin fd' ≠ .none := harm
    show Function.update s.opened fd true fd' = true
    by_cases heq : fd' = fd
    · rw [heq, Function.update_self]
    · rw [Function.update_of_ne heq] at harm' ⊢
      exact h.armed fd' harm'
  known fd' hk := by
    obtain ⟨hlt', hstate⟩ := h.known fd' hk
    refine ⟨hlt', ?_⟩
    show (Function.update s.users fd _ fd').sockfd = -1 ∨
      Function.update s.opened fd true fd' = true
    by_cases heq : fd' = fd
    · rw [heq, Function.update_self, Function.update_self]
      exact Or.inr rfl
    · rw [Function.update_of_ne heq, Function.update_of_ne heq]
      exact hstate

end Tracked

end HttpServer

/-! ## Runs -/

namespace CountedServer

/-- Indices and count are right, and the slots agree with the clients. -/
structure Counted (s : CountedServer) : Prop where
  inRange : InRange s
  tracked : s.toHttpServer.Tracked s.clients

section Steps

variable {s t : CountedServer} {fd : ℕ}

theorem Counted.use (h : Counted s) (hlt : fd < maxFd) : Counted (s.use fd) where
  inRange := by
    refine ⟨fun i hi => ?_, h.inRange.2⟩
    rcases List.mem_append.mp hi with hi | hi
    · exact h.inRange.1 i hi
    · rw [List.mem_singleton.mp hi]
      omega
  tracked := h.tracked

/-- Steps that leave the count alone. -/
theorem Counted.server (h : Counted s) {server : HttpServer}
    (hserver : server.Tracked s.clients) : Counted { s with toHttpServer := server } :=
  ⟨h.inRange, hserver⟩

/-- `m_user_count` goes down with the clients. -/
theorem Counted.drop (h : Counted s) {server : HttpServer} {sockfd : ℤ} (hmem : sockfd ∈ s.clients)
    (hserver : server.Tracked (s.clients.erase sockfd)) :
    Counted { s with
      toHttpServer := server
      userCount := s.userCount - 1
      clients := s.clients.erase sockfd } where
  inRange := by
    refine ⟨h.inRange.1, ?_⟩
    have hlen := List.length_erase_of_mem hmem
    have hpos := List.length_pos_of_mem hmem
    show s.userCount - 1 = ((s.clients.erase sockfd).length : ℤ)
    rw [h.inRange.2]
    omega
  tracked := hserver

theorem Counted.closeConn (h : Counted s) (hfd : s.Usable fd) : Counted (s.closeConn fd) := by
  unfold CountedServer.closeConn
  split
  · rename_i hne
    exact h.drop (h.tracked.client hfd hne).2.2 (h.tracked.closeConn hfd hne)
  · exact h

theorem Counted.accept (h : Counted s) {connfd : Option ℕ} (ht : s.accept connfd = some t)
    (hok : InRangeOk s (.accept connfd)) : Counted t := by
  cases connfd with
  | none =>
    rw [CountedServer.accept] at ht
    split at ht
    · cases ht
      exact h
    · rename_i hroom
      rcases hok with hfull | ⟨fd, hnone, -⟩
      · exact absurd hfull hroom
      · cases hnone
  | some fd =>
    rw [CountedServer.accept] at ht
    split at ht
    · cases ht
    · split at ht
      · cases ht
        exact h
      · rename_i hroom
        cases ht
        have hlt : fd < maxFd := by
          rcases hok with hfull | ⟨fd', hsome, hlt⟩
          · exact absurd hfull hroom
          · rwa [Option.some.inj hsome]
        have hused := h.use hlt
        refine ⟨⟨hused.inRange.1, ?_⟩, h.tracked.initConn hlt⟩
        show s.userCount + 1 = ((s.clients ++ [(fd : ℤ)]).length : ℤ)
        rw [h.inRange.2, List.length_append, List.length_singleton]
        omega

theorem Counted.handleEvent (h : Counted s) (hfd : s.Usable fd) (maxRequests : ℕ) (events : Mask)
    (recvs : List ReadState.Recv) (writes : List WriteResult) :
    Counted (s.handleEvent maxRequests fd events recvs writes) := by
  have hused := h.use hfd.1
  unfold CountedServer.handleEvent
  split
  · exact hused.closeConn hfd
  · split
    · have hsock : ((s.users fd).read recvs).2.sockfd = (s.users fd).sockfd := rfl
      have hset := h.tracked.setUser hsock
      have husable := hfd.setUser hsock
      simp only
      split
      · exact (hused.server hset).server (hset.append husable maxRequests)
      · exact (hused.server hset).closeConn husable
    · split
      · have hsock := HttpConn.sockfd_write (s.users fd) writes
        have hset := (h.tracked.setUser hsock).rearm ((s.users fd).write writes).2.sockfd
          ((s.users fd).write writes).1.arm
        have husable := (hfd.setUser hsock).rearm ((s.users fd).write writes).2.sockfd
          ((s.users fd).write writes).1.arm
        simp only
        split
        · exact hused.server hset
        · exact (hused.server hset).closeConn husable
      · exact h

theorem Counted.process (h : Counted s) {typeText : List UInt8} {w : ℕ} {fs : FileSystem}
    (ht : s.process typeText w fs = some t) : Counted t := by
  unfold CountedServer.process at ht
  split at ht
  · rename_i fd hw
    have husable : s.Usable fd :=
      h.tracked.known fd (Or.inr (Or.inr (List.mem_of_getElem? hw)))
    simp only at ht
    split at ht
    · rename_i hclose
      cases ht
      exact h.drop (h.tracked.client husable hclose.1).2.2
        ((h.tracked.rmfd husable hclose.1 hclose.2).idle w)
    · rename_i hopen
      cases ht
      have hsock : ((s.users fd).process typeText fs).2.sockfd = (s.users fd).sockfd := by
        rcases (HttpConn.process_socket typeText fs (s.users fd)).2 with hsame | hminus
        · exact hsame
        · by_contra hne
          exact hopen ⟨fun hold => hne (hminus.trans hold.symm), hminus⟩
      exact h.server (((h.tracked.setUser hsock).modfd _ _).idle w)
  · cases ht

end Steps

/-! ## The server without the count -/

section Refines

variable {s t : CountedServer}

theorem closeConn_server (s : CountedServer) (fd : ℕ) :
    (s.closeConn fd).toHttpServer = s.toHttpServer.closeConn fd := by
  unfold CountedServer.closeConn
  split
  · rfl
  · rename_i hclosed
    rw [HttpServer.closeConn, if_neg hclosed]

theorem handleEvent_server (maxRequests : ℕ) (s : CountedServer) (fd : ℕ) (events : Mask)
    (recvs : List ReadState.Recv) (writes : List WriteResult) :
    (s.handleEvent maxRequests fd events recvs writes).toHttpServer =
      s.toHttpServer.handleEvent maxRequests fd events recvs writes := by
  unfold CountedServer.handleEvent HttpServer.handleEvent
  split
  · exact closeConn_server _ _
  · split
    · simp only
      split
      · rfl
      · exact closeConn_server _ _
    · split
      · simp only
        split
        · rfl
        · exact closeConn_server _ _
      · rfl

theorem accept_server {connfd : Option ℕ} (h : s.accept connfd = some t) :
    s.toHttpServer.accept connfd (decide ((maxFd : ℤ) ≤ s.userCount)) = some t.toHttpServer := by
  unfold CountedServer.accept at h
  split at h
  · split at h <;> cases h <;> rfl
  · split at h
    · cases h
    · rename_i hfree
      split at h <;> cases h
      · rename_i hfull
        simp only [HttpServer.accept, if_neg hfree, hfull, decide_true, if_true]
      · rename_i hroom
        simp only [HttpServer.accept, if_neg hfree, hroom, decide_false, Bool.false_eq_true,
          if_false]
        rfl

theorem exec_leave_leave {typeText : List UInt8} {maxRequests w fd : ℕ} {server : HttpServer}
    {pc : WorkerPc} (hw : server.workers[w]? = some pc) {c : HttpConn} (hc : c.sockfd = -1)
    (sockfd : ℤ) :
    Machine.exec (HttpServer.step typeText maxRequests)
      (((server.setUser fd { c with sockfd := sockfd }).rmfd sockfd).setWorker w (.closing fd))
      [.leave w, .leave w] =
      some (((server.setUser fd c).rmfd sockfd).setWorker w .idle) := by
  have hswap : ∀ c, (server.setUser fd c).rmfd sockfd = (server.rmfd sockfd).setUser fd c := by
    intro c
    unfold HttpServer.rmfd
    split <;> rfl
  have hworkers : (server.rmfd sockfd).workers = server.workers := by
    unfold HttpServer.rmfd
    split <;> rfl
  rw [hswap, hswap]
  generalize server.rmfd sockfd = u at hworkers
  have hlt : w < u.workers.length := by
    rw [hworkers]
    exact (List.getElem?_eq_some_iff.mp hw).1
  have hset : ∀ pc' : WorkerPc, (u.workers.set w pc')[w]? = some pc' :=
    fun pc' => List.getElem?_set_self hlt
  have hback : ({ c with sockfd := -1 } : HttpConn) = c := by rw [← hc]
  have hgone : ¬ 0 ≤ c.sockfd := by omega
  simp [Machine.exec, HttpServer.step, HttpServer.leave, HttpServer.setWorker, HttpServer.setUser,
    HttpServer.modfd, hset, hback, hgone]

/-- `HttpServer` has this step: its parser stores inside `m_read_buf`, and its `write` returns. -/
def Regular (s : CountedServer) : Label → Prop
  | .handle _ writes => ∀ fd events rest, s.events = .conn fd events :: rest →
      s.Returns fd events writes
  | .process w _ => s.overruns w = false
  | _ => True

/-- A `process` that ends in `close_conn` is three steps of the server: up to the `rmfd`, up to the
end of `close_conn`, and the rest. -/
theorem process_server {typeText : List UInt8} {maxRequests w : ℕ} {fs : FileSystem}
    (hinside : s.overruns w = false) (h : s.process typeText w fs = some t) :
    ∃ as, Machine.exec (HttpServer.step typeText maxRequests) s.toHttpServer as =
      some t.toHttpServer := by
  unfold CountedServer.process at h
  split at h
  · rename_i fd hw
    simp only at h
    split at h
    · rename_i hclose
      cases h
      exact ⟨[.process w fs, .leave w, .leave w], Machine.exec_cons_eq_some.mpr
        ⟨_, by simp only [HttpServer.step, hinside, Bool.false_eq_true, if_false,
            HttpServer.process, hw, if_pos hclose],
          exec_leave_leave hw hclose.2 _⟩⟩
    · rename_i hopen
      cases h
      refine ⟨[.process w fs], Machine.exec_cons_eq_some.mpr ⟨_, ?_, rfl⟩⟩
      simp only [HttpServer.step, hinside, Bool.false_eq_true, if_false, HttpServer.process, hw,
        if_neg hopen]
  · cases h

/-- Every such step of the counted server is a run of the server. -/
theorem step_refines {typeText : List UInt8} {maxRequests : ℕ} {a : Label}
    (hregular : s.Regular a) (ha : step typeText maxRequests s a = some t) :
    ∃ as, Machine.exec (HttpServer.step typeText maxRequests) s.toHttpServer as =
      some t.toHttpServer := by
  cases a with
  | wait reports =>
    simp only [step, Option.ite_none_right_eq_some, Option.some.injEq] at ha
    obtain ⟨hrep, rfl⟩ := ha
    refine ⟨[.wait reports], Machine.exec_cons_eq_some.mpr ⟨_, ?_, rfl⟩⟩
    rw [HttpServer.step, if_pos hrep]
  | accept connfd =>
    simp only [step] at ha
    split at ha
    · rename_i rest hev
      refine ⟨[.accept connfd (decide ((maxFd : ℤ) ≤ s.userCount))],
        Machine.exec_cons_eq_some.mpr ⟨_, ?_, rfl⟩⟩
      simp only [HttpServer.step, hev]
      exact accept_server ha
    · cases ha
  | handle recvs writes =>
    simp only [step] at ha
    split at ha
    · rename_i fd events rest hev
      cases ha
      refine ⟨[.handle recvs writes], Machine.exec_cons_eq_some.mpr ⟨_, ?_, rfl⟩⟩
      simp only [HttpServer.step, hev, if_pos (hregular fd events rest hev), handleEvent_server]
    · cases ha
  | take w =>
    obtain ⟨server, htake, rfl⟩ := Option.map_eq_some_iff.mp ha
    exact ⟨[.take w], Machine.exec_cons_eq_some.mpr ⟨_, htake, rfl⟩⟩
  | process w fs => exact process_server hregular ha

end Refines

end CountedServer
end Webservers
