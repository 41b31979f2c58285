import Webservers.HttpServer.OwnershipTheorems
import Webservers.Lib.View

/-!
# What a refused request leaves behind

`main` drops the result of `append`. A connection whose request is refused has been reported, so
that it is disarmed, and nobody holds it: it stays open for good, and nobody hears of it again.

* `refused`: the connection whose request a step drops;
* `park`: the same server as if the refused connections were still armed, for an event that never
  comes. There every open connection is in one place again, so that the ledger of
  `OwnershipTheorems` applies;
* `stranded_iff_refused`: the connections that are nowhere are those that were refused.
-/

namespace Webservers
namespace HttpServer

open HttpConn (Arm)

/-- The connection whose request `append` refuses in this step. -/
def refused (maxRequests : ℕ) (s : HttpServer) : Label → Option ℕ
  | .handle recvs _ =>
    match s.events with
    | .conn fd events :: _ =>
      if events &&& (EPOLLRDHUP ||| EPOLLHUP ||| EPOLLERR) = 0 ∧ events &&& EPOLLIN ≠ 0 ∧
          ((s.users fd).read recvs).1 = true ∧ maxRequests < s.workqueue.length then some fd
      else none
    | _ => none
  | _ => none

/-! ## Parked connections -/

/-- The connections `R` wait for an event. -/
def park (R : List ℕ) (s : HttpServer) : HttpServer :=
  { s with armed := fun fd => if fd ∈ R then .epollin else s.armed fd }

/-- The connections `R` are open and armed for nothing, and `p` is the server in which they are
parked. -/
structure Parks (R : List ℕ) (s p : HttpServer) : Prop where
  eq : p = s.park R
  opened : ∀ fd ∈ R, s.opened fd = true
  armed : ∀ fd ∈ R, s.armed fd = .none

/-- What is done to a registration that is not parked can be done before parking or after. -/
theorem park_update {R : List ℕ} {fd : ℕ} (hfd : fd ∉ R) (armed : ℕ → Arm) (ev : Arm) :
    (fun fd' => if fd' ∈ R then Arm.epollin else Function.update armed fd ev fd') =
      Function.update (fun fd' => if fd' ∈ R then Arm.epollin else armed fd') fd ev := by
  funext fd'
  by_cases heq : fd' = fd
  · subst heq
    rw [if_neg hfd, Function.update_self, Function.update_self]
  · rw [Function.update_of_ne heq, Function.update_of_ne heq]

section Parks

variable {R : List ℕ} {s p t : HttpServer} {fd w : ℕ} (h : Parks R s p)
include h

theorem Parks.users : p.users = s.users := by
  rw [h.eq]
  rfl

theorem Parks.setUser (fd : ℕ) (c : HttpConn) : Parks R (s.setUser fd c) (p.setUser fd c) := by
  obtain ⟨rfl, hopened, harmed⟩ := h
  exact ⟨rfl, hopened, harmed⟩

theorem Parks.setWorker (w : ℕ) (pc : WorkerPc) :
    Parks R (s.setWorker w pc) (p.setWorker w pc) := by
  obtain ⟨rfl, hopened, harmed⟩ := h
  exact ⟨rfl, hopened, harmed⟩

theorem Parks.setEvents (rest : List Report) :
    Parks R { s with events := rest } { p with events := rest } := by
  obtain ⟨rfl, hopened, harmed⟩ := h
  exact ⟨rfl, hopened, harmed⟩

theorem Parks.setQueue (queue : List ℕ) :
    Parks R { s with workqueue := queue } { p with workqueue := queue } := by
  obtain ⟨rfl, hopened, harmed⟩ := h
  exact ⟨rfl, hopened, harmed⟩

/-- What `rmfd`, `modfd` and `addfd` do for a connection that is not parked. -/
theorem Parks.arm (hfd : fd ∉ R) (isOpen : Bool) (ev : Arm) :
    Parks R
      { s with
        opened := Function.update s.opened fd isOpen
        armed := Function.update s.armed fd ev }
      { p with
        opened := Function.update p.opened fd isOpen
        armed := Function.update p.armed fd ev } := by
  obtain ⟨rfl, hopened, harmed⟩ := h
  have hne : ∀ fd' ∈ R, fd' ≠ fd := fun fd' hmem heq => hfd (heq ▸ hmem)
  refine ⟨?_, fun fd' hmem => ?_, fun fd' hmem => ?_⟩
  · simp only [park, park_update hfd]
  · exact (Function.update_of_ne (hne fd' hmem) _ _).trans (hopened fd' hmem)
  · exact (Function.update_of_ne (hne fd' hmem) _ _).trans (harmed fd' hmem)

theorem Parks.rmfd (hfd : fd ∉ R) : Parks R (s.rmfd fd) (p.rmfd fd) := by
  have hpos : (0 : ℤ) ≤ fd := by omega
  simp only [HttpServer.rmfd, if_pos hpos, Int.toNat_natCast]
  exact h.arm hfd false .none

/-- `modfd`, which fails on both sides or on neither. -/
theorem Parks.modfd (hfd : fd ∉ R) (ev : Arm) : Parks R (s.modfd fd ev) (p.modfd fd ev) := by
  have hopened : p.opened = s.opened := by
    rw [h.eq]
    rfl
  have hpos : (0 : ℤ) ≤ fd := by omega
  simp only [HttpServer.modfd, hopened, Int.toNat_natCast]
  by_cases hopen : s.opened fd = true
  · rw [if_pos ⟨hpos, hopen⟩, if_pos ⟨hpos, hopen⟩]
    have harm := h.arm hfd (s.opened fd) ev
    rw [hopened, Function.update_eq_self] at harm
    rw [← hopened] at harm ⊢
    exact harm
  · rw [if_neg (fun hand => hopen hand.2), if_neg (fun hand => hopen hand.2)]
    exact h

theorem Parks.rearm (hfd : fd ∉ R) (ev : Arm) : Parks R (s.rearm fd ev) (p.rearm fd ev) := by
  cases ev with
  | none => exact h
  | epollin | epollout => exact h.modfd hfd _

/-- `close_conn` of a connection that is not parked. -/
theorem Parks.closeConn (hfd : fd ∉ R) (hsockfd : (s.users fd).sockfd = fd) :
    Parks R (s.closeConn fd) (p.closeConn fd) := by
  have hne : (fd : ℤ) ≠ -1 := by omega
  simp only [HttpServer.closeConn, h.users, hsockfd, if_pos hne]
  exact (h.rmfd hfd).setUser fd _

/-- A request that the pool accepts. -/
theorem Parks.append {maxRequests : ℕ} (hroom : s.workqueue.length ≤ maxRequests) (fd : ℕ) :
    Parks R (s.append maxRequests fd).2 (p.append maxRequests fd).2 := by
  have hqueue : p.workqueue = s.workqueue := by
    rw [h.eq]
    rfl
  rw [append_of_le hroom, append_of_le (by rw [hqueue]; exact hroom), hqueue]
  exact h.setQueue _

/-- A connection that somebody has is not parked. -/
theorem Parks.not_mem (hsound : Sound p)
    (hpos : 0 < (s.ledger fd).main + (s.ledger fd).queued + (s.ledger fd).processing +
      (s.ledger fd).closing + (s.ledger fd).closed) : fd ∉ R := by
  intro hmem
  have hopen := h.opened fd hmem
  obtain ⟨rfl, -, -⟩ := h
  have harmed : ((s.park R).ledger fd).armed = 1 := by
    simp only [ledger, park, if_pos hmem, armCount]
  have hledger : (s.park R).ledger fd = { s.ledger fd with armed := 1 } := by
    rw [← harmed]
    rfl
  obtain ⟨-, hsum, hclosing, hclosed⟩ := (hsound fd).held hopen
  rw [hledger] at hsum hclosing hclosed
  simp only at hsum hclosing hclosed
  omega

/-- Whoever has a connection finds its descriptor in the slot. -/
theorem Parks.sockfd (hsound : Sound p)
    (hpos : 0 < (s.ledger fd).main + (s.ledger fd).queued + (s.ledger fd).processing) :
    (s.users fd).sockfd = fd := by
  have hfd : fd ∉ R := h.not_mem hsound (by omega)
  obtain ⟨rfl, -, -⟩ := h
  have hledger : (s.park R).ledger fd = s.ledger fd := by
    simp only [ledger, park, if_neg hfd]
  have hheld := (hsound fd).held
  rw [hledger] at hheld
  have hopen := (hsound fd).opened_of_pos (by rw [hledger]; omega)
  rw [hledger] at hopen
  exact (hheld hopen).1

/-! ## Steps -/

/-- `epoll_wait` reports no parked connection. -/
theorem Parks.wait {reports : List Report} (hrep : ∀ r ∈ reports, s.Reportable r) :
    (∀ r ∈ reports, p.Reportable r) ∧ Parks R (s.wait reports) (p.wait reports) := by
  have hquiet : ∀ fd ∈ R, reports.any (Report.concerns fd) = false := by
    intro fd hmem
    rw [Bool.eq_false_iff]
    exact fun hany => armed_of_reported hrep hany (h.armed fd hmem)
  obtain ⟨rfl, hopened, harmed⟩ := h
  constructor
  · intro r hr
    cases r with
    | listen => trivial
    | conn fd events =>
      obtain ⟨hne, hevents⟩ := hrep _ hr
      have hfd : fd ∉ R := fun hmem => hne (harmed fd hmem)
      have hsame : (s.park R).armed fd = s.armed fd := if_neg hfd
      show (s.park R).armed fd ≠ .none ∧ events ≠ 0 ∧ _
      rw [hsame]
      exact ⟨hne, hevents⟩
  · refine ⟨?_, hopened, fun fd hmem => ?_⟩
    · simp only [HttpServer.wait, park]
      congr 1
      funext fd
      by_cases hmem : fd ∈ R
      · rw [hquiet fd hmem]
        simp only [hmem, if_true, Bool.false_eq_true, if_false]
      · simp only [hmem, if_false]
    · simp only [HttpServer.wait, harmed fd hmem, ite_self]

/-- A descriptor that is given out was closed, and so was not parked. -/
theorem Parks.accept {connfd : Option ℕ} {full : Bool} (ha : s.accept connfd full = some t) :
    ∃ q, p.accept connfd full = some q ∧ Parks R t q := by
  have hopened : p.opened = s.opened := by
    rw [h.eq]
    rfl
  unfold HttpServer.accept at ha ⊢
  cases connfd with
  | none =>
    cases ha
    exact ⟨p, rfl, h⟩
  | some fd =>
    simp only [hopened, h.users] at ha ⊢
    split at ha
    · cases ha
    · rename_i hfree
      rw [if_neg hfree]
      split at ha
      · rename_i hfull
        cases ha
        rw [if_pos hfull]
        exact ⟨p, rfl, h⟩
      · rename_i hroom
        cases ha
        rw [if_neg hroom]
        have hfd : fd ∉ R := fun hmem => hfree (h.opened fd hmem)
        exact ⟨_, rfl, (h.setUser fd _).arm hfd true .epollin⟩

/-- The main thread does the same on both sides, unless the pool refuses. -/
theorem Parks.handleEvent {maxRequests : ℕ} {events : Mask} {recvs : List ReadState.Recv}
    (hfd : fd ∉ R) (hsockfd : (s.users fd).sockfd = fd) (writes : List WriteResult)
    (hroom : events &&& (EPOLLRDHUP ||| EPOLLHUP ||| EPOLLERR) = 0 → events &&& EPOLLIN ≠ 0 →
      ((s.users fd).read recvs).1 = true → s.workqueue.length ≤ maxRequests) :
    Parks R (s.handleEvent maxRequests fd events recvs writes)
      (p.handleEvent maxRequests fd events recvs writes) := by
  unfold HttpServer.handleEvent
  by_cases hhup : events &&& (EPOLLRDHUP ||| EPOLLHUP ||| EPOLLERR) = 0
  · simp only [if_neg (not_not.mpr hhup), h.users]
    by_cases hin : events &&& EPOLLIN = 0
    -- `write`
    · simp only [if_neg (not_not.mpr hin)]
      have hkept := (HttpConn.sockfd_write (s.users fd) writes).trans hsockfd
      generalize (s.users fd).write writes = r at hkept
      obtain ⟨written, c⟩ := r
      have hset := (h.setUser fd c).rearm hfd written.arm
      simp only at hkept
      simp only [hkept]
      split
      · split
        · exact hset
        · apply hset.closeConn hfd
          have husers : ((s.setUser fd c).rearm fd written.arm).users = (s.setUser fd c).users := by
            cases written.arm <;> simp only [HttpServer.rearm, HttpServer.modfd] <;>
              split <;> rfl
          rw [husers]
          simp only [HttpServer.setUser, Function.update_self, hkept]
      · exact h
    -- `read`, and a request if it brought something
    · simp only [if_pos hin]
      have hkept : ((s.users fd).read recvs).2.sockfd = fd := hsockfd
      have hroom := hroom hhup hin
      generalize (s.users fd).read recvs = r at hkept hroom
      obtain ⟨ok, c⟩ := r
      have hset := h.setUser fd c
      cases ok with
      | true => exact hset.append (hroom rfl) fd
      | false =>
        apply hset.closeConn hfd
        simp only [HttpServer.setUser, Function.update_self]
        exact hkept
  · simp only [if_pos hhup]
    exact h.closeConn hfd hsockfd

theorem Parks.take (ha : s.take w = some t) : ∃ q, p.take w = some q ∧ Parks R t q := by
  unfold HttpServer.take at ha ⊢
  split at ha
  · rename_i fd rest hw hqueue
    cases ha
    have hw' : p.workers[w]? = some .idle := by
      rw [h.eq]
      exact hw
    have hqueue' : p.workqueue = fd :: rest := by
      rw [h.eq]
      exact hqueue
    rw [hw', hqueue']
    exact ⟨_, rfl, (h.setQueue rest).setWorker w _⟩
  · cases ha

/-- So does a worker in `process`. -/
theorem Parks.process (hsound : Sound p) {typeText : List UInt8} {fs : FileSystem}
    (ha : s.process typeText w fs = some t) :
    ∃ q, p.process typeText w fs = some q ∧ Parks R t q := by
  have hworkers : p.workers = s.workers := by
    rw [h.eq]
    rfl
  unfold HttpServer.process at ha ⊢
  rw [hworkers]
  split at ha
  · rename_i fd hw
    have hpos : 0 < (s.ledger fd).processing :=
      List.count_pos_iff.mpr (List.mem_of_getElem? hw)
    have hfd : fd ∉ R := h.not_mem hsound (by omega)
    have hsockfd : (s.users fd).sockfd = fd := h.sockfd hsound (by omega)
    have hsock := (HttpConn.process_socket typeText fs (s.users fd)).2
    have hne : (fd : ℤ) ≠ -1 := by omega
    simp only [h.users, hsockfd, ne_eq, hne, not_false_eq_true, true_and] at ha hsock ⊢
    generalize (s.users fd).process typeText fs = r at ha hsock
    obtain ⟨⟨ev, code⟩, c⟩ := r
    split at ha
    · rename_i hclosed
      cases ha
      rw [if_pos hclosed]
      exact ⟨_, rfl, ((h.setUser fd _).rmfd hfd).setWorker w _⟩
    · rename_i hkeep
      cases ha
      rw [if_neg hkeep, hsock.resolve_right hkeep]
      exact ⟨_, rfl, ((h.setUser fd _).modfd hfd ev).setWorker w _⟩
  · cases ha

/-- And one that comes out of its `close_conn`. -/
theorem Parks.leave (hsound : Sound p) (ha : s.leave w = some t) :
    ∃ q, p.leave w = some q ∧ Parks R t q := by
  have hworkers : p.workers = s.workers := by
    rw [h.eq]
    rfl
  unfold HttpServer.leave at ha ⊢
  rw [hworkers, h.users]
  split at ha
  · cases ha
    exact ⟨_, rfl, (h.setUser _ _).setWorker w _⟩
  · rename_i fd hw
    cases ha
    have hclosed : 0 < (p.ledger fd).closed := by
      simp only [ledger, hworkers]
      exact List.count_pos_iff.mpr (List.mem_of_getElem? hw)
    have hsockfd : (s.users fd).sockfd = -1 := by
      rw [← h.users]
      exact (hsound fd).left hclosed
    -- the `modfd` is called with `-1`
    have hmodfd : ∀ u : HttpServer, u.modfd (-1) .epollout = u := fun _ => if_neg (by omega)
    rw [hsockfd, hmodfd, hmodfd]
    exact ⟨_, rfl, h.setWorker w _⟩
  · cases ha

/-- A step that drops no request is also a step of the server with the parked connections. -/
theorem Parks.step (hsound : Sound p) {typeText : List UInt8} {maxRequests : ℕ} {a : Label}
    (ha : s.step typeText maxRequests a = some t) (hin : s.Contained a)
    (hnone : s.refused maxRequests a = none) :
    ∃ q, p.step typeText maxRequests a = some q ∧ Parks R t q := by
  have hevents : p.events = s.events := by
    rw [h.eq]
    rfl
  cases a with
  | wait reports =>
    simp only [HttpServer.step, Option.ite_none_right_eq_some, Option.some.injEq] at ha ⊢
    obtain ⟨⟨hempty, hrep, hdist⟩, rfl⟩ := ha
    obtain ⟨hrep', hparks⟩ := h.wait hrep
    exact ⟨_, ⟨⟨hevents.trans hempty, hrep', hdist⟩, rfl⟩, hparks⟩
  | accept connfd full =>
    simp only [HttpServer.step, hevents] at ha ⊢
    split at ha
    · exact (h.setEvents _).accept ha
    · cases ha
  | handle recvs writes =>
    obtain ⟨fd, events, rest, hev, hreturns, rfl⟩ := step_handle ha
    have hpos : 0 < (s.ledger fd).main := by
      simp only [ledger, hev, countP_concerns, if_true]
      omega
    -- what is reported was armed, and a parked connection never is
    have hfd : fd ∉ R := h.not_mem hsound (by omega)
    have hsockfd : (s.users fd).sockfd = fd := h.sockfd hsound (by omega)
    have hreturns' : p.Returns fd events writes := by
      rw [HttpServer.Returns, h.users]
      exact hreturns
    simp only [refused, hev, ite_eq_right_iff, reduceCtorEq, imp_false] at hnone
    simp only [HttpServer.step, hevents, hev, if_pos hreturns']
    refine ⟨_, rfl, (h.setEvents rest).handleEvent hfd hsockfd writes ?_⟩
    exact fun hhup hin hread => Nat.le_of_not_lt fun hlt => hnone ⟨hhup, hin, hread, hlt⟩
  | take w => exact h.take ha
  | process w fs =>
    obtain ⟨hinside, ha⟩ := step_process ha
    have hinside' : p.overruns w = false := by
      rw [h.eq]
      exact hinside
    obtain ⟨q, hq, hparks⟩ := h.process hsound ha
    refine ⟨q, ?_, hparks⟩
    rw [HttpServer.step, hinside', if_neg Bool.false_ne_true]
    exact hq
  | overrun w left => exact hin.elim
  | leave w => exact h.leave hsound ha

end Parks

/-! ## Whole runs -/

section Runs

variable {R : List ℕ} {s p t : HttpServer}

/-- While no descriptor is given out too early: with the connections `R` parked, every open
connection is in one place. -/
structure Stranding (R : List ℕ) (s : HttpServer) : Prop where
  parks : Parks R s (s.park R)
  orderly : Orderly (s.park R)

theorem ledger_park (s : HttpServer) (R : List ℕ) (fd : ℕ) :
    (s.park R).ledger fd =
      { s.ledger fd with armed := if fd ∈ R then 1 else (s.ledger fd).armed } := by
  simp only [ledger, park]
  split <;> rfl

/-- The connection that the main thread has in hand is parked. -/
theorem Parks.add {u : HttpServer} {fd : ℕ} (h : Parks R u (u.park R))
    (hhand : InHand (u.park R) fd) : Parks (R ++ [fd]) u ((u.park R).modfd fd .epollin) := by
  have hnowhere := hhand.nowhere
  have hfd : fd ∉ R := by
    intro hmem
    rw [ledger_park, if_pos hmem] at hnowhere
    simp only [Ledger.holders] at hnowhere
    omega
  have harmed : u.armed fd = .none := by
    rw [ledger_park, if_neg hfd] at hnowhere
    simp only [Ledger.holders, ledger] at hnowhere
    cases hev : u.armed fd with
    | none => rfl
    | epollin | epollout =>
      rw [hev] at hnowhere
      simp only [armCount] at hnowhere
      omega
  have hmem : ∀ fd', fd' ∈ R ++ [fd] ↔ fd' ∈ R ∨ fd' = fd := fun fd' => by simp
  constructor
  · have hopen : (0 : ℤ) ≤ fd ∧ (u.park R).opened (fd : ℤ).toNat = true := ⟨by omega, hhand.opened⟩
    rw [HttpServer.modfd, if_pos hopen, Int.toNat_natCast]
    simp only [park]
    congr 1
    funext fd'
    by_cases heq : fd' = fd
    · subst heq
      rw [Function.update_self, if_pos ((hmem fd').mpr (.inr rfl))]
    · rw [Function.update_of_ne heq]
      simp only [hmem, heq, or_false]
  · intro fd' hfd'
    rcases (hmem fd').mp hfd' with hR | rfl
    · exact h.opened fd' hR
    · exact hhand.opened
  · intro fd' hfd'
    rcases (hmem fd').mp hfd' with hR | rfl
    · exact h.armed fd' hR
    · exact harmed

/-- The connection whose request is dropped is parked from then on. -/
theorem Stranding.refuse (h : Stranding R s) {typeText : List UInt8} {maxRequests fd : ℕ}
    {a : Label} (ha : s.step typeText maxRequests a = some t)
    (hrefused : s.refused maxRequests a = some fd) : Stranding (R ++ [fd]) t := by
  cases a with
  | handle recvs writes =>
    obtain ⟨fd', events, rest, hev, -, rfl⟩ := step_handle ha
    simp only [refused, hev, Option.ite_none_right_eq_some, Option.some.injEq] at hrefused
    obtain ⟨⟨hhup, hin, hread, hfull⟩, rfl⟩ := hrefused
    have hlt : maxRequests < (HttpServer.setUser { s with events := rest } fd'
      ((s.users fd').read recvs).2).workqueue.length := hfull
    simp only [handleEvent, hhup, ne_eq, not_true_eq_false, if_false, hin, not_false_eq_true,
      if_true, hread, append_of_lt hlt]
    have hhand : InHand { s.park R with events := rest } fd' := h.orderly.sound.pop hev
    have hset := hhand.setUser (c := ((s.users fd').read recvs).2) hhand.sockfd
    have hparks := ((h.parks.setEvents rest).setUser fd' ((s.users fd').read recvs).2).add hset
    have hne : Arm.epollin ≠ .none := Arm.noConfusion
    have hsound := hset.modfd hne
    refine ⟨⟨rfl, hparks.opened, hparks.armed⟩, ?_⟩
    rw [← hparks.eq]
    refine ⟨hsound, ?_⟩
    have hrest : ∀ r ∈ rest, r ∈ s.events := fun r hr => hev ▸ List.mem_cons_of_mem _ hr
    rw [events_modfd]
    exact fun r hr => h.orderly.events r (hrest r hr)
  | wait | accept | take | process | overrun | leave => cases hrefused

/-- A step adds the connection it refuses to the parked ones, and keeps the ledger. -/
theorem Stranding.step (h : Stranding R s) {typeText : List UInt8} {maxRequests : ℕ} {a : Label}
    (ha : s.step typeText maxRequests a = some t) (hfresh : s.FreshFd a) :
    Stranding (R ++ (s.refused maxRequests a).toList) t := by
  cases hrefused : s.refused maxRequests a with
  | some fd => exact h.refuse ha hrefused
  | none =>
    obtain ⟨q, hq, hparks⟩ := h.parks.step h.orderly.sound ha hfresh.contained hrefused
    rw [Option.toList_none, List.append_nil]
    have hq' := hparks.eq
    subst hq'
    refine ⟨hparks, h.orderly.step hq ?_⟩
    cases a with
    | accept connfd full =>
      cases connfd with
      | none => trivial
      | some fd =>
        cases full with
        | true => trivial
        | false =>
          simp only [OwnedOk, ledger_park]
          exact hfresh
    | handle recvs writes =>
      rintro ⟨fd, events, rest, hev, hhup, hin, hread⟩
      have hev' : s.events = .conn fd events :: rest := hev
      simp only [refused, hev', ite_eq_right_iff, reduceCtorEq, imp_false] at hrefused
      exact Nat.le_of_not_lt fun hlt => hrefused ⟨hhup, hin, hread, hlt⟩
    | overrun => exact hfresh.elim
    | wait | take | process | leave => trivial

/-- A run adds all those that it refuses, in order. -/
theorem Stranding.exec (h : Stranding R s) {typeText : List UInt8} {maxRequests : ℕ}
    {as : List Label} (hfresh : Machine.Along (HttpServer.step typeText maxRequests) FreshFd s as)
    (hexec : Machine.exec (HttpServer.step typeText maxRequests) s as = some t) :
    Stranding
      (R ++ Machine.project (HttpServer.step typeText maxRequests) (refused maxRequests) s as)
      t := by
  induction as generalizing R s with
  | nil =>
    cases hexec
    rw [Machine.project, List.append_nil]
    exact h
  | cons a as ih =>
    obtain ⟨u, hu, hrest⟩ := Machine.exec_cons_eq_some.mp hexec
    obtain ⟨hfirst, hafter⟩ := hfresh u hu
    rw [Machine.project_cons hu, ← List.append_assoc]
    exact ih (h.step hu hfirst) hafter hrest

theorem stranding_start (threadNum : ℕ) : Stranding [] (start threadNum) where
  parks := ⟨rfl, fun _ hmem => absurd hmem List.not_mem_nil,
    fun _ hmem => absurd hmem List.not_mem_nil⟩
  orderly := by
    have hpark : (start threadNum).park [] = start threadNum := by
      simp only [park, List.not_mem_nil, if_false]
    rw [hpark]
    exact ⟨sound_start threadNum, fun _ hr => absurd hr List.not_mem_nil⟩

/-- The connections that are nowhere. -/
theorem Stranding.mem_iff (h : Stranding R s) (fd : ℕ) :
    fd ∈ R ↔ s.opened fd = true ∧ (s.ledger fd).holders = 0 := by
  have hheld := (h.orderly.sound fd).held
  rw [ledger_park] at hheld
  constructor
  · intro hmem
    have hopen := h.parks.opened fd hmem
    have harmed : (s.ledger fd).armed = 0 := by
      simp only [ledger, h.parks.armed fd hmem, armCount]
    obtain ⟨-, hsum, hclosing, hclosed⟩ := hheld hopen
    simp only [if_pos hmem] at hsum hclosing hclosed
    refine ⟨hopen, ?_⟩
    unfold Ledger.holders
    omega
  · rintro ⟨hopen, hnowhere⟩
    by_contra hmem
    obtain ⟨-, hsum, hclosing, hclosed⟩ := hheld hopen
    simp only [if_neg hmem] at hsum hclosing hclosed
    unfold Ledger.holders at hnowhere
    omega

/-- Nobody shares a connection with another, parked or not. -/
theorem Stranding.holders_le (h : Stranding R s) {fd : ℕ} (hopen : s.opened fd = true) :
    (s.ledger fd).holders ≤ 1 := by
  by_cases hmem : fd ∈ R
  · rw [((h.mem_iff fd).mp hmem).2]
    exact Nat.zero_le 1
  · have hheld := (h.orderly.sound fd).held
    rw [ledger_park, if_neg hmem] at hheld
    obtain ⟨-, hsum, hclosing, hclosed⟩ := hheld hopen
    simp only at hsum hclosing hclosed
    unfold Ledger.holders
    omega

end Runs

/-- In every run that gives out no descriptor while a worker is still in `process` of its last
connection, and whose parsers store inside `m_read_buf`, however often the pool refuses: no open
connection is ever in two places, and those that are in none are exactly those whose request was
refused at some point of the run. As a run only ever adds to these, a refused connection is never
closed, armed or served again. -/
theorem stranded_iff_refused (typeText : List UInt8) (maxRequests threadNum : ℕ)
    (as : List Label) (s : HttpServer)
    (hfresh : Machine.Along (step typeText maxRequests) FreshFd (start threadNum) as)
    (hexec : Machine.exec (step typeText maxRequests) (start threadNum) as = some s) (fd : ℕ) :
    (s.opened fd = true → (s.ledger fd).holders ≤ 1) ∧
      (fd ∈ Machine.project (step typeText maxRequests) (refused maxRequests) (start threadNum) as ↔
        s.opened fd = true ∧ (s.ledger fd).holders = 0) := by
  have h := (stranding_start threadNum).exec hfresh hexec
  rw [List.nil_append] at h
  exact ⟨h.holders_le, h.mem_iff fd⟩

/-- The third of three requests that arrive before any worker has taken one. -/
theorem refused_stranded :
    ∃ s, Machine.exec (step [] 1) (start 8) threeRequests = some s ∧
      s.opened 7 = true ∧ (s.ledger 7).holders = 0 := by
  obtain ⟨s, hs⟩ : ∃ s, Machine.exec (step [] 1) (start 8) threeRequests = some s :=
    Option.isSome_iff_exists.mp (by decide +kernel)
  have hfresh : Machine.Along (step [] 1) FreshFd (start 8) threeRequests := by decide +kernel
  refine ⟨s, hs, (stranded_iff_refused [] 1 8 threeRequests s hfresh hs 7).2.mp ?_⟩
  decide +kernel

end HttpServer
end Webservers
