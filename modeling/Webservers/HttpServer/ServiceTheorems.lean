import Webservers.HttpConn.FramingTheorems
import Webservers.HttpServer.SessionTheorems

/-!
# What one client gets

`HttpConn.cycle` is a connection served by a single thread. In the server its three calls are made
by different threads, with those of other connections between them.

* `Stage` relates a connection of the server to the cycle: which segment it is working on, and how
  far it is with it.
* `files_served`: a client that keeps its side open gets the files it asks for, in order, whatever
  the other clients do and however the threads are scheduled.
-/

namespace Webservers

namespace HttpConn

/-- Either the request is not complete, or there is a response. -/
theorem process_outcome (typeText : List UInt8) (fs : FileSystem) (c : HttpConn) :
    ((c.process typeText fs).1 = (.epollin, none) ∧
        (c.process typeText fs).2.sockfd = c.sockfd) ∨
      ∃ code, (c.process typeText fs).1 = (.epollout, some code) := by
  unfold process
  generalize c.toReadState.processRead = parsed
  obtain ⟨result, r⟩ := parsed
  cases result with
  | noRequest => exact .inl ⟨rfl, rfl⟩
  | badRequest => exact .inr ⟨_, congrArg Prod.fst (respond_eq typeText _ _)⟩
  | doRequest => exact .inr ⟨_, congrArg Prod.fst (respond_eq typeText _ _)⟩

/-- Nothing that was answered is taken back. -/
theorem responses_grow {typeText : List UInt8} {fs : FileSystem} {segs : List (List UInt8)}
    {s t : Serving} (h : Machine.exec (cycle typeText fs) s segs = some t) :
    s.responses <+: t.responses := by
  refine Machine.exec_invariant (I := fun t => s.responses <+: t.responses) ?_
    (List.prefix_refl _) h
  intro u x v hu hstep
  rcases cycle_cases hstep with ⟨-, heq⟩ | ⟨-, n, code, handed, heq⟩
  · rw [heq]
    exact hu
  · rw [heq]
    exact hu.trans (List.prefix_append _ _)

/-- Of two beginnings of the same stream the shorter one is a beginning of the other. -/
theorem prefix_of_flatten_le {xs ys segs : List (List UInt8)} (hx : xs <+: segs) (hy : ys <+: segs)
    (hne : ∀ x ∈ segs, x ≠ []) (hle : xs.flatten.length ≤ ys.flatten.length) : xs <+: ys := by
  rcases List.prefix_or_prefix_of_prefix hx hy with h | ⟨rest, rfl⟩
  · exact h
  · rw [List.flatten_append, List.length_append] at hle
    have hempty : rest.flatten = [] := List.eq_nil_of_length_eq_zero (by omega)
    have hnil : rest = [] := by
      apply List.eq_nil_iff_forall_not_mem.mpr
      intro x hmem
      have hx' : x ∈ segs := hx.subset (List.mem_append_right _ hmem)
      exact hne x hx' (List.flatten_eq_nil_iff.mp hempty x hmem)
    subst hnil
    exact ⟨[], by simp⟩

/-- Part of the segments of some requests: some of them are answered, and these are all that have
come in. -/
theorem exec_requests_part {typeText : List UInt8} {fs : FileSystem} {d : HttpConn}
    (hsock : d.sockfd ≠ -1) {requests : List KeepAliveRequest}
    (hserved : ∀ q ∈ requests, Served typeText fs q)
    (hsize : ∀ q ∈ requests, q.bytes.length < readBufferSize)
    {segs xs : List (List UInt8)} (hne : ∀ x ∈ segs, x ≠ [])
    (hmeet : EndsMeet segs (requests.map KeepAliveRequest.bytes)) (hxs : xs <+: segs) :
    ∃ u, Machine.exec (cycle typeText fs) (serving d []) xs = some u ∧
      u.responses <+: requests.map (answer typeText fs) ∧
      ∀ j ≤ requests.length, ((requests.take j).map KeepAliveRequest.bytes).flatten.length ≤
        xs.flatten.length → j ≤ u.responses.length := by
  obtain ⟨groups, rfl, hgroups⟩ := hmeet
  obtain ⟨e, hexec⟩ := exec_requests hserved hsize hsock [] hne hgroups
  rw [List.nil_append] at hexec
  obtain ⟨more, hmore⟩ := hxs
  obtain ⟨u, hu, hrest⟩ := Machine.exec_append_eq_some.mp (hmore ▸ hexec)
  refine ⟨u, hu, responses_grow hrest, fun j hj hle => ?_⟩
  -- the segments of the first `j` requests
  have hfront : (groups.take j).flatten <+: groups.flatten :=
    ⟨(groups.drop j).flatten, by rw [← List.flatten_append, List.take_append_drop]⟩
  have hbytes : (groups.take j).map List.flatten =
      (requests.take j).map KeepAliveRequest.bytes := by
    rw [List.map_take, hgroups, List.map_take]
  have hlen : (groups.take j).flatten.flatten.length ≤ xs.flatten.length := by
    rw [List.flatten_flatten, hbytes]
    exact hle
  obtain ⟨rest, hrest'⟩ := prefix_of_flatten_le hfront ⟨more, hmore⟩ hne hlen
  obtain ⟨e', hexec'⟩ := exec_requests (fun q hq => hserved q (List.mem_of_mem_take hq))
    (fun q hq => hsize q (List.mem_of_mem_take hq)) hsock []
    (fun x hx => hne x (hfront.subset hx)) hbytes
  rw [← hrest'] at hu
  obtain ⟨v, hv, hvu⟩ := Machine.exec_append_eq_some.mp hu
  rw [hexec', Option.some.injEq] at hv
  subst hv
  have hanswers := (responses_grow hvu).length_le
  rw [serving, List.nil_append, List.length_map, List.length_take] at hanswers
  omega

end HttpConn

namespace HttpServer

open HttpConn (Arm Call Serving Response cycle serving)

/-! ## One client -/

/-- The segment that a step reads from the connection `fd`. -/
def segmentOn (fd : ℕ) (s : HttpServer) (a : Label) : Option (List UInt8) :=
  match s.callOn fd a with
  | some (.read [.data x]) => some x
  | _ => none

/-- What `writev` takes for the connection `fd` in a step. -/
def handedOn (fd : ℕ) (s : HttpServer) (a : Label) : Option (List (Option (List UInt8))) :=
  match s.callOn fd a with
  | some (.write writes) => some ((s.users fd).write writes).1.handed
  | _ => none

/-- The segments that were read from the connection `fd` along a run. -/
def delivered (typeText : List UInt8) (maxRequests fd : ℕ) (s : HttpServer) (as : List Label) :
    List (List UInt8) :=
  Machine.project (step typeText maxRequests) (segmentOn fd) s as

/-- The bytes that were sent on it, `none` if some were no part of a buffer. -/
def sentOn (typeText : List UInt8) (maxRequests fd : ℕ) (s : HttpServer) (as : List Label) :
    Option (List UInt8) :=
  ((Machine.project (step typeText maxRequests) (handedOn fd) s as).flatten.mapM id).map
    List.flatten

/-- The client keeps its side open; what it sends is read one segment at a time, and it takes what
it is sent at once. -/
def steady (fd : ℕ) (s : HttpServer) (a : Label) : Bool :=
  match s.callOn fd a with
  | some (.read [.data _]) | some (.process _) => true
  | some (.read _) => false
  | some (.write writes) => writes == [.wrote (s.users fd).offeredLen]
  | none => !s.hangsUp fd a

/-- The connection has done what led to `σ`, and is working on the segments that are left. -/
inductive Stage (typeText : List UInt8) (fs : FileSystem) (fd : ℕ) (s : HttpServer) :
    Serving → List (List UInt8) → Prop where
  | request {σ : Serving} (hphase : InPhase (s.place fd) .request) (hslot : s.users fd = σ.conn) :
      Stage typeText fs fd s σ []
  | worker {σ : Serving} {x : List UInt8} (hphase : InPhase (s.place fd) .worker)
      (hread : σ.conn.read [.data x] = (true, s.users fd)) : Stage typeText fs fd s σ [x]
  | response {σ : Serving} {x : List UInt8} {c : HttpConn} {arm : Arm} {code : HttpCode}
      (hphase : InPhase (s.place fd) .response) (hread : σ.conn.read [.data x] = (true, c))
      (hprocess : c.process typeText fs = ((arm, some code), s.users fd)) :
      Stage typeText fs fd s σ [x]

section Steps

variable {typeText : List UInt8} {fs : FileSystem} {maxRequests fd : ℕ} {s t : HttpServer}
  {a : Label}

theorem Sound.sockfd_of_open (h : Sound s) {phase : Phase} (hphase : InPhase (s.place fd) phase)
    (hne : phase ≠ .closed) : (s.users fd).sockfd = fd := by
  have hopen : s.opened fd = true := by
    cases phase with
    | closed => exact absurd rfl hne
    | request | worker | response => exact hphase.1
  exact ((h fd).held hopen).1

theorem users_of_slotApart {c : HttpConn} (hslot : s.slotApart fd = c.initConn 0)
    (hsockfd : (s.users fd).sockfd = c.sockfd) : s.users fd = c := by
  calc
    s.users fd = (s.slotApart fd).initConn (s.users fd).sockfd := rfl
    _ = (c.initConn 0).initConn c.sockfd := by rw [hslot, hsockfd]
    _ = c := rfl

/-- What a call leaves in the slot of a connection that is not closed by it. -/
theorem users_of_call (ha : s.step typeText maxRequests a = some t)
    (hok : OwnedOk maxRequests s a) {call : Call} (hcall : s.callOn fd a = some call)
    (hsockfd : (t.users fd).sockfd = ((s.users fd).call typeText call).2.sockfd) :
    t.users fd = ((s.users fd).call typeText call).2 := by
  apply users_of_slotApart _ hsockfd
  rw [slotApart_step ha hok.contained, hcall, applied, Option.elim_some, callApart_slotApart]

theorem users_of_none (ha : s.step typeText maxRequests a = some t)
    (hok : OwnedOk maxRequests s a) (hcall : s.callOn fd a = none)
    (hsockfd : (t.users fd).sockfd = (s.users fd).sockfd) : t.users fd = s.users fd := by
  apply users_of_slotApart _ hsockfd
  rw [slotApart_step ha hok.contained, hcall]
  rfl

/-- The cycle that a stage belongs to has begun with `read`. -/
theorem cycle_of_exec {σ u : Serving} {x : List UInt8} {rest : List (List UInt8)}
    (h : Machine.exec (cycle typeText fs) σ (x :: rest) = some u) :
    ∃ c σ', σ.conn.read [.data x] = (true, c) ∧ cycle typeText fs σ x = some σ' ∧
      Machine.exec (cycle typeText fs) σ' rest = some u := by
  obtain ⟨σ', hcycle, hrest⟩ := Machine.exec_cons_eq_some.mp h
  cases hread : σ.conn.read [.data x] with
  | mk ok c =>
    cases ok with
    | true => exact ⟨c, σ', rfl, hcycle, hrest⟩
    | false =>
      rw [cycle, hread] at hcycle
      cases hcycle

/-- `read` of the main thread. -/
theorem Stage.read {σ u : Serving} {pending rest : List (List UInt8)} {x : List UInt8}
    (h : Stage typeText fs fd s σ pending) (hs : Orderly s) (ht : Orderly t)
    (ha : s.step typeText maxRequests a = some t) (hok : OwnedOk maxRequests s a)
    (hcall : s.callOn fd a = some (.read [.data x]))
    (hexec : Machine.exec (cycle typeText fs) σ (pending ++ (x :: rest)) = some u) :
    pending = [] ∧ Stage typeText fs fd t σ [x] := by
  have hact : s.actOn typeText fd a = some (.received ((s.users fd).read [.data x]).1) := by
    rw [actOn, hcall]
    rfl
  cases h with
  | request hphase hslot =>
    refine ⟨rfl, ?_⟩
    obtain ⟨c, -, hread, -⟩ := cycle_of_exec hexec
    obtain ⟨phase, hnext, hphase'⟩ := hs.inPhase_step ha hok hphase
    rw [hact, hslot, hread] at hnext
    obtain rfl : .worker = phase := Option.some.inj hnext
    have hsockfd := hs.sound.sockfd_of_open hphase Phase.noConfusion
    have hsockfd' := ht.sound.sockfd_of_open hphase' Phase.noConfusion
    have husers := users_of_call ha hok hcall (hsockfd'.trans hsockfd.symm)
    refine .worker hphase' ?_
    rw [husers, hslot]
    show _ = (true, (σ.conn.read [.data x]).2)
    rw [hread]
  | worker hphase | response hphase =>
    obtain ⟨phase, hnext, -⟩ := hs.inPhase_step ha hok hphase
    rw [hact] at hnext
    cases hnext

/-- `process` of a worker. -/
theorem Stage.process {σ u : Serving} {pending rest : List (List UInt8)}
    (h : Stage typeText fs fd s σ pending) (hs : Orderly s) (ht : Orderly t)
    (ha : s.step typeText maxRequests a = some t) (hok : OwnedOk maxRequests s a)
    (hcall : s.callOn fd a = some (.process fs))
    (hexec : Machine.exec (cycle typeText fs) σ (pending ++ rest) = some u) :
    ∃ σ' pending', Stage typeText fs fd t σ' pending' ∧
      Machine.exec (cycle typeText fs) σ' (pending' ++ rest) = some u ∧
      σ'.responses = σ.responses := by
  have hact : s.actOn typeText fd a = some (actOf typeText (s.users fd) (.process fs)) := by
    rw [actOn, hcall]
  cases h with
  | @worker x hphase hread =>
    obtain ⟨c, σ', hread', hcycle, hrest⟩ := cycle_of_exec hexec
    obtain rfl : s.users fd = c := congrArg Prod.snd (hread.symm.trans hread')
    obtain ⟨phase, hnext, hphase'⟩ := hs.inPhase_step ha hok hphase
    rw [hact] at hnext
    have hsockfd := hs.sound.sockfd_of_open hphase Phase.noConfusion
    have hopen : (fd : ℤ) ≠ -1 := by omega
    rcases HttpConn.process_outcome typeText fs (s.users fd) with ⟨hnone, hkept⟩ | ⟨code, hsome⟩
    · -- the request goes on
      have hkept : ((s.users fd).process typeText fs).2.sockfd = fd := hkept.trans hsockfd
      have hnext' : some Phase.request = some phase := by
        rw [← hnext]
        simp [actOf, hnone, hkept, Machine.exec, Phase.next, Phase.awaiting]
      obtain rfl := Option.some.inj hnext'
      have hsockfd' := ht.sound.sockfd_of_open hphase' Phase.noConfusion
      have husers := users_of_call ha hok hcall (hsockfd'.trans hkept.symm)
      have hσ : cycle typeText fs σ x = some { σ with
          conn := ((s.users fd).process typeText fs).2
          received := σ.received ++ x } := by
        rw [cycle, hread]
        simp only
        generalize (s.users fd).process typeText fs = p at hnone
        obtain ⟨answer, c⟩ := p
        cases hnone
        rfl
      rw [hσ] at hcycle
      cases hcycle
      exact ⟨_, [], .request hphase' husers, hrest, rfl⟩
    -- an answer is built; had `process` closed the connection, the cycle would have ended too
    · have hkept : ((s.users fd).process typeText fs).2.sockfd = fd := by
        obtain ⟨-, hsock⟩ := HttpConn.process_socket typeText fs (s.users fd)
        refine (hsock.resolve_right fun hclosed => ?_).trans hsockfd
        rw [cycle, hread] at hcycle
        simp only at hcycle
        generalize (s.users fd).process typeText fs = p at hsome hclosed hcycle
        obtain ⟨answer, c⟩ := p
        cases hsome
        simp only [if_pos (show c.sockfd = -1 from hclosed)] at hcycle
        cases hcycle
      have hnext' : some Phase.response = some phase := by
        rw [← hnext]
        simp [actOf, hsome, hkept, Machine.exec, Phase.next, Phase.awaiting]
      obtain rfl := Option.some.inj hnext'
      have hsockfd' := ht.sound.sockfd_of_open hphase' Phase.noConfusion
      have husers := users_of_call ha hok hcall (hsockfd'.trans hkept.symm)
      have hprocess : (s.users fd).process typeText fs =
          ((.epollout, some code), t.users fd) := by
        rw [husers, ← hsome]
        rfl
      exact ⟨σ, [x], .response hphase' hread hprocess, hexec, rfl⟩
  | request hphase | response hphase =>
    obtain ⟨phase, hnext, -⟩ := hs.inPhase_step ha hok hphase
    rw [hact] at hnext
    cases hnext

/-- `write` of the main thread. -/
theorem Stage.write {σ u : Serving} {pending rest : List (List UInt8)}
    (h : Stage typeText fs fd s σ pending) (hs : Orderly s) (ht : Orderly t)
    (ha : s.step typeText maxRequests a = some t) (hok : OwnedOk maxRequests s a)
    (hcall : s.callOn fd a = some (.write [.wrote (s.users fd).offeredLen]))
    (hexec : Machine.exec (cycle typeText fs) σ (pending ++ rest) = some u) :
    ∃ σ', Stage typeText fs fd t σ' [] ∧ Machine.exec (cycle typeText fs) σ' rest = some u ∧
      σ'.responses.flatMap Response.handed = σ.responses.flatMap Response.handed ++
        ((s.users fd).write [.wrote (s.users fd).offeredLen]).1.handed := by
  have hact : s.actOn typeText fd a =
      some (actOf typeText (s.users fd) (.write [.wrote (s.users fd).offeredLen])) := by
    rw [actOn, hcall]
  cases h with
  | @response x c arm code hphase hread hprocess =>
    obtain ⟨c', σ', hread', hcycle, hrest⟩ := cycle_of_exec hexec
    obtain ⟨phase, hnext, hphase'⟩ := hs.inPhase_step ha hok hphase
    rw [hact] at hnext
    have hsockfd := hs.sound.sockfd_of_open hphase Phase.noConfusion
    have hopen : (s.users fd).sockfd ≠ -1 := by omega
    have hkept := HttpConn.sockfd_write (s.users fd) [.wrote (s.users fd).offeredLen]
    rw [cycle, hread] at hcycle
    simp only [hprocess, if_neg hopen] at hcycle
    split at hcycle
    · rename_i handed d hwrite
      cases hcycle
      have hnext' : some Phase.request = some phase := by
        rw [← hnext]
        simp [actOf, hwrite, Machine.exec, Phase.next, Phase.awaiting]
      obtain rfl := Option.some.inj hnext'
      have hsockfd' := ht.sound.sockfd_of_open hphase' Phase.noConfusion
      have husers := users_of_call ha hok hcall (hsockfd'.trans (hkept.trans hsockfd).symm)
      refine ⟨_, .request hphase' (husers.trans ?_), hrest, ?_⟩
      · exact congrArg Prod.snd hwrite
      · rw [List.flatMap_append, hwrite]
        exact congrArg _ (List.flatMap_singleton _ _)
    · cases hcycle
  | request hphase | worker hphase =>
    obtain ⟨phase, hnext, -⟩ := hs.inPhase_step ha hok hphase
    rw [hact] at hnext
    cases hnext

/-- Only a worker calls `process`. -/
theorem callOn_process (h : s.callOn fd a = some (.process fs)) : ∃ w, a = .process w fs := by
  cases a with
  | process w fs' =>
    rw [callOn, Option.ite_none_right_eq_some, Option.some.injEq, Call.process.injEq] at h
    exact ⟨w, by rw [h.2]⟩
  | handle recvs writes =>
    have hevent : ∀ events, eventCall events recvs writes ≠ some (.process fs) := by
      intro events
      unfold eventCall
      split_ifs <;> simp
    simp only [callOn] at h
    split at h
    · rw [Option.ite_none_right_eq_some] at h
      exact absurd h.2 (hevent _)
    · cases h
  | wait | accept | take | overrun | leave => cases h

/-- A step that makes no call on the slot of `fd`. -/
theorem Stage.idle {σ : Serving} {pending : List (List UInt8)}
    (h : Stage typeText fs fd s σ pending) (hs : Orderly s) (ht : Orderly t)
    (ha : s.step typeText maxRequests a = some t) (hok : OwnedOk maxRequests s a)
    (hcall : s.callOn fd a = none) (hstay : s.hangsUp fd a = false) :
    Stage typeText fs fd t σ pending := by
  have hact : s.actOn typeText fd a = if accepts fd a then some .accepted else none := by
    rw [actOn, hcall, hstay]
    rfl
  -- only a closed connection can be accepted
  have hsame : ∀ phase, phase ≠ .closed → InPhase (s.place fd) phase →
      InPhase (t.place fd) phase ∧ t.users fd = s.users fd := by
    intro phase hne hphase
    obtain ⟨phase', hnext, hphase'⟩ := hs.inPhase_step ha hok hphase
    rw [hact] at hnext
    have heq : phase' = phase := by
      cases haccept : accepts fd a with
      | false =>
        rw [haccept] at hnext
        exact (Option.some.inj hnext).symm
      | true =>
        rw [haccept] at hnext
        cases phase with
        | closed => exact absurd rfl hne
        | request | worker | response => cases hnext
    rw [heq] at hphase'
    have hsockfd := hs.sound.sockfd_of_open hphase hne
    have hsockfd' := ht.sound.sockfd_of_open hphase' hne
    exact ⟨hphase', users_of_none ha hok hcall (hsockfd'.trans hsockfd.symm)⟩
  cases h with
  | request hphase hslot =>
    obtain ⟨hphase', husers⟩ := hsame _ Phase.noConfusion hphase
    exact .request hphase' (husers.trans hslot)
  | worker hphase hread =>
    obtain ⟨hphase', husers⟩ := hsame _ Phase.noConfusion hphase
    exact .worker hphase' (husers ▸ hread)
  | response hphase hread hprocess =>
    obtain ⟨hphase', husers⟩ := hsame _ Phase.noConfusion hphase
    exact .response hphase' hread (husers ▸ hprocess)

theorem Stage.step {σ u : Serving} {pending rest : List (List UInt8)}
    (h : Stage typeText fs fd s σ pending) (hs : Orderly s)
    (ha : s.step typeText maxRequests a = some t) (hok : OwnedOk maxRequests s a)
    (hsteady : s.steady fd a = true) (hfiles : ∀ w fs', a = .process w fs' → fs' = fs)
    (hexec : Machine.exec (cycle typeText fs) σ
      (pending ++ ((s.segmentOn fd a).toList ++ rest)) = some u) :
    ∃ σ' pending', Stage typeText fs fd t σ' pending' ∧
      Machine.exec (cycle typeText fs) σ' (pending' ++ rest) = some u ∧
      σ'.responses.flatMap Response.handed = σ.responses.flatMap Response.handed ++
        (s.handedOn fd a).toList.flatten := by
  have ht := hs.step ha hok
  unfold steady at hsteady
  unfold segmentOn at hexec
  unfold handedOn
  split at hsteady
  · rename_i x hcall
    rw [hcall] at hexec ⊢
    obtain ⟨rfl, hstage⟩ := h.read hs ht ha hok hcall hexec
    exact ⟨σ, [x], hstage, hexec, (List.append_nil _).symm⟩
  · rename_i fs' hcall
    obtain ⟨w, heq⟩ := callOn_process hcall
    obtain rfl := hfiles w fs' heq
    rw [hcall] at hexec ⊢
    obtain ⟨σ', pending', hstage, hrest, hresponses⟩ := h.process hs ht ha hok hcall hexec
    exact ⟨σ', pending', hstage, hrest, by rw [hresponses]; exact (List.append_nil _).symm⟩
  · cases hsteady
  · rename_i writes hcall
    rw [beq_iff_eq] at hsteady
    rw [hsteady] at hcall
    rw [hcall] at hexec ⊢
    obtain ⟨σ', hstage, hrest, hhanded⟩ := h.write hs ht ha hok hcall hexec
    exact ⟨σ', [], hstage, hrest, by rw [hhanded]; simp⟩
  · rename_i hcall
    rw [hcall] at hexec ⊢
    have hstay : s.hangsUp fd a = false := by simpa using hsteady
    exact ⟨σ, pending, h.idle hs ht ha hok hcall hstay, hexec, (List.append_nil _).symm⟩

theorem Stage.exec {σ u : Serving} {pending : List (List UInt8)} {as : List Label}
    (h : Stage typeText fs fd s σ pending) (hs : Orderly s)
    (ha : Machine.exec (HttpServer.step typeText maxRequests) s as = some t)
    (hok : Machine.Along (HttpServer.step typeText maxRequests) (OwnedOk maxRequests) s as)
    (hsteady : Machine.Along (HttpServer.step typeText maxRequests) (fun s a => s.steady fd a) s as)
    (hfiles : ∀ w fs', .process w fs' ∈ as → fs' = fs)
    (hexec : Machine.exec (cycle typeText fs) σ
      (pending ++ delivered typeText maxRequests fd s as) = some u) :
    ∃ σ' pending', Stage typeText fs fd t σ' pending' ∧
      Machine.exec (cycle typeText fs) σ' pending' = some u ∧
      σ'.responses.flatMap Response.handed = σ.responses.flatMap Response.handed ++
        (Machine.project (HttpServer.step typeText maxRequests) (handedOn fd) s as).flatten := by
  induction as generalizing s σ pending with
  | nil =>
    cases ha
    rw [delivered, Machine.project, List.append_nil] at hexec
    exact ⟨σ, pending, h, hexec, (List.append_nil _).symm⟩
  | cons a as ih =>
    obtain ⟨v, hv, hrest⟩ := Machine.exec_cons_eq_some.mp ha
    obtain ⟨hok, hoks⟩ := hok v hv
    obtain ⟨hsteady, hsteadies⟩ := hsteady v hv
    rw [delivered, Machine.project_cons hv] at hexec
    obtain ⟨σ₁, pending₁, hstage, hexec₁, hresponses⟩ := h.step hs hv hok hsteady
      (fun w fs' heq => hfiles w fs' (by rw [heq]; exact List.mem_cons_self)) hexec
    obtain ⟨σ', pending', hstage', hexec', hresponses'⟩ := ih hstage (hs.step hv hok) hrest hoks
      hsteadies (fun w fs' hmem => hfiles w fs' (List.mem_cons_of_mem _ hmem)) hexec₁
    refine ⟨σ', pending', hstage', hexec', ?_⟩
    rw [hresponses', hresponses, Machine.project_cons hv, List.flatten_append, List.append_assoc]

/-- A connection that was just accepted waits for the client. -/
theorem inPhase_accepted (hs : Orderly s)
    (ha : s.step typeText maxRequests (.accept (some fd) false) = some t)
    (hok : OwnedOk maxRequests s (.accept (some fd) false)) : InPhase (t.place fd) .request := by
  have hclosed : InPhase (s.place fd) .closed := by
    simp only [HttpServer.step] at ha
    split at ha
    · simp only [HttpServer.accept, Option.ite_none_left_eq_some] at ha
      exact Bool.eq_false_iff.mpr ha.1
    · cases ha
  have hact : s.actOn typeText fd (.accept (some fd) false) = some .accepted :=
    if_pos (beq_self_eq_true fd)
  obtain ⟨phase, hnext, hphase⟩ := hs.inPhase_step ha hok hclosed
  rw [hact] at hnext
  obtain rfl : Phase.request = phase := Option.some.inj hnext
  exact hphase

/-- Of the stages only the first one leaves a connection armed for reading. -/
theorem Stage.pending_of_armed {σ : Serving} {pending : List (List UInt8)}
    (h : Stage typeText fs fd s σ pending) (harmed : s.armed fd = .epollin) : pending = [] := by
  cases h with
  | request => rfl
  | worker hphase => exact absurd (harmed.symm.trans hphase.2.1) Arm.noConfusion
  | response hphase => exact absurd harmed hphase.2.1

theorem untouched_exec {as : List Label} (hs : Orderly s)
    (ha : Machine.exec (HttpServer.step typeText maxRequests) s as = some t)
    (hok : Machine.Along (HttpServer.step typeText maxRequests) (OwnedOk maxRequests) s as)
    (hclosed : InPhase (s.place fd) .closed) (hnot : ∀ a ∈ as, accepts fd a = false) :
    t.slotApart fd = s.slotApart fd := by
  induction as generalizing s with
  | nil =>
    cases ha
    rfl
  | cons a as ih =>
    obtain ⟨hfirst, hothers⟩ := List.forall_mem_cons.mp hnot
    obtain ⟨u, hu, hrest⟩ := Machine.exec_cons_eq_some.mp ha
    obtain ⟨hoka, hoks⟩ := hok u hu
    obtain ⟨hphase, hslot⟩ := untouched_step hs hu hoka hclosed hfirst
    rw [ih (hs.step hu hoka) hrest hoks hphase hothers, hslot]

/-- The first connection with a descriptor finds the slot as `init()` leaves it. -/
theorem init_of_first {threadNum : ℕ} {before : List Label}
    (hs : Machine.exec (HttpServer.step typeText maxRequests) (start threadNum)
      (before ++ [.accept (some fd) false]) = some s)
    (hok : Machine.Along (HttpServer.step typeText maxRequests) (OwnedOk maxRequests)
      (start threadNum) before)
    (hfirst : ∀ a ∈ before, accepts fd a = false) : (s.users fd).init = s.users fd := by
  obtain ⟨r, hr, haccept⟩ := Machine.exec_append_eq_some.mp hs
  obtain ⟨s', hs', hnil⟩ := Machine.exec_cons_eq_some.mp haccept
  obtain rfl : s' = s := Option.some.inj hnil
  have hslot : s'.slotApart fd = HttpConn.new.initConn 0 := by
    calc
      s'.slotApart fd = r.slotApart fd := slotApart_step hs' trivial
      _ = (start threadNum).slotApart fd :=
        untouched_exec (orderly_start threadNum) hr hok rfl hfirst
      _ = HttpConn.new.initConn 0 := rfl
  have husers : s'.users fd = HttpConn.new.initConn (s'.users fd).sockfd :=
    users_of_slotApart hslot rfl
  rw [husers]
  rfl

end Steps

/-- A client whose slot was found as `init()` leaves it, that keeps its side open and asks for files
that can be sent, in requests that end where a segment ends, each segment read by one call and each
response taken by one `writev`: at every moment of every run it has been sent the first of these
files, in order and readable by their `Content-Length`, and nothing else; and once its connection
waits to be read again, those of all the requests that have come in. No other client and no order
of the threads makes a difference, as long as no request is refused, no descriptor is given out
while a worker is still in `process` of its last connection and no parser stores outside
`m_read_buf`. -/
theorem files_served (p : ℤ) (fs : FileSystem) (maxRequests threadNum fd : ℕ)
    (before as : List Label) {s t : HttpServer}
    (hs : Machine.exec (step (formatInt (toInt p)) maxRequests) (start threadNum)
      (before ++ [.accept (some fd) false]) = some s)
    (ht : Machine.exec (step (formatInt (toInt p)) maxRequests) s as = some t)
    (hok : Machine.Along (step (formatInt (toInt p)) maxRequests) (OwnedOk maxRequests)
      (start threadNum) (before ++ .accept (some fd) false :: as))
    (hslot : (s.users fd).init = s.users fd)
    (hsteady : Machine.Along (step (formatInt (toInt p)) maxRequests) (fun s a => s.steady fd a)
      s as)
    (hfiles : ∀ w fs', .process w fs' ∈ as → fs' = fs)
    (requests : List KeepAliveRequest)
    (hserved : ∀ q ∈ requests, HttpConn.Served (formatInt (toInt p)) fs q)
    (hsize : ∀ q ∈ requests, q.bytes.length < readBufferSize)
    (segs : List (List UInt8)) (hne : ∀ x ∈ segs, x ≠ [])
    (hmeet : HttpConn.EndsMeet segs (requests.map KeepAliveRequest.bytes))
    (hdelivered : delivered (formatInt (toInt p)) maxRequests fd s as <+: segs) :
    ∃ k bytes, k ≤ requests.length ∧
      sentOn (formatInt (toInt p)) maxRequests fd s as = some bytes ∧
      readAnswers k bytes = some ((requests.take k).map (HttpConn.fileOf fs)) ∧
      (t.armed fd = .epollin → ∀ j ≤ requests.length,
        ((requests.take j).map KeepAliveRequest.bytes).flatten.length ≤
          (delivered (formatInt (toInt p)) maxRequests fd s as).flatten.length → j ≤ k) := by
  obtain ⟨hbefore, hafter⟩ := Machine.along_append.mp hok
  obtain ⟨r, hr, haccept⟩ := Machine.exec_append_eq_some.mp hs
  obtain ⟨s', hs', rfl⟩ : ∃ s', r.step (formatInt (toInt p)) maxRequests
      (.accept (some fd) false) = some s' ∧ s' = s := by
    obtain ⟨s', hs', hnil⟩ := Machine.exec_cons_eq_some.mp haccept
    exact ⟨s', hs', Option.some.inj hnil⟩
  obtain ⟨hokAccept, hokAfter⟩ := hafter r hr s' hs'
  have horderly : Orderly r := by
    exact Machine.exec_invariant_along (fun s a t h hok ha => h.step ha hok)
      (orderly_start threadNum) hbefore hr
  have hphase := inPhase_accepted horderly hs' hokAccept
  have horderly' := horderly.step hs' hokAccept
  have hsock : (s'.users fd).sockfd ≠ -1 := by
    rw [horderly'.sound.sockfd_of_open hphase Phase.noConfusion]
    omega
  obtain ⟨u, hu, hanswers, hall⟩ :=
    HttpConn.exec_requests_part hsock hserved hsize hne hmeet hdelivered
  obtain ⟨σ, pending, hstage, hσ, hhanded⟩ :=
    (Stage.request (σ := serving (s'.users fd) []) hphase hslot.symm).exec horderly' ht hokAfter
      hsteady hfiles hu
  -- what is answered so far is the beginning of what the whole input is answered with
  have hprefix := (HttpConn.responses_grow hσ).trans hanswers
  have hlen : σ.responses.length ≤ requests.length := by
    rw [← List.length_map (HttpConn.answer (formatInt (toInt p)) fs)]
    exact hprefix.length_le
  obtain ⟨k, hk⟩ : ∃ k, σ.responses.length = k := ⟨_, rfl⟩
  have hresponses : σ.responses =
      (requests.take k).map (HttpConn.answer (formatInt (toInt p)) fs) := by
    rw [List.map_take, ← hk]
    exact List.prefix_iff_eq_take.mp hprefix
  rw [hk] at hlen
  have hsmall : ∀ file ∈ (requests.take k).map (HttpConn.fileOf fs), file.length < 2 ^ 31 := by
    intro file hmem
    obtain ⟨q, hq, rfl⟩ := List.mem_map.mp hmem
    obtain ⟨file, hfile, hfits⟩ := hserved q (List.mem_of_mem_take hq)
    rw [HttpConn.fileOf, hfile, Option.getD_some]
    omega
  have hread := readAnswers_fileHeads (noBreak_formatInt (toInt p)) (length_formatInt_le p) hsmall
  rw [List.length_map, List.length_take, Nat.min_eq_left hlen] at hread
  have hsent := HttpConn.sent_answers (formatInt (toInt p)) fs (s'.users fd) (requests.take k)
  refine ⟨k, _, hlen, ?_, hread, fun harmed j hj hle => ?_⟩
  · rw [← hsent, HttpConn.Serving.sent, sentOn]
    rw [hresponses] at hhanded
    exact congrArg (fun handed => (handed.mapM id).map List.flatten) hhanded.symm
  -- armed for reading: no cycle is under way, so the cycles are those of all that came in
  · obtain rfl := hstage.pending_of_armed harmed
    obtain rfl : σ = u := Option.some.inj hσ
    exact hk ▸ hall j hj hle

/-- `twoClients`, from after the `accept` of 5; then 6 sends more, and 5 gets its response. -/
def twoClientsServed : List Label :=
  twoClients.drop 2 ++ [.handle [.data (ascii "/b")] [], .handle [] [.wrote 80]]

theorem files_served_twoClients :
    ∃ s t bytes, Machine.exec (step (formatInt (toInt 0)) 1) s twoClientsServed = some t ∧
      sentOn (formatInt (toInt 0)) 1 5 s twoClientsServed = some bytes ∧
      readAnswers 1 bytes = some [ascii "hi"] := by
  have hrun : (Machine.exec (step (formatInt (toInt 0)) 1) (start 8)
      ([.wait [.listen]] ++ [.accept (some 5) false])).map (fun s => decide
        (Machine.Along (step (formatInt (toInt 0)) 1) (fun s a => s.steady 5 a) s twoClientsServed ∧
          delivered (formatInt (toInt 0)) 1 5 s twoClientsServed =
            [ascii "GET /a HT", ascii "TP/1.1\r\nConnection: keep-alive\r\n\r\n"] ∧
          (Machine.exec (step (formatInt (toInt 0)) 1) s twoClientsServed).map
            (fun t => t.armed 5) = some .epollin)) = some true := by decide +kernel
  obtain ⟨s, hs, hdec⟩ := Option.map_eq_some_iff.mp hrun
  obtain ⟨hsteady, hdelivered, hend⟩ := of_decide_eq_true hdec
  obtain ⟨t, ht, harmed⟩ := Option.map_eq_some_iff.mp hend
  have hok : Machine.Along (step (formatInt (toInt 0)) 1) (OwnedOk 1) (start 8)
      ([.wait [.listen]] ++ .accept (some 5) false :: twoClientsServed) := by decide +kernel
  have hslot := init_of_first hs (Machine.along_append.mp hok).1 (by decide)
  have hfiles : ∀ w fs', Label.process w fs' ∈ twoClientsServed → fs' = HttpConn.twoByteFiles := by
    intro w fs' hmem
    simp only [twoClientsServed, twoClients, List.drop_succ_cons, List.drop_zero, List.cons_append,
      List.nil_append, List.mem_cons, List.not_mem_nil, or_false, reduceCtorEq, false_or,
      Label.process.injEq] at hmem
    rcases hmem with ⟨-, rfl⟩ | ⟨-, rfl⟩ | ⟨-, rfl⟩ <;> rfl
  obtain ⟨k, bytes, hk, hsent, hread, hall⟩ := files_served 0 HttpConn.twoByteFiles 1 8 5
    [.wait [.listen]] twoClientsServed hs ht hok hslot hsteady hfiles
    (HttpConn.twoRequests.take 1)
    (fun q hq => HttpConn.twoRequests_served q (List.mem_of_mem_take hq))
    (by decide +kernel) _ (by rw [hdelivered]; decide +kernel)
    ⟨[delivered (formatInt (toInt 0)) 1 5 s twoClientsServed], List.flatten_singleton,
      by rw [hdelivered]; decide +kernel⟩ (List.prefix_refl _)
  have hone : 1 ≤ k := hall harmed 1 (by decide) (by rw [hdelivered]; decide +kernel)
  obtain rfl : k = 1 := Nat.le_antisymm hk hone
  exact ⟨s, t, bytes, ht, hsent, hread⟩

end HttpServer
end Webservers
