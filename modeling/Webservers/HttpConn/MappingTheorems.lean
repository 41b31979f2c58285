import Webservers.HttpConn.AnswerTheorems

/-!
# Files mapped for a response

`do_request` maps a file on a worker thread, and `unmap()` releases it on the main thread, in the
branches of `write()` that end a response. `MappedSlot` is a slot with the mappings made for it:
those that exist, and the calls of `munmap`.

* A slot goes round between the main thread and the workers as in `ReadState.Conn`; `hangup` is the
  branch of `main` for `EPOLLRDHUP`, `EPOLLHUP` and `EPOLLERR`, whose `close_conn()` does not unmap.
* An address that `mmap` returns is a number that has not been used for the slot before.
* `Released` is what should hold at every moment; `mappings_released` gives the runs in which it
  does.
-/

namespace Webservers

/-- A mapping: its address and its length. -/
structure Region where
  address : ℕ
  length : ℤ
deriving Repr, DecidableEq

structure MappedSlot where
  phase : ReadState.Phase
  conn : HttpConn
  /-- the address in `m_file_address`, when it is one that `mmap` returned -/
  address : Option ℕ
  /-- all mappings that `do_request` has made -/
  created : List Region
  live : List Region
  /-- the calls of `munmap` on addresses that `mmap` returned -/
  munmaps : List Region

namespace MappedSlot

def start : MappedSlot := ⟨.closed, .new, none, [], [], []⟩

/-- What `do_request`, if `process` gets to it, does to the mappings. -/
def mapFile (s : MappedSlot) (fs : FileSystem) : MappedSlot :=
  match s.conn.verdict fs with
  | some (.fileRequest, c) =>
    match c.fileAddress with
    | .mapped _ =>
      let region : Region := ⟨s.created.length, c.fileStat.stSize⟩
      { s with
        address := some region.address
        created := s.created ++ [region]
        live := s.live ++ [region] }
    | _ => { s with address := none }
  | _ => s

/-- `munmap(m_file_address, m_file_stat.st_size)`, and `m_file_address = nullptr` -/
def munmap (s : MappedSlot) : MappedSlot :=
  match s.address with
  | none => s
  | some a =>
    let region : Region := ⟨a, s.conn.fileStat.stSize⟩
    { s with address := none, live := s.live.erase region, munmaps := s.munmaps ++ [region] }

/-- `process()` on a worker -/
def process (typeText : List UInt8) (s : MappedSlot) (fs : FileSystem) : MappedSlot :=
  let ((arm, _), c) := s.conn.process typeText fs
  { s.mapFile fs with
    conn := c
    phase := if c.sockfd = -1 then .closed else if arm = .epollin then .reading else .answered }

/-- `write()`, and the `close_conn()` of `main` when it fails. It is `unmap()` that sets
`m_file_address` to `nullptr`. -/
def write (s : MappedSlot) (rs : List WriteResult) : MappedSlot :=
  let (written, c) := s.conn.write rs
  let s := if s.conn.fileAddress ≠ .null ∧ c.fileAddress = .null then s.munmap else s
  if written.ret then
    { s with conn := c, phase := if written.arm = .epollin then .reading else .answered }
  else { s with conn := c.closeConn, phase := .closed }

inductive Label where
  /-- `init(sockfd, addr)` for a new connection -/
  | initConn (sockfd : ℤ)
  | read (rs : List ReadState.Recv)
  | process (fs : FileSystem)
  | write (rs : List WriteResult)
  /-- the main thread closes the connection because of an error or a hang-up -/
  | hangup

def step (typeText : List UInt8) (s : MappedSlot) : Label → Option MappedSlot
  | .initConn sockfd =>
    if s.phase = .closed ∧ sockfd ≠ -1 then
      some { s with conn := s.conn.initConn sockfd, phase := .reading }
    else none
  | .read rs =>
    if s.phase = .reading then
      match s.conn.read rs with
      | (true, c) => some { s with conn := c, phase := .queued }
      | (false, c) => some { s with conn := c.closeConn, phase := .closed }
    else none
  | .process fs => if s.phase = .queued then some (s.process typeText fs) else none
  | .write rs => if s.phase = .answered then some (s.write rs) else none
  | .hangup =>
    if s.phase = .reading ∨ s.phase = .answered then
      some { s with conn := s.conn.closeConn, phase := .closed }
    else none

/-- At most one mapping is live, the one that the slot records; every mapping is live or has been
passed to `munmap` once, with its address and length, and nothing else has; a closed connection has
none. -/
structure Released (s : MappedSlot) : Prop where
  one : s.live.length ≤ 1
  recorded : ∀ m ∈ s.live, s.address = some m.address ∧ m.length = s.conn.fileStat.stSize
  distinct : (s.created.map Region.address).Nodup
  once : ∀ m ∈ s.created, s.munmaps.count m + s.live.count m = 1
  known : ∀ m ∈ s.munmaps ++ s.live, m ∈ s.created
  closed : s.conn.sockfd = -1 → s.live = []

/-- No connection is closed because of an error or a hang-up while a file is mapped. -/
def HangupOk (s : MappedSlot) : Label → Prop
  | .hangup => s.live = []
  | _ => True

/-- Moreover no response with a mapped file has the length 0 when it is counted in an `int`. -/
def ReleaseOk (s : MappedSlot) : Label → Prop
  | .hangup => s.live = []
  | .write _ => s.conn.bytesToSend = 0 → s.live = []
  | _ => True

end MappedSlot

/-! ## What the functions do to the file of a slot -/

namespace HttpConn

/-- The response to a verdict keeps the file that `do_request` has found. -/
theorem respond_file (typeText : List UInt8) (code : HttpCode) (c : HttpConn) :
    (process.respond typeText (code, c)).2.fileStat = c.fileStat ∧
      (process.respond typeText (code, c)).2.fileAddress = c.fileAddress := by
  have hclose : ∀ d : HttpConn, d.closeConn.fileStat = d.fileStat ∧
      d.closeConn.fileAddress = d.fileAddress := by
    intro d
    unfold closeConn
    split <;> exact ⟨rfl, rfl⟩
  have hwrite : (c.processWrite typeText code).2.fileStat = c.fileStat ∧
      (c.processWrite typeText code).2.fileAddress = c.fileAddress := by
    obtain ⟨d, hd, hwritten⟩ := processWrite_composed typeText c code
    rcases hwritten with hwritten | hwritten | hwritten
    all_goals
      rw [hwritten]
      exact hd.file
  rw [respond_eq]
  simp only
  split
  · exact hwrite
  · exact ⟨(hclose _).1.trans hwrite.1, (hclose _).2.trans hwrite.2⟩

theorem advance_file_kept (c : HttpConn) (n : ℕ) :
    (c.advance n).fileStat = c.fileStat ∧ (c.advance n).fileAddress = c.fileAddress := by
  unfold advance
  simp only
  split <;> exact ⟨rfl, rfl⟩

theorem unmap_file (c : HttpConn) :
    c.unmap.fileStat = c.fileStat ∧ c.unmap.fileAddress = .null := by
  unfold unmap
  split
  · rename_i hnull
    exact ⟨rfl, hnull⟩
  · exact ⟨rfl, rfl⟩

/-- A `write()` with something to send either waits for the next `EPOLLOUT` or unmaps the file. -/
theorem writeLoop_file (rs : List WriteResult) (c : HttpConn)
    (handed : List (Option (List UInt8))) :
    ((c.writeLoop handed rs).1.ret = true ∧ (c.writeLoop handed rs).1.arm = .epollout ∧
        (c.writeLoop handed rs).2.fileStat = c.fileStat ∧
        (c.writeLoop handed rs).2.fileAddress = c.fileAddress) ∨
      ((c.writeLoop handed rs).1.ret = false ∨ (c.writeLoop handed rs).1.arm = .epollin) ∧
        (c.writeLoop handed rs).2.fileAddress = .null := by
  induction rs generalizing c handed with
  | nil => exact Or.inl ⟨rfl, rfl, rfl, rfl⟩
  | cons r rs ih =>
    cases r with
    | failed e =>
      rw [writeLoop]
      split
      · exact Or.inl ⟨rfl, rfl, rfl, rfl⟩
      · exact Or.inr ⟨Or.inl rfl, (unmap_file c).2⟩
    | wrote n =>
      have hkept := advance_file_kept c n
      rw [writeLoop]
      split
      · have hnull := (unmap_file (c.advance n)).2
        split
        · exact Or.inr ⟨Or.inr rfl, hnull⟩
        · exact Or.inr ⟨Or.inr rfl, hnull⟩
      · rcases ih (c.advance n) (handed ++ [c.offered.map (List.take n)]) with
          ⟨hret, harm, hstat, haddress⟩ | hdone
        · exact Or.inl ⟨hret, harm, hstat.trans hkept.1, haddress.trans hkept.2⟩
        · exact Or.inr hdone

/-- A file request is answered: the socket stays, and waits for `EPOLLOUT`. -/
theorem process_fileRequest (typeText : List UInt8) {fs : FileSystem} {c c₁ : HttpConn}
    (h : c.verdict fs = some (.fileRequest, c₁)) :
    (c.process typeText fs).1.1 = .epollout ∧ (c.process typeText fs).2.sockfd = c.sockfd := by
  have hsock : c₁.sockfd = c.sockfd := by
    unfold verdict at h
    split at h
    · cases h
    · cases h
    · rename_i r _
      have hconn := congrArg Prod.snd (Option.some.inj h)
      rw [← show (HttpConn.doRequest fs { c with toReadState := r }).2 = c₁ from hconn]
      exact (doRequest_kept fs { c with toReadState := r }).2.2
  have hcomposed : (c₁.processWrite typeText .fileRequest).1 = true := by rw [processWrite]
  have hkept := (processWrite_kept typeText c₁ .fileRequest).2
  rw [process_verdict typeText h, respond_eq, if_pos hcomposed]
  exact ⟨rfl, hkept.trans hsock⟩

end HttpConn

/-! ## The invariant -/

namespace MappedSlot

/-- A mapping exists only while a response is being sent, and `m_file_address` points to it. -/
structure Tidy (s : MappedSlot) : Prop where
  fresh : ∀ m ∈ s.created, m.address < s.created.length
  distinct : (s.created.map Region.address).Nodup
  once : ∀ m ∈ s.created, s.munmaps.count m + s.live.count m = 1
  known : ∀ m ∈ s.munmaps ++ s.live, m ∈ s.created
  live : s.live = match s.address with
    | none => []
    | some a => [⟨a, s.conn.fileStat.stSize⟩]
  held : s.address ≠ none → s.phase = .answered ∧ s.conn.fileAddress ≠ .null
  opened : s.phase ≠ .closed → s.conn.sockfd ≠ -1

section Invariant

variable {s t : MappedSlot}

theorem Tidy.released (h : Tidy s) : Released s := by
  have hlive := h.live
  have hopened := h.opened
  have hheld := h.held
  cases haddress : s.address with
  | none =>
    rw [haddress] at hlive
    simp only at hlive
    refine ⟨by rw [hlive]; exact Nat.zero_le 1, ?_, h.distinct, h.once, h.known, fun _ => hlive⟩
    rw [hlive]
    exact fun m hm => absurd hm List.not_mem_nil
  | some a =>
    rw [haddress] at hlive hheld
    simp only at hlive
    refine ⟨by rw [hlive]; exact Nat.le_refl 1, ?_, h.distinct, h.once, h.known, ?_⟩
    · rw [hlive]
      intro m hm
      rw [List.mem_singleton.mp hm]
      exact ⟨haddress, rfl⟩
    · intro hclosed
      have hanswered := (hheld (Option.some_ne_none a)).1
      exact absurd hclosed (hopened (by rw [hanswered]; exact ReadState.Phase.noConfusion))

theorem tidy_start : Tidy start where
  fresh _ hm := absurd hm List.not_mem_nil
  distinct := List.nodup_nil
  once _ hm := absurd hm List.not_mem_nil
  known _ hm := absurd hm List.not_mem_nil
  live := rfl
  held h := absurd rfl h
  opened h := absurd rfl h

/-- Without a live mapping, nothing is recorded. -/
theorem Tidy.address_none (h : Tidy s) (hlive : s.live = []) : s.address = none := by
  have heq := h.live
  cases haddress : s.address with
  | none => rfl
  | some a =>
    rw [haddress, hlive] at heq
    cases heq

/-- Steps of a slot that has no mapping, and makes none. -/
theorem Tidy.move (h : Tidy s) (haddress : s.address = none) {c : HttpConn}
    {phase : ReadState.Phase} (hopened : phase ≠ .closed → c.sockfd ≠ -1) :
    Tidy { s with conn := c, phase := phase } where
  fresh := h.fresh
  distinct := h.distinct
  once := h.once
  known := h.known
  live := by
    have heq := h.live
    rw [haddress] at heq
    show s.live = match s.address with | none => [] | some a => [⟨a, c.fileStat.stSize⟩]
    rw [haddress]
    exact heq
  held hsome := absurd haddress hsome
  opened := hopened

/-- Outside of sending there is no mapping. -/
theorem Tidy.idle (h : Tidy s) (hphase : s.phase ≠ .answered) : s.address = none := by
  by_contra hsome
  exact hphase (h.held hsome).1

theorem closeConn_sockfd (c : HttpConn) : c.closeConn.sockfd = -1 := by
  unfold HttpConn.closeConn
  split
  · rfl
  · rename_i hclosed
    exact not_not.mp hclosed

/-- What `process` can do to the mappings: nothing, or a file is mapped. -/
theorem mapFile_cases (s : MappedSlot) (fs : FileSystem) :
    (s.mapFile fs = s ∨ s.mapFile fs = { s with address := none }) ∨
      ∃ c bytes, s.conn.verdict fs = some (.fileRequest, c) ∧ c.fileAddress = .mapped bytes ∧
        s.mapFile fs =
          { s with
            address := some s.created.length
            created := s.created ++ [⟨s.created.length, c.fileStat.stSize⟩]
            live := s.live ++ [⟨s.created.length, c.fileStat.stSize⟩] } := by
  unfold mapFile
  split
  · rename_i c hverdict
    split
    · rename_i bytes hbytes
      exact Or.inr ⟨c, bytes, hverdict, hbytes, rfl⟩
    · exact Or.inl (Or.inr rfl)
  · exact Or.inl (Or.inl rfl)

/-- A mapping is made, recorded, and held by the slot that sends it. -/
theorem Tidy.map (h : Tidy s) (haddress : s.address = none) {c : HttpConn}
    (hfile : c.fileAddress ≠ .null) (hsock : c.sockfd ≠ -1) :
    Tidy { s with
      phase := .answered
      conn := c
      address := some s.created.length
      created := s.created ++ [⟨s.created.length, c.fileStat.stSize⟩]
      live := s.live ++ [⟨s.created.length, c.fileStat.stSize⟩] } where
  fresh m hm := by
    show m.address < (s.created ++ _).length
    rw [List.length_append, List.length_singleton]
    rcases List.mem_append.mp hm with hm | hm
    · exact Nat.lt_succ_of_lt (h.fresh m hm)
    · rw [List.mem_singleton.mp hm]
      exact Nat.lt_succ_self _
  distinct := by
    show ((s.created ++ _).map Region.address).Nodup
    rw [List.map_append, List.nodup_append]
    refine ⟨h.distinct, List.pairwise_singleton _ _, ?_⟩
    intro a ha b hb hab
    obtain ⟨m, hm, rfl⟩ := List.mem_map.mp ha
    have hsame : m.address = s.created.length := hab.trans (List.mem_singleton.mp hb)
    have hlt := h.fresh m hm
    omega
  once m hm := by
    show s.munmaps.count m + (s.live ++ _).count m = 1
    rw [List.count_append, List.count_singleton]
    by_cases hnew : (⟨s.created.length, c.fileStat.stSize⟩ : Region) = m
    · -- the address is new, so nobody has unmapped it
      have hnot : m ∉ s.created := fun hmem => by
        have hlt := h.fresh m hmem
        rw [← hnew] at hlt
        exact Nat.lt_irrefl _ hlt
      have hunmapped : m ∉ s.munmaps := fun hmem => hnot (h.known m (List.mem_append_left _ hmem))
      have hlive : m ∉ s.live := fun hmem => hnot (h.known m (List.mem_append_right _ hmem))
      rw [List.count_eq_zero_of_not_mem hunmapped, List.count_eq_zero_of_not_mem hlive]
      simp [hnew]
    · have hold : m ∈ s.created := by
        rcases List.mem_append.mp hm with hm | hm
        · exact hm
        · exact absurd (List.mem_singleton.mp hm).symm hnew
      have hcount := h.once m hold
      simp only [beq_iff_eq, hnew, if_false]
      omega
  known m hm := by
    have hm' : m ∈ s.munmaps ++ (s.live ++ [⟨s.created.length, c.fileStat.stSize⟩]) := hm
    rw [← List.append_assoc] at hm'
    rcases List.mem_append.mp hm' with hm | hm
    · exact List.mem_append_left _ (h.known m hm)
    · exact List.mem_append_right _ hm
  live := by
    have heq := h.live
    rw [haddress] at heq
    show s.live ++ _ = _
    rw [heq]
    rfl
  held _ := ⟨rfl, hfile⟩
  opened _ := hsock

theorem Tidy.process (h : Tidy s) (typeText : List UInt8) (fs : FileSystem)
    (hphase : s.phase = .queued) : Tidy (s.process typeText fs) := by
  have haddress : s.address = none := h.idle (by rw [hphase]; exact ReadState.Phase.noConfusion)
  have hsock : s.conn.sockfd ≠ -1 := h.opened (by rw [hphase]; exact ReadState.Phase.noConfusion)
  have hopened : ∀ (arm : HttpConn.Arm) (c : HttpConn),
      (if c.sockfd = -1 then ReadState.Phase.closed
      else if arm = .epollin then .reading else .answered) ≠ .closed → c.sockfd ≠ -1 := by
    intro arm c hne hclosed
    rw [if_pos hclosed] at hne
    exact hne rfl
  rcases mapFile_cases s fs with hnothing | ⟨c₁, bytes, hverdict, hbytes, hmap⟩
  · have hsame : s.mapFile fs = s := by
      rcases hnothing with hsame | hnone
      · exact hsame
      · rw [hnone, ← haddress]
    unfold MappedSlot.process
    simp only [hsame]
    exact h.move haddress (hopened _ _)
  · obtain ⟨harm, hkept⟩ := HttpConn.process_fileRequest typeText hverdict
    have hfile := HttpConn.respond_file typeText .fileRequest c₁
    rw [← HttpConn.process_verdict typeText hverdict] at hfile
    rw [← hkept] at hsock
    unfold MappedSlot.process
    simp only [hmap, ← hfile.1, harm, if_neg hsock]
    exact h.map haddress (by rw [hfile.2, hbytes]; exact Mapping.noConfusion) hsock

/-- The mapping that is recorded is passed to `munmap`, and is the one that was live. -/
theorem Tidy.munmap (h : Tidy s) : Tidy s.munmap ∧ s.munmap.address = none := by
  have hlive := h.live
  unfold MappedSlot.munmap
  split
  · rename_i hnone
    exact ⟨h, hnone⟩
  · rename_i a ha
    rw [ha] at hlive
    simp only at hlive
    generalize hregion : (⟨a, s.conn.fileStat.stSize⟩ : Region) = region at hlive
    have herase : s.live.erase region = [] := by
      rw [hlive]
      exact List.erase_cons_head region []
    have hmade : region ∈ s.created := by
      apply h.known region
      rw [hlive]
      exact List.mem_append_right _ (List.mem_singleton_self _)
    refine ⟨⟨h.fresh, h.distinct, fun m hm => ?_, fun m hm => ?_, herase,
      fun habs => absurd rfl habs, h.opened⟩, rfl⟩
    · have hcount := h.once m hm
      show (s.munmaps ++ [region]).count m + (s.live.erase region).count m = 1
      rw [hlive] at hcount
      rw [herase, List.count_append, List.count_nil]
      omega
    · have hm' : m ∈ s.munmaps ++ [region] ++ s.live.erase region := hm
      rw [herase, List.append_nil] at hm'
      rcases List.mem_append.mp hm' with hm | hm
      · exact h.known m (List.mem_append_left _ hm)
      · rw [List.mem_singleton.mp hm]
        exact hmade

/-- `EAGAIN`: the response waits, with its file. -/
theorem Tidy.wait (h : Tidy s) (hphase : s.phase = .answered) {c : HttpConn}
    (hstat : c.fileStat = s.conn.fileStat) (hfile : c.fileAddress = s.conn.fileAddress)
    (hsock : c.sockfd = s.conn.sockfd) : Tidy { s with conn := c, phase := .answered } where
  fresh := h.fresh
  distinct := h.distinct
  once := h.once
  known := h.known
  live := by
    show s.live = match s.address with | none => [] | some a => [⟨a, c.fileStat.stSize⟩]
    rw [hstat]
    exact h.live
  held hsome := by
    show ReadState.Phase.answered = .answered ∧ c.fileAddress ≠ .null
    rw [hfile]
    exact ⟨rfl, (h.held hsome).2⟩
  opened _ := by
    show c.sockfd ≠ -1
    rw [hsock]
    exact h.opened (by rw [hphase]; exact ReadState.Phase.noConfusion)

theorem Tidy.write (h : Tidy s) (rs : List WriteResult) (hphase : s.phase = .answered)
    (hok : s.conn.bytesToSend = 0 → s.live = []) : Tidy (s.write rs) := by
  have hsock : (s.conn.write rs).2.sockfd ≠ -1 := by
    rw [HttpConn.sockfd_write]
    exact h.opened (by rw [hphase]; exact ReadState.Phase.noConfusion)
  -- the slot goes on without a mapping
  have hgo : ∀ u : MappedSlot, Tidy u → u.address = none →
      Tidy (if (s.conn.write rs).1.ret = true then
        { u with
          conn := (s.conn.write rs).2
          phase := if (s.conn.write rs).1.arm = .epollin then .reading else .answered }
      else { u with conn := (s.conn.write rs).2.closeConn, phase := .closed }) := by
    intro u hu hnone
    split
    · exact hu.move hnone fun _ => hsock
    · exact hu.move hnone fun hne => absurd rfl hne
  by_cases haddress : s.address = none
  · have hsame : s.munmap = s := by
      unfold MappedSlot.munmap
      rw [haddress]
    unfold MappedSlot.write
    simp only [hsame, ite_self]
    exact hgo s h haddress
  · have htodo : s.conn.bytesToSend ≠ 0 := fun hzero => haddress (h.address_none (hok hzero))
    have hwrite : s.conn.write rs = s.conn.writeLoop [] rs := by rw [HttpConn.write, if_neg htodo]
    have hfile := HttpConn.writeLoop_file rs s.conn []
    rw [← hwrite] at hfile
    have hmapped := (h.held haddress).2
    unfold MappedSlot.write
    rcases hfile with ⟨hret, harm, hstat, hkept⟩ | ⟨-, hnull⟩
    · have hno : ¬ (s.conn.fileAddress ≠ .null ∧ (s.conn.write rs).2.fileAddress = .null) := by
        rw [hkept]
        exact fun hboth => hboth.1 hboth.2
      simp only [if_neg hno, hret, harm, if_true]
      exact h.wait hphase hstat hkept (HttpConn.sockfd_write s.conn rs)
    · simp only [if_pos (And.intro hmapped hnull)]
      exact hgo s.munmap h.munmap.1 h.munmap.2

end Invariant

/-! ## Runs -/

section Runs

variable {s t : MappedSlot} {typeText : List UInt8}

theorem tidy_step {a : Label} (h : Tidy s) (ha : step typeText s a = some t) (hok : ReleaseOk s a) :
    Tidy t := by
  cases a with
  | initConn sockfd =>
    simp only [step, Option.ite_none_right_eq_some, Option.some.injEq] at ha
    obtain ⟨⟨hphase, hsock⟩, rfl⟩ := ha
    exact h.move (h.idle (by rw [hphase]; exact ReadState.Phase.noConfusion)) fun _ => hsock
  | read rs =>
    simp only [step, Option.ite_none_right_eq_some] at ha
    obtain ⟨hphase, ha⟩ := ha
    have haddress := h.idle (by rw [hphase]; exact ReadState.Phase.noConfusion)
    have hsock := h.opened (by rw [hphase]; exact ReadState.Phase.noConfusion)
    have hkept : (s.conn.read rs).2.sockfd = s.conn.sockfd := rfl
    generalize s.conn.read rs = p at ha hkept
    obtain ⟨ok, c⟩ := p
    cases ok with
    | true =>
      cases ha
      exact h.move haddress fun _ => hkept ▸ hsock
    | false =>
      cases ha
      exact h.move haddress fun hne => absurd rfl hne
  | process fs =>
    simp only [step, Option.ite_none_right_eq_some, Option.some.injEq] at ha
    obtain ⟨hphase, rfl⟩ := ha
    exact h.process typeText fs hphase
  | write rs =>
    simp only [step, Option.ite_none_right_eq_some, Option.some.injEq] at ha
    obtain ⟨hphase, rfl⟩ := ha
    exact h.write rs hphase hok
  | hangup =>
    simp only [step, Option.ite_none_right_eq_some, Option.some.injEq] at ha
    obtain ⟨-, rfl⟩ := ha
    exact h.move (h.address_none hok) fun hne => absurd rfl hne

theorem hangupOk_of_released {a : Label} (ha : step typeText s a = some t) (ht : Released t) :
    HangupOk s a := by
  cases a with
  | hangup =>
    simp only [step, Option.ite_none_right_eq_some, Option.some.injEq] at ha
    obtain ⟨-, rfl⟩ := ha
    exact ht.closed (closeConn_sockfd s.conn)
  | initConn | read | process | write => trivial

/-- Over any number of connections and requests of a slot, mappings are released as they should be
at every moment of a run in which no connection is closed because of an error or a hang-up while a
file is mapped, and no `write()` of a response with a mapped file meets `m_bytes_to_send` 0; and
only of such runs, as far as hang-ups are concerned. -/
theorem mappings_released (typeText : List UInt8) (as : List Label) :
    (Machine.Along (step typeText) ReleaseOk start as →
        Machine.Always (step typeText) Released start as) ∧
      (Machine.Always (step typeText) Released start as →
        Machine.Along (step typeText) HangupOk start as) := by
  constructor
  · apply Machine.always_of_along (K := Tidy)
    · exact fun s hs => hs.released
    · exact fun s a t hs ha hok => tidy_step hs ha hok
    · exact tidy_start
  · exact Machine.Always.along fun s a t ha ht => hangupOk_of_released ha ht

/-- A client asks for a file and takes all of it. -/
def taken : List Label :=
  [.initConn 5, .read [.data (ascii "GET / HTTP/1.1\r\n\r\n")], .process HttpConn.twoByteFiles,
    .write [.wrote 75]]

/-- The file of such a request is mapped and unmapped again. -/
theorem mappings_released_taken :
    Machine.Always (step (ascii "0")) Released start taken ∧
      (Machine.exec (step (ascii "0")) start taken).map
        (fun s => (s.created, s.munmaps, s.live)) = some ([⟨0, 2⟩], [⟨0, 2⟩], []) := by
  refine ⟨(mappings_released (ascii "0") taken).1 ?_, by decide +kernel⟩
  intro s₁ h₁
  refine ⟨trivial, fun s₂ h₂ => ⟨trivial, fun s₃ h₃ => ⟨trivial, fun s₄ h₄ => ⟨?_, trivial⟩⟩⟩⟩
  -- the fourth step meets a response of 75 bytes
  have hexec : Machine.exec (step (ascii "0")) start (taken.take 3) = some s₃ :=
    Machine.exec_cons_eq_some.mpr ⟨s₁, h₁, Machine.exec_cons_eq_some.mpr ⟨s₂, h₂,
      Machine.exec_cons_eq_some.mpr ⟨s₃, h₃, rfl⟩⟩⟩
  have htodo : (Machine.exec (step (ascii "0")) start (taken.take 3)).map
      (fun s => s.conn.bytesToSend) = some 75 := by
    decide +kernel
  rw [hexec, Option.map_some, Option.some.injEq] at htodo
  intro hzero
  rw [htodo] at hzero
  cases hzero

/-- A client asks for a file, takes none of it and disconnects. -/
def gone : List Label :=
  [.initConn 5, .read [.data (ascii "GET / HTTP/1.1\r\n\r\n")], .process HttpConn.twoByteFiles,
    .hangup]

/-- The mapping is still there when the connection is closed. -/
theorem mapping_left_behind : ¬ Machine.Always (step (ascii "0")) Released start gone := by
  intro h
  have hlast : (Machine.exec (step (ascii "0")) start gone).map
      (fun s => (s.conn.sockfd, s.live)) = some (-1, [⟨0, 2⟩]) := by
    decide +kernel
  obtain ⟨s, hs, hpair⟩ := Option.map_eq_some_iff.mp hlast
  rw [Prod.mk.injEq] at hpair
  have hempty := (h.last hs).closed hpair.1
  rw [hpair.2] at hempty
  cases hempty

end Runs

end MappedSlot
end Webservers
