import Mathlib.Algebra.Ring.Nat
import Webservers.HttpConn.AppendTheorems

/-!
# From the verdict to the last byte

`process_read` gives a verdict, `process_write` composes the response for it and `write()` hands it
over, in as many calls as it takes. The three share counters and `iovec`s that only some of the
branches set: the error branches of `process_write` leave `m_bytes_to_send` at 0, and the first
`write()` then takes the response for sent.

* `callStep` makes one call of `write()` a step; `exec_callStep` says that a sequence of calls is a
  run of the machine `sendStep`, whose steps are single pieces.
* `Metered` holds for every sequence of pieces, also after the loop has lost its place in the head:
  the counters always say how much has been taken.
* `answered_iff` gives the exact condition under which a verdict is answered in full.
-/

namespace Webservers

/-- What `stat` and `mmap` promise: a size is not negative, and a mapping has the length asked
for. -/
structure FileSystem.Regular (fs : FileSystem) : Prop where
  size : ∀ path st, fs.stat path = some st → 0 ≤ st.stSize ∧ st.stSize < 2 ^ 63
  mapped : ∀ path size bytes, fs.mmap path size = .mapped bytes → (bytes.length : ℤ) = size

namespace HttpConn

/-! ## Verdicts -/

/-- The verdict of `process_read`, with the slot as `process_write` finds it; `none` for
`NO_REQUEST`. -/
def verdict (fs : FileSystem) (c : HttpConn) : Option (HttpCode × HttpConn) :=
  match c.toReadState.processRead with
  | (.noRequest, _) => none
  | (.badRequest, r) => some (.badRequest, { c with toReadState := r })
  | (.doRequest, r) => some (({ c with toReadState := r } : HttpConn).doRequest fs)

theorem process_verdict (typeText : List UInt8) {fs : FileSystem} {c : HttpConn}
    {p : HttpCode × HttpConn} (h : c.verdict fs = some p) :
    c.process typeText fs = process.respond typeText p := by
  unfold verdict at h
  unfold process
  generalize c.toReadState.processRead = parsed at h
  obtain ⟨result, r⟩ := parsed
  cases result with
  | noRequest => cases h
  | badRequest =>
    cases h
    rfl
  | doRequest =>
    cases h
    rfl

/-- What `do_request` can return, and what it has found when it is `FILE_REQUEST`. -/
theorem doRequest_cases (fs : FileSystem) (c : HttpConn) :
    ((c.doRequest fs).1 = .noResource ∨ (c.doRequest fs).1 = .forbiddenRequest ∨
        (c.doRequest fs).1 = .badRequest) ∨
      (c.doRequest fs).1 = .fileRequest ∧
        ∃ path st, fs.stat path = some st ∧ (c.doRequest fs).2.fileStat = st ∧
          (c.doRequest fs).2.fileAddress = fs.mmap path st.stSize := by
  rcases doRequest_inv fs c with ⟨-, heq⟩ | ⟨st, hst, ⟨-, heq⟩ | ⟨-, heq⟩⟩
  · rw [heq]
    exact Or.inl (Or.inl rfl)
  · rw [heq]
    exact Or.inl (Or.inr (Or.inr rfl))
  · rw [heq]
    exact Or.inr ⟨rfl, _, st, hst, rfl, rfl⟩

theorem doRequest_unsent (fs : FileSystem) (c : HttpConn) :
    (c.doRequest fs).2.writeIndex = c.writeIndex ∧
      (c.doRequest fs).2.bytesHaveSend = c.bytesHaveSend := by
  rcases doRequest_inv fs c with ⟨-, heq⟩ | ⟨st, -, ⟨-, heq⟩ | ⟨-, heq⟩⟩
  all_goals
    rw [heq]
    exact ⟨rfl, rfl⟩

/-- A slot that is ready for a response. -/
structure Ready (c : HttpConn) : Prop where
  writeIndex : c.writeIndex = 0
  unsent : c.bytesHaveSend = 0
  todo : c.bytesToSend = 0

theorem ready_init (d : HttpConn) (r : ReadState) :
    Ready ({ d.init with toReadState := r } : HttpConn) := ⟨rfl, rfl, rfl⟩

/-- The verdicts on a slot that is ready. -/
theorem verdict_cases {fs : FileSystem} {c c₁ : HttpConn} {code : HttpCode} (hc : Ready c)
    (h : c.verdict fs = some (code, c₁)) :
    Ready c₁ ∧
      ((code = .noResource ∨ code = .forbiddenRequest ∨ code = .badRequest) ∨
        code = .fileRequest ∧ ∃ path st, fs.stat path = some st ∧ c₁.fileStat = st ∧
          c₁.fileAddress = fs.mmap path st.stSize) := by
  unfold verdict at h
  split at h
  · cases h
  · cases h
    exact ⟨⟨hc.writeIndex, hc.unsent, hc.todo⟩, Or.inl (Or.inr (Or.inr rfl))⟩
  · rename_i r _
    have hcode := congrArg Prod.fst (Option.some.inj h)
    have hconn := congrArg Prod.snd (Option.some.inj h)
    subst hcode hconn
    have hunsent := doRequest_unsent fs { c with toReadState := r }
    have hkept := doRequest_kept fs { c with toReadState := r }
    refine ⟨⟨hunsent.1.trans hc.writeIndex, hunsent.2.trans hc.unsent, hkept.1.trans hc.todo⟩, ?_⟩
    exact doRequest_cases fs { c with toReadState := r }

/-! ## Calls of `write()` -/

/-- A response, and what has become of it. -/
structure Answering where
  conn : HttpConn
  /-- the bytes each `writev` took, in order -/
  handed : List (Option (List UInt8))
  /-- the slot has been armed for `EPOLLIN`, reset, or reported for closing -/
  ended : Bool

/-- Whether `writev` can take pieces of these sizes during a call of `write()`, before it fails
with `EAGAIN` or the response is complete. -/
def takes (c : HttpConn) (ns : List ℕ) : Bool :=
  if c.bytesToSend = 0 then ns.isEmpty
  else (Machine.exec sendStep ⟨c, [], false⟩ (ns.map .wrote)).isSome

/-- One call of `write()`, with the sizes of its pieces. -/
def callStep (s : Answering) (ns : List ℕ) : Option Answering :=
  if s.ended = false ∧ s.conn.takes ns = true then
    let (written, c) := s.conn.write (ns.map .wrote)
    some
      { conn := c
        handed := s.handed ++ written.handed
        ended := written.arm = .epollin ∨ written.ret = false }
  else none

/-- All bytes of the `iovec`s of `c` have been handed over. -/
def HandedAll (c : HttpConn) (handed : List (Option (List UInt8))) : Prop :=
  ∃ (whole : List UInt8) (chunks : List (List UInt8)),
    c.offered = some whole ∧ handed = chunks.map some ∧ chunks.flatten = whole

/-- Each piece that ends inside the head, of length `h`, keeps the bytes sent before and after it
together below `h`. -/
def KeepHead (h : ℕ) : ℕ → List ℕ → Prop
  | _, [] => True
  | sent, n :: ns => (sent + n < h → 2 * sent + n < h) ∧ KeepHead h (sent + n) ns

/-! ## The counters -/

/-- `sent` of `total` bytes have been taken, whichever they were. -/
structure Metered (h total sent : ℕ) (s : Sending) : Prop where
  small : total < 2 ^ 31
  le : sent ≤ total
  ivCount : s.conn.ivCount = 2
  writeIndex : s.conn.writeIndex = h
  have_ : s.conn.bytesHaveSend = sent
  todo : s.conn.bytesToSend = (total - sent : ℕ)
  offered : s.conn.iv0.iovLen + s.conn.iv1.iovLen = total - sent
  finished : s.finished = true ↔ sent = total

section Meter

variable {h total sent n : ℕ} {s t : Sending}

theorem sendStep_wrote_eq (hstep : sendStep s (.wrote n) = some t) :
    1 ≤ n ∧ n ≤ s.conn.offeredLen ∧
      t = { conn := s.conn.advance n
            handed := s.handed ++ [s.conn.offered.map (List.take n)]
            finished := (s.conn.advance n).bytesToSend ≤ 0 } := by
  simp only [sendStep] at hstep
  split at hstep <;> cases hstep
  rename_i hn
  exact ⟨hn.2.1, hn.2.2, rfl⟩

theorem Metered.offeredLen (hm : Metered h total sent s) : s.conn.offeredLen = total - sent := by
  unfold HttpConn.offeredLen
  rw [hm.ivCount]
  exact hm.offered

theorem Metered.wrote (hm : Metered h total sent s) (hstep : sendStep s (.wrote n) = some t) :
    Metered h total (sent + n) t := by
  obtain ⟨-, hn, rfl⟩ := sendStep_wrote_eq hstep
  rw [hm.offeredLen] at hn
  have hsmall := hm.small
  have hle := hm.le
  have hoffered := hm.offered
  have hhave : toInt (s.conn.bytesHaveSend + n) = (sent + n : ℕ) := by
    rw [hm.have_, toInt_of_lt] <;> omega
  have htodo : toInt (s.conn.bytesToSend - n) = (total - (sent + n) : ℕ) := by
    rw [hm.todo, toInt_of_lt] <;> omega
  have hsize : ∀ k : ℕ, k < 2 ^ 31 → toSizeT (k : ℤ) = k := by
    intro k hk
    rw [toSizeT_of_lt, Int.toNat_natCast] <;> omega
  have hdone : ((total - (sent + n) : ℕ) : ℤ) ≤ 0 ↔ sent + n = total := by omega
  unfold advance
  simp only [hhave, htodo]
  rw [hsize (sent + n) (by omega), hsize (total - (sent + n)) (by omega)]
  split
  · exact ⟨hsmall, by omega, hm.ivCount, hm.writeIndex, rfl, rfl, Nat.zero_add _,
      by simpa using hdone⟩
  · rename_i hhead
    refine ⟨hsmall, by omega, hm.ivCount, hm.writeIndex, rfl, rfl, ?_, by simpa using hdone⟩
    show s.conn.iv0.iovLen - n + s.conn.iv1.iovLen = total - (sent + n)
    omega

theorem exec_metered {ns : List ℕ} (hm : Metered h total sent s)
    (hexec : Machine.exec sendStep s (ns.map .wrote) = some t) :
    Metered h total (sent + ns.sum) t := by
  induction ns generalizing s sent with
  | nil =>
    cases hexec
    exact hm
  | cons n ns ih =>
    obtain ⟨u, hu, hrest⟩ := Machine.exec_cons_eq_some.mp hexec
    have hlast := ih (hm.wrote hu) hrest
    rw [List.sum_cons, ← Nat.add_assoc]
    exact hlast

/-- The condition on the pieces, along the run. -/
theorem along_keepsHead_iff {ns : List ℕ} (hm : Metered h total sent s)
    (hexec : Machine.exec sendStep s (ns.map .wrote) = some t) :
    Machine.Along sendStep KeepsHead s (ns.map .wrote) ↔ KeepHead h sent ns := by
  induction ns generalizing s sent with
  | nil => exact Iff.rfl
  | cons n ns ih =>
    obtain ⟨u, hu, hrest⟩ := Machine.exec_cons_eq_some.mp hexec
    have hfirst : KeepsHead s (.wrote n) ↔ (sent + n < h → 2 * sent + n < h) := by
      unfold KeepsHead
      rw [hm.have_, hm.writeIndex]
      omega
    rw [KeepHead, ← ih (hm.wrote hu) hrest, ← hfirst]
    constructor
    · exact fun halong => halong u hu
    · rintro hboth v hv
      rw [hu, Option.some.injEq] at hv
      exact hv ▸ hboth

end Meter

/-! ## Calls and pieces -/

/-- What was handed over before a run of pieces stays in front. -/
theorem exec_sendStep_handed (before : List (Option (List UInt8))) (rs : List WriteResult)
    (s : Sending) :
    Machine.exec sendStep { s with handed := before ++ s.handed } rs =
      (Machine.exec sendStep s rs).map fun t => { t with handed := before ++ t.handed } := by
  induction rs generalizing s with
  | nil => rfl
  | cons r rs ih =>
    have hstep : sendStep { s with handed := before ++ s.handed } r =
        (sendStep s r).map fun t => { t with handed := before ++ t.handed } := by
      cases r with
      | failed e =>
        simp only [sendStep]
        split <;> rfl
      | wrote n =>
        simp only [sendStep, List.append_assoc]
        split <;> rfl
    rw [Machine.exec, Machine.exec, hstep]
    cases sendStep s r with
    | none => rfl
    | some t => exact ih t

theorem callStep_eq {s t : Answering} {ns : List ℕ} (h : callStep s ns = some t) :
    s.ended = false ∧ s.conn.takes ns = true ∧
      t = { conn := (s.conn.write (ns.map .wrote)).2
            handed := s.handed ++ (s.conn.write (ns.map .wrote)).1.handed
            ended := (s.conn.write (ns.map .wrote)).1.arm = .epollin ∨
              (s.conn.write (ns.map .wrote)).1.ret = false } := by
  unfold callStep at h
  split at h
  · rename_i hcall
    exact ⟨hcall.1, hcall.2, (Option.some.inj h).symm⟩
  · cases h

/-- A response under `callStep` and under `sendStep`. The slot is compared while it is being
sent. -/
structure SameSending (s : Answering) (u : Sending) : Prop where
  handed : s.handed = u.handed
  ended : s.ended = u.finished
  conn : u.finished = false → s.conn = u.conn

theorem SameSending.call {s t : Answering} {u : Sending} {ns : List ℕ} (h : SameSending s u)
    (htodo : u.finished = false → u.conn.bytesToSend ≠ 0) (hstep : callStep s ns = some t) :
    ∃ v, Machine.exec sendStep u (ns.map .wrote) = some v ∧ SameSending t v := by
  obtain ⟨hended, htakes, rfl⟩ := callStep_eq hstep
  have hunfinished : u.finished = false := h.ended ▸ hended
  have hconn := h.conn hunfinished
  have hne : s.conn.bytesToSend ≠ 0 := hconn ▸ htodo hunfinished
  rw [takes, if_neg hne] at htakes
  obtain ⟨v, hv⟩ := Option.isSome_iff_exists.mp htakes
  have hpieces : ∀ r ∈ ns.map WriteResult.wrote, ∃ n, r = .wrote n := by
    intro r hr
    obtain ⟨n, -, rfl⟩ := List.mem_map.mp hr
    exact ⟨n, rfl⟩
  have hwrite : s.conn.write (ns.map .wrote) =
      if v.finished then
        if v.conn.linger then (⟨true, .epollin, v.handed⟩, v.conn.unmap.init)
        else (⟨false, .epollin, v.handed⟩, v.conn.unmap)
      else (⟨true, .epollout, v.handed⟩, v.conn) := by
    rw [write, if_neg hne]
    exact writeLoop_eq _ ⟨s.conn, [], false⟩ v rfl hpieces hv
  have hfrom : u = { (⟨s.conn, [], false⟩ : Sending) with handed := s.handed ++ [] } := by
    obtain ⟨conn, handed, finished⟩ := u
    simp only [List.append_nil, Sending.mk.injEq]
    exact ⟨hconn.symm, h.handed.symm, hunfinished⟩
  refine ⟨{ v with handed := s.handed ++ v.handed }, ?_, ?_⟩
  · rw [hfrom, exec_sendStep_handed, hv]
    rfl
  · rw [hwrite]
    cases hfinished : v.finished with
    | false => exact ⟨rfl, by simp, fun _ => rfl⟩
    | true =>
      cases v.conn.linger with
      | false => exact ⟨rfl, by simp, fun habs => absurd habs (by simp)⟩
      | true => exact ⟨rfl, by simp, fun habs => absurd habs (by simp)⟩

/-- A sequence of calls hands the response over piece by piece. -/
theorem exec_callStep {h total sent : ℕ} {s t : Answering} {u : Sending} {calls : List (List ℕ)}
    (hm : Metered h total sent u) (hsame : SameSending s u)
    (hexec : Machine.exec callStep s calls = some t) :
    ∃ v, Machine.exec sendStep u (calls.flatten.map .wrote) = some v ∧ SameSending t v := by
  induction calls generalizing s u sent with
  | nil =>
    cases hexec
    exact ⟨u, rfl, hsame⟩
  | cons ns calls ih =>
    obtain ⟨s', hs', hrest⟩ := Machine.exec_cons_eq_some.mp hexec
    have htodo : u.finished = false → u.conn.bytesToSend ≠ 0 := by
      intro hunfinished hzero
      have hle := hm.le
      have hdone : u.finished = true := hm.finished.mpr (by rw [hm.todo] at hzero; omega)
      rw [hunfinished] at hdone
      cases hdone
    obtain ⟨u', hu', hsame'⟩ := hsame.call htodo hs'
    obtain ⟨v, hv, hlast⟩ := ih (exec_metered hm hu') hsame' hrest
    refine ⟨v, ?_, hlast⟩
    rw [List.flatten_cons, List.map_append]
    exact Machine.exec_append_eq_some.mpr ⟨u', hu', hv⟩

/-! ## A file response to its end -/

section File

variable {head file : List UInt8} {s t : Sending} {rs : List WriteResult}

/-- Memory that is not part of the response is or will be handed over. -/
def Lost (s : Sending) : Prop := s.conn.offered = none ∧ s.finished = false ∨ none ∈ s.handed

theorem lost_step {r : WriteResult} (h : Lost s) (hstep : sendStep s r = some t) : Lost t := by
  cases r with
  | failed e =>
    simp only [sendStep] at hstep
    split at hstep <;> cases hstep
    exact h
  | wrote n =>
    obtain ⟨-, -, rfl⟩ := sendStep_wrote_eq hstep
    right
    show none ∈ s.handed ++ [s.conn.offered.map (List.take n)]
    rcases h with ⟨hnone, -⟩ | hmem
    · rw [hnone]
      exact List.mem_append_right _ (List.mem_singleton_self _)
    · exact List.mem_append_left _ hmem

/-- A piece that makes the loop lose its place in the head. -/
theorem lost_of_not_keepsHead {r : WriteResult} (h : ∃ sent, OnTrack head file sent s)
    (hstep : sendStep s r = some t) (hkeep : ¬ KeepsHead s r) : Lost t := by
  obtain ⟨sent, h⟩ := h
  cases r with
  | failed e => exact absurd trivial hkeep
  | wrote n =>
    obtain ⟨-, -, rfl⟩ := sendStep_wrote h hstep
    unfold KeepsHead at hkeep
    rw [h.have_, h.writeIndex] at hkeep
    have hin : sent + n < head.length := by omega
    have hbranch : head.length ≤ 2 * sent + n := by omega
    left
    refine ⟨offered_none h hin hbranch, ?_⟩
    show decide ((s.conn.advance n).bytesToSend ≤ 0) = false
    rw [advance_eq h (by omega) (by omega), if_pos hbranch]
    exact decide_eq_false (by show ¬ ((_ : ℕ) : ℤ) ≤ 0; omega)

/-- When a file response has been completed, all of it has been handed over exactly when no piece
has made the loop lose its place. -/
theorem handed_iff_along (h : ∃ sent, OnTrack head file sent s)
    (hexec : Machine.exec sendStep s rs = some t) (hdone : t.finished = true) :
    (∃ chunks : List (List UInt8), t.handed = chunks.map some ∧ chunks.flatten = head ++ file) ↔
      Machine.Along sendStep KeepsHead s rs := by
  constructor
  · rintro ⟨chunks, hchunks, -⟩
    by_contra hnot
    have hlost : Lost t := by
      clear hchunks hdone
      induction rs generalizing s with
      | nil => exact absurd trivial hnot
      | cons r rs ih =>
        obtain ⟨u, hu, hrest⟩ := Machine.exec_cons_eq_some.mp hexec
        by_cases hkeep : KeepsHead s r
        · apply ih (onTrack_step h hu hkeep) hrest
          intro halong
          apply hnot
          intro v hv
          rw [hu, Option.some.injEq] at hv
          exact hv ▸ ⟨hkeep, halong⟩
        · exact Machine.exec_invariant (fun _ _ _ => lost_step)
            (lost_of_not_keepsHead h hu hkeep) hrest
    rcases hlost with ⟨-, hunfinished⟩ | hmem
    · rw [hdone] at hunfinished
      cases hunfinished
    · rw [hchunks] at hmem
      obtain ⟨_, -, habs⟩ := List.mem_map.mp hmem
      cases habs
  · intro halong
    obtain ⟨sent, hlast⟩ := Machine.exec_invariant_along
      (I := fun s => ∃ sent, OnTrack head file sent s) (fun _ _ _ hs hkeep hstep =>
        onTrack_step hs hstep hkeep) h halong hexec
    obtain ⟨chunks, hchunks, hflat⟩ := hlast.handed
    refine ⟨chunks, hchunks, ?_⟩
    rw [hflat, hlast.finished.mp hdone, ← List.length_append, List.take_length]

end File

/-! ## The response to a verdict -/

section Verdict

variable {typeText : List UInt8} {c c' : HttpConn}

/-- The error branches do not set `m_bytes_to_send`, although they offer a page. -/
theorem error_unsent {code : HttpCode} (hc : Ready c)
    (hcode : code = .noResource ∨ code = .forbiddenRequest ∨ code = .badRequest)
    (hwrite : c.processWrite typeText code = (true, c')) :
    c'.bytesToSend = 0 ∧ 0 < c'.offeredLen := by
  have herror : ∀ status title form, 0 < form.length →
      processWrite.offered (c.addError typeText status title form) = (true, c') →
        c'.bytesToSend = 0 ∧ 0 < c'.offeredLen := by
    intro status title form hform hoffered
    have hcomposed := composed_addError typeText c status title form
    have hindex : (c.addError typeText status title form).1 = true →
        0 < (c.addError typeText status title form).2.writeIndex := by
      unfold addError
      simp only
      generalize HttpConn.addHeaders typeText (c.addStatusLine status title).2 _ = d
      unfold addContent addResponse
      split
      · exact fun habs => Bool.noConfusion habs
      · simp only
        split
        · exact fun habs => Bool.noConfusion habs
        · intro _
          show 0 < d.writeIndex + form.length
          omega
    generalize c.addError typeText status title form = p at hoffered hcomposed hindex
    obtain ⟨ok, d⟩ := p
    cases ok with
    | false => cases hoffered
    | true =>
      cases hoffered
      exact ⟨hcomposed.bytesToSend.trans hc.todo, hindex rfl⟩
  rcases hcode with rfl | rfl | rfl
  · rw [processWrite] at hwrite
    exact herror 404 error404Title error404Form (by decide) hwrite
  · rw [processWrite] at hwrite
    exact herror 403 error403Title error403Form (by decide) hwrite
  · rw [processWrite] at hwrite
    exact herror 400 error400Title error400Form (by decide) hwrite

variable {fs : FileSystem} {h : ℕ}

theorem offeredLen_start (hsize : 0 ≤ c.fileStat.stSize ∧ c.fileStat.stSize < 2 ^ 63) :
    ((sendStart typeText c).conn.offeredLen : ℤ) =
      (sendStart typeText c).conn.writeIndex + c.fileStat.stSize := by
  obtain ⟨buf, index, hconn, -, -⟩ := sendStart_conn typeText c
  rw [hconn]
  show ((index + toSizeT c.fileStat.stSize : ℕ) : ℤ) = index + c.fileStat.stSize
  rw [toSizeT_of_lt hsize.1 (by omega)]
  omega

/-- `m_bytes_to_send` is the sum of the lengths as long as the sum is an `int`. -/
theorem todo_eq_offeredLen_iff (hsize : 0 ≤ c.fileStat.stSize ∧ c.fileStat.stSize < 2 ^ 63) :
    (sendStart typeText c).conn.bytesToSend = (sendStart typeText c).conn.offeredLen ↔
      (sendStart typeText c).conn.writeIndex + c.fileStat.stSize < 2 ^ 31 := by
  rw [offeredLen_start hsize]
  obtain ⟨buf, index, hconn, -, -⟩ := sendStart_conn typeText c
  rw [hconn]
  show toInt (index + c.fileStat.stSize) = index + c.fileStat.stSize ↔
    index + c.fileStat.stSize < 2 ^ 31
  constructor
  · intro heq
    have hlt : toInt (index + c.fileStat.stSize) < (2 ^ 32 + 1) / 2 := Int.bmod_lt (by omega)
    omega
  · exact fun hlt => toInt_of_lt (by omega) hlt

theorem metered_start (hc : Ready c)
    (hsize : 0 ≤ c.fileStat.stSize ∧ c.fileStat.stSize < 2 ^ 63)
    (hsmall : (sendStart typeText c).conn.writeIndex + c.fileStat.stSize < 2 ^ 31) :
    Metered (sendStart typeText c).conn.writeIndex (sendStart typeText c).conn.offeredLen 0
      (sendStart typeText c) := by
  have hlen : ((sendStart typeText c).conn.offeredLen : ℤ) = _ := offeredLen_start hsize
  have htodo := (todo_eq_offeredLen_iff hsize).mpr hsmall
  obtain ⟨buf, index, hconn, hpos, -⟩ := sendStart_conn typeText c
  have hindex : (sendStart typeText c).conn.writeIndex = index := by rw [hconn]
  refine ⟨by omega, Nat.zero_le _, by rw [hconn], rfl, ?_, htodo, ?_, ?_⟩
  · rw [hconn]
    exact hc.unsent
  · rw [hconn]
    rfl
  · show false = true ↔ 0 = _
    constructor
    · exact fun habs => Bool.noConfusion habs
    · omega

/-- What is offered is memory of the response only if the file is mapped, or empty. -/
theorem mapped_of_offered (hsize : 0 ≤ c.fileStat.stSize ∧ c.fileStat.stSize < 2 ^ 63)
    {whole : List UInt8} (h : (sendStart typeText c).conn.offered = some whole) :
    c.fileStat.stSize = 0 ∨ ∃ bytes, c.fileAddress = .mapped bytes := by
  obtain ⟨buf, index, hconn, -, -⟩ := sendStart_conn typeText c
  rw [hconn] at h
  obtain ⟨_, -, hfile⟩ := Option.bind_eq_some_iff.mp h
  obtain ⟨bytes, hbytes, -⟩ := Option.map_eq_some_iff.mp hfile
  unfold ivBytes at hbytes
  split at hbytes
  · rename_i hzero
    left
    have hlen : toSizeT c.fileStat.stSize = 0 := hzero
    rw [toSizeT_of_lt hsize.1 (by omega)] at hlen
    omega
  · right
    change Mapping.read 0 _ c.fileAddress = some bytes at hbytes
    cases haddress : c.fileAddress with
    | null =>
      rw [haddress] at hbytes
      cases hbytes
    | mapFailed =>
      rw [haddress] at hbytes
      cases hbytes
    | mapped file => exact ⟨file, rfl⟩

theorem fileReady (hc : Ready c)
    (hlength : ∀ bytes, c.fileAddress = .mapped bytes → (bytes.length : ℤ) = c.fileStat.stSize)
    (hmapped : c.fileStat.stSize = 0 ∨ ∃ bytes, c.fileAddress = .mapped bytes)
    (hsmall : (sendStart typeText c).conn.writeIndex + c.fileStat.stSize < 2 ^ 31) :
    ∃ file, FileReady typeText c file := by
  have hroom : c.writeIndex ≤ writeBufferSize := by rw [hc.writeIndex]; exact Nat.zero_le _
  rcases hmapped with hzero | ⟨bytes, hbytes⟩
  · refine ⟨[], fun hne => absurd rfl hne, hzero, hc.unsent, hroom, ?_⟩
    rw [List.length_nil]
    omega
  · have hlen := hlength bytes hbytes
    exact ⟨bytes, fun _ => hbytes, hlen.symm, hc.unsent, hroom, by omega⟩

/-- The length of the head that `process_write` composes for a file: its pieces, apart from those
for which there is no room. -/
def headLength (typeText : List UInt8) (c : HttpConn) : ℕ :=
  ((c.pieces typeText .fileRequest).foldl appendFitting []).length

theorem writeIndex_sendStart (hc : Ready c) :
    (sendStart typeText c).conn.writeIndex = headLength typeText c := by
  have hempty : c.head = [] := by
    rw [head, hc.writeIndex]
    rfl
  have hroom : c.writeIndex < writeBufferSize := by
    rw [hc.writeIndex]
    decide
  have hlen : (c.offerFile typeText).head.length = (c.offerFile typeText).writeIndex :=
    length_slice
  rw [headLength, ← hempty, ← head_offerFile typeText hroom, hlen]
  rfl

end Verdict

/-- For every verdict on a slot that `init()` has reset, and every sequence of calls of `write()`
without a fatal error: `m_bytes_to_send` is what the `iovec`s offer, and all of it has been handed
over when the sequence ends the response, exactly when the verdict is `FILE_REQUEST`, the length of
the response is an `int`, and, if the pieces make up the whole response, the file is mapped and no
piece makes the loop lose its place in the head. -/
theorem answered_iff {fs : FileSystem} (hfs : fs.Regular) (typeText : List UInt8) (d : HttpConn)
    (r : ReadState) {code : HttpCode} {c₁ c₂ : HttpConn}
    (hverdict : ({ d.init with toReadState := r } : HttpConn).verdict fs = some (code, c₁))
    (hwrite : c₁.processWrite typeText code = (true, c₂)) {calls : List (List ℕ)} {t : Answering}
    (hcalls : Machine.exec callStep ⟨c₂, [], false⟩ calls = some t) :
    (c₂.bytesToSend = c₂.offeredLen ∧ (t.ended = true → HandedAll c₂ t.handed)) ↔
      code = .fileRequest ∧ headLength typeText c₁ + c₁.fileStat.stSize < 2 ^ 31 ∧
        ((calls.flatten.sum : ℤ) = headLength typeText c₁ + c₁.fileStat.stSize →
          (c₁.fileStat.stSize = 0 ∨ ∃ bytes, c₁.fileAddress = .mapped bytes) ∧
            KeepHead (headLength typeText c₁) 0 calls.flatten) := by
  obtain ⟨hready, hcode | ⟨hcode, path, st, hstat, hst, haddress⟩⟩ :=
    verdict_cases (ready_init d r) hverdict
  · -- an error page is offered, and counted as 0 bytes
    obtain ⟨hzero, hpos⟩ := error_unsent hready hcode hwrite
    constructor
    · rintro ⟨hequal, -⟩
      omega
    · rintro ⟨hfile, -⟩
      subst hfile
      rcases hcode with habs | habs | habs <;> cases habs
  · subst hcode
    have hconn : c₂ = (sendStart typeText c₁).conn := congrArg Prod.snd hwrite.symm
    subst hconn
    have hsize : 0 ≤ c₁.fileStat.stSize ∧ c₁.fileStat.stSize < 2 ^ 63 := by
      rw [hst]
      exact hfs.size path st hstat
    have hlength : ∀ bytes, c₁.fileAddress = .mapped bytes →
        (bytes.length : ℤ) = c₁.fileStat.stSize := by
      intro bytes hbytes
      rw [hst]
      exact hfs.mapped path st.stSize bytes (haddress ▸ hbytes)
    rw [← writeIndex_sendStart hready, todo_eq_offeredLen_iff hsize, eq_self_iff_true, true_and]
    refine and_congr_right fun hsmall => ?_
    have hm := metered_start hready hsize hsmall
    have hfirst : SameSending ⟨(sendStart typeText c₁).conn, [], false⟩ (sendStart typeText c₁) :=
      ⟨rfl, rfl, fun _ => rfl⟩
    obtain ⟨v, hv, hsame⟩ := exec_callStep hm hfirst hcalls
    -- the sequence ends the response exactly when its pieces make it up
    have hended : t.ended = true ↔
        (calls.flatten.sum : ℤ) = (sendStart typeText c₁).conn.writeIndex + c₁.fileStat.stSize := by
      rw [hsame.ended, (exec_metered hm hv).finished, ← offeredLen_start hsize]
      omega
    rw [← hended, hsame.handed]
    refine forall_congr' fun hdone => ?_
    have hfinished : v.finished = true := hsame.ended ▸ hdone
    have hiff : ∀ file, FileReady typeText c₁ file →
        (HandedAll (sendStart typeText c₁).conn v.handed ↔
          KeepHead (sendStart typeText c₁).conn.writeIndex 0 calls.flatten) := by
      intro file hfile
      have htrack := onTrack_start hfile
      rw [← along_keepsHead_iff hm hv, ← handed_iff_along ⟨0, htrack⟩ hv hfinished, HandedAll]
      rw [offered_onTrack htrack, List.drop_zero]
      constructor
      · rintro ⟨whole, chunks, hwhole, hchunks, hflat⟩
        exact ⟨chunks, hchunks, hflat.trans (Option.some.inj hwhole).symm⟩
      · rintro ⟨chunks, hchunks, hflat⟩
        exact ⟨_, chunks, rfl, hchunks, hflat⟩
    constructor
    · intro hall
      have hmapped : c₁.fileStat.stSize = 0 ∨ ∃ bytes, c₁.fileAddress = .mapped bytes := by
        obtain ⟨whole, _, hwhole, -⟩ := hall
        exact mapped_of_offered hsize hwhole
      obtain ⟨file, hfile⟩ := fileReady hready hlength hmapped hsmall
      exact ⟨hmapped, (hiff file hfile).mp hall⟩
    · rintro ⟨hmapped, hkeep⟩
      obtain ⟨file, hfile⟩ := fileReady hready hlength hmapped hsmall
      exact (hiff file hfile).mpr hkeep

/-- Every path is an ordinary file of two bytes. -/
def twoByteFiles : FileSystem := ⟨fun _ => some ⟨0o100644, 2⟩, fun _ size =>
  if size = 2 then .mapped [104, 105] else .mapFailed⟩

theorem twoByteFiles_regular : twoByteFiles.Regular where
  size path st h := by
    cases h
    decide
  mapped path size bytes h := by
    simp only [twoByteFiles] at h
    split at h <;> cases h
    rename_i heq
    rw [heq]
    rfl

/-- The slot after a request line and an empty line have been received. -/
def requested : HttpConn :=
  { new.init with toReadState := ReadState.init.deliver (ascii "GET / HTTP/1.1\r\n\r\n") }

/-- A request for such a file is answered in two calls of `write()`, with pieces of 40 and 35
bytes. -/
theorem answered_iff_two_calls :
    ∃ c₁ c₂ t, requested.verdict twoByteFiles = some (.fileRequest, c₁) ∧
      c₁.processWrite (ascii "0") .fileRequest = (true, c₂) ∧
      Machine.exec callStep ⟨c₂, [], false⟩ [[40], [35]] = some t ∧ t.ended = true ∧
      c₂.bytesToSend = c₂.offeredLen ∧ HandedAll c₂ t.handed := by
  have hrun : (requested.verdict twoByteFiles).map (fun p =>
      (p.1, p.2.fileStat.stSize, p.2.fileAddress, headLength (ascii "0") p.2,
        (Machine.exec callStep ⟨p.2.offerFile (ascii "0"), [], false⟩ [[40], [35]]).map
          Answering.ended)) =
      some (.fileRequest, 2, .mapped [104, 105], 73, some true) := by
    decide +kernel
  obtain ⟨⟨code, c₁⟩, hverdict, hfacts⟩ := Option.map_eq_some_iff.mp hrun
  simp only [Prod.mk.injEq] at hfacts
  obtain ⟨rfl, hsize, haddress, hindex, hcalls⟩ := hfacts
  obtain ⟨t, ht, hended⟩ := Option.map_eq_some_iff.mp hcalls
  have hiff := answered_iff twoByteFiles_regular (ascii "0") new
    (ReadState.init.deliver (ascii "GET / HTTP/1.1\r\n\r\n")) hverdict rfl ht
  rw [hindex, hsize] at hiff
  have hkeep : KeepHead 73 0 [40, 35] := ⟨fun _ => by omega, fun _ => by omega, trivial⟩
  have hshort : (73 : ℕ) + (2 : ℤ) < 2 ^ 31 := by omega
  obtain ⟨htodo, hall⟩ := hiff.mpr ⟨rfl, hshort, fun _ => ⟨Or.inr ⟨_, haddress⟩, hkeep⟩⟩
  exact ⟨c₁, _, t, hverdict, rfl, ht, hended, htodo, hall hended⟩

/-- A request for a file that does not exist: a page is composed, and `write()` arms the socket for
the next request without having handed over any of it. -/
theorem error_page_not_sent :
    ∃ c₁ c₂ t, requested.verdict noFiles = some (.noResource, c₁) ∧
      c₁.processWrite (ascii "0") .noResource = (true, c₂) ∧
      Machine.exec callStep ⟨c₂, [], false⟩ [[]] = some t ∧
      ¬ (c₂.bytesToSend = c₂.offeredLen ∧ (t.ended = true → HandedAll c₂ t.handed)) := by
  have hrun : (requested.verdict noFiles).map (fun p =>
      (p.1, (p.2.processWrite (ascii "0") p.1).1,
        (p.2.processWrite (ascii "0") p.1).2.bytesToSend,
        (p.2.processWrite (ascii "0") p.1).2.offeredLen,
        (Machine.exec callStep ⟨(p.2.processWrite (ascii "0") p.1).2, [], false⟩ [[]]).isSome)) =
      some (.noResource, true, 0, 130, true) := by
    decide +kernel
  obtain ⟨⟨code, c₁⟩, hverdict, hfacts⟩ := Option.map_eq_some_iff.mp hrun
  simp only [Prod.mk.injEq] at hfacts
  obtain ⟨rfl, hok, hzero, hlen, hcalls⟩ := hfacts
  generalize hwrite : c₁.processWrite (ascii "0") .noResource = written at hok hzero hlen hcalls
  obtain ⟨ok, c₂⟩ := written
  obtain ⟨t, ht⟩ := Option.isSome_iff_exists.mp hcalls
  refine ⟨c₁, c₂, t, hverdict, hwrite.trans (Prod.ext hok rfl), ht, ?_⟩
  rintro ⟨hequal, -⟩
  simp only at hzero hlen
  omega

end HttpConn
end Webservers
