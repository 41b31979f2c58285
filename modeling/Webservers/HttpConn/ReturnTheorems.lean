import Webservers.HttpConn.SlotTheorems

/-!
# Whether `write()` returns (bck/src/http_conn.cpp)

The loop of `write()` ends when `writev` fails or when `m_bytes_to_send` is used up. A `writev` with
nothing in its `iovec`s does not fail and takes 0 bytes, so `write()` may call it for ever.

* `Spins` is a slot for which it does; `WriteHangs` says which results of `writev` lead there, and
  `writeReturns_iff` that there are results with which `write()` returns unless it is there at once.
* `Sendable` is what keeps a slot from that: either there is nothing to send, or both `iovec`s are
  in use, and the second one is filled up when the first one is empty. `process` leaves it so when
  it finds nothing unsent (`sendable_process`), and so does `write` (`Sendable.write`).
-/

namespace Webservers
namespace HttpConn

/-- Something is left to send, and the only `iovec` offers nothing of it. -/
def Spins (c : HttpConn) : Prop :=
  c.ivCount ≤ 1 ∧ c.offeredLen = 0 ∧ 0 < toInt c.bytesToSend

/-- With these results of `writev`, the loop of `write()` comes to where it goes on for ever. -/
def LoopHangs (c : HttpConn) : List WriteResult → Prop
  | [] => c.Spins
  | .failed _ :: _ => False
  | .wrote n :: rs =>
    n ≤ c.offeredLen ∧ 0 < (c.advance n).bytesToSend ∧ LoopHangs (c.advance n) rs

/-- `write()` never returns once `writev` has had these results. -/
def WriteHangs (c : HttpConn) (rs : List WriteResult) : Prop :=
  c.bytesToSend ≠ 0 ∧ c.LoopHangs rs

/-- Nothing is left to send, or both `iovec`s are offered. -/
def Sendable (c : HttpConn) : Prop :=
  c.bytesToSend = 0 ∨ c.ivCount = 2

section Advance

variable (c : HttpConn) (n : ℕ)

theorem bytesToSend_advance_zero : (c.advance 0).bytesToSend = toInt c.bytesToSend := by
  rw [bytesToSend_advance]
  exact congrArg toInt (Int.sub_zero _)

/-- The number of `iovec`s stays. -/
theorem ivCount_advance : (c.advance n).ivCount = c.ivCount := by
  unfold advance
  simp only
  split <;> rfl

/-- When the first `iovec` is empty, the second one is set to what is left. -/
theorem iovLen_advance_of_zero (h : c.iv0.iovLen = 0) :
    (c.advance n).iv0.iovLen = 0 ∧
      (c.advance n).iv1.iovLen = toSizeT (toInt (c.bytesToSend - n)) := by
  unfold advance
  simp only
  rw [if_pos (by rw [h]; exact Nat.zero_le _)]
  exact ⟨rfl, rfl⟩

/-- When nothing is offered. -/
theorem offeredLen_zero : c.offeredLen = 0 ↔ c.ivCount = 0 ∨ c.iv0.iovLen = 0 ∧
    (c.ivCount = 1 ∨ c.iv1.iovLen = 0) := by
  unfold offeredLen
  rcases c.ivCount with _ | _ | count
  · simp
  · simp
  · simp only
    omega

end Advance

section Spinning

variable {c : HttpConn}

/-- A `writev` that is offered nothing changes nothing. -/
theorem Spins.advance (h : c.Spins) : (c.advance 0).Spins := by
  obtain ⟨hcount, hzero, hleft⟩ := h
  refine ⟨(ivCount_advance c 0).trans_le hcount, ?_, ?_⟩
  · rw [offeredLen_zero] at hzero ⊢
    rw [ivCount_advance]
    rcases hzero with hnone | ⟨hempty, -⟩
    · exact .inl hnone
    · have hadvance := (iovLen_advance_of_zero c 0 hempty).1
      omega
  · rw [bytesToSend_advance_zero, toInt, toInt, Int.bmod_bmod]
    exact hleft

/-- No results of `writev` get out of a loop that spins. -/
theorem Spins.not_loopReturns (rs : List WriteResult) (h : c.Spins) : ¬ c.LoopReturns rs := by
  induction rs generalizing c with
  | nil => exact fun hpos => absurd h.2.1 (Nat.ne_of_gt hpos)
  | cons r rs ih =>
    cases r with
    | failed e => exact fun hpos => absurd h.2.1 (Nat.ne_of_gt hpos)
    | wrote n =>
      rintro ⟨hle, hrest⟩
      obtain rfl : n = 0 := Nat.le_zero.mp (h.2.1 ▸ hle)
      have hleft : 0 < (c.advance 0).bytesToSend := by
        rw [bytesToSend_advance_zero]
        exact h.2.2
      exact ih h.advance (hrest hleft)

/-- Whatever comes after such results, `write()` does not return. -/
theorem LoopHangs.not_loopReturns {rs : List WriteResult} (h : c.LoopHangs rs)
    (more : List WriteResult) : ¬ c.LoopReturns (rs ++ more) := by
  induction rs generalizing c with
  | nil => exact Spins.not_loopReturns more h
  | cons r rs ih =>
    cases r with
    | failed e => exact h.elim
    | wrote n =>
      obtain ⟨-, hleft, hhangs⟩ := h
      exact fun hreturns => ih hhangs (hreturns.2 hleft)

/-- A `write` that hangs stays in its loop, whatever `writev` returns next. -/
theorem WriteHangs.not_writeReturns {rs : List WriteResult} (h : c.WriteHangs rs)
    (more : List WriteResult) : ¬ c.WriteReturns (rs ++ more) :=
  fun hreturns => h.2.not_loopReturns more (hreturns h.1)

theorem Spins.writeHangs (h : c.Spins) : c.WriteHangs [] := by
  refine ⟨fun hzero => ?_, h⟩
  have hleft := h.2.2
  rw [hzero] at hleft
  exact absurd hleft (by decide)

/-- With both `iovec`s in use the loop does not get there. -/
theorem not_loopHangs (rs : List WriteResult) (h : c.ivCount = 2) : ¬ c.LoopHangs rs := by
  induction rs generalizing c with
  | nil =>
    intro hspins
    have hcount := hspins.1
    omega
  | cons r rs ih =>
    cases r with
    | failed e => exact id
    | wrote n => exact fun hhangs => ih ((ivCount_advance c n).trans h) hhangs.2.2

/-- A response that can be sent does not make `write` hang. -/
theorem Sendable.not_writeHangs (h : c.Sendable) (rs : List WriteResult) : ¬ c.WriteHangs rs :=
  fun hhangs => not_loopHangs rs (h.resolve_left hhangs.1) hhangs.2

/-- With both `iovec`s in use, the second one holds what is left after a `writev` of nothing. -/
theorem offeredLen_advance_pos (hcount : 2 ≤ c.ivCount) (hzero : c.offeredLen = 0)
    (hleft : 0 < (c.advance 0).bytesToSend) : 0 < (c.advance 0).offeredLen := by
  have hempty : c.iv0.iovLen = 0 := by
    rw [offeredLen_zero] at hzero
    omega
  have hlen := (iovLen_advance_of_zero c 0 hempty).2
  have hsize : 0 < toSizeT (toInt (c.bytesToSend - (0 : ℕ))) := by
    rw [bytesToSend_advance] at hleft
    have hhigh : toInt (c.bytesToSend - (0 : ℕ)) < 2 ^ 31 := Int.bmod_lt (by decide)
    rw [toSizeT]
    omega
  have hcount' := ivCount_advance c 0
  rw [Nat.pos_iff_ne_zero, ne_eq, offeredLen_zero]
  omega

/-- `write` can return exactly when its slot does not spin. -/
theorem writeReturns_iff : (∃ rs, c.WriteReturns rs) ↔ ¬ c.Spins := by
  constructor
  · rintro ⟨rs, hrs⟩ hspins
    exact hspins.writeHangs.not_writeReturns rs hrs
  · intro hnot
    by_cases hzero : c.offeredLen = 0
    · refine ⟨[.wrote 0], fun _ => ⟨Nat.zero_le _, fun hleft => ?_⟩⟩
      by_cases hcount : c.ivCount ≤ 1
      · rw [bytesToSend_advance_zero] at hleft
        exact absurd ⟨hcount, hzero, hleft⟩ hnot
      · exact offeredLen_advance_pos (by omega) hzero hleft
    · exact ⟨[], fun _ => Nat.pos_of_ne_zero hzero⟩

end Spinning

/-! ## What a call leaves to send -/

section Calls

variable {c : HttpConn}

theorem bytesToSend_closeConn (c : HttpConn) : c.closeConn.bytesToSend = c.bytesToSend := by
  unfold closeConn
  split <;> rfl

theorem ivCount_closeConn (c : HttpConn) : c.closeConn.ivCount = c.ivCount := by
  unfold closeConn
  split <;> rfl

/-- `close_conn` leaves what there is to send. -/
theorem Sendable.closeConn (h : c.Sendable) : c.closeConn.Sendable := by
  rw [Sendable, bytesToSend_closeConn, ivCount_closeConn]
  exact h

/-- A response that is composed on a slot with nothing to send can be sent. -/
theorem sendable_respond (typeText : List UInt8) (code : HttpCode) (h : c.bytesToSend = 0) :
    (process.respond typeText (code, c)).2.Sendable := by
  have hwritten : (c.processWrite typeText code).2.Sendable := by
    obtain ⟨d, hd, heq | heq | heq⟩ := processWrite_composed typeText c code
    all_goals rw [heq]
    · exact .inl (hd.bytesToSend.trans h)
    · exact .inl (hd.bytesToSend.trans h)
    · exact .inr rfl
  rw [respond_eq]
  simp only
  split
  · exact hwritten
  · exact hwritten.closeConn

/-- `process` sets both `iovec`s when there is something to send; and while the request is
incomplete there is nothing. -/
theorem sendable_process (typeText : List UInt8) (fs : FileSystem) (h : c.bytesToSend = 0) :
    ((c.process typeText fs).1.1 = .epollin → (c.process typeText fs).2.bytesToSend = 0) ∧
      (c.process typeText fs).2.Sendable := by
  unfold process
  generalize c.toReadState.processRead = parsed
  obtain ⟨result, r⟩ := parsed
  have hresponse : ∀ p : HttpCode × HttpConn, p.2.bytesToSend = 0 →
      ((process.respond typeText p).1.1 = .epollin →
          (process.respond typeText p).2.bytesToSend = 0) ∧
        (process.respond typeText p).2.Sendable := by
    rintro ⟨code, d⟩ hd
    refine ⟨fun harm => ?_, sendable_respond typeText code hd⟩
    rw [respond_eq] at harm
    exact Arm.noConfusion harm
  cases result with
  | noRequest => exact ⟨fun _ => h, .inl h⟩
  | badRequest =>
    simp only
    exact hresponse (.badRequest, { c with toReadState := r }) h
  | doRequest =>
    have hkept := (doRequest_kept fs { c with toReadState := r }).1
    exact hresponse _ (hkept.trans h)

/-- The loop of `write` on a file response, as long as it is not to be closed. -/
theorem Sendable.writeLoop (rs : List WriteResult) (handed : List (Option (List UInt8)))
    (h : c.ivCount = 2) (hret : (c.writeLoop handed rs).1.ret = true) :
    ((c.writeLoop handed rs).1.arm = .epollin → (c.writeLoop handed rs).2.bytesToSend = 0) ∧
      (c.writeLoop handed rs).2.Sendable := by
  induction rs generalizing c handed with
  | nil => exact ⟨fun harm => Arm.noConfusion harm, .inr h⟩
  | cons r rs ih =>
    revert hret
    cases r with
    | failed e =>
      rw [HttpConn.writeLoop]
      split
      · exact fun _ => ⟨fun harm => Arm.noConfusion harm, .inr h⟩
      · exact fun hret => Bool.noConfusion hret
    | wrote n =>
      rw [HttpConn.writeLoop]
      split
      · split
        · exact fun _ => ⟨fun _ => rfl, .inl rfl⟩
        · exact fun hret => Bool.noConfusion hret
      · exact ih _ ((ivCount_advance c n).trans h)

/-- `write` gives the connection back with nothing to send, or with the rest of what there was. -/
theorem Sendable.write (rs : List WriteResult) (h : c.Sendable)
    (hret : (c.write rs).1.ret = true) :
    ((c.write rs).1.arm = .epollin → (c.write rs).2.bytesToSend = 0) ∧
      (c.write rs).2.Sendable := by
  revert hret
  unfold HttpConn.write
  split
  · exact fun _ => ⟨fun _ => rfl, .inl rfl⟩
  · rename_i hleft
    exact Sendable.writeLoop rs [] (h.resolve_left hleft)

end Calls

end HttpConn
end Webservers
