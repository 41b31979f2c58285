import Webservers.HttpConn.Basic

/-!
# Reading from the socket

What `read()` leaves in `m_read_buf`, and what it returns.

* `read_deliver`: whatever the calls of `recv` find, `read()` appends bytes and stays inside the
  buffer.
* `read_lt`: a call that succeeds leaves room in the buffer, since `recv` returns 0 when it is
  called with length 0.
* `read_chunks` gives the result on a socket that hands over some bytes in any pieces.
-/

namespace Webservers
namespace ReadState

/-! ## Bytes behind the ones already there -/

theorem deliver_nil (c : ReadState) : c.deliver [] = c := by
  rw [deliver, storeBytes_nil]
  rfl

theorem deliver_append (c : ReadState) (x y : List UInt8) :
    (c.deliver x).deliver y = c.deliver (x ++ y) := by
  simp only [deliver, storeBytes_append, List.length_append, Nat.add_assoc]

/-- What one call of `recv` returns fits. -/
theorem length_take_room {c : ReadState} (hfit : c.readIndex ≤ readBufferSize)
    (bytes : List UInt8) :
    (c.deliver (bytes.take (readBufferSize - c.readIndex))).readIndex ≤ readBufferSize := by
  show c.readIndex + (bytes.take (readBufferSize - c.readIndex)).length ≤ readBufferSize
  rw [List.length_take]
  omega

/-! ## Any results of `recv` -/

/-- A `read` appends bytes to the buffer and stays inside it. -/
theorem recvLoop_deliver (rs : List Recv) (c : ReadState) :
    ∃ x, (c.recvLoop rs).2 = c.deliver x ∧
      (c.readIndex ≤ readBufferSize → c.readIndex + x.length ≤ readBufferSize) := by
  have hstay : ∃ x, c = c.deliver x ∧
      (c.readIndex ≤ readBufferSize → c.readIndex + x.length ≤ readBufferSize) :=
    ⟨[], (deliver_nil c).symm, id⟩
  induction rs generalizing c with
  | nil =>
    rw [recvLoop]
    split <;> exact hstay
  | cons r rest ih =>
    rw [recvLoop.eq_def]
    split
    · exact hstay
    · cases r with
      | failed e => exact hstay
      | eof => exact hstay
      | data bytes =>
        simp only
        split
        · exact hstay
        · -- the loop goes on behind the bytes that have arrived
          have hroom := fun h => length_take_room (c := c) h bytes
          generalize bytes.take (readBufferSize - c.readIndex) = got at hroom ⊢
          obtain ⟨y, hy, hfit⟩ := ih (c.deliver got) ⟨[], (deliver_nil _).symm, id⟩
          rw [deliver_append] at hy
          refine ⟨got ++ y, hy, fun h => ?_⟩
          rw [List.length_append, ← Nat.add_assoc]
          exact hfit (hroom h)

theorem read_deliver (rs : List Recv) (c : ReadState) :
    ∃ x, (c.read rs).2 = c.deliver x ∧
      (c.readIndex ≤ readBufferSize → c.readIndex + x.length ≤ readBufferSize) := by
  rw [read]
  split
  · exact ⟨[], (deliver_nil c).symm, id⟩
  · exact recvLoop_deliver rs c

theorem recvLoop_lt (rs : List Recv) (c : ReadState) (h : (c.recvLoop rs).1 = true) :
    (c.recvLoop rs).2.readIndex < readBufferSize := by
  induction rs generalizing c with
  | nil =>
    rw [recvLoop] at h ⊢
    split at h
    · cases h
    · rename_i hroom
      rw [if_neg hroom]
      exact Nat.lt_of_not_le hroom
  | cons r rest ih =>
    rw [recvLoop.eq_def] at h ⊢
    split at h
    · cases h
    · rename_i hroom
      rw [if_neg hroom]
      cases r with
      | failed e => exact Nat.lt_of_not_le hroom
      | eof => cases h
      | data bytes =>
        simp only at h ⊢
        split at h
        · cases h
        · rename_i hgot
          rw [if_neg hgot]
          exact ih _ h

/-- When `read()` succeeds, the buffer is not full. -/
theorem read_lt {rs : List Recv} {c : ReadState} (h : (c.read rs).1 = true) :
    (c.read rs).2.readIndex < readBufferSize := by
  rw [read] at h ⊢
  split at h
  · cases h
  · rename_i hroom
    rw [if_neg hroom]
    exact recvLoop_lt rs c h

/-! ## A socket with some bytes -/

/-- The bytes of an open socket arrive in `chunks`, and nothing follows. -/
theorem recvLoop_chunks {chunks : List (List UInt8)} (hchunks : ∀ x ∈ chunks, x ≠ [])
    {c : ReadState} (hfit : c.readIndex ≤ readBufferSize) :
    c.recvLoop (chunks.map .data) =
      (decide (c.readIndex + chunks.flatten.length < readBufferSize),
        c.deliver (chunks.flatten.take (readBufferSize - c.readIndex))) := by
  induction chunks generalizing c with
  | nil =>
    rw [List.map_nil, List.flatten_nil, List.take_nil, deliver_nil, recvLoop, List.length_nil,
      Nat.add_zero]
    by_cases hfull : readBufferSize ≤ c.readIndex
    · rw [if_pos hfull, decide_eq_false (Nat.not_lt_of_le hfull)]
    · rw [if_neg hfull, decide_eq_true (Nat.lt_of_not_le hfull)]
  | cons x rest ih =>
    rw [List.map_cons, recvLoop, List.flatten_cons, List.length_append]
    by_cases hfull : readBufferSize ≤ c.readIndex
    · rw [if_pos hfull, decide_eq_false (by omega), Nat.sub_eq_zero_of_le hfull, List.take_zero,
        deliver_nil]
    · have hpos : 0 < x.length := List.length_pos_iff.mpr (hchunks x List.mem_cons_self)
      have hlen : (x.take (readBufferSize - c.readIndex)).length =
          min (readBufferSize - c.readIndex) x.length := List.length_take
      have hgot : x.take (readBufferSize - c.readIndex) ≠ [] := by
        apply List.length_pos_iff.mp
        rw [hlen]
        omega
      have hroom := length_take_room hfit x
      simp only [if_neg hfull, if_neg hgot, List.take_append]
      generalize x.take (readBufferSize - c.readIndex) = got at hlen hroom ⊢
      rw [ih (fun y hy => hchunks y (List.mem_cons_of_mem _ hy)) hroom, deliver_append]
      have hindex : (c.deliver got).readIndex = c.readIndex + got.length := rfl
      -- a piece that does not fit leaves no room, and neither does the whole
      have hroom' : readBufferSize - (c.deliver got).readIndex =
          readBufferSize - c.readIndex - x.length := by
        rw [hindex, hlen]
        omega
      have hlt : (c.deliver got).readIndex + rest.flatten.length < readBufferSize ↔
          c.readIndex + (x.length + rest.flatten.length) < readBufferSize := by
        rw [hindex, hlen]
        omega
      rw [hroom', decide_eq_decide.mpr hlt]

theorem read_chunks {chunks : List (List UInt8)} (hchunks : ∀ x ∈ chunks, x ≠ [])
    {c : ReadState} (hroom : c.readIndex < readBufferSize) :
    c.read (chunks.map .data) =
      (decide (c.readIndex + chunks.flatten.length < readBufferSize),
        c.deliver (chunks.flatten.take (readBufferSize - c.readIndex))) := by
  rw [read, if_neg (Nat.not_le_of_lt hroom)]
  exact recvLoop_chunks hchunks (Nat.le_of_lt hroom)

end ReadState
end Webservers
