import Webservers.HttpConn.KeepAliveTheorems

/-!
# The length of a file response

`st_size` has 64 bits. It reaches the `Content-Length` line through the `int` parameter of
`add_headers` and a `%d`, and the transmission loop through the `int` `m_bytes_to_send`. Both say
what the file says exactly as long as the head and the file together have less than `2^31` bytes.
-/

namespace Webservers

/-! ## Conversions and texts -/

theorem toInt_lt (x : ℤ) : toInt x < 2 ^ 31 := by
  have hlt : toInt x < (2 ^ 32 + 1) / 2 := Int.bmod_lt (by omega)
  omega

theorem toInt_eq_iff {x : ℤ} (hx : 0 ≤ x) : toInt x = x ↔ x < 2 ^ 31 := by
  constructor
  · intro h
    have hlt := toInt_lt x
    omega
  · exact fun h => HttpConn.toInt_of_lt hx h

namespace HttpConn

/-! ## What a response should say -/

/-- The head of a response with a file, with this number in the `Content-Length` line. -/
def headText (typeText : List UInt8) (linger : Bool) (number : List UInt8) : List UInt8 :=
  [ascii "HTTP/1.1 200 OK\r\n",
    ascii "Content-Length: " ++ number ++ ascii "\r\n",
    ascii "Content-Type: " ++ typeText ++ ascii "\r\n",
    ascii "Connection:" ++ (if linger then ascii "keep-alive" else ascii "close") ++ ascii "\r\n",
    ascii "\r\n"].flatten

/-- After `process_write(FILE_REQUEST)` the `Content-Length` line has the decimal number `st_size`,
and `m_bytes_to_send` counts the head and the file. -/
structure LengthsMatch (typeText : List UInt8) (c : HttpConn) : Prop where
  announced : (sendStart typeText c).conn.head =
    c.head ++ headText typeText c.linger (formatUnsigned c.fileStat.stSize.toNat)
  counted : (sendStart typeText c).conn.bytesToSend =
    (sendStart typeText c).conn.writeIndex + c.fileStat.stSize

variable {typeText : List UInt8} {c : HttpConn}

/-- The head that is composed fits into `m_write_buf`, behind what is there already. -/
def HeadFits (typeText : List UInt8) (c : HttpConn) : Prop :=
  (c.head ++ headText typeText c.linger (formatInt (toInt c.fileStat.stSize))).length <
    writeBufferSize - 1

instance : Decidable (HeadFits typeText c) := inferInstanceAs (Decidable (_ < _))

/-- A head that fits is composed whole, with the size as an `int`. -/
theorem head_of_headFits (hfits : HeadFits typeText c) :
    (sendStart typeText c).conn.head =
      c.head ++ headText typeText c.linger (formatInt (toInt c.fileStat.stSize)) := by
  have hindex : c.head.length = c.writeIndex := length_slice
  have hroom : c.writeIndex < writeBufferSize := by
    unfold HeadFits at hfits
    rw [List.length_append] at hfits
    omega
  rw [head_sendStart_eq typeText hroom]
  exact foldl_appendFitting hfits

theorem bytesToSend_sendStart (typeText : List UInt8) (c : HttpConn) :
    (sendStart typeText c).conn.bytesToSend =
      toInt ((sendStart typeText c).conn.writeIndex + c.fileStat.stSize) := by
  obtain ⟨buf, index, hconn, -, -⟩ := sendStart_conn typeText c
  rw [hconn]

/-- The lengths of a response match its file exactly when the head and the file together have less
than `2^31` bytes. -/
theorem lengths_match_iff (hsize : 0 ≤ c.fileStat.stSize ∧ c.fileStat.stSize < 2 ^ 63)
    (hfits : HeadFits typeText c) :
    LengthsMatch typeText c ↔
      (c.head ++ headText typeText c.linger (formatUnsigned c.fileStat.stSize.toNat)).length +
        c.fileStat.stSize < 2 ^ 31 := by
  have hhead := head_of_headFits hfits
  have hindex : (sendStart typeText c).conn.head.length = (sendStart typeText c).conn.writeIndex :=
    length_slice
  have htodo := bytesToSend_sendStart typeText c
  constructor
  · rintro ⟨hannounced, hcounted⟩
    rw [← hannounced, hindex]
    rw [htodo, toInt_eq_iff (by omega)] at hcounted
    exact hcounted
  · intro hsmall
    have hint : toInt c.fileStat.stSize = c.fileStat.stSize.toNat := by
      rw [(toInt_eq_iff hsize.1).mpr (by omega)]
      omega
    have hannounced : (sendStart typeText c).conn.head =
        c.head ++ headText typeText c.linger (formatUnsigned c.fileStat.stSize.toNat) := by
      rw [hhead, hint, formatInt_natCast]
    refine ⟨hannounced, ?_⟩
    rw [htodo, toInt_eq_iff (by omega), ← hindex, hannounced]
    exact hsmall

/-- A slot that has found a file of this size. -/
def withFile (size : ℤ) : HttpConn := { new with fileStat := ⟨0o100644, size⟩ }

theorem lengths_match_iff_seven : LengthsMatch (ascii "0") (withFile 7) :=
  (lengths_match_iff (by decide) (by decide +kernel)).mpr (by decide +kernel)

/-- A file of `2^32 + 5` bytes is announced with 5 and sent as if it had 5. -/
theorem long_file_announced_short :
    (sendStart (ascii "0") (withFile (2 ^ 32 + 5))).conn.head =
        headText (ascii "0") false (ascii "5") ∧
      ¬ LengthsMatch (ascii "0") (withFile (2 ^ 32 + 5)) := by
  refine ⟨by decide +kernel, fun h => ?_⟩
  have hcounted := h.counted
  rw [bytesToSend_sendStart] at hcounted
  have hlt := toInt_lt ((sendStart (ascii "0") (withFile (2 ^ 32 + 5))).conn.writeIndex +
    (withFile (2 ^ 32 + 5)).fileStat.stSize)
  have hsize : (withFile (2 ^ 32 + 5)).fileStat.stSize = 2 ^ 32 + 5 := rfl
  omega

end HttpConn
end Webservers
