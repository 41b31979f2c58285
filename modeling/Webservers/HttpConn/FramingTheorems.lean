import Webservers.HttpConn.KeepAliveTheorems
import Webservers.HttpConn.LengthTheorems

/-!
# What the client reads

A client that has sent several requests gets the responses as one stream of bytes, with nothing
between them. It has to find the end of each by its `Content-Length`.

* `readAnswer` is such a client: it looks for the first empty line, and takes as many bytes behind
  it as the header says.
* `readAnswer_fileHead`: the bytes of a file can be anything, also line ends and headers.
* `files_read_back`: what the client of a connection that is kept alive reads are the files that
  it asked for.
-/

namespace Webservers

/-! ## The client -/

/-- The lines up to the first empty one. -/
def headLines (bytes : List UInt8) : List (List UInt8) :=
  (splitLines bytes).takeWhile fun line => line ≠ []

/-- The `Content-Length` among the lines of a head. -/
def announced (lines : List (List UInt8)) : Option ℕ :=
  (lines.find? fun line => strncasecmp line (ascii "Content-Length:") 15 = 0).map
    fun line => (atol (line.drop 15)).toNat

/-- The body of the answer at the front of `bytes`, and what follows it. -/
def readAnswer (bytes : List UInt8) : Option (List UInt8 × List UInt8) := do
  let lines := headLines bytes
  let length ← announced lines
  let body := bytes.drop (joined lines ++ crlf).length
  if length ≤ body.length then some (body.take length, body.drop length) else none

/-- The bodies of `n` answers, with nothing behind them. -/
def readAnswers : ℕ → List UInt8 → Option (List (List UInt8))
  | 0, bytes => if bytes = [] then some [] else none
  | n + 1, bytes => do
    let (body, rest) ← readAnswer bytes
    let bodies ← readAnswers n rest
    return body :: bodies

/-! ## The head of a response -/

/-- The lines of the head of the response with a file of this size. -/
def fileLines (typeText : List UInt8) (size : ℕ) : List (List UInt8) :=
  [ascii "HTTP/1.1 200 OK",
    ascii "Content-Length: " ++ formatUnsigned size,
    ascii "Content-Type: " ++ typeText,
    ascii "Connection:keep-alive"]

theorem noBreak_formatUnsigned (n : ℕ) : NoBreak (formatUnsigned n) := by
  constructor <;> intro hmem
  · have hrange := mem_formatUnsigned hmem
    exact absurd hrange.1 (by decide)
  · have hrange := mem_formatUnsigned hmem
    exact absurd hrange.1 (by decide)

theorem NoBreak.append {x y : List UInt8} (hx : NoBreak x) (hy : NoBreak y) : NoBreak (x ++ y) := by
  constructor <;> rw [List.mem_append, not_or]
  · exact ⟨hx.1, hy.1⟩
  · exact ⟨hx.2, hy.2⟩

/-- What `%d` prints is no line end. -/
theorem noBreak_formatInt (x : ℤ) : NoBreak (formatInt x) := by
  rw [formatInt]
  refine NoBreak.append ?_ (noBreak_formatUnsigned x.natAbs)
  split <;> decide

theorem fileHead_eq {typeText : List UInt8} (htype : typeText.length ≤ 11) {size : ℕ}
    (hsize : size < 2 ^ 31) :
    fileHead typeText size = joined (fileLines typeText size) ++ crlf := by
  have hnumber : formatInt (toInt size) = formatUnsigned size := by
    rw [(toInt_eq_iff (Int.natCast_nonneg size)).mpr (by exact_mod_cast hsize), formatInt_natCast]
  have hpieces : [ascii "HTTP/1.1 200 OK\r\n",
      ascii "Content-Length: " ++ formatInt (toInt size) ++ ascii "\r\n",
      ascii "Content-Type: " ++ typeText ++ ascii "\r\n",
      ascii "Connection:keep-alive\r\n",
      ascii "\r\n"].flatten = joined (fileLines typeText size) ++ crlf := by
    have hstatus : ascii "HTTP/1.1 200 OK\r\n" = ascii "HTTP/1.1 200 OK" ++ crlf := by decide
    have hlinger : ascii "Connection:keep-alive\r\n" = ascii "Connection:keep-alive" ++ crlf := by
      decide
    have hend : ascii "\r\n" = crlf := by decide
    rw [hnumber, hstatus, hlinger, hend]
    simp only [joined, fileLines, List.map_cons, List.map_nil, List.flatten_cons,
      List.flatten_nil, List.append_nil, List.append_assoc]
  have hlength : (joined (fileLines typeText size) ++ crlf).length < writeBufferSize - 1 := by
    have hdigits : (formatUnsigned size).length ≤ 10 :=
      length_formatUnsigned_le (by decide) (by omega)
    have hbytes : (joined (fileLines typeText size) ++ crlf).length =
        15 + 2 + (16 + (formatUnsigned size).length + 2) + (14 + typeText.length + 2) +
          (21 + 2) + 2 := by
      simp only [joined, fileLines, List.map_cons, List.map_nil, List.flatten_cons,
        List.flatten_nil, List.append_nil, List.length_append,
        show crlf.length = 2 from rfl, show (ascii "HTTP/1.1 200 OK").length = 15 from rfl,
        show (ascii "Content-Length: ").length = 16 from rfl,
        show (ascii "Content-Type: ").length = 14 from rfl,
        show (ascii "Connection:keep-alive").length = 21 from rfl]
      omega
    rw [hbytes, writeBufferSize]
    omega
  rw [fileHead, foldl_appendFitting (by rw [List.nil_append, hpieces]; exact hlength),
    List.nil_append, hpieces]

theorem headLines_joined {lines : List (List UInt8)} (hbreak : ∀ line ∈ lines, NoBreak line)
    (hne : ∀ line ∈ lines, line ≠ []) (rest : List UInt8) :
    headLines (joined lines ++ crlf ++ rest) = lines := by
  have hend : splitLines (crlf ++ rest) = [] :: splitLines rest := splitLines_line noBreak_nil rest
  rw [headLines, List.append_assoc, splitLines_joined hbreak, hend,
    List.takeWhile_append_of_pos (by simpa using hne), List.takeWhile_cons_of_neg (by simp),
    List.append_nil]

theorem strncasecmp_prefix {name : List UInt8} (h : 0 ∉ name) (rest : List UInt8) :
    strncasecmp (name ++ rest) name name.length = 0 := by
  induction name with
  | nil => rfl
  | cons b name ih =>
    rw [List.mem_cons, not_or] at h
    rw [List.cons_append, List.length_cons, strncasecmp_cons, if_pos rfl, ih h.2, ite_self]

theorem announced_fileLines (typeText : List UInt8) {size : ℕ} (hsize : size < 2 ^ 31) :
    announced (fileLines typeText size) = some size := by
  have hstatus : strncasecmp (ascii "HTTP/1.1 200 OK") (ascii "Content-Length:") 15 ≠ 0 := by decide
  have hname : strncasecmp (ascii "Content-Length: " ++ formatUnsigned size)
      (ascii "Content-Length:") 15 = 0 :=
    have hnul : 0 ∉ ascii "Content-Length:" := by decide
    strncasecmp_prefix hnul (32 :: formatUnsigned size)
  have hvalue : (ascii "Content-Length: " ++ formatUnsigned size).drop 15 =
      32 :: formatUnsigned size := rfl
  have hlong : (size : ℤ) ≤ longMax := by
    unfold longMax
    omega
  rw [announced, fileLines, List.find?_cons_of_neg (by simpa using hstatus),
    List.find?_cons_of_pos (by simpa using hname), Option.map_some, hvalue,
    atol_formatUnsigned hlong]
  rfl

/-- The answer at the front of a stream, whatever the bytes of the file and of the stream. -/
theorem readAnswer_fileHead {typeText : List UInt8} (hbreak : NoBreak typeText)
    (htype : typeText.length ≤ 11) {file : List UInt8} (hsize : file.length < 2 ^ 31)
    (rest : List UInt8) :
    readAnswer (fileHead typeText file.length ++ file ++ rest) = some (file, rest) := by
  have hlines : ∀ line ∈ fileLines typeText file.length, NoBreak line := by
    have hlength : NoBreak (ascii "Content-Length: ") := by decide
    have htext : NoBreak (ascii "Content-Type: ") := by decide
    simp only [fileLines, List.forall_mem_cons]
    exact ⟨by decide, hlength.append (noBreak_formatUnsigned _), htext.append hbreak, by decide,
      fun _ h => absurd h List.not_mem_nil⟩
  have hne : ∀ line ∈ fileLines typeText file.length, line ≠ [] := by
    simp only [fileLines, List.forall_mem_cons]
    exact ⟨by decide, List.cons_ne_nil _ _, List.cons_ne_nil _ _, by decide,
      fun _ h => absurd h List.not_mem_nil⟩
  rw [fileHead_eq htype hsize, List.append_assoc]
  have hhead := headLines_joined hlines hne (file ++ rest)
  simp only [readAnswer, hhead, announced_fileLines typeText hsize, Option.bind_eq_bind,
    Option.bind_some]
  have hfits : file.length ≤ (file ++ rest).length := by
    rw [List.length_append]
    exact Nat.le_add_right _ _
  rw [List.drop_left, if_pos hfits, List.take_left, List.drop_left]

theorem readAnswers_fileHeads {typeText : List UInt8} (hbreak : NoBreak typeText)
    (htype : typeText.length ≤ 11) {files : List (List UInt8)}
    (hsize : ∀ file ∈ files, file.length < 2 ^ 31) :
    readAnswers files.length (files.flatMap fun file => fileHead typeText file.length ++ file) =
      some files := by
  induction files with
  | nil => rfl
  | cons file files ih =>
    obtain ⟨hfirst, hothers⟩ := List.forall_mem_cons.mp hsize
    rw [List.length_cons, List.flatMap_cons, readAnswers, readAnswer_fileHead hbreak htype hfirst]
    simp only [Option.bind_eq_bind, Option.bind_some, ih hothers]
    rfl

namespace HttpConn

/-- The bytes that `writev` has taken, in order; `none` if some were no part of a buffer. -/
def Serving.sent (s : Serving) : Option (List UInt8) :=
  ((s.responses.flatMap Response.handed).mapM id).map List.flatten

/-- The file that a request names. -/
def fileOf (fs : FileSystem) (q : KeepAliveRequest) : List UInt8 := (fs.file? q.path).getD []

theorem sent_answers (typeText : List UInt8) (fs : FileSystem) (e : HttpConn)
    (requests : List KeepAliveRequest) :
    (serving e (requests.map (answer typeText fs))).sent =
      some ((requests.map (fileOf fs)).flatMap fun file =>
        fileHead typeText file.length ++ file) := by
  have hhanded : (requests.map (answer typeText fs)).flatMap Response.handed =
      (requests.map (fileOf fs)).map fun file =>
        some (fileHead typeText file.length ++ file) := by
    rw [List.flatMap_map, List.map_map, List.map_eq_flatMap]
    rfl
  have hall : ((requests.map (fileOf fs)).map fun file =>
      some (fileHead typeText file.length ++ file)).mapM id =
        some ((requests.map (fileOf fs)).map
          fun file => fileHead typeText file.length ++ file) := by
    rw [List.mapM_map]
    exact List.mapM_pure
  rw [Serving.sent, serving, hhanded, hall, Option.map_some, List.flatMap]

/-- A connection that is kept alive, with any number of requests for files that can be sent, each
of them cut in any way but ending where a segment ends: the client that reads the answers by their
`Content-Length` gets the bytes of these files, in order, and nothing else. -/
theorem files_read_back (p : ℤ) (fs : FileSystem) (d : HttpConn) (hsock : d.sockfd ≠ -1)
    (requests : List KeepAliveRequest)
    (hserved : ∀ q ∈ requests, Served (formatInt (toInt p)) fs q)
    (hsize : ∀ q ∈ requests, q.bytes.length < readBufferSize)
    (segs : List (List UInt8)) (hne : ∀ x ∈ segs, x ≠ [])
    (hmeet : EndsMeet segs (requests.map KeepAliveRequest.bytes)) :
    ∃ s bytes, Machine.exec (cycle (formatInt (toInt p)) fs) (serving d []) segs = some s ∧
      s.sent = some bytes ∧
      readAnswers requests.length bytes = some (requests.map (fileOf fs)) := by
  obtain ⟨groups, rfl, hgroups⟩ := hmeet
  obtain ⟨e, hexec⟩ := exec_requests hserved hsize hsock [] hne hgroups
  rw [List.nil_append] at hexec
  have hfiles : ∀ file ∈ requests.map (fileOf fs), file.length < 2 ^ 31 := by
    intro file hmem
    obtain ⟨q, hq, rfl⟩ := List.mem_map.mp hmem
    obtain ⟨file, hfile, hsmall⟩ := hserved q hq
    rw [fileOf, hfile, Option.getD_some]
    omega
  have hread := readAnswers_fileHeads (noBreak_formatInt (toInt p)) (length_formatInt_le p) hfiles
  rw [List.length_map] at hread
  exact ⟨_, _, hexec, sent_answers _ fs e requests, hread⟩

/-- Two requests, the first one cut. -/
theorem files_read_back_two :
    ∃ s bytes, Machine.exec (cycle (formatInt (toInt 0)) twoByteFiles) (serving new [])
        [ascii "GET /a HT", ascii "TP/1.1\r\nConnection: keep-alive\r\n\r\n",
          ascii "GET /b HTTP/1.1\r\nConnection: keep-alive\r\n\r\n"] = some s ∧
      s.sent = some bytes ∧
      readAnswers 2 bytes = some [ascii "hi", ascii "hi"] :=
  files_read_back 0 twoByteFiles new (by decide) twoRequests twoRequests_served
    (by decide +kernel) _ (by decide +kernel)
    ⟨[[ascii "GET /a HT", ascii "TP/1.1\r\nConnection: keep-alive\r\n\r\n"],
      [ascii "GET /b HTTP/1.1\r\nConnection: keep-alive\r\n\r\n"]], rfl, by decide +kernel⟩

end HttpConn
end Webservers
