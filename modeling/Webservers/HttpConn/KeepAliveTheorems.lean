import Webservers.HttpConn.CompleteTheorems
import Webservers.HttpConn.AnswerTheorems
import Webservers.HttpConn.AppendTheorems

/-!
# A connection that is kept alive

A client sends one request after the other without waiting, and the bytes arrive cut anywhere. The
cycle of `read()`, `process()` and `write()` answers each request that it completes, and `init()`
then clears `m_read_buf`: what a segment holds beyond the request that it completes is dropped.

* `KeepAliveRequest` is a request without a body that asks for the connection to be kept.
* `cycle` makes the segment that one `read()` obtains a step. Its state records which bytes each
  response answers.
* `keep_alive_iff` gives the exact condition on the segments under which every request is answered:
  they can be put together to the requests.
-/

namespace Webservers

/-! ## Requests -/

/-- What the parser keeps of a head with these lines. -/
def headOf (line : List UInt8) (headers : List (List UInt8)) : Req :=
  headers.foldl (fun r header => r.header (cText header))
    { Req.init with target := Req.requestLine (cText line) }

/-- A complete `GET` request without a body that carries `Connection: keep-alive`. -/
structure KeepAliveRequest where
  line : List UInt8
  headers : List (List UInt8)
  noBreak : ∀ text ∈ line :: headers, NoBreak text
  accepted : Req.requestLine (cText line) ≠ none
  nonEmpty : ∀ header ∈ headers, cText header ≠ []
  keepAlive : (headOf line headers).linger = true
  noBody : (headOf line headers).contentLength = 0

namespace KeepAliveRequest

variable (q : KeepAliveRequest)

def bytes : List UInt8 := joined (q.line :: q.headers) ++ crlf

/-- The name that `do_request` gives to `stat` and `open`. -/
def path : List UInt8 :=
  docRoot ++ ((headOf q.line q.headers).url none).take (filenameLen - docRoot.length - 1)

end KeepAliveRequest

/-! ## The head of a request -/

/-- A complete line is interpreted, and the head goes on behind it. -/
theorem headRun_line {line : List UInt8} (h : NoBreak line) (pos : ℕ) (r : Req)
    (rest : List UInt8) :
    headRun pos r (line ++ crlf ++ rest) =
      match r.next pos (cText line) with
      | .bad => .bad
      | .go r' => headRun (pos + line.length + 2) r' rest
      | .finished =>
        if r.contentLength ≠ 0 then .body (pos + line.length + 2) r rest else .complete r := by
  have hscan : scanLine (line ++ crlf) = (.lineOk, line.length) := by
    have hnil := scanLine_line h []
    rw [List.append_nil] at hnil
    exact hnil
  have hdrop : (line ++ crlf).drop (line.length + 2) = [] :=
    List.drop_of_length_le (by rw [List.length_append]; exact Nat.le_refl _)
  have htext : lineText (line ++ crlf) = cText line := by
    rw [lineText_eq, hscan, List.take_left]
  rw [headRun_append_line (by rw [hscan]), hscan, htext, hdrop]
  rfl

theorem headRun_headers {headers : List (List UInt8)} (hbreak : ∀ header ∈ headers, NoBreak header)
    (hne : ∀ header ∈ headers, cText header ≠ []) {r : Req} (htarget : r.target ≠ none)
    (hzero : (headers.foldl (fun r header => r.header (cText header)) r).contentLength = 0)
    (pos : ℕ) :
    headRun pos r (joined headers ++ crlf) =
      .complete (headers.foldl (fun r header => r.header (cText header)) r) := by
  obtain ⟨target, hsome⟩ := Option.ne_none_iff_exists'.mp htarget
  induction headers generalizing r pos with
  | nil =>
    have hfinished : r.next pos (cText []) = .finished := by
      unfold Req.next
      rw [hsome]
      rfl
    have hrun := headRun_line noBreak_nil pos r []
    rw [hfinished] at hrun
    exact hrun.trans (if_neg (not_not.mpr hzero))
  | cons header headers ih =>
    obtain ⟨hbreak₁, hbreak⟩ := List.forall_mem_cons.mp hbreak
    obtain ⟨hne₁, hne⟩ := List.forall_mem_cons.mp hne
    have hgo : r.next pos (cText header) = .go (r.header (cText header)) := by
      unfold Req.next
      rw [hsome]
      exact if_neg hne₁
    have hkept : (r.header (cText header)).target = some target := by
      rw [Req.header_target, hsome]
    rw [joined_cons, List.append_assoc, headRun_line hbreak₁, hgo]
    exact ih hbreak hne (by rw [hkept]; exact Option.some_ne_none _) hzero _ hkept

namespace KeepAliveRequest

variable (q : KeepAliveRequest)

/-- The parser reads a request to its end. -/
theorem headRun_bytes :
    headRun 0 Req.init q.bytes = .complete (headOf q.line q.headers) := by
  obtain ⟨hbreak, hbreaks⟩ := List.forall_mem_cons.mp q.noBreak
  obtain ⟨⟨i, url⟩, htarget⟩ := Option.ne_none_iff_exists'.mp q.accepted
  have hgo : Req.init.next 0 (cText q.line) = .go { Req.init with target := some (i, url) } := by
    simp only [Req.next, Req.init, htarget, Nat.zero_add]
  have hzero := q.noBody
  unfold headOf at hzero ⊢
  rw [htarget] at hzero ⊢
  rw [bytes, joined_cons, List.append_assoc, headRun_line hbreak, hgo]
  exact headRun_headers hbreaks q.nonEmpty (Option.some_ne_none _) hzero _

theorem splitLines_bytes : splitLines q.bytes = q.line :: (q.headers ++ [[]]) := by
  have hend : splitLines crlf = [[]] := by
    have hline := splitLines_line noBreak_nil []
    have hnone : splitLines [] = [] := by
      rw [splitLines, dif_neg (by decide)]
    rw [hnone] at hline
    exact hline
  rw [bytes, splitLines_joined q.noBreak, hend]
  rfl

variable {q}

/-- However the bytes of a request are read as the lines of a head and a line that ends it, nothing
is left behind them. -/
theorem rest_eq_nil {line last rest : List UInt8} {headers : List (List UInt8)}
    (hbytes : q.bytes = joined (line :: headers) ++ (last ++ crlf ++ rest))
    (hlines : ∀ text ∈ line :: headers, NoBreak text) (hlast : NoBreak last)
    (hempty : cText last = []) (hheaders : ∀ header ∈ headers, cText header ≠ []) :
    rest = [] := by
  have hsplit : q.line :: (q.headers ++ [[]]) = line :: (headers ++ last :: splitLines rest) := by
    rw [← q.splitLines_bytes, hbytes, splitLines_joined hlines, splitLines_line hlast]
    rfl
  obtain ⟨hline, htail⟩ := List.cons.inj hsplit
  -- the lines up to the first empty string
  have htake : ∀ (front back : List (List UInt8)) (text : List UInt8),
      (∀ header ∈ front, cText header ≠ []) → cText text = [] →
        (front ++ text :: back).takeWhile (fun header => cText header ≠ []) = front := by
    intro front back text hfront htext
    rw [List.takeWhile_append_of_pos (by simpa using hfront), List.takeWhile_cons_of_neg
      (by simpa using htext), List.append_nil]
  have hfront : q.headers = headers := by
    have heq := congrArg (List.takeWhile fun header => decide (cText header ≠ [])) htail
    rw [htake q.headers [] [] q.nonEmpty rfl, htake headers _ last hheaders hempty] at heq
    exact heq
  rw [hfront, List.append_cancel_left_eq] at htail
  obtain ⟨hnil, -⟩ := List.cons.inj htail
  rw [bytes, hline, hfront, ← hnil, List.append_cancel_left_eq] at hbytes
  have hlen := congrArg List.length hbytes
  simp only [List.length_append, List.length_nil] at hlen
  exact List.length_eq_zero_iff.mp (by omega)

end KeepAliveRequest

/-! ## Responses -/

/-- The bytes of a file that can be sent: `do_request` answers `FILE_REQUEST` for it and maps
them. -/
def FileSystem.file? (fs : FileSystem) (path : List UInt8) : Option (List UInt8) :=
  (fs.stat path).bind fun st =>
    if st.stMode &&& sIFMT = sIFDIR then none
    else if st.stSize = 0 then some []
    else
      match fs.mmap path st.stSize with
      | .mapped bytes => if bytes.length = st.stSize then some bytes else none
      | _ => none

/-- The head of the response with a file of this size, on a connection that is kept. -/
def fileHead (typeText : List UInt8) (size : ℕ) : List UInt8 :=
  [ascii "HTTP/1.1 200 OK\r\n",
    ascii "Content-Length: " ++ formatInt (toInt size) ++ ascii "\r\n",
    ascii "Content-Type: " ++ typeText ++ ascii "\r\n",
    ascii "Connection:keep-alive\r\n",
    ascii "\r\n"].foldl appendFitting []

namespace HttpConn

/-- A response, with the bytes that the parser has read as the request. -/
structure Response where
  request : List UInt8
  code : HttpCode
  handed : List (Option (List UInt8))
deriving Repr, DecidableEq

/-- A connection and what it has done so far. -/
structure Serving where
  conn : HttpConn
  /-- what has been received since the last `init()` -/
  received : List UInt8
  responses : List Response

/-- The segment `x` arrives: `read()`, `process()`, and `write()` if there is a response, all of
which `writev` takes. Without a step the connection is closed. -/
def cycle (typeText : List UInt8) (fs : FileSystem) (s : Serving) (x : List UInt8) :
    Option Serving :=
  match s.conn.read [.data x] with
  | (false, _) => none
  | (true, c) =>
    match c.process typeText fs with
    | ((_, none), c) => some { s with conn := c, received := s.received ++ x }
    | ((_, some code), c) =>
      if c.sockfd = -1 then none
      else
        match c.write [.wrote c.offeredLen] with
        | (⟨true, .epollin, handed⟩, c') =>
          let request := (s.received ++ x).take c.checkedIndex
          some ⟨c', [], s.responses ++ [⟨request, code, handed⟩]⟩
        | _ => none

/-- A connection on which `init()` has just been called. -/
def serving (d : HttpConn) (responses : List Response) : Serving := ⟨d.init, [], responses⟩

/-- The response that a request should get: the file it names, in one piece. -/
def answer (typeText : List UInt8) (fs : FileSystem) (q : KeepAliveRequest) : Response :=
  let file := (fs.file? q.path).getD []
  ⟨q.bytes, .fileRequest, [some (fileHead typeText file.length ++ file)]⟩

/-- The verdict on the request is `FILE_REQUEST`, and `writev` can take the response at once. -/
def Served (typeText : List UInt8) (fs : FileSystem) (q : KeepAliveRequest) : Prop :=
  ∃ file, fs.file? q.path = some file ∧
    (fileHead typeText file.length).length + file.length < 2 ^ 31

/-- The segments, put together in groups, are the requests: every request ends where a segment
ends. -/
def EndsMeet (segs requests : List (List UInt8)) : Prop :=
  ∃ groups : List (List (List UInt8)), groups.flatten = segs ∧
    groups.map List.flatten = requests

/-! ## Composing the head -/

section Head

variable {c : HttpConn}

/-- What `process_write` composes for a file, behind what is in `m_write_buf` already. -/
theorem head_sendStart_eq (typeText : List UInt8) (hroom : c.writeIndex < writeBufferSize) :
    (sendStart typeText c).conn.head =
      [ascii "HTTP/1.1 200 OK\r\n",
        ascii "Content-Length: " ++ formatInt (toInt c.fileStat.stSize) ++ ascii "\r\n",
        ascii "Content-Type: " ++ typeText ++ ascii "\r\n",
        ascii "Connection:" ++ (if c.linger then ascii "keep-alive" else ascii "close") ++
          ascii "\r\n",
        ascii "\r\n"].foldl appendFitting c.head := by
  have hstatus : statusLine 200 ok200Title = ascii "HTTP/1.1 200 OK\r\n" := by decide
  show (c.offerFile typeText).head = _
  rw [head_offerFile typeText hroom, pieces, headPieces, headerPieces, hstatus]

theorem head_sendStart (typeText : List UInt8) (hindex : c.writeIndex = 0)
    (hlinger : c.linger = true) {size : ℕ} (hsize : c.fileStat.stSize = size) :
    (sendStart typeText c).conn.head = fileHead typeText size := by
  have hkeep : ascii "Connection:" ++ ascii "keep-alive" ++ ascii "\r\n" =
      ascii "Connection:keep-alive\r\n" := by decide
  have hempty : c.head = [] := by
    rw [head, hindex]
    rfl
  rw [head_sendStart_eq typeText (by rw [hindex]; decide), hempty, hsize, hlinger, if_pos rfl,
    hkeep, fileHead]

end Head

/-! ## One response -/

section Answer

variable {typeText : List UInt8} {fs : FileSystem} {c : HttpConn} {file : List UInt8}

/-- `do_request` for a file that can be sent. -/
theorem doRequest_file {url : List UInt8}
    (hurl : (match c.url with | some u => c.text u | none => []) = url)
    (hfile : fs.file? (docRoot ++ url.take (filenameLen - docRoot.length - 1)) = some file) :
    ∃ path st address, c.doRequest fs =
        (.fileRequest, { c with realFile := path, fileStat := st, fileAddress := address }) ∧
      st.stSize = file.length ∧ (file ≠ [] → address = .mapped file) := by
  obtain ⟨st, hst, hbytes⟩ := Option.bind_eq_some_iff.mp hfile
  split at hbytes
  · cases hbytes
  · rename_i hdir
    refine ⟨docRoot ++ url.take (filenameLen - docRoot.length - 1), st,
      fs.mmap (docRoot ++ url.take (filenameLen - docRoot.length - 1)) st.stSize, ?_, ?_⟩
    · subst hurl
      rw [doRequest_eq, show fs.stat c.pathOf = some st from hst]
      exact if_neg hdir
    · split at hbytes
      · rename_i hzero
        cases hbytes
        exact ⟨hzero, fun hne => absurd rfl hne⟩
      · split at hbytes
        · rename_i bytes hmapped
          split at hbytes <;> cases hbytes
          rename_i hlen
          exact ⟨hlen.symm, fun _ => hmapped⟩
        · cases hbytes

/-- A response that `writev` takes at once. -/
theorem write_whole (h : FileReady typeText c file) (hlinger : c.linger = true) :
    ∃ e : HttpConn, (sendStart typeText c).conn.write
        [.wrote (sendStart typeText c).conn.offeredLen] =
          (⟨true, .epollin, [some ((sendStart typeText c).conn.head ++ file)]⟩, e.init) ∧
      e.sockfd = c.sockfd := by
  have htrack := onTrack_start h
  obtain ⟨buf, index, hconn, hpos, -⟩ := sendStart_conn typeText c
  have hlinger : (sendStart typeText c).conn.linger = true := by rw [hconn]; exact hlinger
  have hsock : (sendStart typeText c).conn.sockfd = c.sockfd := by rw [hconn]
  have hhead : 0 < (sendStart typeText c).conn.head.length := by
    rw [← htrack.writeIndex, hconn]
    exact hpos
  generalize sendStart typeText c = s at htrack hlinger hsock hhead
  have hlen : s.conn.offeredLen = s.conn.head.length + file.length := by
    obtain ⟨h0, h1⟩ := htrack.inHead hhead
    unfold offeredLen
    rw [htrack.ivCount, h0, h1]
    rfl
  have hdone : (s.conn.advance s.conn.offeredLen).bytesToSend ≤ 0 := by
    have hzero := (advance_counters htrack (n := s.conn.offeredLen) (by omega)).2
    rw [bytesToSend_advance, hzero]
    omega
  have hlinger' : (s.conn.advance s.conn.offeredLen).linger = true := by
    rw [(advance_kept _ _).1]
    exact hlinger
  have hmore : s.conn.bytesToSend ≠ 0 := by
    rw [htrack.todo]
    omega
  refine ⟨(s.conn.advance s.conn.offeredLen).unmap, ?_, ?_⟩
  · rw [write, if_neg hmore, writeLoop]
    simp only [List.nil_append]
    rw [if_pos hdone, if_pos hlinger', offered_onTrack htrack, List.drop_zero, Option.map_some,
      List.take_of_length_le (by rw [List.length_append]; omega)]
  · rw [(unmap_kept _).2, (advance_kept _ _).2, hsock]

end Answer

/-! ## One segment -/

section Segment

variable {typeText : List UInt8} {fs : FileSystem} {d : HttpConn} {s : Serving} {x : List UInt8}

/-- Part of a request has been received since `init()`. -/
structure Partway (d : HttpConn) (s : Serving) : Prop where
  conn : ∃ r, s.conn = { d.init with toReadState := r } ∧ ReadState.Received r s.received

theorem partway_serving (d : HttpConn) (responses : List Response) :
    Partway d (serving d responses) := ⟨.init, rfl, ReadState.received_init⟩

theorem read_segment {r : ReadState} (hx : x ≠ [])
    (hfit : r.readIndex + x.length < readBufferSize) :
    ({ d with toReadState := r } : HttpConn).read [.data x] =
      (true, { d with toReadState := r.deliver x }) := by
  have hread : r.read ([x].map .data) = (true, r.deliver x) := by
    rw [ReadState.read_chunks (by simpa using hx) (by omega), List.flatten_singleton,
      decide_eq_true hfit, List.take_of_length_le (by omega)]
  unfold HttpConn.read
  rw [List.map_singleton] at hread
  rw [hread]

/-- A segment that completes no request. -/
theorem Partway.waits (h : Partway d s) (hx : x ≠ [])
    (hfit : (s.received ++ x).length < readBufferSize) {pos : ℕ} {r : Req} {l : List UInt8}
    (hrun : headRun 0 Req.init (s.received ++ x) = .waiting pos r l) :
    ∃ t, cycle typeText fs s x = some t ∧ Partway d t ∧ t.received = s.received ++ x ∧
      t.responses = s.responses := by
  obtain ⟨c, hconn, hreceived⟩ := h.conn
  have hroom : c.readIndex + x.length < readBufferSize := by
    rw [hreceived.readIndex, ← List.length_append]
    exact hfit
  have hsize := Nat.le_of_lt hroom
  have hcall : ∃ c', (c.deliver x).processRead = (.noRequest, c') := by
    rcases hreceived.call hsize with hresult | ⟨_, _, _, _, _, _, -, hbody⟩
    · rw [hrun] at hresult
      obtain ⟨c', heq, -⟩ := hresult
      exact ⟨c', heq⟩
    · rw [hrun] at hbody
      cases hbody
  obtain ⟨c', hcall⟩ := hcall
  have hnext : c.receive x = some c' := by
    rw [ReadState.receive, if_pos hsize, hcall]
  refine ⟨⟨{ d.init with toReadState := c' }, s.received ++ x, s.responses⟩, ?_,
    ⟨c', rfl, hreceived.receive hnext⟩, rfl, rfl⟩
  unfold cycle
  rw [hconn, read_segment hx hroom]
  simp only [process, hcall]

/-- When the head of a request has been read, all of the request has been. -/
theorem processRead_complete {q : KeepAliveRequest} {c : ReadState} {received y : List UInt8}
    (h : ReadState.Received c received) (hfit : c.readIndex + x.length ≤ readBufferSize)
    (hbytes : received ++ x ++ y = q.bytes)
    (hrun : headRun 0 Req.init (received ++ x) = .complete (headOf q.line q.headers)) :
    y = [] ∧ ∃ c', (c.deliver x).processRead = (.doRequest, c') ∧
      ReadState.outcome (.doRequest, c') = (headOf q.line q.headers).outcome none ∧
      c'.checkedIndex = q.bytes.length := by
  rcases h.call hfit with hresult | ⟨_, _, _, _, _, _, -, hbody⟩
  · rw [hrun] at hresult
    obtain ⟨c', hcall, -, hout⟩ := hresult
    have hzero : c'.contentLength = 0 := by
      simp only [ReadState.outcome, Req.outcome, Outcome.doRequest.injEq] at hout
      rw [hout.2.2, q.noBody]
    obtain ⟨line, headers, last, rest, hsplit, hchecked, hlines, hlast, hempty, -, hheaders⟩ :=
      h.lines hfit hcall hzero
    have hwhole : q.bytes = joined (line :: headers) ++ (last ++ crlf ++ (rest ++ y)) := by
      rw [← hbytes, hsplit]
      simp only [List.append_assoc]
    have hnil := KeepAliveRequest.rest_eq_nil hwhole hlines hlast hempty hheaders
    refine ⟨(List.append_eq_nil_iff.mp hnil).2, c', hcall, hout, ?_⟩
    rw [hchecked, hwhole, hnil, List.append_nil, List.append_assoc]
  · rw [hrun] at hbody
    cases hbody

/-- A part of a request that is not the whole does not complete it. -/
theorem headRun_part {q : KeepAliveRequest} {p y : List UInt8} (h : p ++ y = q.bytes)
    (hy : y ≠ []) (hfit : p.length ≤ readBufferSize) :
    ∃ pos r l, headRun 0 Req.init p = .waiting pos r l := by
  have hwhole := q.headRun_bytes
  rw [← h, headRun_append] at hwhole
  cases hp : headRun 0 Req.init p with
  | waiting pos r l => exact ⟨pos, r, l, rfl⟩
  | bad =>
    rw [hp] at hwhole
    cases hwhole
  | body pos r l =>
    rw [hp] at hwhole
    cases hwhole
  | complete r =>
    rw [hp] at hwhole
    have hroom : ReadState.init.readIndex + p.length ≤ readBufferSize := by
      show 0 + p.length ≤ readBufferSize
      omega
    have hall := (processRead_complete ReadState.received_init hroom h (hp.trans hwhole)).1
    exact absurd hall hy

/-- `process()` on a slot that holds a complete request for a file that can be sent. -/
theorem process_request {q : KeepAliveRequest} {c c' : ReadState} {file : List UInt8}
    (hcall : c.processRead = (.doRequest, c'))
    (hout : ReadState.outcome (.doRequest, c') = (headOf q.line q.headers).outcome none)
    (hfile : fs.file? q.path = some file)
    (hsmall : (fileHead typeText file.length).length + file.length < 2 ^ 31) :
    ∃ answering : HttpConn,
      ({ d.init with toReadState := c } : HttpConn).process typeText fs =
          ((.epollout, some .fileRequest), (sendStart typeText answering).conn) ∧
        FileReady typeText answering file ∧ answering.linger = true ∧
        answering.toReadState = c' ∧ answering.sockfd = d.sockfd ∧
        (sendStart typeText answering).conn.head = fileHead typeText file.length := by
  simp only [ReadState.outcome, Req.outcome, Outcome.doRequest.injEq] at hout
  obtain ⟨path, st, address, hrequest, hst, haddress⟩ :=
    doRequest_file (c := { d.init with toReadState := c' }) hout.1 hfile
  generalize hanswering : ({ d.init with
    toReadState := c', realFile := path, fileStat := st, fileAddress := address } : HttpConn) =
      answering at hrequest
  have hkept : answering.toReadState = c' ∧ answering.sockfd = d.sockfd ∧
      answering.writeIndex = 0 ∧ answering.bytesHaveSend = 0 ∧ answering.fileStat = st ∧
      answering.fileAddress = address := by
    subst hanswering
    exact ⟨rfl, rfl, rfl, rfl, rfl, rfl⟩
  obtain ⟨hread, hsocket, hindex, hunsent, hstat, hmapped⟩ := hkept
  have hlinger : answering.linger = true := by
    rw [hread, hout.2.1, q.keepAlive]
  have hsize : answering.fileStat.stSize = file.length := by rw [hstat, hst]
  have hhead := head_sendStart typeText hindex hlinger hsize
  have hready : FileReady typeText answering file := by
    refine ⟨?_, hsize, hunsent, by rw [hindex]; exact Nat.zero_le _, ?_⟩
    · rw [hmapped]
      exact haddress
    · rw [← hhead, head, length_slice] at hsmall
      exact hsmall
  refine ⟨answering, ?_, hready, hlinger, hread, hsocket, hhead⟩
  unfold process
  simp only [hcall]
  rw [hrequest]
  rfl

/-- A segment that ends where a request ends. -/
theorem Partway.answers {q : KeepAliveRequest} (h : Partway d s) (hsock : d.sockfd ≠ -1)
    (hx : x ≠ []) (hfit : (s.received ++ x).length < readBufferSize)
    (hbytes : s.received ++ x = q.bytes) (hserved : Served typeText fs q) :
    ∃ e : HttpConn, cycle typeText fs s x =
        some (serving e (s.responses ++ [answer typeText fs q])) ∧ e.sockfd = d.sockfd := by
  obtain ⟨c, hconn, hreceived⟩ := h.conn
  obtain ⟨file, hfile, hsmall⟩ := hserved
  have hroom : c.readIndex + x.length < readBufferSize := by
    rw [hreceived.readIndex, ← List.length_append]
    exact hfit
  obtain ⟨-, c', hcall, hout, hchecked⟩ := processRead_complete (y := []) hreceived
    (Nat.le_of_lt hroom) (by rw [List.append_nil]; exact hbytes)
    (by rw [hbytes]; exact q.headRun_bytes)
  obtain ⟨answering, hprocess, hready, hlinger, hread, hsocket, hhead⟩ :=
    process_request (d := d) hcall hout hfile hsmall
  obtain ⟨e, hwrite, hkept⟩ := write_whole hready hlinger
  obtain ⟨buf, index, hstart, -, -⟩ := sendStart_conn typeText answering
  have hopen : (sendStart typeText answering).conn.sockfd ≠ -1 := by
    rw [hstart]
    show answering.sockfd ≠ -1
    rw [hsocket]
    exact hsock
  have hindex : (sendStart typeText answering).conn.checkedIndex = q.bytes.length := by
    rw [hstart]
    show answering.toReadState.checkedIndex = q.bytes.length
    rw [hread, hchecked]
  refine ⟨e, ?_, hkept.trans hsocket⟩
  unfold cycle
  rw [hconn, read_segment hx hroom]
  simp only [hprocess]
  rw [if_neg hopen, hwrite]
  simp only
  rw [hindex, hbytes, List.take_length, hhead, answer, hfile]
  rfl

/-- What a segment does to the record, whatever it holds. -/
theorem cycle_cases {t : Serving} (h : cycle typeText fs s x = some t) :
    (t.received = s.received ++ x ∧ t.responses = s.responses) ∨
      t.received = [] ∧ ∃ n code handed,
        t.responses = s.responses ++ [⟨(s.received ++ x).take n, code, handed⟩] := by
  unfold cycle at h
  split at h
  · cases h
  · split at h
    · have heq := (Option.some.inj h).symm
      subst heq
      exact Or.inl ⟨rfl, rfl⟩
    · split at h
      · cases h
      · split at h
        · have heq := (Option.some.inj h).symm
          subst heq
          exact Or.inr ⟨rfl, _, _, _, rfl⟩
        · cases h

end Segment

/-! ## Segments that end where requests end -/

section Runs

variable {typeText : List UInt8} {fs : FileSystem} {d : HttpConn}

/-- The segments of one request. -/
theorem exec_request {q : KeepAliveRequest} (hserved : Served typeText fs q)
    (hsize : q.bytes.length < readBufferSize) (hsock : d.sockfd ≠ -1)
    {group : List (List UInt8)} {s : Serving} (h : Partway d s)
    (hne : ∀ x ∈ group, x ≠ []) (hmore : group ≠ [])
    (hbytes : s.received ++ group.flatten = q.bytes) :
    ∃ e : HttpConn, Machine.exec (cycle typeText fs) s group =
        some (serving e (s.responses ++ [answer typeText fs q])) ∧ e.sockfd = d.sockfd := by
  induction group generalizing s with
  | nil => exact absurd rfl hmore
  | cons x group ih =>
    obtain ⟨hx, hne⟩ := List.forall_mem_cons.mp hne
    rw [List.flatten_cons, ← List.append_assoc] at hbytes
    have hfit : (s.received ++ x).length < readBufferSize := by
      rw [← hbytes, List.length_append] at hsize
      omega
    by_cases hlast : group = []
    · subst hlast
      rw [List.flatten_nil, List.append_nil] at hbytes
      obtain ⟨e, hcycle, hsock'⟩ := h.answers hsock hx hfit hbytes hserved
      exact ⟨e, Machine.exec_cons_eq_some.mpr ⟨_, hcycle, rfl⟩, hsock'⟩
    · have hy : group.flatten ≠ [] := by
        obtain ⟨y, ys, rfl⟩ := List.exists_cons_of_ne_nil hlast
        rw [List.flatten_cons]
        exact List.append_ne_nil_of_left_ne_nil (hne y List.mem_cons_self) _
      obtain ⟨pos, r, l, hrun⟩ := headRun_part hbytes hy (Nat.le_of_lt hfit)
      obtain ⟨t, hcycle, ht, hreceived, hresponses⟩ := h.waits hx hfit hrun
      rw [← hreceived] at hbytes
      obtain ⟨e, hexec, hsock'⟩ := ih ht hne hlast hbytes
      rw [hresponses] at hexec
      exact ⟨e, Machine.exec_cons_eq_some.mpr ⟨t, hcycle, hexec⟩, hsock'⟩

theorem exec_requests {requests : List KeepAliveRequest}
    (hserved : ∀ q ∈ requests, Served typeText fs q)
    (hsize : ∀ q ∈ requests, q.bytes.length < readBufferSize) (hsock : d.sockfd ≠ -1)
    (responses : List Response) {groups : List (List (List UInt8))}
    (hne : ∀ x ∈ groups.flatten, x ≠ [])
    (hbytes : groups.map List.flatten = requests.map KeepAliveRequest.bytes) :
    ∃ e, Machine.exec (cycle typeText fs) (serving d responses) groups.flatten =
      some (serving e (responses ++ requests.map (answer typeText fs))) := by
  induction requests generalizing d responses groups with
  | nil =>
    have hnil : groups = [] := List.map_eq_nil_iff.mp hbytes
    subst hnil
    exact ⟨d, by rw [List.map_nil, List.append_nil]; rfl⟩
  | cons q requests ih =>
    obtain ⟨hserved₁, hserved⟩ := List.forall_mem_cons.mp hserved
    obtain ⟨hsize₁, hsize⟩ := List.forall_mem_cons.mp hsize
    obtain ⟨group, groups, rfl, hgroup, hgroups⟩ := List.map_eq_cons_iff.mp hbytes
    rw [List.flatten_cons] at hne ⊢
    have hmore : group ≠ [] := by
      intro hnil
      rw [hnil] at hgroup
      have hlen := congrArg List.length hgroup
      unfold KeepAliveRequest.bytes at hlen
      rw [List.length_append] at hlen
      exact absurd hlen (by show (0 : ℕ) ≠ _ + 2; omega)
    obtain ⟨e, hexec, hsock'⟩ := exec_request hserved₁ hsize₁ hsock
      (partway_serving d responses) (fun x hx => hne x (List.mem_append_left _ hx)) hmore hgroup
    obtain ⟨e', hexec'⟩ := ih hserved hsize (hsock' ▸ hsock)
      (responses ++ [answer typeText fs q]) (fun x hx => hne x (List.mem_append_right _ hx)) hgroups
    refine ⟨e', Machine.exec_append_eq_some.mpr ⟨_, hexec, ?_⟩⟩
    rw [List.append_assoc] at hexec'
    exact hexec'

/-! ## Bytes that are dropped -/

/-- Every byte of the segments is in the record, cut as the segments are; or some are missing. -/
def Recorded (segs : List (List UInt8)) (s : Serving) : Prop :=
  (∃ (groups : List (List (List UInt8))) (last : List (List UInt8)),
      groups.flatten ++ last = segs ∧ groups.map List.flatten = s.responses.map Response.request ∧
        last.flatten = s.received) ∨
    (s.responses.map Response.request).flatten.length + s.received.length < segs.flatten.length

theorem recorded_cycle {segs : List (List UInt8)} {s t : Serving} {x : List UInt8}
    (h : Recorded segs s) (hstep : cycle typeText fs s x = some t) : Recorded (segs ++ [x]) t := by
  have hlen : (segs ++ [x]).flatten.length = segs.flatten.length + x.length := by
    rw [List.flatten_append, List.length_append, List.flatten_singleton]
  rcases cycle_cases hstep with ⟨hreceived, hresponses⟩ | ⟨hreceived, n, code, handed, hresponses⟩
  · rcases h with ⟨groups, last, hsegs, hgroups, hlast⟩ | hlost
    · left
      refine ⟨groups, last ++ [x], ?_, ?_, ?_⟩
      · rw [← List.append_assoc, hsegs]
      · rw [hgroups, hresponses]
      · rw [List.flatten_append, hlast, List.flatten_singleton, hreceived]
    · right
      rw [hresponses, hreceived, hlen, List.length_append]
      omega
  · have htaken : (t.responses.map Response.request).flatten.length + t.received.length =
        (s.responses.map Response.request).flatten.length + min n (s.received ++ x).length := by
      rw [hresponses, hreceived, List.map_append, List.flatten_append, List.length_append,
        List.map_singleton, List.flatten_singleton, List.length_take]
      rfl
    rcases h with ⟨groups, last, hsegs, hgroups, hlast⟩ | hlost
    · by_cases hall : (s.received ++ x).length ≤ n
      · -- the request ends with the segment
        left
        refine ⟨groups ++ [last ++ [x]], [], ?_, ?_, ?_⟩
        · rw [List.flatten_append, List.flatten_singleton, List.append_nil, ← List.append_assoc,
            hsegs]
        · rw [List.map_append, List.map_singleton, List.flatten_append, hlast,
            List.flatten_singleton, hgroups, hresponses, List.map_append, List.map_singleton,
            List.take_of_length_le hall]
        · rw [hreceived]
          rfl
      · right
        have htotal : segs.flatten.length =
            (s.responses.map Response.request).flatten.length + s.received.length := by
          rw [← hsegs, List.flatten_append, List.length_append, ← hgroups, ← hlast,
            List.flatten_flatten]
        rw [htaken, hlen, htotal]
        rw [List.length_append] at hall ⊢
        omega
    · right
      rw [htaken, hlen]
      rw [List.length_append]
      omega

theorem recorded_exec {segs : List (List UInt8)} {t : Serving}
    (h : Machine.exec (cycle typeText fs) (serving d []) segs = some t) : Recorded segs t := by
  have hrun : ∀ (segs before : List (List UInt8)) (s : Serving), Recorded before s →
      Machine.exec (cycle typeText fs) s segs = some t → Recorded (before ++ segs) t := by
    intro segs
    induction segs with
    | nil =>
      intro before s hs hexec
      rw [Machine.exec_nil, Option.some.injEq] at hexec
      rw [List.append_nil]
      exact hexec ▸ hs
    | cons x segs ih =>
      intro before s hs hexec
      obtain ⟨u, hu, hrest⟩ := Machine.exec_cons_eq_some.mp hexec
      have hlast := ih (before ++ [x]) u (recorded_cycle hs hu) hrest
      rw [List.append_assoc] at hlast
      exact hlast
  exact hrun segs [] (serving d []) (Or.inl ⟨[], [], rfl, rfl, rfl⟩) h

end Runs

/-- For every connection that is open and every list of requests with files that can be sent,
delivered in any segments: the cycle answers each of them, in order and with its own file, exactly
when every request ends where a segment ends. -/
theorem keep_alive_iff (typeText : List UInt8) (fs : FileSystem) (d : HttpConn)
    (hsock : d.sockfd ≠ -1) (requests : List KeepAliveRequest)
    (hserved : ∀ q ∈ requests, Served typeText fs q)
    (hsize : (requests.map KeepAliveRequest.bytes).flatten.length < readBufferSize)
    (segs : List (List UInt8)) (hne : ∀ x ∈ segs, x ≠ [])
    (hbytes : segs.flatten = (requests.map KeepAliveRequest.bytes).flatten) :
    (∃ s, Machine.exec (cycle typeText fs) (serving d []) segs = some s ∧
        s.responses = requests.map (answer typeText fs)) ↔
      EndsMeet segs (requests.map KeepAliveRequest.bytes) := by
  constructor
  · rintro ⟨s, hexec, hresponses⟩
    have hrequests : s.responses.map Response.request =
        requests.map KeepAliveRequest.bytes := by
      rw [hresponses, List.map_map]
      rfl
    rcases recorded_exec hexec with ⟨groups, last, hsegs, hgroups, hlast⟩ | hlost
    · rw [hrequests] at hgroups
      -- nothing is left behind the last request
      have hempty : last.flatten = [] := by
        rw [← hgroups, ← hsegs, List.flatten_append, List.flatten_flatten] at hbytes
        exact List.append_right_eq_self.mp hbytes
      have hnil : last = [] := by
        apply List.eq_nil_iff_forall_not_mem.mpr
        intro x hx
        have hmem : x ∈ segs := by
          rw [← hsegs]
          exact List.mem_append_right _ hx
        exact hne x hmem (List.flatten_eq_nil_iff.mp hempty x hx)
      subst hnil
      exact ⟨groups, by rw [← hsegs, List.append_nil], hgroups⟩
    · rw [hrequests, hbytes] at hlost
      omega
  · rintro ⟨groups, rfl, hgroups⟩
    have hsizes : ∀ q ∈ requests, q.bytes.length < readBufferSize := by
      intro q hq
      have hle : q.bytes.length ≤ (requests.map KeepAliveRequest.bytes).flatten.length :=
        (List.sublist_flatten_of_mem (List.mem_map_of_mem hq)).length_le
      omega
    obtain ⟨e, hexec⟩ := exec_requests hserved hsizes hsock [] hne hgroups
    exact ⟨_, hexec, List.nil_append _⟩

/-- A request for one of the files. -/
def requestFor (line : List UInt8) (hbreak : NoBreak line)
    (haccepted : Req.requestLine (cText line) ≠ none) : KeepAliveRequest where
  line := line
  headers := [ascii "Connection: keep-alive"]
  noBreak := List.forall_mem_cons.mpr ⟨hbreak, by decide⟩
  accepted := haccepted
  nonEmpty := by decide
  keepAlive := rfl
  noBody := rfl

def twoRequests : List KeepAliveRequest :=
  [requestFor (ascii "GET /a HTTP/1.1") (by decide) (by decide +kernel),
    requestFor (ascii "GET /b HTTP/1.1") (by decide) (by decide +kernel)]

theorem twoRequests_served : ∀ q ∈ twoRequests, Served (ascii "0") twoByteFiles q := by
  intro q _
  exact ⟨[104, 105], rfl, by decide +kernel⟩

/-- The first request is cut in two, the second one arrives whole. -/
theorem keep_alive_iff_cut :
    ∃ s, Machine.exec (cycle (ascii "0") twoByteFiles) (serving new [])
        [ascii "GET /a HT", ascii "TP/1.1\r\nConnection: keep-alive\r\n\r\n",
          ascii "GET /b HTTP/1.1\r\nConnection: keep-alive\r\n\r\n"] = some s ∧
      s.responses = twoRequests.map (answer (ascii "0") twoByteFiles) := by
  apply (keep_alive_iff (ascii "0") twoByteFiles new (by decide) twoRequests twoRequests_served
    (by decide +kernel) _ (by decide +kernel) (by decide +kernel)).mpr
  exact ⟨[[ascii "GET /a HT", ascii "TP/1.1\r\nConnection: keep-alive\r\n\r\n"],
    [ascii "GET /b HTTP/1.1\r\nConnection: keep-alive\r\n\r\n"]], rfl, by decide +kernel⟩

/-- Two requests in one segment: the first is answered, the second is gone. -/
theorem second_request_dropped :
    let segs := [ascii "GET /a HTTP/1.1\r\nConnection: keep-alive\r\n\r\n" ++
      ascii "GET /b HTTP/1.1\r\nConnection: keep-alive\r\n\r\n"]
    (∀ q ∈ twoRequests, Served (ascii "0") twoByteFiles q) ∧
      segs.flatten = (twoRequests.map KeepAliveRequest.bytes).flatten ∧
      segs.flatten.length < readBufferSize ∧
      (Machine.exec (cycle (ascii "0") twoByteFiles) (serving new []) segs).map
          (fun s => (s.responses, s.received)) =
        some ((twoRequests.take 1).map (answer (ascii "0") twoByteFiles), []) ∧
      ¬ ∃ s, Machine.exec (cycle (ascii "0") twoByteFiles) (serving new []) segs = some s ∧
        s.responses = twoRequests.map (answer (ascii "0") twoByteFiles) := by
  have hrun : (Machine.exec (cycle (ascii "0") twoByteFiles) (serving new [])
      [ascii "GET /a HTTP/1.1\r\nConnection: keep-alive\r\n\r\n" ++
        ascii "GET /b HTTP/1.1\r\nConnection: keep-alive\r\n\r\n"]).map
          (fun s => (s.responses, s.received)) =
      some ((twoRequests.take 1).map (answer (ascii "0") twoByteFiles), []) := by
    decide +kernel
  refine ⟨twoRequests_served, by decide +kernel, by decide +kernel, hrun, ?_⟩
  rintro ⟨s, hexec, hresponses⟩
  rw [hexec] at hrun
  have hone : s.responses.length = 1 :=
    congrArg List.length (congrArg Prod.fst (Option.some.inj hrun))
  rw [hresponses] at hone
  cases hone

end HttpConn
end Webservers
