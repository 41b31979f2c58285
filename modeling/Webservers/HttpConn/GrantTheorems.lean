import Webservers.HttpConn.MappingTheorems
import Webservers.HttpConn.PathTheorems

/-!
# Which files are granted

The comment on `do_request` promises that a file is mapped when it exists, is readable for all users
and is no directory. The test of the mode negates it before it masks, so it never says
`FORBIDDEN_REQUEST`, and the results of `open` and `mmap` are not looked at.

* `SystemCalls` has the three calls apart, each with any result; `do_request` runs on the
  `FileSystem` they make up.
* `GrantsOnly` is the promise, from the verdict to the last `writev`.
* `grantsOnly_iff` gives the results of the calls with which it is kept.
-/

namespace Webservers

/-- The system calls of `do_request`, with any results. -/
structure SystemCalls where
  stat : List UInt8 → Option FileStat
  /-- `open(path, O_RDONLY)`, `none` for -1 -/
  openFile : List UInt8 → Option ℕ
  /-- `mmap(0, size, PROT_READ, MAP_PRIVATE, fd, 0)`: the bytes that can be read there, `none` for
  `MAP_FAILED` -/
  mmap : Option ℕ → ℤ → Option (List UInt8)

namespace SystemCalls

/-- `m_file_address = mmap(0, size, PROT_READ, MAP_PRIVATE, open(path, O_RDONLY), 0)` -/
def address (calls : SystemCalls) (path : List UInt8) (size : ℤ) : Mapping :=
  match calls.mmap (calls.openFile path) size with
  | some bytes => .mapped bytes
  | none => .mapFailed

def fileSystem (calls : SystemCalls) : FileSystem := ⟨calls.stat, calls.address⟩

/-- A file that is not empty is opened, and all of it can be read where it is mapped. -/
def MapsWhole (calls : SystemCalls) (path : List UInt8) (size : ℤ) : Prop :=
  size ≠ 0 → ∃ fd bytes, calls.openFile path = some fd ∧ calls.mmap (some fd) size = some bytes ∧
    (bytes.length : ℤ) = size

theorem MapsWhole.address_eq {calls : SystemCalls} {path : List UInt8} {size : ℤ}
    (h : calls.MapsWhole path size) (hsize : size ≠ 0) :
    ∃ bytes, calls.address path size = .mapped bytes ∧ (bytes.length : ℤ) = size := by
  obtain ⟨fd, bytes, hopen, hmap, hlen⟩ := h hsize
  refine ⟨bytes, ?_, hlen⟩
  rw [address, hopen, hmap]

end SystemCalls

/-- All users may read the file. -/
def FileStat.Readable (st : FileStat) : Prop := st.stMode &&& sIROTH ≠ 0

/-- `S_ISDIR(st_mode)` -/
def FileStat.IsDir (st : FileStat) : Prop := st.stMode &&& sIFMT = sIFDIR

instance (st : FileStat) : Decidable st.IsDir := inferInstanceAs (Decidable (_ = _))

/-- `iov_base` lies in a mapping of `size` bytes. -/
def Iovec.InMapping (size : ℤ) (iv : Iovec) : Prop :=
  ∃ bytes offset, iv.iovBase = .file (.mapped bytes) offset ∧ (bytes.length : ℤ) = size

namespace HttpConn

/-- What is promised of `do_request` and of the response that follows it, whatever the system calls
return. -/
structure GrantsOnly (typeText : List UInt8) (calls : SystemCalls) (c : HttpConn) : Prop where
  granted : (c.doRequest calls.fileSystem).1 = .fileRequest →
    ∃ st, calls.stat c.pathOf = some st ∧ st.Readable ∧ ¬ st.IsDir ∧
      calls.MapsWhole c.pathOf st.stSize
  /-- `m_file_address` is the start of a mapping of `m_file_stat.st_size` bytes. -/
  address : (c.doRequest calls.fileSystem).1 = .fileRequest →
    (c.doRequest calls.fileSystem).2.fileStat.stSize ≠ 0 →
    ∃ bytes, (c.doRequest calls.fileSystem).2.fileAddress = .mapped bytes ∧
      (bytes.length : ℤ) = (c.doRequest calls.fileSystem).2.fileStat.stSize
  forbidden : ∀ st, calls.stat c.pathOf = some st → ¬ st.Readable →
    (c.doRequest calls.fileSystem).1 = .forbiddenRequest
  failed : ∀ st, calls.stat c.pathOf = some st → st.stSize ≠ 0 →
    calls.openFile c.pathOf = none ∨ calls.mmap (calls.openFile c.pathOf) st.stSize = none →
    (c.doRequest calls.fileSystem).1 ≠ .fileRequest
  /-- `process_write` offers bytes that can be read. -/
  composed : (c.doRequest calls.fileSystem).1 = .fileRequest →
    ∃ bytes, (sendStart typeText (c.doRequest calls.fileSystem).2).conn.ivBytes
      (sendStart typeText (c.doRequest calls.fileSystem).2).conn.iv1 = some bytes
  /-- `write` goes on inside the mapping, however `writev` cuts the response. -/
  sent : (c.doRequest calls.fileSystem).1 = .fileRequest →
    (c.doRequest calls.fileSystem).2.fileStat.stSize ≠ 0 →
    ∀ rs, Machine.Always sendStep
      (fun s => s.conn.iv1.InMapping (c.doRequest calls.fileSystem).2.fileStat.stSize)
      (sendStart typeText (c.doRequest calls.fileSystem).2) rs

/-! ## `do_request` -/

/-- What `do_request` has found when it grants a file. -/
theorem doRequest_granted {calls : SystemCalls} {c : HttpConn}
    (h : (c.doRequest calls.fileSystem).1 = .fileRequest) :
    ∃ st, calls.stat c.pathOf = some st ∧ ¬ st.IsDir ∧
      (c.doRequest calls.fileSystem).2.fileStat = st ∧
      (c.doRequest calls.fileSystem).2.fileAddress = calls.address c.pathOf st.stSize := by
  rcases doRequest_inv calls.fileSystem c with ⟨-, heq⟩ | ⟨st, hstat, ⟨-, heq⟩ | ⟨hdir, heq⟩⟩
  · rw [heq] at h
    cases h
  · rw [heq] at h
    cases h
  · rw [heq]
    exact ⟨st, hstat, hdir, rfl, rfl⟩

/-- Every file that is no directory is granted. -/
theorem doRequest_of_stat {calls : SystemCalls} {c : HttpConn} {st : FileStat}
    (hstat : calls.stat c.pathOf = some st) :
    (c.doRequest calls.fileSystem).1 = if st.IsDir then .badRequest else .fileRequest := by
  rw [doRequest_eq, show calls.fileSystem.stat c.pathOf = some st from hstat]
  show (if st.IsDir then _ else _ : HttpCode × HttpConn).1 = _
  split <;> rfl

/-! ## The response -/

section Response

variable {typeText : List UInt8} {c : HttpConn}

/-- The second `iovec` of `process_write`, when the file is empty or mapped as a whole. -/
theorem composed_of_mapped
    (h : c.fileStat.stSize ≠ 0 →
      ∃ bytes, c.fileAddress = .mapped bytes ∧ (bytes.length : ℤ) = c.fileStat.stSize) :
    ∃ bytes, (sendStart typeText c).conn.ivBytes (sendStart typeText c).conn.iv1 = some bytes := by
  obtain ⟨buf, index, hconn, -, -⟩ := sendStart_conn typeText c
  rw [hconn]
  simp only [ivBytes]
  by_cases hsize : c.fileStat.stSize = 0
  · rw [hsize]
    exact ⟨[], rfl⟩
  · obtain ⟨bytes, haddress, hlen⟩ := h hsize
    split
    · exact ⟨[], rfl⟩
    · -- `iov_len` is `st_size` modulo `2^64`, which is no more than the mapping has
      have hle : (toSizeT c.fileStat.stSize : ℤ) ≤ bytes.length := by
        unfold toSizeT
        omega
      rw [haddress, Mapping.read, if_pos ⟨Int.le_refl 0, by omega⟩]
      exact ⟨_, rfl⟩

/-- One `writev` leaves the second `iovec` on `m_file_address`. -/
theorem sendStep_base {m : Mapping} {s t : Sending} {r : WriteResult}
    (hstep : sendStep s r = some t)
    (hs : s.conn.fileAddress = m ∧ ∃ offset, s.conn.iv1.iovBase = .file m offset) :
    t.conn.fileAddress = m ∧ ∃ offset, t.conn.iv1.iovBase = .file m offset := by
  obtain ⟨haddress, offset, hbase⟩ := hs
  cases r with
  | failed e =>
    simp only [sendStep] at hstep
    split at hstep
    · cases hstep
      exact ⟨haddress, offset, hbase⟩
    · cases hstep
  | wrote n =>
    simp only [sendStep] at hstep
    split at hstep
    · cases hstep
      refine ⟨(advance_file_kept s.conn n).2.trans haddress, ?_⟩
      simp only [advance]
      split
      · exact ⟨_, by rw [haddress]⟩
      · exact ⟨offset, hbase⟩
    · cases hstep

theorem sent_of_mapped {bytes : List UInt8} (haddress : c.fileAddress = .mapped bytes)
    (rs : List WriteResult) :
    Machine.Always sendStep (fun s => s.conn.iv1.InMapping bytes.length) (sendStart typeText c)
      rs := by
  apply Machine.always_of_invariant (K := fun s => s.conn.fileAddress = .mapped bytes ∧
    ∃ offset, s.conn.iv1.iovBase = .file (.mapped bytes) offset)
  · rintro s ⟨-, offset, hbase⟩
    exact ⟨bytes, offset, hbase, rfl⟩
  · exact fun s r t hs hstep => sendStep_base hstep hs
  · obtain ⟨buf, index, hconn, -, -⟩ := sendStart_conn typeText c
    rw [hconn]
    exact ⟨haddress, 0, by rw [haddress]⟩

end Response

/-! ## The condition -/

/-- The promise is kept exactly when `stat` finds nothing, or a file that all users may read and
that is a directory or is opened and mapped as a whole. -/
theorem grantsOnly_iff (typeText : List UInt8) (calls : SystemCalls) (c : HttpConn) :
    GrantsOnly typeText calls c ↔
      ∀ st, calls.stat c.pathOf = some st →
        st.Readable ∧ (st.IsDir ∨ calls.MapsWhole c.pathOf st.stSize) := by
  constructor
  · intro h st hstat
    have hcode := doRequest_of_stat hstat
    have hreadable : st.Readable := by
      by_contra hno
      have hforbidden := h.forbidden st hstat hno
      rw [hcode] at hforbidden
      split at hforbidden <;> cases hforbidden
    refine ⟨hreadable, ?_⟩
    by_cases hdir : st.IsDir
    · exact Or.inl hdir
    · rw [if_neg hdir] at hcode
      obtain ⟨st', hstat', -, -, hmaps⟩ := h.granted hcode
      rw [hstat, Option.some.injEq] at hstat'
      subst hstat'
      exact Or.inr hmaps
  · intro h
    -- what is granted is mapped as a whole
    have hwhole : (c.doRequest calls.fileSystem).1 = .fileRequest →
        ∃ st, calls.stat c.pathOf = some st ∧ st.Readable ∧ ¬ st.IsDir ∧
          calls.MapsWhole c.pathOf st.stSize := by
      intro hcode
      obtain ⟨st, hstat, hdir, -, -⟩ := doRequest_granted hcode
      obtain ⟨hreadable, hmaps⟩ := h st hstat
      exact ⟨st, hstat, hreadable, hdir, hmaps.resolve_left hdir⟩
    have haddress : (c.doRequest calls.fileSystem).1 = .fileRequest →
        (c.doRequest calls.fileSystem).2.fileStat.stSize ≠ 0 →
        ∃ bytes, (c.doRequest calls.fileSystem).2.fileAddress = .mapped bytes ∧
          (bytes.length : ℤ) = (c.doRequest calls.fileSystem).2.fileStat.stSize := by
      intro hcode
      obtain ⟨st, hstat, hdir, hst, haddress⟩ := doRequest_granted hcode
      obtain ⟨-, hmaps⟩ := h st hstat
      rw [hst, haddress]
      exact (hmaps.resolve_left hdir).address_eq
    constructor
    case granted => exact hwhole
    case address => exact haddress
    case forbidden => exact fun st hstat hno => absurd (h st hstat).1 hno
    case failed =>
      intro st hstat hsize hfailed hcode
      obtain ⟨st', hstat', -, -, hmaps⟩ := hwhole hcode
      rw [hstat, Option.some.injEq] at hstat'
      subst hstat'
      obtain ⟨fd, bytes, hopen, hmap, -⟩ := hmaps hsize
      rw [hopen, hmap] at hfailed
      rcases hfailed with hno | hno <;> cases hno
    case composed => exact fun hcode => composed_of_mapped (haddress hcode)
    case sent =>
      intro hcode hsize rs
      obtain ⟨bytes, hmapped, hlen⟩ := haddress hcode hsize
      rw [← hlen]
      exact sent_of_mapped hmapped rs

/-- A file of five bytes that others may not read (mode 0640), and that cannot be opened. -/
def unreadable : SystemCalls where
  stat _ := some { stMode := 0o100640, stSize := 5 }
  openFile _ := none
  mmap _ _ := none

/-- A slot that has read a request. -/
def secretRead : HttpConn := requestRead "GET /secret HTTP/1.1\r\n\r\n"

/-- It is granted, and what `process_write` offers cannot be read. -/
theorem unreadable_granted :
    (secretRead.doRequest unreadable.fileSystem).1 = .fileRequest ∧
      (secretRead.doRequest unreadable.fileSystem).2.fileAddress = .mapFailed ∧
      (sendStart (ascii "0") (secretRead.doRequest unreadable.fileSystem).2).conn.offered = none ∧
      ¬ GrantsOnly (ascii "0") unreadable secretRead := by
  have hcode : (secretRead.doRequest unreadable.fileSystem).1 = .fileRequest := by decide +kernel
  refine ⟨hcode, by decide +kernel, by decide +kernel, fun h => ?_⟩
  have hforbidden := h.forbidden _ rfl (by unfold FileStat.Readable; decide)
  rw [hcode] at hforbidden
  cases hforbidden

end HttpConn
end Webservers
