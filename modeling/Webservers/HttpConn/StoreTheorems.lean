import Webservers.HttpConn.ReadTheorems
import Webservers.HttpConn.ParseTheorems
import Webservers.Lib.Machine

/-!
# Where the parser stores

The parser writes NULs into `m_read_buf`: at line ends, behind the method and the target, and at
`text[m_content_length]`. The last index comes from a header, and so does the sum that
`parse_request_content` forms before it.

* `Conn` is a slot between the main thread and a worker: `read` fills the buffer, `process_read`
  looks at it, and once the request has been answered `init()` makes the slot ready for the next.
* `Safe` says that every store lies inside the array and that no sum overflows.
* `stores_inside_iff` gives the exact condition on the state before each call of `process_read`
  under which a run is safe.
-/

namespace Webservers
namespace ReadState

/-! ## The slot in the server -/

/-- What is to happen next on a slot. -/
inductive Phase where
  /-- armed for `EPOLLIN` -/
  | reading
  /-- appended to the thread pool -/
  | queued
  /-- armed for `EPOLLOUT` -/
  | answered
  | closed
deriving Repr, DecidableEq

structure Conn where
  phase : Phase
  slot : ReadState

inductive Label where
  /-- `EPOLLIN` in main.cpp, with what the calls of `recv` find -/
  | read (rs : List Recv)
  /-- a worker takes the slot -/
  | processRead
  /-- the response has been sent, and `write` ends with `init()` -/
  | init
deriving Repr, DecidableEq

namespace Conn

def start : Conn := ⟨.reading, .init⟩

def step (s : Conn) : Label → Option Conn
  | .read rs =>
    if s.phase = .reading then
      match s.slot.read rs with
      | (true, c) => some ⟨.queued, c⟩
      | (false, c) => some ⟨.closed, c⟩
    else none
  | .processRead =>
    if s.phase = .queued then
      match s.slot.processRead with
      | (.noRequest, c) => some ⟨.reading, c⟩
      | (_, c) => some ⟨.answered, c⟩
    else none
  | .init => if s.phase = .answered then some start else none

end Conn

/-- Every store so far lies inside `m_read_buf`, and every sum fits a `long`. -/
def Safe (c : ReadState) : Prop :=
  (∀ i ∈ c.stores, 0 ≤ i ∧ i < readBufferSize) ∧ ∀ n ∈ c.sums, longMin ≤ n ∧ n ≤ longMax

/-- What a call of `process_read` may meet in the body. The line before the place `pos` starts at
`start`, and `l` are the bytes from `pos` on.

* The end announced does not lie before the buffer.
* A full buffer does not hold exactly the body announced: its NUL would stand behind the array.
* The length announced does not overflow at the last line end. -/
def BodyOk (start pos : ℕ) (contentLength : ℤ) (l : List UInt8) : Prop :=
  0 ≤ start + contentLength ∧
    ¬ (start = pos ∧ pos + contentLength = readBufferSize ∧ pos + l.length = readBufferSize) ∧
    contentLength + pos + (scanBody l).1 ≤ longMax

/-- What the slot knows of the request, while it is in the head. -/
def req (c : ReadState) : Req where
  target :=
    match c.checkState with
    | .requestLite => none
    | _ => c.url.map fun u => (u, c.text u)
  linger := c.linger
  contentLength := c.contentLength

/-- The bytes from the start of the current line on. -/
def line (c : ReadState) : List UInt8 :=
  slice c.readBuf c.startLine (c.readIndex - c.startLine)

/-- The condition on the slot before a call of `process_read`: on the body it stands in, or on
the body it comes to behind the rest of the head. -/
def CallOk (c : ReadState) : Prop :=
  match c.checkState with
  | .content => BodyOk c.startLine c.checkedIndex c.contentLength c.unchecked
  | _ =>
    match headRun c.startLine c.req c.line with
    | .body H r l => BodyOk H H r.contentLength l
    | _ => True

/-! ## One call -/

/-- The slot stands in the head or in the body of a request. -/
def Standing (c : ReadState) : Prop :=
  (∃ pos r l, HeadAt c pos r l ∧ longMin ≤ r.contentLength ∧ r.contentLength ≤ longMax) ∨
    ∃ start pos r l, BodyAt c start pos r l ∧
      longMin ≤ r.contentLength ∧ r.contentLength ≤ longMax

theorem Standing.fits {c : ReadState} (h : Standing c) : c.readIndex ≤ readBufferSize := by
  rcases h with ⟨pos, r, l, hat, -⟩ | ⟨start, pos, r, l, hat, -⟩
  · exact hat.fits
  · exact hat.fits

theorem Standing.deliver {c : ReadState} (h : Standing c) (x : List UInt8)
    (hfit : c.readIndex + x.length ≤ readBufferSize) : Standing (c.deliver x) := by
  rcases h with ⟨pos, r, l, hat, hr⟩ | ⟨start, pos, r, l, hat, hr⟩
  · exact Or.inl ⟨pos, r, l ++ x, deliver_headAt hat x hfit, hr⟩
  · exact Or.inr ⟨start, pos, r, l ++ x, deliver_bodyAt hat x hfit, hr⟩

/-- Safety of what has been added. -/
theorem safe_append {c c' : ReadState} {stores sums : List ℤ} (h : Safe c)
    (hstores : c'.stores = c.stores ++ stores) (hsums : c'.sums = c.sums ++ sums) :
    Safe c' ↔ (∀ i ∈ stores, 0 ≤ i ∧ i < readBufferSize) ∧
      ∀ n ∈ sums, longMin ≤ n ∧ n ≤ longMax := by
  unfold Safe
  rw [hstores, hsums]
  constructor
  · intro h'
    exact ⟨fun i hi => h'.1 i (List.mem_append_right _ hi),
      fun n hn => h'.2 n (List.mem_append_right _ hn)⟩
  · intro h'
    constructor
    · intro i hi
      rcases List.mem_append.mp hi with hi | hi
      · exact h.1 i hi
      · exact h'.1 i hi
    · intro n hn
      rcases List.mem_append.mp hn with hn | hn
      · exact h.2 n hn
      · exact h'.2 n hn

/-- What the head is read with is safe. -/
theorem Within.safe {c c' : ReadState} (h : Within 0 c.readIndex c c') (hsafe : Safe c)
    (hfit : c.readIndex ≤ readBufferSize) : Safe c' := by
  obtain ⟨added, hadded, hbounds⟩ := h.stores
  apply (safe_append hsafe hadded (by rw [h.sums, List.append_nil])).mpr
  constructor
  · intro i hi
    have hb := hbounds i hi
    omega
  · intro n hn
    exact absurd hn List.not_mem_nil

section Sums

variable {contentLength : ℤ}

/-- The sums of a call in the body fit a `long` exactly when the one at the last line end does. -/
theorem bodySums_fit_iff (hmin : longMin ≤ contentLength) (hmax : contentLength ≤ longMax)
    (pos : ℕ) (l : List UInt8) (hle : pos + l.length ≤ readBufferSize) :
    (∀ n ∈ bodySums contentLength pos l, longMin ≤ n ∧ n ≤ longMax) ↔
      contentLength + pos + (scanBody l).1 ≤ longMax := by
  have hlong : longMax = 9223372036854775807 := by decide
  have hsize : readBufferSize = 2048 := rfl
  fun_induction bodySums contentLength pos l with
  | case1 pos l haccept =>
    have hscan := scanBody_le l
    simp only [List.mem_singleton, forall_eq]
    rw [toLong_le_iff hmin hmax pos (pos + l.length) (by omega) hle] at haccept
    rcases haccept with h | h <;> omega
  | case2 pos l haccept hline ih =>
    have hlen := scanLine_lineOk hline
    rw [toLong_le_iff hmin hmax pos (pos + l.length) (by omega) hle, not_or] at haccept
    have hscan := scanBody_le (l.drop ((scanLine l).2 + 2))
    simp only [List.mem_cons, forall_eq_or_imp]
    have hrest : _ ↔ _ := ih (by rw [List.length_drop]; omega)
    rw [hrest, scanBody_lineOk hline]
    omega
  | case3 pos l haccept hline =>
    rw [toLong_le_iff hmin hmax pos (pos + l.length) (by omega) hle, not_or] at haccept
    rw [scanBody_other hline]
    simp only [List.mem_singleton, forall_eq]
    omega

/-- While nothing overflows, a body is accepted at the first comparison of a call, or not at
all. -/
theorem bodyRun_accepted_first (hmin : longMin ≤ contentLength) (hmax : contentLength ≤ longMax)
    {start pos start' : ℕ} {l : List UInt8} (hle : pos + l.length ≤ readBufferSize)
    (hfit : contentLength + pos + (scanBody l).1 ≤ longMax)
    (h : bodyRun contentLength start pos l = .accepted start') :
    start' = start ∧ contentLength ≤ l.length := by
  -- the other reason to accept is an overflow, which `hfit` excludes
  have hlength : contentLength ≤ l.length := by
    rcases (bodyRun_accepted_iff hmin hmax start pos l hle).mp ⟨start', h⟩ with hl | hover
    · exact hl
    · omega
  have htest := (toLong_le_iff hmin hmax pos (pos + l.length) (by omega) hle).mpr
    (Or.inl (by omega))
  rw [bodyRun, if_pos htest] at h
  cases h
  exact ⟨rfl, hlength⟩

end Sums

section Call

variable {c : ReadState} {start pos : ℕ} {r : Req} {l : List UInt8}

theorem BodyAt.call_safe_iff (h : BodyAt c start pos r l)
    (hr : longMin ≤ r.contentLength ∧ r.contentLength ≤ longMax) (hsafe : Safe c) :
    Safe c.processRead.2 ↔ BodyOk start pos r.contentLength l := by
  have hread := h.readIndex
  have hfits := h.fits
  have hstart := h.start_le
  have hle : pos + l.length ≤ readBufferSize := by omega
  have hsums := bodySums_fit_iff hr.1 hr.2 pos l hle
  have hacc := bodyRun_accepted_iff hr.1 hr.2 start pos l hle
  have hcall := processRead_body h
  unfold BodyOk
  cases hrun : bodyRun r.contentLength start pos l with
  | waiting start' pos' l' =>
    rw [hrun] at hcall
    obtain ⟨c', heq, -, hsum, added, hstores, hbelow⟩ := hcall
    -- more bytes were announced than there are, so the first two conditions hold
    have hmore : ¬ r.contentLength ≤ l.length := by
      intro hless
      obtain ⟨start'', hcontra⟩ := hacc.mpr (Or.inl hless)
      rw [hrun] at hcontra
      cases hcontra
    have hsnd : c.processRead.2 = c' := congrArg Prod.snd heq
    rw [hsnd, safe_append hsafe hstores hsum, hsums]
    constructor
    · intro h'
      exact ⟨by omega, by omega, h'.2⟩
    · intro h'
      refine ⟨fun i hi => ?_, h'.2.2⟩
      have hb := hbelow i hi
      omega
  | accepted start' =>
    rw [hrun] at hcall
    obtain ⟨c', heq, -, hsum, added, hstores, hbelow⟩ := hcall
    have hsnd : c.processRead.2 = c' := congrArg Prod.snd heq
    rw [List.append_assoc] at hstores
    rw [hsnd, safe_append hsafe hstores hsum, hsums]
    constructor
    · intro h'
      have hlast := h'.1 (start' + r.contentLength) (List.mem_append_right _ List.mem_cons_self)
      obtain ⟨rfl, hlength⟩ := bodyRun_accepted_first hr.1 hr.2 hle h'.2 hrun
      exact ⟨hlast.1, by omega, h'.2⟩
    · intro h'
      obtain ⟨rfl, hlength⟩ := bodyRun_accepted_first hr.1 hr.2 hle h'.2.2 hrun
      refine ⟨fun i hi => ?_, h'.2.2⟩
      rcases List.mem_append.mp hi with hi | hi
      · have hb := hbelow i hi
        omega
      · -- the NUL behind the body
        rw [List.mem_singleton.mp hi]
        omega

theorem BodyAt.call_standing (h : BodyAt c start pos r l)
    (hr : longMin ≤ r.contentLength ∧ r.contentLength ≤ longMax) {c' : ReadState}
    (heq : c.processRead = (.noRequest, c')) : Standing c' := by
  have hcall := processRead_body h
  cases hrun : bodyRun r.contentLength start pos l with
  | waiting start' pos' l' =>
    rw [hrun] at hcall
    obtain ⟨c'', heq', hat, -⟩ := hcall
    have hsame : c'' = c' := congrArg Prod.snd (Eq.trans heq'.symm heq)
    subst hsame
    exact Or.inr ⟨start', pos', r, l', hat, hr⟩
  | accepted start' =>
    rw [hrun] at hcall
    obtain ⟨c'', heq', -⟩ := hcall
    cases Eq.trans heq'.symm heq

theorem HeadAt.req_eq (h : HeadAt c pos r l) : c.req = r := by
  obtain ⟨target, linger, contentLength⟩ := r
  have htarget := h.target
  have hfound : c.req.target = target := by
    unfold TargetAt at htarget
    unfold req
    cases target with
    | none =>
      simp only at htarget ⊢
      rw [htarget]
    | some found =>
      obtain ⟨hstate, hurl, htext, -⟩ := htarget
      simp only
      rw [hstate, hurl]
      show some (found.1, c.text found.1) = some found
      rw [htext]
  have hlinger : c.req.linger = linger := h.linger
  have hlength : c.req.contentLength = contentLength := h.contentLength
  rw [← hfound, ← hlinger, ← hlength]

theorem HeadAt.line_eq (h : HeadAt c pos r l) : c.line = l := by
  have hsub : c.readIndex - pos = l.length := by
    rw [h.readIndex]
    omega
  rw [line, h.startLine, hsub, h.bytes]

/-- The condition on a slot in the head is one on the bytes it holds. -/
theorem HeadAt.callOk_iff (h : HeadAt c pos r l) :
    CallOk c ↔
      match headRun pos r l with
      | .body H r' l' => BodyOk H H r'.contentLength l'
      | _ => True := by
  have hne := h.checkState_ne
  unfold CallOk
  rw [h.startLine, h.req_eq, h.line_eq]
  split
  · rename_i hcontent
    exact absurd hcontent hne
  · rfl

theorem BodyAt.callOk_iff (h : BodyAt c start pos r l) :
    CallOk c ↔ BodyOk start pos r.contentLength l := by
  unfold CallOk
  rw [h.checkState, h.startLine, h.checked, h.contentLength, h.unchecked_eq]

/-- A call in the head is as safe as the body it comes to. -/
theorem HeadAt.call_safe_iff (h : HeadAt c pos r l)
    (hr : longMin ≤ r.contentLength ∧ r.contentLength ≤ longMax) (hsafe : Safe c) :
    Safe c.processRead.2 ↔ CallOk c := by
  have hcall := processRead_head h
  -- a call that comes to no body
  have hdone : ∀ result c', c.processRead = (result, c') → Safe c' →
      (Safe c.processRead.2 ↔ True) := by
    intro result c' heq hstill
    rw [heq]
    exact iff_of_true hstill trivial
  rw [h.callOk_iff]
  cases hrun : headRun pos r l with
  | waiting pos' r' l' =>
    rw [hrun] at hcall
    obtain ⟨c', heq, hwithin, -⟩ := hcall
    exact hdone _ c' heq (hwithin.safe hsafe h.fits)
  | bad =>
    rw [hrun] at hcall
    obtain ⟨c', heq, hwithin⟩ := hcall
    exact hdone _ c' heq (hwithin.safe hsafe h.fits)
  | complete r' =>
    rw [hrun] at hcall
    obtain ⟨c', heq, hwithin, -⟩ := hcall
    exact hdone _ c' heq (hwithin.safe hsafe h.fits)
  | body H r' l' =>
    rw [hrun] at hcall
    obtain ⟨c', heq, hwithin, hbody⟩ := hcall
    obtain ⟨hr', -⟩ := headRun_body hrun hr
    have hsame : c.processRead = c'.processRead := heq
    rw [hsame]
    exact hbody.call_safe_iff hr' (hwithin.safe hsafe h.fits)

theorem HeadAt.call_standing (h : HeadAt c pos r l)
    (hr : longMin ≤ r.contentLength ∧ r.contentLength ≤ longMax) {c' : ReadState}
    (heq : c.processRead = (.noRequest, c')) : Standing c' := by
  have hcall := processRead_head h
  cases hrun : headRun pos r l with
  | waiting pos' r' l' =>
    rw [hrun] at hcall
    obtain ⟨c'', heq', -, hat⟩ := hcall
    obtain ⟨hr', -⟩ := headRun_waiting hrun hr
    have hsame : c'' = c' := congrArg Prod.snd (Eq.trans heq'.symm heq)
    subst hsame
    exact Or.inl ⟨pos', r', l', hat, hr'⟩
  | bad =>
    rw [hrun] at hcall
    obtain ⟨c'', heq', -⟩ := hcall
    cases Eq.trans heq'.symm heq
  | complete r' =>
    rw [hrun] at hcall
    obtain ⟨c'', heq', -⟩ := hcall
    cases Eq.trans heq'.symm heq
  | body H r' l' =>
    rw [hrun] at hcall
    obtain ⟨c'', heq', -, hbody⟩ := hcall
    obtain ⟨hr', -⟩ := headRun_body hrun hr
    exact hbody.call_standing hr' (Eq.trans heq'.symm heq)

end Call

/-- One call of `process_read` is safe exactly under the condition on the slot before it. -/
theorem Standing.call_safe_iff {c : ReadState} (h : Standing c) (hsafe : Safe c) :
    Safe c.processRead.2 ↔ CallOk c := by
  rcases h with ⟨pos, r, l, hat, hr⟩ | ⟨start, pos, r, l, hat, hr⟩
  · exact hat.call_safe_iff hr hsafe
  · rw [hat.callOk_iff]
    exact hat.call_safe_iff hr hsafe

theorem Standing.call_standing {c c' : ReadState} (h : Standing c)
    (heq : c.processRead = (.noRequest, c')) : Standing c' := by
  rcases h with ⟨pos, r, l, hat, hr⟩ | ⟨start, pos, r, l, hat, hr⟩
  · exact hat.call_standing hr heq
  · exact hat.call_standing hr heq

/-! ## Whole runs -/

namespace Conn

/-- The condition of a step: only the calls of `process_read` have one. -/
def StepOk (s : Conn) : Label → Prop
  | .processRead => CallOk s.slot
  | _ => True

/-- What holds as long as a run is safe. -/
structure Inv (s : Conn) : Prop where
  safe : Safe s.slot
  standing : s.phase = .reading ∨ s.phase = .queued → Standing s.slot

theorem inv_start : Inv start where
  safe := ⟨fun i hi => absurd hi List.not_mem_nil, fun n hn => absurd hn List.not_mem_nil⟩
  standing := fun _ => Or.inl ⟨0, Req.init, [], headAt_init, by decide⟩

/-- What a step does, by label. -/
theorem step_read {s t : Conn} {rs : List Recv} (h : step s (.read rs) = some t) :
    s.phase = .reading ∧ t.slot = (s.slot.read rs).2 := by
  rw [step] at h
  split at h
  · rename_i hphase
    split at h <;> cases h
    all_goals
      rename_i heq
      rw [heq]
      exact ⟨hphase, rfl⟩
  · cases h

theorem step_processRead {s t : Conn} (h : step s .processRead = some t) :
    s.phase = .queued ∧ t.slot = s.slot.processRead.2 ∧
      ((t.phase = .reading ∧ s.slot.processRead = (.noRequest, t.slot)) ∨
        t.phase = .answered) := by
  rw [step] at h
  split at h
  · rename_i hphase
    split at h <;> cases h
    · rename_i heq
      rw [heq]
      exact ⟨hphase, rfl, Or.inl ⟨rfl, rfl⟩⟩
    · rename_i heq
      rw [heq]
      exact ⟨hphase, rfl, Or.inr rfl⟩
  · cases h

theorem step_init {s t : Conn} (h : step s .init = some t) : t = start := by
  rw [step] at h
  split at h
  · exact (Option.some.inj h).symm
  · cases h

theorem inv_step {s t : Conn} {a : Label} (h : Inv s) (hstep : step s a = some t)
    (hok : StepOk s a) : Inv t := by
  cases a with
  | read rs =>
    obtain ⟨hphase, hslot⟩ := step_read hstep
    have hstanding := h.standing (Or.inl hphase)
    obtain ⟨x, hx, hfit⟩ := read_deliver rs s.slot
    constructor
    · rw [hslot, hx]
      exact h.safe
    · intro _
      rw [hslot, hx]
      exact hstanding.deliver x (hfit hstanding.fits)
  | processRead =>
    obtain ⟨hphase, hslot, hnext⟩ := step_processRead hstep
    have hstanding := h.standing (Or.inr hphase)
    constructor
    · rw [hslot]
      exact (hstanding.call_safe_iff h.safe).mpr hok
    · intro hphase'
      -- an answered request leaves the slot to `init()`
      rcases hnext with ⟨-, heq⟩ | hanswered
      · exact hstanding.call_standing heq
      · rw [hanswered] at hphase'
        rcases hphase' with hphase' | hphase' <;> cases hphase'
  | init =>
    rw [step_init hstep]
    exact inv_start

/-- Only a step that meets its condition stays safe. -/
theorem stepOk_of_safe {s t : Conn} {a : Label} (h : Inv s) (hstep : step s a = some t)
    (hsafe : Safe t.slot) : StepOk s a := by
  cases a with
  | read rs => trivial
  | init => trivial
  | processRead =>
    obtain ⟨hphase, hslot, -⟩ := step_processRead hstep
    have hstanding := h.standing (Or.inr hphase)
    rw [hslot] at hsafe
    exact (hstanding.call_safe_iff h.safe).mp hsafe

/-- In every run from a slot that `init()` has reset, the stores of the parser stay inside
`m_read_buf` and its sums inside `long` exactly when each call of `process_read` meets `CallOk`. -/
theorem stores_inside_iff (as : List Label) :
    Machine.Always step (fun s => Safe s.slot) start as ↔ Machine.Along step StepOk start as :=
  Machine.always_iff_along (K := Inv) (fun _ h => h.safe)
    (fun _ _ _ h hstep hok => inv_step h hstep hok)
    (fun _ _ _ h hstep hsafe => stepOk_of_safe h hstep hsafe) inv_start

/-- A request that announces a body of `length` bytes, read and processed. -/
def announces (length : String) : List Label :=
  [.read [.data (ascii ("GET / HTTP/1.1\r\nContent-Length: " ++ length ++ "\r\n\r\n"))],
    .processRead]

/-- A negative length makes the parser store before the buffer, and a large one overflows. -/
theorem announced_length_unsafe :
    (∃ s, Machine.exec step start (announces "-100") = some s ∧
        -60 ∈ s.slot.stores ∧ ¬ Safe s.slot) ∧
      ∃ s, Machine.exec step start (announces "9223372036854775807") = some s ∧
        9223372036854775862 ∈ s.slot.sums ∧ ¬ Safe s.slot := by
  constructor
  · have hrun : (Machine.exec step start (announces "-100")).map
        (fun s => decide (-60 ∈ s.slot.stores)) = some true := by decide +kernel
    obtain ⟨s, hs, hmem⟩ := Option.map_eq_some_iff.mp hrun
    have hstore := of_decide_eq_true hmem
    refine ⟨s, hs, hstore, fun hsafe => ?_⟩
    exact absurd (hsafe.1 _ hstore).1 (by decide)
  · have hrun : (Machine.exec step start (announces "9223372036854775807")).map
        (fun s => decide (9223372036854775862 ∈ s.slot.sums)) = some true := by decide +kernel
    obtain ⟨s, hs, hmem⟩ := Option.map_eq_some_iff.mp hrun
    have hsum := of_decide_eq_true hmem
    refine ⟨s, hs, hsum, fun hsafe => ?_⟩
    exact absurd (hsafe.2 _ hsum).2 (by decide)

end Conn
end ReadState
end Webservers
