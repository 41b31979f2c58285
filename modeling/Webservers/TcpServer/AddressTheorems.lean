import Webservers.TcpServer.NameTheorems

/-!
# Addresses and names as texts (src/InetAddress.cc, src/TcpServer.cc)

`InetAddress(port, ip)` reads what `toIp()` writes. `inet_addr` takes much more than that: up to
four numbers with dots between them, each in base 10, 8 or 16, and it answers `INADDR_NONE` to the
rest.

* `address_read_back`: every address survives being written and read.
* `names_tell_apart`: the name of a connection determines the server's name, its address and the
  number of the connection, also among several servers.
-/

namespace Webservers

/-! ## Reading an address -/

/-- The value of a digit, in any base up to 16; 16 for what is none. -/
def digitValue (b : UInt8) : ℕ :=
  if isdigit b then b.toNat - 48
  else if 97 ≤ tolower b ∧ tolower b ≤ 102 then (tolower b).toNat - 87
  else 16

/-- The number that the whole of `text` spells in this base. -/
def numeral (base : ℕ) (text : List UInt8) : Option ℕ :=
  if text ≠ [] ∧ text.all (digitValue · < base) then
    some (text.foldl (fun value b => base * value + digitValue b) 0)
  else none

/-- One of the numbers of an address: octal behind `0`, hexadecimal behind `0x`. -/
def addressPart : List UInt8 → Option ℕ
  | 48 :: b :: rest => if tolower b = 120 then numeral 16 rest else numeral 8 (b :: rest)
  | text => numeral 10 text

/-- The address of these numbers, in host order: all but the last stand for one byte each, and the
last one for all the others. -/
def addressOf (values : List ℕ) : Option ℕ := do
  let last ← values.getLast?
  let scale := 256 ^ (5 - values.length)
  if values.length ≤ 4 ∧ (∀ value ∈ values.dropLast, value < 256) ∧ last < scale then
    some (values.dropLast.foldl (fun front value => 256 * front + value) 0 * scale + last)
  else none

/-- `inet_addr(text)`, `none` for `INADDR_NONE`. The numbers end at the first white space. -/
def inetAddr (text : List UInt8) : Option ℕ :=
  ((((cText text).takeWhile fun b => !isspace b).splitOnP (· == 46)).mapM addressPart).bind
    addressOf

theorem addressOf_four {w x y z : ℕ} (hw : w < 256) (hx : x < 256) (hy : y < 256) (hz : z < 256) :
    addressOf [w, x, y, z] = some (256 * (256 * (256 * w + x) + y) + z) := by
  have hbytes : ∀ v ∈ [w, x, y, z].dropLast, v < 256 := by
    show ∀ v ∈ [w, x, y], v < 256
    simp only [List.forall_mem_cons]
    exact ⟨hw, hx, hy, fun _ h => absurd h List.not_mem_nil⟩
  have hlast : [w, x, y, z].getLast? = some z := rfl
  simp only [addressOf, hlast, Option.bind_eq_bind, Option.bind_some]
  rw [if_pos ⟨Nat.le_refl 4, hbytes, hz⟩]
  refine congrArg some ?_
  show (256 * (256 * (256 * 0 + w) + x) + y) * 256 ^ 1 + z = _
  omega

/-- What `%u` writes is read in base 10. -/
theorem addressPart_formatUnsigned (n : ℕ) : addressPart (formatUnsigned n) = some n := by
  have hdigit : ∀ b ∈ formatUnsigned n, digitValue b = b.toNat - 48 := fun b hb => by
    rw [digitValue, if_pos (isdigit_formatUnsigned hb)]
  have hall : (formatUnsigned n).all (digitValue · < 10) = true := by
    rw [List.all_eq_true]
    intro b hb
    have hrange := mem_formatUnsigned hb
    rw [decide_eq_true_eq, hdigit b hb]
    omega
  have hvalue : numeral 10 (formatUnsigned n) = some n := by
    obtain ⟨b, text, heq, -⟩ := formatUnsigned_eq_cons n
    have hdigits : digits (formatUnsigned n ++ []) = n := digits_formatUnsigned n (by simp)
    rw [List.append_nil, digits, List.takeWhile_eq_self_iff.mpr
      fun b hb => isdigit_formatUnsigned hb] at hdigits
    rw [numeral, if_pos ⟨by rw [heq]; exact List.cons_ne_nil b text, hall⟩,
      List.foldl_ext _ _ _ fun value b hb => by rw [hdigit b hb], hdigits]
  unfold addressPart
  split
  · -- a zero in front of another digit
    rename_i b rest hzero
    have hpos : 0 < n := by
      rcases Nat.eq_zero_or_pos n with rfl | hn
      · have hone : formatUnsigned 0 = [48] := by decide
        rw [hone] at hzero
        exact absurd (List.cons.inj hzero).2.symm (List.cons_ne_nil b rest)
      · exact hn
    exact absurd (congrArg List.head? hzero) (head_formatUnsigned hpos)
  · exact hvalue

namespace InetAddress

def inaddrNone : ℕ := 0xffffffff

/-- `InetAddress(port, ip)` -/
def ofIp (port : UInt16) (ip : List UInt8) : InetAddress where
  octets i := UInt8.ofNat ((inetAddr ip).getD inaddrNone / 256 ^ (3 - i.val))
  port := port

/-- The value of the four octets. -/
def value (a : InetAddress) : ℕ :=
  (List.ofFn a.octets).foldl (fun front octet => 256 * front + octet.toNat) 0

theorem value_eq (a : InetAddress) :
    a.value = 256 * (256 * (256 * (a.octets 0).toNat + (a.octets 1).toNat) + (a.octets 2).toNat) +
      (a.octets 3).toNat := by
  show 256 * (256 * (256 * (256 * 0 + _) + _) + _) + _ = _
  rw [Nat.mul_zero, Nat.zero_add]
  rfl

/-- The four texts, with the dots between them. -/
theorem splitOnP_toIp (a : InetAddress) :
    a.toIp.splitOnP (· == 46) =
      [formatUnsigned (a.octets 0).toNat, formatUnsigned (a.octets 1).toNat,
        formatUnsigned (a.octets 2).toNat, formatUnsigned (a.octets 3).toNat] := by
  have hone : ∀ n, (formatUnsigned n).splitOnP (· == 46) = [formatUnsigned n] := fun n =>
    List.splitOnP_eq_singleton fun b hb =>
      beq_eq_false_iff_ne.mpr (ne_of_isdigit (isdigit_formatUnsigned hb) (by decide))
  have htoIp : a.toIp = formatUnsigned (a.octets 0).toNat ++ 46 ::
      (formatUnsigned (a.octets 1).toNat ++ 46 :: (formatUnsigned (a.octets 2).toNat ++ 46 ::
        formatUnsigned (a.octets 3).toNat)) := by
    simp only [toIp, show ascii "." = [46] from rfl, List.append_assoc, List.cons_append,
      List.nil_append]
  rw [htoIp, List.splitOnP_append_cons _ _ (by decide), List.splitOnP_append_cons _ _ (by decide),
    List.splitOnP_append_cons _ _ (by decide), hone, hone, hone, hone]
  rfl

theorem isspace_of_mem_toIp {a : InetAddress} {b : UInt8} (h : b ∈ a.toIp) : isspace b = false := by
  have hdot : b ∈ ascii "." → isspace b = false := by
    intro hb
    rw [List.mem_singleton.mp hb]
    decide
  have hnumber : ∀ n, b ∈ formatUnsigned n → isspace b = false :=
    fun n hb => isspace_of_isdigit (isdigit_formatUnsigned hb)
  simp only [toIp, List.mem_append] at h
  rcases h with (((((h | h) | h) | h) | h) | h) | h
  · exact hnumber _ h
  · exact hdot h
  · exact hnumber _ h
  · exact hdot h
  · exact hnumber _ h
  · exact hdot h
  · exact hnumber _ h

theorem nul_not_mem_toIp (a : InetAddress) : 0 ∉ a.toIp := by
  have hdot : 0 ∉ ascii "." := by decide
  simp only [toIp, List.mem_append, nul_not_mem_formatUnsigned, hdot, or_self, not_false_eq_true]

theorem inetAddr_toIp (a : InetAddress) : inetAddr a.toIp = some a.value := by
  have htext : (cText a.toIp).takeWhile (fun b => !isspace b) = a.toIp := by
    rw [cText_of_not_mem a.nul_not_mem_toIp, List.takeWhile_eq_self_iff]
    intro b hb
    rw [isspace_of_mem_toIp hb]
    rfl
  have hlt : ∀ i, (a.octets i).toNat < 256 := fun i => (a.octets i).toNat_lt
  have hvalues : [formatUnsigned (a.octets 0).toNat, formatUnsigned (a.octets 1).toNat,
      formatUnsigned (a.octets 2).toNat, formatUnsigned (a.octets 3).toNat].mapM addressPart =
      some [(a.octets 0).toNat, (a.octets 1).toNat, (a.octets 2).toNat, (a.octets 3).toNat] := by
    simp only [List.mapM_cons, List.mapM_nil, addressPart_formatUnsigned]
    rfl
  rw [inetAddr, htext, splitOnP_toIp, hvalues, Option.bind_some,
    addressOf_four (hlt 0) (hlt 1) (hlt 2) (hlt 3), value_eq]

/-- The octets of a value. -/
theorem octet_value (a : InetAddress) (i : Fin 4) :
    UInt8.ofNat (a.value / 256 ^ (3 - i.val)) = a.octets i := by
  have hlt : ∀ i, (a.octets i).toNat < 256 := fun i => (a.octets i).toNat_lt
  have h0 := hlt 0
  have h1 := hlt 1
  have h2 := hlt 2
  have h3 := hlt 3
  apply UInt8.toNat_inj.mp
  rw [UInt8.toNat_ofNat', value_eq]
  match i with
  | 0 =>
    show _ / 256 ^ 3 % 256 = _
    omega
  | 1 =>
    show _ / 256 ^ 2 % 256 = _
    omega
  | 2 =>
    show _ / 256 ^ 1 % 256 = _
    omega
  | 3 =>
    show _ / 256 ^ 0 % 256 = _
    omega

theorem ofIp_toIp (a : InetAddress) : ofIp a.port a.toIp = a := by
  unfold ofIp
  rw [inetAddr_toIp, Option.getD_some]
  exact congrArg (InetAddress.mk · a.port) (funext fun i => octet_value a i)

theorem toIpPort_injective {a b : InetAddress} (h : a.toIpPort = b.toIpPort) : a = b := by
  have hcolon : ∀ n, (58 : UInt8) ∉ formatUnsigned n := not_mem_formatUnsigned (by decide)
  rw [toIpPort, toIpPort, List.append_assoc, List.append_assoc] at h
  obtain ⟨hip, hport⟩ := append_cons_inj (hcolon _) (hcolon _) h
  rw [← ofIp_toIp a, ← ofIp_toIp b, hip, UInt16.toNat_inj.mp (formatUnsigned_injective hport)]

theorem not_mem_toIpPort (a : InetAddress) {b : UInt8} (hdigit : isdigit b = false)
    (hdot : b ∉ ascii ".") (hcolon : b ∉ ascii ":") : b ∉ a.toIpPort := by
  simp only [toIpPort, toIp, List.mem_append, not_mem_formatUnsigned hdigit, hdot, hcolon, or_self,
    not_false_eq_true]

/-- Every address is read back from what is written of it; and what is written with the port behind
it determines both. -/
theorem address_read_back (a b : InetAddress) :
    ofIp a.port a.toIp = a ∧ (a.toIpPort = b.toIpPort ↔ a = b) :=
  ⟨ofIp_toIp a, toIpPort_injective, fun h => h ▸ rfl⟩

end InetAddress

namespace NamedServer

/-- The names that two servers, or one, have given to connections in any two runs are the same only
if the servers have the same name and listen at the same address, and the connections have the same
number; in one run they are the same connection. -/
theorem names_tell_apart {numThreads numThreads' : ℕ} {writeComplete writeComplete' : Bool}
    {a b : InetAddress} {nameArg nameArg' : List UInt8} (as bs : List Label) {s t : NamedServer}
    (hs : Machine.exec step (new numThreads writeComplete a nameArg) as = some s)
    (ht : Machine.exec step (new numThreads' writeComplete' b nameArg') bs = some t)
    (has : as.countP Label.isNew < 2 ^ 31 - 1) (hbs : bs.countP Label.isNew < 2 ^ 31 - 1)
    {c d : ℕ} (hc : s.conns c ≠ none) (hd : t.conns d ≠ none) :
    s.connName c = t.connName d ↔ nameArg = nameArg' ∧ a = b ∧ c = d := by
  have hname : ∀ {numThreads : ℕ} {writeComplete : Bool} {a : InetAddress} {nameArg : List UInt8}
      {as : List Label} {s : NamedServer} {c : ℕ},
      Machine.exec step (new numThreads writeComplete a nameArg) as = some s →
      as.countP Label.isNew < 2 ^ 31 - 1 → s.conns c ≠ none →
      s.connName c = nameArg ++ 126 :: (a.toIpPort ++ 35 :: formatUnsigned c) := by
    intro numThreads writeComplete a nameArg as s c hs has hc
    have hone : (new numThreads writeComplete a nameArg).nextConnId = 1 := rfl
    have hnamed := (exec_named (named_new numThreads writeComplete a nameArg) (by omega) hs).1
    have hnext := exec_nextConnId hs
    have hlt := ((hnamed.created c).mp hc).2
    rw [hnamed.connName c hc, connText_eq a (by omega)]
    simp only [show ascii "~" = [126] from rfl, show ascii "#" = [35] from rfl, List.append_assoc,
      List.cons_append, List.nil_append]
  rw [hname hs has hc, hname ht hbs hd]
  constructor
  · intro h
    have htilde : ∀ (a : InetAddress) (c : ℕ), 126 ∉ a.toIpPort ++ 35 :: formatUnsigned c := by
      intro a c
      rw [List.mem_append, List.mem_cons, not_or, not_or]
      exact ⟨a.not_mem_toIpPort (by decide) (by decide) (by decide), by decide,
        not_mem_formatUnsigned (by decide) c⟩
    have hhash : ∀ c, (35 : UInt8) ∉ formatUnsigned c := not_mem_formatUnsigned (by decide)
    obtain ⟨harg, hrest⟩ := append_cons_inj (htilde a c) (htilde b d) h
    obtain ⟨haddr, hnumber⟩ := append_cons_inj (hhash c) (hhash d) hrest
    exact ⟨harg, InetAddress.toIpPort_injective haddr, formatUnsigned_injective hnumber⟩
  · rintro ⟨rfl, rfl, rfl⟩
    rfl

def oneConnection : List Label := [.newConnection false 0]

/-- Two servers at different ports, each with its first connection. -/
theorem names_tell_apart_ports :
    ∃ s t, Machine.exec step (new 0 false loopback (ascii "srv")) oneConnection = some s ∧
      Machine.exec step (new 0 false ⟨loopback.octets, 8001⟩ (ascii "srv")) oneConnection = some t ∧
      s.connName 1 ≠ t.connName 1 := by
  have hs : Machine.exec step (new 0 false loopback (ascii "srv")) oneConnection = some _ := rfl
  have ht : Machine.exec step (new 0 false ⟨loopback.octets, 8001⟩ (ascii "srv")) oneConnection =
      some _ := rfl
  refine ⟨_, _, hs, ht, fun h => ?_⟩
  have hsame := (names_tell_apart oneConnection oneConnection hs ht (by decide) (by decide)
    (by decide) (by decide)).mp h
  exact absurd (congrArg InetAddress.port hsame.2.1) (by decide)

end NamedServer
end Webservers
