import Mathlib.Tactic.Common
import Mathlib.Data.Nat.Notation
import Mathlib.Data.Int.Notation
import Mathlib.Data.List.TakeWhile
import Mathlib.Algebra.Group.Nat.Defs
import Mathlib.Algebra.Group.Int.Defs

/-!
# Character arrays and the string functions of the C library

An array of `char` is a function from indices to bytes. `slice` reads a range of it,
`storeBytes` copies bytes into it, and `cstr` is the string that starts at an index: the bytes
up to the first NUL or up to the end of the array. The functions of `<string.h>`,
`<strings.h>` and `<stdlib.h>` work on such strings, in the C locale and with the results
glibc gives where the standard leaves them open (the difference that `strncasecmp` returns,
the saturation of `atol`).
-/

namespace Webservers

/-- The bytes of a string literal. -/
def ascii (s : String) : List UInt8 := s.toList.map fun c => UInt8.ofNat c.toNat

/-! ## Ranges of an array -/

/-- `n` bytes from index `i` on. -/
def slice (m : ℕ → UInt8) (i n : ℕ) : List UInt8 := (List.range' i n).map m

/-- `memcpy(m + i, bytes, len)`. -/
def storeBytes (m : ℕ → UInt8) (i : ℕ) (bytes : List UInt8) : ℕ → UInt8 := fun k =>
  if i ≤ k then (bytes[k - i]?).getD (m k) else m k

/-- The string at index `i` of an array that has `n` more bytes. -/
def cstr (m : ℕ → UInt8) (i n : ℕ) : List UInt8 := (slice m i n).takeWhile (· != 0)

/-- The string that some bytes with a NUL behind them are. -/
def cText (bytes : List UInt8) : List UInt8 := bytes.takeWhile (· != 0)

variable {m m' : ℕ → UInt8} {i j n k : ℕ}

@[simp] theorem length_slice : (slice m i n).length = n := by
  rw [slice, List.length_map, List.length_range']

theorem slice_succ : slice m i (n + 1) = m i :: slice m (i + 1) n := by
  rw [slice, List.range'_succ, List.map_cons]
  rfl

theorem slice_add : slice m i (n + k) = slice m i n ++ slice m (i + n) k := by
  rw [slice, slice, slice, ← List.map_append, List.range'_append_1]

/-- Two arrays that agree on a range read the same there. -/
theorem slice_congr (h : ∀ k, i ≤ k → k < i + n → m k = m' k) : slice m i n = slice m' i n := by
  apply List.map_congr_left
  intro k hk
  have hrange := List.mem_range'_1.mp hk
  exact h k hrange.1 hrange.2

theorem take_slice (hk : k ≤ n) : (slice m i n).take k = slice m i k := by
  obtain ⟨d, rfl⟩ := Nat.exists_eq_add_of_le hk
  rw [slice_add, List.take_left' length_slice]

theorem drop_slice (hk : k ≤ n) : (slice m i n).drop k = slice m (i + k) (n - k) := by
  obtain ⟨d, rfl⟩ := Nat.exists_eq_add_of_le hk
  rw [slice_add, Nat.add_sub_cancel_left, List.drop_left' length_slice]

theorem getElem?_slice (hk : k < n) : (slice m i n)[k]? = some (m (i + k)) := by
  simp [slice, hk]

theorem storeBytes_lt (bytes : List UInt8) (h : k < i) : storeBytes m i bytes k = m k := by
  rw [storeBytes, if_neg (by omega)]

theorem storeBytes_nil : storeBytes m i [] = m := by
  funext k
  rw [storeBytes, List.getElem?_nil, Option.getD_none, ite_self]

theorem storeBytes_append (x y : List UInt8) :
    storeBytes (storeBytes m i x) (i + x.length) y = storeBytes m i (x ++ y) := by
  funext k
  simp only [storeBytes]
  by_cases hk : i + x.length ≤ k
  · have hx : x[k - i]? = none := List.getElem?_eq_none (by omega)
    have hsub : k - i - x.length = k - (i + x.length) := by omega
    rw [if_pos hk, if_pos (by omega), hx, Option.getD_none, List.getElem?_append_right (by omega),
      hsub, if_pos (by omega)]
  · rw [if_neg hk]
    by_cases hi : i ≤ k
    · rw [if_pos hi, if_pos hi, List.getElem?_append_left (by omega)]
    · rw [if_neg hi, if_neg hi]

theorem slice_storeBytes (bytes : List UInt8) :
    slice (storeBytes m i bytes) i bytes.length = bytes := by
  apply List.ext_getElem
  · rw [length_slice]
  · intro k hk hk'
    simp only [slice, List.getElem_map, List.getElem_range', Nat.one_mul, storeBytes,
      Nat.le_add_right, if_true, Nat.add_sub_cancel_left]
    rw [List.getElem?_eq_getElem hk', Option.getD_some]

theorem takeWhile_append_nul (l rest : List UInt8) :
    (l ++ 0 :: rest).takeWhile (· != 0) = l.takeWhile (· != 0) := by
  induction l with
  | nil => rfl
  | cons b l ih =>
    rw [List.cons_append, List.takeWhile_cons, List.takeWhile_cons, ih]

theorem cText_of_not_mem {bytes : List UInt8} (h : 0 ∉ bytes) : cText bytes = bytes := by
  apply List.takeWhile_eq_self_iff.mpr
  intro b hb
  rw [bne_iff_ne]
  exact fun hzero => h (hzero ▸ hb)

/-- A string ends at its NUL, whatever stands behind it. -/
theorem cstr_eq (hnul : m (i + k) = 0) (hk : k < n) :
    cstr m i n = (slice m i k).takeWhile (· != 0) := by
  obtain ⟨d, rfl⟩ := Nat.exists_eq_add_of_lt hk
  rw [cstr, Nat.add_assoc, slice_add, slice_succ, hnul, takeWhile_append_nul]

theorem takeWhile_drop {p : UInt8 → Bool} {l : List UInt8} {k : ℕ}
    (h : k ≤ (l.takeWhile p).length) : (l.drop k).takeWhile p = (l.takeWhile p).drop k := by
  induction l generalizing k with
  | nil => simp
  | cons b l ih =>
    cases k with
    | zero => rfl
    | succ k =>
      rw [List.takeWhile_cons] at h ⊢
      split at h
      · rename_i hb
        rw [if_pos hb, List.drop_succ_cons, List.drop_succ_cons]
        exact ih (Nat.le_of_succ_le_succ h)
      · exact absurd h (Nat.not_succ_le_zero k)

theorem takeWhile_set_nul (l : List UInt8) (k : ℕ) :
    (l.set k 0).takeWhile (· != 0) = (l.takeWhile (· != 0)).take k := by
  induction l generalizing k with
  | nil => simp
  | cons b l ih =>
    cases k with
    | zero => rfl
    | succ k =>
      rw [List.set_cons_succ, List.takeWhile_cons, List.takeWhile_cons, ih]
      split
      · rw [List.take_succ_cons]
      · rw [List.take_nil]

/-- A pointer into a string, up to its NUL. -/
theorem cstr_drop (h : k ≤ (cstr m i n).length) : cstr m (i + k) (n - k) = (cstr m i n).drop k := by
  have hk : k ≤ n := by
    have hle : (cstr m i n).length ≤ (slice m i n).length := (List.takeWhile_sublist _).length_le
    rw [length_slice] at hle
    omega
  rw [cstr, ← drop_slice hk]
  exact takeWhile_drop h

/-- Storing a NUL cuts the string. -/
theorem cstr_store_nul :
    cstr (fun j => if j = i + k then 0 else m j) i n = (cstr m i n).take k := by
  have hset : slice (fun j => if j = i + k then 0 else m j) i n = (slice m i n).set k 0 := by
    apply List.ext_getElem
    · rw [length_slice, List.length_set, length_slice]
    · intro j hj hj'
      simp only [slice, List.getElem_map, List.getElem_range', Nat.one_mul, List.getElem_set]
      by_cases heq : k = j
      · rw [if_pos heq, if_pos (by omega)]
      · rw [if_neg heq, if_neg (by omega)]
  rw [cstr, hset, takeWhile_set_nul, cstr]

/-- A string depends on its bytes and its NUL only. -/
theorem cstr_congr (h : ∀ j, i ≤ j → j ≤ i + (cstr m i n).length → m' j = m j) :
    cstr m' i n = cstr m i n := by
  induction n generalizing i with
  | zero => rfl
  | succ n ih =>
    have hi : m' i = m i := h i (Nat.le_refl _) (Nat.le_add_right _ _)
    simp only [cstr, slice_succ, List.takeWhile_cons, hi]
    split
    · rename_i hb
      congr 1
      apply ih
      intro j hij hj
      apply h j (by omega)
      simp only [cstr, slice_succ, List.takeWhile_cons, hb, if_true, List.length_cons]
      simp only [cstr] at hj
      omega
    · rfl

/-- The byte that ends a string, or the first one of it. -/
theorem headD_cstr (hn : 0 < n) : (cstr m i n).headD 0 = m i := by
  obtain ⟨d, rfl⟩ := Nat.exists_eq_add_of_lt hn
  rw [Nat.zero_add, cstr, slice_succ, List.takeWhile_cons]
  split
  · rfl
  · rename_i hb
    simp only [bne_iff_ne, ne_eq, not_not] at hb
    rw [hb]
    rfl

theorem cstr_eq_nil_iff (hn : 0 < n) : cstr m i n = [] ↔ m i = 0 := by
  obtain ⟨d, rfl⟩ := Nat.exists_eq_add_of_lt hn
  rw [Nat.zero_add, cstr, slice_succ, List.takeWhile_cons]
  split
  · rename_i hb
    simpa using hb
  · rename_i hb
    simpa using hb

/-! ## `<string.h>` and `<strings.h>` -/

/-- `strpbrk(s, accept)`, as an offset into `s`. -/
def strpbrk (s accept : List UInt8) : Option ℕ := s.findIdx? accept.contains

/-- `strchr(s, b)`, as an offset into `s`. -/
def strchr (s : List UInt8) (b : UInt8) : Option ℕ := s.findIdx? (· == b)

/-- `strspn(s, accept)`. -/
def strspn (s accept : List UInt8) : ℕ := (s.takeWhile accept.contains).length

theorem strpbrk_lt {s accept : List UInt8} {i : ℕ} (h : strpbrk s accept = some i) :
    i < s.length := by
  rw [strpbrk, List.findIdx?_eq_some_iff_findIdx_eq] at h
  exact h.1

theorem strchr_lt {s : List UInt8} {b : UInt8} {i : ℕ} (h : strchr s b = some i) :
    i < s.length := by
  rw [strchr, List.findIdx?_eq_some_iff_findIdx_eq] at h
  exact h.1

/-- A search ends at the first byte that meets the test. -/
theorem findIdx?_eq_some_iff {p : UInt8 → Bool} {s : List UInt8} {i : ℕ} :
    s.findIdx? p = some i ↔
      ∃ front b rest, s = front ++ b :: rest ∧ front.length = i ∧ p b = true ∧
        ∀ x ∈ front, p x = false := by
  induction s generalizing i with
  | nil => simp
  | cons a s ih =>
    rw [List.findIdx?_cons]
    split
    · rename_i ha
      constructor
      · intro h
        exact ⟨[], a, s, rfl, Option.some.inj h, ha, fun x hx => absurd hx List.not_mem_nil⟩
      · rintro ⟨front, b, rest, heq, rfl, hb, hfront⟩
        cases front with
        | nil => rfl
        | cons x front =>
          obtain ⟨rfl, -⟩ := List.cons.inj heq
          rw [hfront a List.mem_cons_self] at ha
          cases ha
    · rename_i ha
      rw [Option.map_eq_some_iff]
      constructor
      · rintro ⟨j, hj, rfl⟩
        obtain ⟨front, b, rest, rfl, rfl, hb, hfront⟩ := ih.mp hj
        refine ⟨a :: front, b, rest, rfl, rfl, hb, fun x hx => ?_⟩
        rcases List.mem_cons.mp hx with rfl | hx
        · exact Bool.eq_false_iff.mpr ha
        · exact hfront x hx
      · rintro ⟨front, b, rest, heq, rfl, hb, hfront⟩
        cases front with
        | nil =>
          obtain ⟨rfl, -⟩ := List.cons.inj heq
          exact absurd hb ha
        | cons x front =>
          obtain ⟨rfl, rfl⟩ := List.cons.inj heq
          refine ⟨front.length, ih.mpr ⟨front, b, rest, rfl, rfl, hb, fun y hy => ?_⟩, rfl⟩
          exact hfront y (List.mem_cons_of_mem _ hy)

theorem strpbrk_eq_some_iff {s accept : List UInt8} {i : ℕ} :
    strpbrk s accept = some i ↔
      ∃ front b rest, s = front ++ b :: rest ∧ front.length = i ∧ b ∈ accept ∧
        ∀ x ∈ front, x ∉ accept := by
  simp only [strpbrk, findIdx?_eq_some_iff, List.contains_eq_mem, decide_eq_true_eq,
    decide_eq_false_iff_not]

theorem strchr_eq_some_iff {s : List UInt8} {b : UInt8} {i : ℕ} :
    strchr s b = some i ↔ ∃ front rest, s = front ++ b :: rest ∧ front.length = i ∧ b ∉ front := by
  rw [strchr, findIdx?_eq_some_iff]
  constructor
  · rintro ⟨front, x, rest, rfl, rfl, hx, hfront⟩
    obtain rfl := beq_iff_eq.mp hx
    refine ⟨front, rest, rfl, rfl, fun hmem => ?_⟩
    have hne := hfront x hmem
    rw [beq_self_eq_true] at hne
    cases hne
  · rintro ⟨front, rest, rfl, rfl, hfront⟩
    refine ⟨front, b, rest, rfl, rfl, beq_self_eq_true b, fun x hx => ?_⟩
    exact beq_eq_false_iff_ne.mpr fun heq => hfront (heq ▸ hx)

/-- `tolower` in the C locale. -/
def tolower (b : UInt8) : UInt8 := if 65 ≤ b ∧ b ≤ 90 then b + 32 else b

/-- `strncasecmp(s, t, n)`: the difference of the first bytes that differ. -/
def strncasecmp : List UInt8 → List UInt8 → ℕ → ℤ
  | _, _, 0 => 0
  | s, t, n + 1 =>
    let x := tolower (s.headD 0)
    let y := tolower (t.headD 0)
    if x = y then
      if x = 0 then 0 else strncasecmp s.tail t.tail n
    else (x.toNat : ℤ) - y.toNat

/-- `strcasecmp(s, t)`: no more than the bytes of `s` and its NUL are compared. -/
def strcasecmp (s t : List UInt8) : ℤ := strncasecmp s t (s.length + 1)

/-- What is not a small letter comes from itself. -/
theorem eq_of_tolower {b x : UInt8} (h : tolower b = x) (hx : x.toNat < 97) : b = x := by
  unfold tolower at h
  split at h
  · rename_i hupper
    have hval := congrArg UInt8.toNat h
    obtain ⟨hlo, hhi⟩ := hupper
    rw [UInt8.le_iff_toNat_le] at hlo hhi
    rw [UInt8.toNat_add] at hval
    change 65 ≤ b.toNat at hlo
    change b.toNat ≤ 90 at hhi
    change (b.toNat + 32) % 256 = x.toNat at hval
    omega
  · exact h

theorem tolower_ne_zero {b : UInt8} (h : b ≠ 0) : tolower b ≠ 0 :=
  fun hzero => h (eq_of_tolower hzero (by decide))

/-- The bytes as `strncasecmp` compares them. -/
def lower (s : List UInt8) : List UInt8 := s.map tolower

theorem strncasecmp_cons (x y : UInt8) (s t : List UInt8) (n : ℕ) :
    strncasecmp (x :: s) (y :: t) (n + 1) =
      if tolower x = tolower y then if tolower x = 0 then 0 else strncasecmp s t n
      else ((tolower x).toNat : ℤ) - (tolower y).toNat := rfl

theorem toNat_sub_ne_zero {x y : UInt8} (h : x ≠ y) : (x.toNat : ℤ) - y.toNat ≠ 0 := by
  intro hsub
  apply h
  apply UInt8.toNat_inj.mp
  omega

/-- `strncasecmp` returns 0 for strings that agree in their first `n` bytes, case aside. -/
theorem strncasecmp_eq_zero_iff {s t : List UInt8} {n : ℕ} (hs : 0 ∉ s) (ht : 0 ∉ t) :
    strncasecmp s t n = 0 ↔ lower (s.take n) = lower (t.take n) := by
  induction n generalizing s t with
  | zero => exact iff_of_true rfl rfl
  | succ n ih =>
    cases s with
    | nil =>
      cases t with
      | nil => exact iff_of_true rfl rfl
      | cons y t =>
        have hy := tolower_ne_zero fun h : y = 0 => ht (h ▸ List.mem_cons_self)
        refine iff_of_false ?_ (List.cons_ne_nil _ _).symm
        show (if tolower 0 = tolower y then _ else ((tolower 0).toNat : ℤ) - (tolower y).toNat) ≠ 0
        have hne : tolower 0 ≠ tolower y := fun h => hy h.symm
        rw [if_neg hne]
        exact toNat_sub_ne_zero hne
    | cons x s =>
      have hx := tolower_ne_zero fun h : x = 0 => hs (h ▸ List.mem_cons_self)
      cases t with
      | nil =>
        refine iff_of_false ?_ (List.cons_ne_nil _ _)
        show (if tolower x = tolower 0 then _ else ((tolower x).toNat : ℤ) - (tolower 0).toNat) ≠ 0
        have hne : tolower x ≠ tolower 0 := hx
        rw [if_neg hne]
        exact toNat_sub_ne_zero hne
      | cons y t =>
        have hs' : 0 ∉ s := fun h => hs (List.mem_cons_of_mem _ h)
        have ht' : 0 ∉ t := fun h => ht (List.mem_cons_of_mem _ h)
        rw [strncasecmp_cons, List.take_succ_cons, List.take_succ_cons, lower, lower,
          List.map_cons, List.map_cons, List.cons.injEq]
        by_cases hxy : tolower x = tolower y
        · rw [if_pos hxy, if_neg hx, ih hs' ht']
          exact (and_iff_right hxy).symm
        · rw [if_neg hxy]
          exact iff_of_false (toNat_sub_ne_zero hxy) (fun h => hxy h.1)

/-- A string that begins with `t`, case aside, is at least as long. -/
theorem length_of_strncasecmp {s t : List UInt8} {n : ℕ} (hs : 0 ∉ s) (ht : 0 ∉ t)
    (h : strncasecmp s t n = 0) (hn : n ≤ t.length) : n ≤ s.length := by
  have hlen := congrArg List.length ((strncasecmp_eq_zero_iff hs ht).mp h)
  simp only [lower, List.length_map, List.length_take] at hlen
  omega

theorem strcasecmp_eq_zero_iff {s t : List UInt8} (hs : 0 ∉ s) (ht : 0 ∉ t) :
    strcasecmp s t = 0 ↔ lower s = lower t := by
  rw [strcasecmp, strncasecmp_eq_zero_iff hs ht, List.take_of_length_le (Nat.le_succ _)]
  constructor
  · intro h
    -- `t` has no more bytes than were compared
    have hlen := congrArg List.length h
    simp only [lower, List.length_map, List.length_take] at hlen
    rw [List.take_of_length_le (by omega)] at h
    exact h
  · intro h
    have hlen := congrArg List.length h
    simp only [lower, List.length_map] at hlen
    rw [List.take_of_length_le (by omega)]
    exact h

/-! ## `<stdlib.h>` -/

def longMax : ℤ := 2 ^ 63 - 1

def longMin : ℤ := -2 ^ 63

def isspace (b : UInt8) : Bool := b == 32 || (9 ≤ b && b ≤ 13)

def isdigit (b : UInt8) : Bool := 48 ≤ b && b ≤ 57

/-- The decimal number that the digits at the front of `s` spell. -/
def digits (s : List UInt8) : ℕ :=
  (s.takeWhile isdigit).foldl (fun value b => 10 * value + (b.toNat - 48)) 0

/-- `atol(s)`: leading white space, one sign, digits; out of range saturates. -/
def atol (s : List UInt8) : ℤ :=
  match s.dropWhile isspace with
  | 45 :: rest => max longMin (-(digits rest : ℤ))
  | 43 :: rest => min longMax (digits rest)
  | rest => min longMax (digits rest)

theorem atol_range (s : List UInt8) : longMin ≤ atol s ∧ atol s ≤ longMax := by
  unfold atol longMin longMax
  split <;> omega

end Webservers
