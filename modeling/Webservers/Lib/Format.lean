import Mathlib.Data.List.Basic
import Webservers.Lib.CString

/-!
# Integers of C and how `printf` writes them

`int` has 32 bits and `size_t` 64. `%d` and `%u` write a number in decimal; both are injective on
the numbers that are not negative, and their texts hold digits only.
-/

namespace Webservers

/-- Conversion to `int`. -/
def toInt (x : ℤ) : ℤ := x.bmod (2 ^ 32)

/-- Conversion to `size_t`. -/
def toSizeT (x : ℤ) : ℕ := (x % 2 ^ 64).toNat

/-- The characters `%d` prints for an `int`. -/
def formatInt (x : ℤ) : List UInt8 :=
  (if x < 0 then ascii "-" else []) ++
    (Nat.toDigits 10 x.natAbs).map fun c => UInt8.ofNat c.toNat

/-- The characters `%u` prints. -/
def formatUnsigned (n : ℕ) : List UInt8 := (Nat.toDigits 10 n).map fun c => UInt8.ofNat c.toNat

theorem formatInt_natCast (n : ℕ) : formatInt n = formatUnsigned n := by
  rw [formatInt, if_neg (Int.not_lt.mpr (Int.natCast_nonneg n)), List.nil_append,
    Int.natAbs_natCast, formatUnsigned]

/-- The code of a digit. -/
theorem digit_range {c : Char} (h : c.isDigit = true) : 48 ≤ c.toNat ∧ c.toNat ≤ 57 := by
  rw [Char.isDigit, Bool.and_eq_true, decide_eq_true_eq, decide_eq_true_eq] at h
  exact ⟨UInt32.le_iff_toNat_le.mp h.1, UInt32.le_iff_toNat_le.mp h.2⟩

theorem mem_formatUnsigned {n : ℕ} {b : UInt8} (h : b ∈ formatUnsigned n) :
    48 ≤ b.toNat ∧ b.toNat ≤ 57 := by
  obtain ⟨c, hc, rfl⟩ := List.mem_map.mp h
  have hrange := digit_range (Nat.isDigit_of_mem_toDigits (by omega) (by omega) hc)
  rw [UInt8.toNat_ofNat']
  omega

theorem nul_not_mem_formatUnsigned (n : ℕ) : 0 ∉ formatUnsigned n := by
  intro hmem
  have hrange := mem_formatUnsigned hmem
  rw [UInt8.toNat_zero] at hrange
  omega

/-- The digits can be read off the text again. -/
theorem map_formatUnsigned (n : ℕ) :
    (formatUnsigned n).map (fun b => Char.ofNat b.toNat) = Nat.toDigits 10 n := by
  rw [formatUnsigned, List.map_map]
  nth_rewrite 2 [← List.map_id (Nat.toDigits 10 n)]
  apply List.map_congr_left
  intro c hc
  have hrange := digit_range (Nat.isDigit_of_mem_toDigits (by omega) (by omega) hc)
  have hbyte : (UInt8.ofNat c.toNat).toNat = c.toNat := by
    rw [UInt8.toNat_ofNat']
    omega
  show Char.ofNat (UInt8.ofNat c.toNat).toNat = c
  rw [hbyte, Char.ofNat_toNat]

theorem formatUnsigned_injective : Function.Injective formatUnsigned := by
  intro n k h
  have hdigits : Nat.toDigits 10 n = Nat.toDigits 10 k := by
    rw [← map_formatUnsigned n, h, map_formatUnsigned]
  calc
    n = Nat.ofDigitChars 10 (Nat.toDigits 10 n) 0 := Nat.ofDigitChars_ten_toDigits.symm
    _ = Nat.ofDigitChars 10 (Nat.toDigits 10 k) 0 := by rw [hdigits]
    _ = k := Nat.ofDigitChars_ten_toDigits

theorem isdigit_formatUnsigned {n : ℕ} {b : UInt8} (h : b ∈ formatUnsigned n) :
    isdigit b = true := by
  obtain ⟨hlow, hhigh⟩ := mem_formatUnsigned h
  rw [isdigit, Bool.and_eq_true, decide_eq_true_eq, decide_eq_true_eq, UInt8.le_iff_toNat_le,
    UInt8.le_iff_toNat_le]
  exact ⟨hlow, hhigh⟩

/-- The number that is read where `%u` has written, as far as no digit follows. -/
theorem digits_formatUnsigned (n : ℕ) {rest : List UInt8}
    (hrest : ∀ b, rest.head? = some b → isdigit b = false) :
    digits (formatUnsigned n ++ rest) = n := by
  have hfront : (formatUnsigned n ++ rest).takeWhile isdigit = formatUnsigned n := by
    rw [List.takeWhile_append_of_pos fun b hb => isdigit_formatUnsigned hb]
    cases rest with
    | nil => exact List.append_nil _
    | cons b rest =>
      rw [List.takeWhile_cons_of_neg (by rw [hrest b rfl]; exact Bool.false_ne_true),
        List.append_nil]
  rw [digits, hfront]
  calc
    (formatUnsigned n).foldl (fun value b => 10 * value + (b.toNat - 48)) 0
      = (Nat.toDigits 10 n).foldl (fun value c => 10 * value + (c.toNat - '0'.toNat)) 0 := by
        rw [formatUnsigned, List.foldl_map]
        apply List.foldl_ext
        intro value c hc
        have hrange := digit_range (Nat.isDigit_of_mem_toDigits (by omega) (by omega) hc)
        rw [UInt8.toNat_ofNat', Nat.mod_eq_of_lt (by omega)]
        rfl
    _ = n := Nat.ofDigitChars_ten_toDigits

theorem formatUnsigned_eq_cons (n : ℕ) :
    ∃ b text, formatUnsigned n = b :: text ∧ isdigit b = true := by
  cases h : formatUnsigned n with
  | nil =>
    have hnil : Nat.toDigits 10 n = [] := List.map_eq_nil_iff.mp h
    exact absurd hnil Nat.toDigits_ne_nil
  | cons b text =>
    exact ⟨b, text, rfl, isdigit_formatUnsigned (n := n) (by rw [h]; exact List.mem_cons_self)⟩

/-- A number other than 0 is written without a leading zero. -/
theorem head_formatUnsigned {n : ℕ} (h : 0 < n) : (formatUnsigned n).head? ≠ some 48 := by
  induction n using Nat.strongRecOn with
  | ind n ih =>
    rw [formatUnsigned, Nat.toDigits_eq_if (by omega)]
    split
    · have hdigit : ∀ d < 10, 0 < d → UInt8.ofNat (Nat.digitChar d).toNat ≠ 48 := by decide
      simpa using hdigit n ‹_› h
    · rw [List.map_append, ← formatUnsigned]
      obtain ⟨b, text, heq, -⟩ := formatUnsigned_eq_cons (n / 10)
      have hfront := ih (n / 10) (by omega) (by omega)
      rw [heq] at hfront ⊢
      exact hfront

theorem ne_of_isdigit {b k : UInt8} (h : isdigit b = true) (hk : isdigit k = false) : b ≠ k := by
  rintro rfl
  exact absurd (h.symm.trans hk) Bool.noConfusion

theorem isspace_of_isdigit {b : UInt8} (h : isdigit b = true) : isspace b = false := by
  rw [isdigit, Bool.and_eq_true, decide_eq_true_eq, UInt8.le_iff_toNat_le] at h
  have hlow : 48 ≤ b.toNat := h.1
  have hhigh : ¬ b ≤ 13 := by
    rw [UInt8.le_iff_toNat_le]
    show ¬ b.toNat ≤ 13
    omega
  have hblank : b ≠ 32 := by
    rintro rfl
    exact absurd hlow (by decide)
  rw [isspace, beq_eq_false_iff_ne.mpr hblank, decide_eq_false hhigh, Bool.and_false, Bool.or_self]

/-- `atol` reads behind a blank what `%u` has written. -/
theorem atol_formatUnsigned {n : ℕ} (h : (n : ℤ) ≤ longMax) :
    atol (32 :: formatUnsigned n) = n := by
  have hdigits : digits (formatUnsigned n ++ []) = n := digits_formatUnsigned n (by simp)
  rw [List.append_nil] at hdigits
  obtain ⟨b, text, heq, hdigit⟩ := formatUnsigned_eq_cons n
  have hdrop : (32 :: formatUnsigned n).dropWhile isspace = formatUnsigned n := by
    rw [List.dropWhile_cons_of_pos (by decide), heq, List.dropWhile_cons_of_neg
      (by rw [isspace_of_isdigit hdigit]; exact Bool.false_ne_true)]
  rw [atol, hdrop]
  split
  · rename_i hsign
    rw [heq, List.cons.injEq] at hsign
    exact absurd hsign.1 (ne_of_isdigit hdigit (by decide))
  · rename_i hsign
    rw [heq, List.cons.injEq] at hsign
    exact absurd hsign.1 (ne_of_isdigit hdigit (by decide))
  · rw [hdigits]
    exact Int.min_eq_right h

/-- What follows the last separator is determined, and so is what comes before it. -/
theorem append_cons_inj {x y u v : List UInt8} {b : UInt8} (hu : b ∉ u) (hv : b ∉ v)
    (h : x ++ b :: u = y ++ b :: v) : x = y ∧ u = v := by
  have hlonger : ∀ {u v rest : List UInt8}, b ∉ u → b :: u = rest ++ b :: v → rest = [] := by
    intro u v rest hu heq
    cases rest with
    | nil => rfl
    | cons b' rest =>
      rw [List.cons_append, List.cons.injEq] at heq
      exact absurd (heq.2 ▸ List.mem_append_right _ List.mem_cons_self) hu
  rcases List.append_eq_append_iff.mp h with ⟨rest, hy, hrest⟩ | ⟨rest, hx, hrest⟩
  · have hnil := hlonger hu hrest
    subst hnil
    exact ⟨by rw [hy, List.append_nil], (List.cons.inj hrest).2⟩
  · have hnil := hlonger hv hrest
    subst hnil
    exact ⟨by rw [hx, List.append_nil], (List.cons.inj hrest).2.symm⟩

theorem not_mem_formatUnsigned {b : UInt8} (h : isdigit b = false) (n : ℕ) :
    b ∉ formatUnsigned n :=
  fun hb => ne_of_isdigit (isdigit_formatUnsigned hb) h rfl

theorem length_formatUnsigned_le {n k : ℕ} (hk : 0 < k) (h : n < 10 ^ k) :
    (formatUnsigned n).length ≤ k := by
  rw [formatUnsigned, List.length_map]
  exact (Nat.length_toDigits_le_iff (by omega) hk).mpr h

/-- An `int` has at most ten digits and a sign. -/
theorem length_formatInt_le (x : ℤ) : (formatInt (toInt x)).length ≤ 11 := by
  have hlow : -2 ^ 31 ≤ toInt x := Int.le_bmod (by decide)
  have hhigh : toInt x < 2 ^ 31 := Int.bmod_lt (by decide)
  have hdigits := length_formatUnsigned_le (n := (toInt x).natAbs) (k := 10) (by decide) (by omega)
  have hsign : (if toInt x < 0 then ascii "-" else []).length ≤ 1 := by
    split <;> decide
  rw [formatInt, List.length_append]
  exact Nat.add_le_add hsign hdigits

end Webservers
