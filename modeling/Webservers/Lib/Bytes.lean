import Mathlib.Tactic.Common
import Mathlib.Data.Nat.Notation

/-!
# Arrays written in place

`storeList` and `copyForward` are the two shapes of `std::copy` that buffers use: writing a
range from elsewhere, and moving a range inside the array, both element by element from the
front. Each is followed by its closed form as a splice of `take` and `drop`; for
`copyForward` that form needs the destination not to lie after the source.
-/

namespace Webservers

variable {α : Type*}

/-- `std::copy(data, data + len, begin + dst)`. -/
def storeList : List α → ℕ → List α → List α
  | m, _, [] => m
  | m, dst, x :: xs => storeList (m.set dst x) (dst + 1) xs

/-- `std::copy(begin + src, begin + src + n, begin + dst)` inside one array. -/
def copyForward : List α → ℕ → ℕ → ℕ → List α
  | m, _, _, 0 => m
  | m, src, dst, n + 1 =>
    match m[src]? with
    | some x => copyForward (m.set dst x) (src + 1) (dst + 1) n
    | none => m

@[simp] theorem length_storeList (m : List α) (dst : ℕ) (xs : List α) :
    (storeList m dst xs).length = m.length := by
  induction xs generalizing m dst with
  | nil => rfl
  | cons x xs ih => rw [storeList, ih, List.length_set]

theorem storeList_eq (m : List α) (dst : ℕ) (xs : List α) (h : dst + xs.length ≤ m.length) :
    storeList m dst xs = m.take dst ++ xs ++ m.drop (dst + xs.length) := by
  induction xs generalizing m dst with
  | nil => simp [storeList]
  | cons x xs ih =>
    have hlt : dst < m.length := by simp only [List.length_cons] at h; omega
    rw [storeList, ih _ _ (by simp only [List.length_cons, List.length_set] at h ⊢; omega)]
    have hdst : (m.take dst).length = dst := by simp; omega
    have htake : (m.set dst x).take (dst + 1) = m.take dst ++ [x] := by
      rw [List.set_eq_take_append_cons_drop, if_pos hlt, List.take_append, hdst,
        Nat.add_sub_cancel_left, List.take_of_length_le (by omega)]
      simp
    have hdrop : (m.set dst x).drop (dst + 1 + xs.length) = m.drop (dst + (x :: xs).length) := by
      rw [List.drop_set_of_lt (by omega), List.length_cons]
      congr 1
      omega
    rw [htake, hdrop]
    simp

/-- Moving a range towards the front copies it faithfully: no element is read after it has
been overwritten. -/
theorem copyForward_eq (m : List α) (src dst n : ℕ) (hle : dst ≤ src)
    (h : src + n ≤ m.length) :
    copyForward m src dst n = storeList m dst ((m.drop src).take n) := by
  induction n generalizing m src dst with
  | zero => simp [copyForward, storeList]
  | succ n ih =>
    have hsrc : src < m.length := by omega
    have hget : m[src]? = some m[src] := List.getElem?_eq_getElem hsrc
    -- the element read in this round is still the original one
    have hrest : ((m.set dst m[src]).drop (src + 1)).take n = (m.drop (src + 1)).take n := by
      rw [List.drop_set_of_lt (by omega)]
    rw [copyForward, hget]
    simp only
    rw [ih _ _ _ (by omega) (by rw [List.length_set]; omega), hrest,
      List.drop_eq_getElem_cons hsrc, List.take_succ_cons, storeList]

end Webservers
