import Mathlib

/-!
# Rings addressed by free-running counters

A ring of `N` slots is addressed by positions that only ever grow: position `p`
lives in slot `p % N`.  The positions themselves are kept in counters that wrap
at `M`, a multiple of `N`, so that wrapping a counter does not move its slot.

A *window* is a run of consecutive positions, read out slot by slot.  Two
positions of a window no longer than the ring never share a slot (`slot_inj`),
two adjacent windows that together fit in the ring are disjoint
(`slot_ne_of_adjacent`), and reading a window commutes with moving its ends
(`window_add`, `window_drop`) and with writing behind it (`window_push`).
-/

namespace Ring

variable {N M : ℕ} {T : Type*}

/-- Two positions less than one lap apart share a slot only if they are the same. -/
theorem slot_inj {a i j : ℕ} (hi : i < N) (hj : j < N) (h : (a + i) % N = (a + j) % N) : i = j := by
  have hmod : i ≡ j [MOD N] := Nat.ModEq.add_left_cancel' a h
  exact hmod.eq_of_lt_of_lt hi hj

/-- Wrapping a counter at a multiple of the ring size does not move the slot. -/
theorem slot_wrap (hdvd : N ∣ M) (a i : ℕ) : (a % M + i) % N = (a + i) % N := by
  rw [Nat.add_mod, Nat.mod_mod_of_dvd a hdvd, ← Nat.add_mod]

/-- A window of `d` positions from `a` and the window right behind it share no slot, as long as
both fit in the ring together. -/
theorem slot_ne_of_adjacent {a d i j : ℕ} (hj : j < d) (hfit : d + i < N) :
    (a + d + i) % N ≠ (a + j) % N := by
  intro h
  rw [Nat.add_assoc] at h
  have := slot_inj (by omega) (by omega) h
  omega

/-- Masking with `2 ^ k - 1` takes the slot in a ring of `2 ^ k` slots. -/
theorem and_mask_eq_mod {mask k : ℕ} (hmask : mask = 2 ^ k - 1) (p : ℕ) :
    p &&& mask = p % 2 ^ k := by
  rw [hmask, Nat.and_two_pow_sub_one_eq_mod]

theorem two_pow_dvd {k w : ℕ} (h : k ≤ w) : 2 ^ k ∣ 2 ^ w := pow_dvd_pow 2 h

/-! ## Distances between wrapping counters -/

/-- The distance from `a` to `b` between counters that wrap at `M`, seen modulo the ring size. -/
theorem dist_mod (hdvd : N ∣ M) {a : ℕ} (ha : a < M) (b : ℕ) :
    (M - a + b) % N = (N - a % N + b % N) % N := by
  obtain ⟨n, rfl⟩ := hdvd
  have hN : 0 < N := Nat.pos_of_ne_zero fun h => by simp [h] at ha
  have hdiv : a / N < n := Nat.div_lt_of_lt_mul ha
  obtain ⟨m, rfl⟩ := Nat.exists_eq_add_of_lt hdiv
  have hmul : N * (a / N + m + 1) = N * (a / N) + N * m + N := by ring
  have hmod := Nat.div_add_mod a N
  have hlt := Nat.mod_lt a hN
  have hsum : N * (a / N + m + 1) - a + b = N - a % N + b + N * m := by omega
  rw [hsum, Nat.add_mul_mod_self_left, Nat.add_mod_mod]

/-- Going on from `a` to `b` and back again is one lap. -/
theorem dist_comm {a b : ℕ} (ha : a < N) (hb : b < N) (hne : a ≠ b) :
    (N - b + a) % N = N - (N - a + b) % N := by
  rcases Nat.lt_or_gt_of_ne hne with hlt | hlt
  · rw [Nat.mod_eq_of_lt (by omega), Nat.mod_eq_sub_mod (by omega), Nat.mod_eq_of_lt (by omega)]
    omega
  · rw [Nat.mod_eq_of_lt (show N - a + b < N by omega), Nat.mod_eq_sub_mod (by omega),
      Nat.mod_eq_of_lt (by omega)]
    omega

/-! ## Windows -/

/-- The contents of the `n` positions from `a` on. -/
def window (N : ℕ) (data : ℕ → T) (a n : ℕ) : List T :=
  (List.range n).map fun i => data ((a + i) % N)

@[simp] theorem length_window (data : ℕ → T) (a n : ℕ) : (window N data a n).length = n := by
  simp [window]

@[simp] theorem window_zero (data : ℕ → T) (a : ℕ) : window N data a 0 = [] := rfl

theorem getElem_window (data : ℕ → T) (a n : ℕ) {i : ℕ} (h : i < (window N data a n).length) :
    (window N data a n)[i] = data ((a + i) % N) := by
  simp [window]

/-- A window read from a wrapped counter. -/
theorem window_wrap (hdvd : N ∣ M) (data : ℕ → T) (a n : ℕ) :
    window N data (a % M) n = window N data a n := by
  simp only [window, slot_wrap hdvd]

/-- Two windows of one length that start in the same slot are the same. -/
theorem window_congr_start (data : ℕ → T) {a a' : ℕ} (h : a % N = a' % N) (n : ℕ) :
    window N data a n = window N data a' n := by
  refine List.map_congr_left fun i _ => ?_
  rw [Nat.add_mod, h, ← Nat.add_mod]

theorem window_add (data : ℕ → T) (a n m : ℕ) :
    window N data a (n + m) = window N data a n ++ window N data (a + n) m := by
  simp only [window, List.range_add, List.map_append, List.map_map, Function.comp_def,
    Nat.add_assoc]

theorem window_drop (data : ℕ → T) {a n c : ℕ} (h : c ≤ n) :
    (window N data a n).drop c = window N data (a + c) (n - c) := by
  obtain ⟨m, rfl⟩ := Nat.exists_eq_add_of_le h
  rw [window_add, List.drop_left' (length_window ..), Nat.add_sub_cancel_left]

/-- A window only depends on its own slots. -/
theorem window_congr {data data' : ℕ → T} {a n : ℕ}
    (h : ∀ i < n, data' ((a + i) % N) = data ((a + i) % N)) :
    window N data' a n = window N data a n :=
  List.map_congr_left fun i hi => h i (List.mem_range.1 hi)

/-- Writing a slot outside a window leaves it alone. -/
theorem window_update_of_ne {data : ℕ → T} {a n slot : ℕ} {v : T}
    (h : ∀ i < n, (a + i) % N ≠ slot) :
    window N (Function.update data slot v) a n = window N data a n :=
  window_congr fun i hi => Function.update_of_ne (h i hi) ..

/-- Writing the slot right behind a window that leaves room for it. -/
theorem window_push (data : ℕ → T) {a n : ℕ} (h : n < N) (v : T) :
    window N (Function.update data ((a + n) % N) v) a (n + 1) = window N data a n ++ [v] := by
  rw [window_add, window_update_of_ne fun i hi heq => ?_]
  · simp [window]
  · have := slot_inj (by omega) h heq
    omega

/-- The slots of a window that does not pass the end of the ring. -/
theorem window_eq_of_le (data : ℕ → T) {a n : ℕ} (h : a + n ≤ N) :
    window N data a n = (((List.range N).map data).take (a + n)).drop a := by
  refine List.ext_getElem (by simp; omega) fun i hi _ => ?_
  have hin : i < n := by simpa using hi
  simp [window, Nat.mod_eq_of_lt (show a + i < N by omega)]

/-- A window that passes the end of the ring: the end of the ring, then its beginning. -/
theorem window_eq_of_lt (data : ℕ → T) {a n : ℕ} (ha : a ≤ N) (hn : n ≤ N) (h : N ≤ a + n) :
    window N data a n =
      ((List.range N).map data).drop a ++ ((List.range N).map data).take (a + n - N) := by
  refine List.ext_getElem (by simp; omega) fun i hi _ => ?_
  have hin : i < n := by simpa using hi
  by_cases hlap : a + i < N
  · rw [List.getElem_append_left (by simp; omega)]
    simp [window, Nat.mod_eq_of_lt hlap]
  · rw [List.getElem_append_right (by simp; omega)]
    have hsub : (a + i) % N = i - (N - a) := by
      rw [Nat.mod_eq_sub_mod (by omega), Nat.mod_eq_of_lt (by omega)]
      omega
    simp [window, hsub]

end Ring
