import Hamerkop.StableSlotmap.Refinement

/-!
# Slotmaps that carry their invariant

`Slots T` is a `StableSlotmap T` together with the proof that it is well formed,
which is how the executor's tables hold one.  Its operations are those of the
slotmap, and their effect is stated on `get`, the finite map they act on.
-/

namespace Hamerkop

/-- A well-formed slotmap. -/
structure Slots (T : Type) where
  raw : StableSlotmap T
  wf : raw.Wf

namespace Slots

variable {T : Type}

/-- A map without elements. -/
def new : Slots T := ⟨.new, .new⟩

/-- The element at `index`: the finite map that the slotmap is. -/
def get (s : Slots T) (index : ℕ) : Option T := s.raw.get index

/-- The number of elements. -/
def len (s : Slots T) : ℕ := s.raw.len

/-- `is_empty()` -/
def isEmpty (s : Slots T) : Bool := s.raw.isEmpty

theorem wf_of_insert {s : Slots T} {v : T} {r : ℕ × StableSlotmap T}
    (h : s.raw.insert v = .ok r) : r.2.Wf := by
  rcases StableSlotmap.insert_spec s.wf v with ⟨-, hoom⟩ | ⟨i, m', hi, hins⟩
  · simp [hoom] at h
  · rw [hi, Except.ok.injEq] at h
    exact h ▸ hins.wf

theorem wf_of_remove {s : Slots T} {i : ℕ} {r : Option T × StableSlotmap T}
    (h : s.raw.remove i = .ok r) : r.2.Wf := by
  cases hi : s.raw.get i with
  | none =>
    rw [StableSlotmap.remove_of_get_none hi, Except.ok.injEq] at h
    exact h ▸ s.wf
  | some v =>
    obtain ⟨m', hm', hrem⟩ := StableSlotmap.remove_spec s.wf hi
    rw [hm', Except.ok.injEq] at h
    exact h ▸ hrem.wf

/-- `insert`; `none` when it finds no memory and the process is aborted. -/
def insert (s : Slots T) (value : T) : Option (ℕ × Slots T) :=
  match h : s.raw.insert value with
  | .ok r => some (r.1, ⟨r.2, wf_of_insert h⟩)
  | .error _ => none

/-- `remove`: the element, and the map without it. -/
def remove (s : Slots T) (index : ℕ) : Option T × Slots T :=
  match h : s.raw.remove index with
  | .ok r => (r.1, ⟨r.2, wf_of_remove h⟩)
  -- not reached: `remove` of a well-formed map does not fail
  | .error _ => (none, s)

/-- `if let Some(r) = self.get_mut(index) { *r = f(*r) }`. -/
def modify (s : Slots T) (index : ℕ) (f : T → T) : Slots T :=
  ⟨(s.raw.getMut index f).2, (StableSlotmap.getMut_ok s.wf f).2.1⟩

@[simp] theorem get_new (i : ℕ) : (new : Slots T).get i = none := rfl

@[simp] theorem isEmpty_eq (s : Slots T) : s.isEmpty = (s.len == 0) := rfl

@[simp] theorem len_new : (new : Slots T).len = 0 := rfl

/-! ## The operations seen through `get` -/

theorem insert_eq_some {s s' : Slots T} {v : T} {i : ℕ} (h : s.insert v = some (i, s')) :
    StableSlotmap.Inserted s.raw v i s'.raw := by
  rw [insert] at h
  split at h
  · rename_i r hr
    rw [Option.some.injEq, Prod.mk.injEq] at h
    obtain ⟨rfl, rfl⟩ := h
    rcases StableSlotmap.insert_spec s.wf v with ⟨-, hoom⟩ | ⟨i, m', hi, hins⟩
    · simp [hoom] at hr
    · rw [hi, Except.ok.injEq] at hr
      exact hr ▸ hins
  · cases h

theorem get_before_insert {s s' : Slots T} {v : T} {i : ℕ} (h : s.insert v = some (i, s')) :
    s.get i = none := (insert_eq_some h).get_before

theorem get_insert {s s' : Slots T} {v : T} {i : ℕ} (h : s.insert v = some (i, s')) :
    s'.get = Function.update s.get i (some v) := (insert_eq_some h).get_after

theorem len_insert {s s' : Slots T} {v : T} {i : ℕ} (h : s.insert v = some (i, s')) :
    s'.len = s.len + 1 := (insert_eq_some h).len

theorem remove_eq {s : Slots T} {i : ℕ} {r : Option T × StableSlotmap T}
    (h : s.raw.remove i = .ok r) : s.remove i = (r.1, ⟨r.2, wf_of_remove h⟩) := by
  rw [remove]
  split
  · rename_i r' hr
    obtain rfl := Except.ok.inj (hr.symm.trans h)
    rfl
  · rename_i e he
    simp [h] at he

theorem remove_of_get_none {s : Slots T} {i : ℕ} (hi : s.get i = none) :
    s.remove i = (none, s) := remove_eq (StableSlotmap.remove_of_get_none hi)

theorem remove_fst (s : Slots T) (i : ℕ) : (s.remove i).1 = s.get i := by
  cases hi : s.get i with
  | none => rw [remove_of_get_none hi]
  | some v =>
    obtain ⟨m', hm', -⟩ := StableSlotmap.remove_spec s.wf hi
    rw [remove_eq hm']

/-- `remove` of a live index, as the slotmap does it. -/
theorem remove_snd {s : Slots T} {i : ℕ} {v : T} (hi : s.get i = some v) :
    StableSlotmap.Removed s.raw i (s.remove i).2.raw := by
  obtain ⟨m', hm', hrem⟩ := StableSlotmap.remove_spec s.wf hi
  rw [remove_eq hm']
  exact hrem

theorem len_remove_le (s : Slots T) (i : ℕ) : (s.remove i).2.len ≤ s.len := by
  cases hi : s.get i with
  | none => rw [remove_of_get_none hi]
  | some v =>
    have hlen := (remove_snd hi).len
    simp only [len]
    omega

theorem get_remove (s : Slots T) (i : ℕ) :
    (s.remove i).2.get = Function.update s.get i none := by
  cases hi : s.get i with
  | none => rw [remove_of_get_none hi, ← hi, Function.update_eq_self]
  | some v => exact (remove_snd hi).get_after

theorem get_modify (s : Slots T) (i : ℕ) (f : T → T) :
    (s.modify i f).get = Function.update s.get i ((s.get i).map f) :=
  (StableSlotmap.getMut_ok s.wf f).2.2.1

/-- A free index stays free when another one changes, or this one to something free. -/
theorem update_eq_none {get : ℕ → Option T} {i j : ℕ} {x : Option T} (hi : get i = none)
    (hx : i = j → x = none) : Function.update get j x i = none := by
  by_cases hij : i = j
  · rw [hij, Function.update_self, hx hij]
  · rw [Function.update_of_ne hij, hi]

theorem get_remove_of_none {s : Slots T} {j : ℕ} (h : s.get j = none) (i : ℕ) :
    (s.remove i).2.get j = none := by
  rw [get_remove]
  exact update_eq_none h fun _ => rfl

theorem get_of_remove {s : Slots T} {i j : ℕ} {v : T} (h : (s.remove i).2.get j = some v) :
    s.get j = some v := by
  rw [get_remove] at h
  by_cases hji : j = i
  · rw [hji, Function.update_self] at h
    cases h
  · rwa [Function.update_of_ne hji] at h

theorem get_modify_of_none {s : Slots T} {j : ℕ} (h : s.get j = none) (i : ℕ) (f : T → T) :
    (s.modify i f).get j = none := by
  rw [get_modify]
  refine update_eq_none h fun hji => ?_
  rw [← hji, h, Option.map_none]

/-- Live indices are far below `usize::MAX`. -/
theorem lt_of_get {s : Slots T} {i : ℕ} {v : T} (h : s.get i = some v) : i < 2 ^ 61 :=
  (StableSlotmap.lt_capacity_of_get h).trans_le s.wf.capacity_le

/-- The live indices. -/
def live (s : Slots T) : Finset ℕ := s.raw.live

theorem mem_live {s : Slots T} {i : ℕ} : i ∈ s.live ↔ (s.get i).isSome := StableSlotmap.mem_live

theorem len_eq (s : Slots T) : s.len = s.live.card := s.wf.size_eq

/-! ## How far the indices go -/

/-- The number of slabs allocated so far. -/
def slabCount (s : Slots T) : ℕ := s.raw.slabs.length

@[simp] theorem slabCount_new : (new : Slots T).slabCount = 0 := rfl

theorem lt_slabCount_mul {s : Slots T} {i : ℕ} {v : T} (h : s.get i = some v) :
    i < s.slabCount * SLABSIZE := StableSlotmap.lt_capacity_of_get h

@[simp] theorem slabCount_remove (s : Slots T) (i : ℕ) :
    (s.remove i).2.slabCount = s.slabCount := by
  cases hi : s.get i with
  | none => rw [remove_of_get_none hi]
  | some v => exact (remove_snd hi).slabs

@[simp] theorem slabCount_modify (s : Slots T) (i : ℕ) (f : T → T) :
    (s.modify i f).slabCount = s.slabCount := by
  simp only [slabCount, modify, StableSlotmap.getMut]
  split
  · exact StableSlotmap.length_slabs_setSlot ..
  · rfl

/-- A slab is only added when every slot is taken: fewer than `n` slabs' worth of elements
never need more than `n` slabs. -/
theorem slabCount_insert_le {s s' : Slots T} {v : T} {i n : ℕ} (h : s.insert v = some (i, s'))
    (hn : s.slabCount ≤ n) (hlen : s.len < n * SLABSIZE) : s'.slabCount ≤ n := by
  rcases (insert_eq_some h).slabs with hs | ⟨hfull, hs⟩
  · simp only [slabCount] at hn ⊢
    omega
  · have hlt : s.slabCount * SLABSIZE < n * SLABSIZE := by
      rw [show s.slabCount * SLABSIZE = s.raw.capacity from rfl, hfull]
      exact hlen
    have := Nat.lt_of_mul_lt_mul_right hlt
    simp only [slabCount] at this ⊢
    omega

end Slots

end Hamerkop
