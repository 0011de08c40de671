import Hamerkop.FixedVec.Vector

/-!
# `FixedVec::retain`

`retain` shows each element to a predicate and swaps those that are to stay to the front.  At
every moment the vector consists of the elements kept, those rejected and those not visited
yet; the rejected ones may be out of order.  A call of the predicate may panic, which leaves
the vector as it is at that moment.
-/

namespace Hamerkop

namespace RawVec

open VecM

variable {T S : Type}

/-! ## The source -/

/-- The `for` loop, with so many elements left to visit.  The predicate has a state of its own; it
gives no answer when it panics. -/
def retainLoop (f : S → T → Option (Bool × S)) : ℕ → S → ℕ → ℕ → VecM T ℕ
  | 0, _, _, j => return j
  | count + 1, s, i, j => do
    let x ← index i
    lend x
    match f s x with
    | none => panic
    | some (true, s') => do
      ptrSwap i j
      retainLoop f count s' (i + 1) (j + 1)
    | some (false, s') => retainLoop f count s' (i + 1) j

/-- `retain(f)` -/
def retain (f : S → T → Option (Bool × S)) (s : S) : VecM T Unit := do
  let v ← vec
  let j ← retainLoop f v.len s 0 0
  truncate j

/-! ## The predicate -/

/-- The answers to all these elements, shown one after the other, if no call panics. -/
def answers (f : S → T → Option (Bool × S)) : S → List T → Option (List (T × Bool))
  | _, [] => some []
  | s, x :: l =>
    match f s x with
    | none => none
    | some (b, s') => (answers f s' l).map fun ans => (x, b) :: ans

/-- The elements that are shown, the last of them being the one whose call panics, if one does. -/
def shown (f : S → T → Option (Bool × S)) : S → List T → List T
  | _, [] => []
  | s, x :: l =>
    match f s x with
    | none => [x]
    | some (_, s') => x :: shown f s' l

/-- The elements that stay. -/
def accepted (ans : List (T × Bool)) : List T := (ans.filter (·.2)).map (·.1)

/-- The elements that are dropped. -/
def rejected (ans : List (T × Bool)) : List T := (ans.filter (!·.2)).map (·.1)

variable {f : S → T → Option (Bool × S)} {s s' : S} {x : T} {l : List T}

theorem shown_prefix (f : S → T → Option (Bool × S)) (s : S) (l : List T) : shown f s l <+: l := by
  induction l generalizing s with
  | nil => exact List.prefix_refl []
  | cons x l ih =>
    rw [shown]
    cases f s x with
    | none => exact ⟨l, rfl⟩
    | some r => exact List.cons_prefix_cons.mpr ⟨rfl, ih r.2⟩

theorem shown_eq {ans : List (T × Bool)} (h : answers f s l = some ans) : shown f s l = l := by
  induction l generalizing s ans with
  | nil => rfl
  | cons x l ih =>
    rw [answers] at h
    rw [shown]
    cases hf : f s x with
    | none => simp [hf] at h
    | some r =>
      simp only [hf, Option.map_eq_some_iff] at h
      obtain ⟨ans', hans, -⟩ := h
      exact congrArg (x :: ·) (ih hans)

/-! ## One turn of the loop -/

variable {m : Mem T} {kept out todo : List T}

/-- The first of the rejected elements makes room for the element that is kept. -/
theorem swap_kept (kept out todo : List T) (x : T) (hi : kept.length + out.length <
    (kept ++ out ++ x :: todo).length) (hj : kept.length < (kept ++ out ++ x :: todo).length) :
    ∃ out', out'.Perm out ∧
      ((kept ++ out ++ x :: todo).set (kept.length + out.length)
        (kept ++ out ++ x :: todo)[kept.length]).set kept.length
        (kept ++ out ++ x :: todo)[kept.length + out.length] =
      (kept ++ [x]) ++ out' ++ todo := by
  cases out with
  | nil =>
    refine ⟨[], .refl [], ?_⟩
    simp
  | cons r out =>
    refine ⟨out ++ [r], List.perm_append_singleton r out, ?_⟩
    simp

theorem retainLoop_keep (h : m.vec.Holds (kept ++ out ++ x :: todo))
    (hf : f s x = some (true, s')) :
    ∃ m₁ out', retainLoop f (todo.length + 1) s (kept.length + out.length) kept.length m =
        retainLoop f todo.length s' ((kept ++ [x]).length + out'.length) (kept ++ [x]).length m₁ ∧
      After m m₁ ((kept ++ [x]) ++ out' ++ todo) [] ∧ out'.Perm out ∧ m₁.lent = m.lent ++ [x] := by
  have hi : kept.length + out.length < (kept ++ out ++ x :: todo).length := by simp
  have hj : kept.length < (kept ++ out ++ x :: todo).length := by simp
  have hindex := index_eq h hi
  have hx : (kept ++ out ++ x :: todo)[kept.length + out.length] = x := by
    rw [List.getElem_append_right (by rw [List.length_append])]
    simp
  obtain ⟨out', hperm, hswap⟩ := swap_kept kept out todo x hi hj
  obtain ⟨rest, hcells, hsize, hrest⟩ := h
  have hptr := ptrSwap_eq (m := { m with lent := m.lent ++ [x] }) hcells hi hj
  rw [hswap] at hptr
  rw [hx] at hindex
  have hlen : (kept ++ [x]).length + out'.length = kept.length + out.length + 1 := by
    rw [List.length_append, List.length_singleton, hperm.length_eq]
    omega
  refine ⟨{ m with
      vec := { m.vec with cells := ((kept ++ [x]) ++ out' ++ todo).map .init ++ rest }
      lent := m.lent ++ [x] }, out', ?_,
    ⟨⟨rest, rfl, ?_, hrest⟩, ?_, (List.append_nil _).symm, rfl⟩, hperm, rfl⟩
  · rw [retainLoop, bind_ok hindex, hlen, List.length_append, List.length_singleton]
    refine (bind_ok (rfl : lend x m = _)).trans ?_
    rw [hf]
    exact bind_ok hptr
  · rw [hsize]
    simp only [List.length_append, List.length_cons, List.length_nil, hperm.length_eq]
    omega
  · simp only [capacity, hcells, List.length_append, List.length_map, List.length_cons,
      List.length_nil, hperm.length_eq]
    omega

theorem retainLoop_reject (h : m.vec.Holds (kept ++ out ++ x :: todo))
    (hf : f s x = some (false, s')) :
    ∃ m₁, retainLoop f (todo.length + 1) s (kept.length + out.length) kept.length m =
        retainLoop f todo.length s' (kept.length + (out ++ [x]).length) kept.length m₁ ∧
      After m m₁ (kept ++ (out ++ [x]) ++ todo) [] ∧ m₁.lent = m.lent ++ [x] := by
  have hi : kept.length + out.length < (kept ++ out ++ x :: todo).length := by simp
  have hindex := index_eq h hi
  have hx : (kept ++ out ++ x :: todo)[kept.length + out.length] = x := by
    rw [List.getElem_append_right (by rw [List.length_append])]
    simp
  rw [hx] at hindex
  have hlist : kept ++ out ++ x :: todo = kept ++ (out ++ [x]) ++ todo := by simp
  rw [hlist] at h
  refine ⟨{ m with lent := m.lent ++ [x] }, ?_, ⟨h, rfl, (List.append_nil _).symm, rfl⟩, rfl⟩
  rw [retainLoop, bind_ok hindex]
  refine (bind_ok (rfl : lend x m = _)).trans ?_
  rw [hf, List.length_append, List.length_singleton, Nat.add_assoc]

theorem retainLoop_stop (h : m.vec.Holds (kept ++ out ++ x :: todo)) (hf : f s x = none) :
    ∃ m₁, retainLoop f (todo.length + 1) s (kept.length + out.length) kept.length m = .panic m₁ ∧
      After m m₁ (kept ++ out ++ x :: todo) [] ∧ m₁.lent = m.lent ++ [x] := by
  have hi : kept.length + out.length < (kept ++ out ++ x :: todo).length := by simp
  have hindex := index_eq h hi
  have hx : (kept ++ out ++ x :: todo)[kept.length + out.length] = x := by
    rw [List.getElem_append_right (by rw [List.length_append])]
    simp
  rw [hx] at hindex
  refine ⟨{ m with lent := m.lent ++ [x] }, ?_, ⟨h, rfl, (List.append_nil _).symm, rfl⟩, rfl⟩
  rw [retainLoop, bind_ok hindex]
  refine (bind_ok (rfl : lend x m = _)).trans ?_
  rw [hf]
  rfl

/-! ## The whole loop -/

theorem retainLoop_ok {ans : List (T × Bool)} (h : m.vec.Holds (kept ++ out ++ todo))
    (hans : answers f s todo = some ans) :
    ∃ m' out', retainLoop f todo.length s (kept.length + out.length) kept.length m =
        .ok (kept ++ accepted ans).length m' ∧
      After m m' (kept ++ accepted ans ++ out') [] ∧ out'.Perm (out ++ rejected ans) ∧
      m'.lent = m.lent ++ todo := by
  induction todo generalizing s m kept out ans with
  | nil =>
    obtain rfl := Option.some.inj hans
    refine ⟨m, out, ?_, ?_, ?_, (List.append_nil _).symm⟩
    · rw [List.length_nil, retainLoop]
      simp [accepted]
    · simpa [accepted] using After.refl h
    · simp [rejected]
  | cons x todo ih =>
    rw [answers] at hans
    cases hf : f s x with
    | none => simp [hf] at hans
    | some r =>
      obtain ⟨b, s'⟩ := r
      simp only [hf, Option.map_eq_some_iff] at hans
      obtain ⟨ans, hans, rfl⟩ := hans
      cases b with
      | true =>
        obtain ⟨m₁, out₁, hrun, hafter, hperm, hlent⟩ := retainLoop_keep h hf
        obtain ⟨m', out', hrun', hafter', hperm', hlent'⟩ := ih hafter.holds hans
        refine ⟨m', out', ?_, ?_, hperm'.trans ?_, ?_⟩
        · rw [List.length_cons, hrun, hrun', List.append_assoc]
          rfl
        · have hlist : kept ++ accepted ((x, true) :: ans) = kept ++ [x] ++ accepted ans := by
            rw [List.append_assoc]
            rfl
          rw [hlist]
          exact hafter.trans hafter'
        · exact hperm.append_right _
        · rw [hlent', hlent, List.append_assoc]
          rfl
      | false =>
        obtain ⟨m₁, hrun, hafter, hlent⟩ := retainLoop_reject h hf
        obtain ⟨m', out', hrun', hafter', hperm', hlent'⟩ := ih hafter.holds hans
        refine ⟨m', out', ?_, hafter.trans hafter', hperm'.trans ?_, ?_⟩
        · rw [List.length_cons, hrun, hrun']
          rfl
        · rw [List.append_assoc]
          rfl
        · rw [hlent', hlent, List.append_assoc]
          rfl

theorem retainLoop_panic (h : m.vec.Holds (kept ++ out ++ todo)) (hans : answers f s todo = none) :
    ∃ m' l', retainLoop f todo.length s (kept.length + out.length) kept.length m = .panic m' ∧
      After m m' l' [] ∧ l'.Perm (kept ++ out ++ todo) ∧ m'.lent = m.lent ++ shown f s todo := by
  induction todo generalizing s m kept out with
  | nil => simp [answers] at hans
  | cons x todo ih =>
    rw [answers] at hans
    rw [shown]
    cases hf : f s x with
    | none =>
      obtain ⟨m₁, hrun, hafter, hlent⟩ := retainLoop_stop h hf
      exact ⟨m₁, _, hrun, hafter, .refl _, hlent⟩
    | some r =>
      obtain ⟨b, s'⟩ := r
      simp only [hf, Option.map_eq_none_iff] at hans
      cases b with
      | true =>
        obtain ⟨m₁, out₁, hrun, hafter, hperm, hlent⟩ := retainLoop_keep h hf
        obtain ⟨m', l', hrun', hafter', hperm', hlent'⟩ := ih hafter.holds hans
        refine ⟨m', l', hrun.trans hrun', hafter.trans hafter', hperm'.trans ?_, ?_⟩
        · have hmove : (kept ++ [x] ++ out₁).Perm (kept ++ out ++ [x]) := by
            rw [List.append_assoc, List.append_assoc]
            exact (List.perm_append_comm.trans (hperm.append_right [x])).append_left kept
          simpa using hmove.append_right todo
        · rw [hlent', hlent, List.append_assoc]
          rfl
      | false =>
        obtain ⟨m₁, hrun, hafter, hlent⟩ := retainLoop_reject h hf
        obtain ⟨m', l', hrun', hafter', hperm', hlent'⟩ := ih hafter.holds hans
        refine ⟨m', l', hrun.trans hrun', hafter.trans hafter', ?_, ?_⟩
        · simpa using hperm'
        · rw [hlent', hlent, List.append_assoc]
          rfl

/-- **`retain` is a stable filter in place.**  If no call of the predicate panics, the accepted
elements stay, in order, and each of the others is dropped, once.  If one does, the vector holds its
elements in some order.  Each element is shown once, in the original order, up to the call that
panics. -/
theorem retain_eq (f : S → T → Option (Bool × S)) (s : S) (h : m.vec.Holds l) :
    (∀ ans, answers f s l = some ans → ∃ m' gone, retain f s m = .ok () m' ∧
      After m m' (accepted ans) gone ∧ gone.Perm (rejected ans) ∧ m'.lent = m.lent ++ l) ∧
    (answers f s l = none → ∃ m' l', retain f s m = .panic m' ∧
      After m m' l' [] ∧ l'.Perm l ∧ m'.lent = m.lent ++ shown f s l ∧ shown f s l <+: l) := by
  have hlen := h.len_eq
  constructor
  · intro ans hans
    obtain ⟨m₁, out, hrun, hafter, hperm, hlent⟩ := @retainLoop_ok T S f s m [] [] l ans h hans
    obtain ⟨m', hrun', hafter', hlent'⟩ := truncate_eq (accepted ans).length hafter.holds
    rw [List.nil_append, List.take_left, List.drop_left] at hafter'
    refine ⟨m', out, ?_, hafter.trans hafter', hperm, hlent'.trans hlent⟩
    rw [retain, vec_bind, hlen]
    exact (bind_ok hrun).trans hrun'
  · intro hans
    obtain ⟨m', l', hrun, hafter, hperm, hlent⟩ := @retainLoop_panic T S f s m [] [] l h hans
    refine ⟨m', l', ?_, hafter, hperm, hlent, shown_prefix f s l⟩
    rw [retain, vec_bind, hlen]
    exact bind_panic hrun

/-- The even numbers stay; the predicate counts its calls. -/
theorem retain_even :
    ∃ m' gone, retain (fun (n : ℕ) x => some (x % 2 == 0, n + 1)) 0 (ofList [1, 2, 3, 4]).mem =
        .ok () m' ∧
      After (ofList [1, 2, 3, 4]).mem m' [2, 4] gone ∧ gone.Perm [1, 3] ∧
      m'.lent = [1, 2, 3, 4] :=
  (retain_eq (fun (n : ℕ) x => some (x % 2 == 0, n + 1)) 0 (ofList_holds [1, 2, 3, 4])).1
    [(1, false), (2, true), (3, false), (4, true)] rfl

end RawVec

end Hamerkop
