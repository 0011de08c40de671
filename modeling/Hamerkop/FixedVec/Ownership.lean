import Hamerkop.FixedVec.Refinement

/-!
# Who owns the elements of a `FixedVec`

The parts of `hamerkop/src/fixedvec.rs` in which whole vectors go: `clone_from`, which
overwrites one, and `Drop`; and `resize`, whose value is dropped as well.

* `RawVec.cloneFrom_eq` — the branch of `clone_from` that keeps the memory comes to the same
  as the assignment of a clone: the source's elements, in a vector of its capacity, and the
  old ones dropped;
* `VecStore.uses_ownOnce` — whatever these and the operations of `VecOp` do with any number of
  vectors, down to their end, no element is dropped twice, and when the vectors are gone none
  has been forgotten.  `drain` and `append` are not among them: of these it is false.
-/

namespace Hamerkop

namespace RawVec

open VecM

variable {T : Type}

/-! ## The source -/

/-- A function of another vector. -/
def ofOther {α : Type} (v : RawVec T) (x : VecM T α) : VecM T α := fun m =>
  match x v.mem with
  | .ok a m' => .ok a { m with dropped := m.dropped ++ m'.dropped, stale := m.stale ++ m'.stale }
  | .panic m' => .panic { m with dropped := m.dropped ++ m'.dropped, stale := m.stale ++ m'.stale }
  | .undefined fault => .undefined fault

/-- A new vector is moved into the place of one that has been dropped. -/
def moveIn (new : Mem T) : VecM T Unit := fun m =>
  .ok () { m with
    vec := new.vec, dropped := m.dropped ++ new.dropped, stale := m.stale ++ new.stale }

/-- `clone_from(source)` -/
def cloneFrom (elem : ElementType T) (source : RawVec T) : VecM T Unit := do
  let v ← vec
  if v.capacity = source.capacity then
    clear
    let slice ← ofOther source asSlice
    let _ ← extendFromSlice elem slice
  else
    match ← ofOther source (clone elem) with
    | .ok _ new => do
      clear
      moveIn new
    | .panic _ => panic
    | .undefined fault => undefined fault

/-- `value` is dropped at the end. -/
def resize (elem : ElementType T) (newLen : ℕ) (value : T) : VecM T Unit := do
  resizeWith newLen fun _ => elem.clone value
  dropped value

/-! ## What they do -/

variable {elem : ElementType T} {m : Mem T} {l l' : List T} {source : RawVec T}

theorem ofOther_ok {α : Type} {x : VecM T α} {a : α} (h : x source.mem = .ok a source.mem) :
    ofOther source x m = .ok a m := by
  obtain ⟨v, dropped, stale, lent⟩ := m
  unfold ofOther
  rw [h]
  simp [RawVec.mem]

/-- **`clone_from` is the assignment of a clone**, whether or not it keeps the memory. -/
theorem cloneFrom_eq (elem : ElementType T) (h : m.vec.Holds l) (hs : source.Holds l') :
    ∃ m', cloneFrom elem source m = .ok () m' ∧ m'.vec.Holds (l'.map elem.stored) ∧
      m'.vec.capacity = source.capacity ∧ m'.dropped = m.dropped ++ l ∧ m'.stale = m.stale := by
  obtain ⟨m₁, hclear, hafter⟩ := clear_eq h
  rw [cloneFrom, vec_bind]
  by_cases hcap : m.vec.capacity = source.capacity
  · rw [if_pos hcap]
    have hslice : ofOther source asSlice m₁ = .ok l' m₁ := ofOther_ok (asSlice_eq hs)
    obtain ⟨m', hextend, hafter'⟩ := extendFromSlice_eq elem l' hafter.holds
    have hall := hafter.trans hafter'
    have hfits : l'.take (m₁.vec.capacity - ([] : List T).length) = l' := by
      refine List.take_of_length_le ?_
      rw [hafter.capacity, hcap, List.length_nil]
      exact hs.length_le
    rw [hfits, List.nil_append, List.append_nil] at hall
    refine ⟨m', ?_, hall.holds, hall.capacity.trans hcap, hall.dropped, hall.stale⟩
    rw [bind_ok hclear, bind_ok hslice, bind_ok hextend]
    rfl
  · rw [if_neg hcap]
    obtain ⟨n, new, hclone, hnew⟩ := clone_eq (m := source.mem) elem hs
    have hother : ofOther source (clone elem) m = .ok (.ok n new) m := ofOther_ok hclone
    have hdropped : new.dropped = [] := hnew.dropped
    have hstale : new.stale = [] := hnew.stale
    refine ⟨{ m₁ with vec := new.vec }, ?_, hnew.holds, ?_, hafter.dropped, hafter.stale⟩
    · rw [bind_ok hother]
      simp only
      rw [bind_ok hclear, moveIn, hdropped, hstale, List.append_nil, List.append_nil]
    · exact hnew.capacity.trans (capacity_withCapacity _)

/-- The value is cloned for each new element, and dropped. -/
theorem resize_eq (elem : ElementType T) {newLen : ℕ} (value : T) (h : m.vec.Holds l)
    (hroom : newLen ≤ m.vec.capacity) :
    ∃ m', resize elem newLen value m = .ok () m' ∧
      After m m' (l.take newLen ++ List.replicate (newLen - l.length) (elem.clone value))
        (l.drop newLen ++ [value]) := by
  obtain ⟨m', hrun, hafter⟩ := resizeWith_eq (fun _ => elem.clone value) h hroom
  have hsame : (List.range (newLen - l.length)).map (fun _ => elem.clone value) =
      List.replicate (newLen - l.length) (elem.clone value) := by
    rw [List.map_const', List.length_range]
  rw [hsame] at hafter
  refine ⟨{ m' with dropped := m'.dropped ++ [value] }, ?_, hafter.holds, hafter.capacity, ?_,
    hafter.stale⟩
  · rw [resize, bind_ok hrun]
    rfl
  · show m'.dropped ++ [value] = _
    rw [hafter.dropped, List.append_assoc]

end RawVec

/-! ## Vectors from their beginning to their end -/

open RawVec

/-- What can be done with vectors, in the order in which it is done. -/
inductive VecUse (T : Type) where
  | call (c : VecCall T)
  | resize (k newLen : ℕ) (value : T)
  /-- `vecs[k].clone_from(&vecs[source])` -/
  | cloneFrom (k source : ℕ)
  /-- the vector goes out of scope, and those behind it move up -/
  | drop (k : ℕ)

namespace VecStore

variable {T : Type}

/-- A function of the vector `k` has ended. -/
def put (s : VecStore T) (k : ℕ) : Outcome T Unit → Option (VecStore T)
  | .ok _ m => some { vecs := s.vecs.set k m.vec, dropped := m.dropped, stale := m.stale }
  | _ => none

/-- The store after a call or an operation that clones. -/
def use (elem : ElementType T) (s : VecStore T) : VecUse T → Option (VecStore T)
  | .call c => (s.call elem c).map Prod.snd
  | .resize k newLen value =>
    s.vecs[k]?.bind fun v => s.put k (RawVec.resize elem newLen value (s.mem v))
  | .cloneFrom k source =>
    -- a vector cannot be borrowed twice
    if k = source then none
    else
      s.vecs[k]?.bind fun v => s.vecs[source]?.bind fun u =>
        s.put k (RawVec.cloneFrom elem u (s.mem v))
  | .drop k =>
    s.vecs[k]?.bind fun v => match RawVec.clear (s.mem v) with
      | .ok _ m => some { vecs := s.vecs.eraseIdx k, dropped := m.dropped, stale := m.stale }
      | _ => none

end VecStore

namespace BoundedList

variable {T : Type}

theorem length_resized_le (l : BoundedList T) {newLen : ℕ} (h : newLen ≤ l.capacity) (value : T) :
    (l.items.take newLen ++ List.replicate (newLen - l.items.length) value).length ≤
      l.capacity := by
  rw [List.length_append, List.length_take, List.length_replicate]
  omega

/-- The list that `resize` leaves. -/
def resized (l : BoundedList T) {newLen : ℕ} (h : newLen ≤ l.capacity) (value : T) :
    BoundedList T :=
  ⟨l.items.take newLen ++ List.replicate (newLen - l.items.length) value, l.capacity,
    l.length_resized_le h value⟩

theorem items_resized (l : BoundedList T) {newLen : ℕ} (h : newLen ≤ l.capacity) (value : T) :
    (l.resized h value).items =
      l.items.take newLen ++ List.replicate (newLen - l.items.length) value := rfl

theorem length_cloned_le (elem : ElementType T) (l : BoundedList T) :
    (l.items.map elem.stored).length ≤ l.capacity := by
  rw [List.length_map]
  exact l.fits

/-- The list that cloning leaves. -/
def cloned (elem : ElementType T) (l : BoundedList T) : BoundedList T :=
  ⟨l.items.map elem.stored, l.capacity, l.length_cloned_le elem⟩

theorem items_cloned (elem : ElementType T) (l : BoundedList T) :
    (l.cloned elem).items = l.items.map elem.stored := rfl

end BoundedList

namespace VecLedger

variable {T : Type}

/-- The ledger after the same on lists. -/
def use (elem : ElementType T) (b : VecLedger T) : VecUse T → Option (VecLedger T)
  | .call c => (b.call elem c).map Prod.snd
  | .resize k newLen value =>
    b.vecs[k]?.bind fun l =>
      if h : newLen ≤ l.capacity then
        some { b with
          vecs := b.vecs.set k (l.resized h (elem.clone value))
          given := b.given ++
            (List.replicate (newLen - l.items.length) (elem.clone value) ++ [value])
          gone := b.gone ++ (l.items.drop newLen ++ [value]) }
      else
        none
  | .cloneFrom k source =>
    if k = source then none
    else
      b.vecs[k]?.bind fun l => b.vecs[source]?.map fun l' =>
        { b with
          vecs := b.vecs.set k (l'.cloned elem)
          given := b.given ++ l'.items.map elem.stored
          gone := b.gone ++ l.items }
  | .drop k =>
    b.vecs[k]?.map fun l => { b with vecs := b.vecs.eraseIdx k, gone := b.gone ++ l.items }

variable {elem : ElementType T} {b b' : VecLedger T} {u : VecUse T}

theorem held_eraseIdx {k : ℕ} {l : BoundedList T} (hl : b.vecs[k]? = some l) :
    b.held.Perm (l.items ++ (b.vecs.eraseIdx k).flatMap BoundedList.items) := by
  obtain ⟨hk, rfl⟩ := List.getElem?_eq_some_iff.mp hl
  have hperm := (List.getElem_cons_eraseIdx_perm hk).flatMap_right BoundedList.items
  exact hperm.symm

theorem use_conserved (h : b.use elem u = some b') (hb : b.Conserved) : b'.Conserved := by
  cases u with
  | call c =>
    obtain ⟨⟨reply, b₁⟩, hcall, rfl⟩ := Option.map_eq_some_iff.1 h
    exact call_conserved hcall hb
  | resize k newLen value =>
    obtain ⟨l, hl, h⟩ := Option.bind_eq_some_iff.1 h
    split_ifs at h with hroom
    obtain rfl := Option.some.inj h
    obtain ⟨others, hheld, hset⟩ := held_set (l.resized hroom (elem.clone value)) hl
    rw [BoundedList.items_resized] at hset
    have hsplit : (l.items.take newLen : Multiset T) + l.items.drop newLen = l.items := by
      rw [Multiset.coe_add, List.take_append_drop]
    simp only [Conserved, held, ← Multiset.coe_eq_coe, ← Multiset.coe_add] at hb hheld hset ⊢
    rw [hset, ← hb, hheld, ← hsplit]
    abel
  | cloneFrom k source =>
    obtain ⟨hne, h⟩ := Option.ite_none_left_eq_some.1 h
    obtain ⟨l, hl, h⟩ := Option.bind_eq_some_iff.1 h
    obtain ⟨l', hl', rfl⟩ := Option.map_eq_some_iff.1 h
    obtain ⟨others, hheld, hset⟩ := held_set (l'.cloned elem) hl
    rw [BoundedList.items_cloned] at hset
    simp only [Conserved, held, ← Multiset.coe_eq_coe, ← Multiset.coe_add] at hb hheld hset ⊢
    rw [hset, ← hb, hheld]
    abel
  | drop k =>
    obtain ⟨l, hl, rfl⟩ := Option.map_eq_some_iff.1 h
    have hheld := held_eraseIdx hl
    simp only [Conserved, held, ← Multiset.coe_eq_coe, ← Multiset.coe_add] at hb hheld ⊢
    rw [← hb, hheld]
    abel

end VecLedger

theorem forall₂_eraseIdx {α β : Type} {R : α → β → Prop} {l : List α} {l' : List β}
    (h : List.Forall₂ R l l') (k : ℕ) : List.Forall₂ R (l.eraseIdx k) (l'.eraseIdx k) := by
  induction h generalizing k with
  | nil => exact .nil
  | cons hab h ih =>
    cases k with
    | zero => exact h
    | succ k => exact .cons hab (ih k)

namespace VecStore

variable {T : Type} {elem : ElementType T} {s : VecStore T} {b b' : VecLedger T}

/-- One use. -/
theorem Refines.use {u : VecUse T} (hs : s.Refines b) (h : b.use elem u = some b') :
    ∃ s', s.use elem u = some s' ∧ s'.Refines b' := by
  cases u with
  | call c =>
    obtain ⟨⟨reply, b₁⟩, hcall, rfl⟩ := Option.map_eq_some_iff.1 h
    obtain ⟨s', hs', href⟩ := hs.call hcall
    exact ⟨s', by rw [VecStore.use, hs']; rfl, href⟩
  | resize k newLen value =>
    obtain ⟨l, hl, h⟩ := Option.bind_eq_some_iff.1 h
    split_ifs at h with hroom
    obtain rfl := Option.some.inj h
    obtain ⟨v, hv, hholds, hcap⟩ := forall₂_getElem? hs.vecs hl
    obtain ⟨m', hrun, hafter⟩ := resize_eq (m := s.mem v) elem value hholds
      (hroom.trans_eq hcap.symm)
    refine ⟨_, by rw [VecStore.use, hv, Option.bind_some, hrun]; rfl, ?_⟩
    exact ⟨forall₂_set hs.vecs k ⟨hafter.holds, hafter.capacity.trans hcap⟩,
      hafter.dropped.trans (congrArg (· ++ _) hs.dropped), hafter.stale.trans hs.stale⟩
  | cloneFrom k source =>
    obtain ⟨hne, h⟩ := Option.ite_none_left_eq_some.1 h
    obtain ⟨l, hl, h⟩ := Option.bind_eq_some_iff.1 h
    obtain ⟨l', hl', rfl⟩ := Option.map_eq_some_iff.1 h
    obtain ⟨v, hv, hholds, hcap⟩ := forall₂_getElem? hs.vecs hl
    obtain ⟨u, hu, hholds', hcap'⟩ := forall₂_getElem? hs.vecs hl'
    obtain ⟨m', hrun, hnew, hnewCap, hdropped, hstale⟩ :=
      cloneFrom_eq (m := s.mem v) elem hholds hholds'
    refine ⟨_, by rw [VecStore.use, if_neg hne, hv, Option.bind_some, hu, Option.bind_some, hrun,
      put], ?_⟩
    exact ⟨forall₂_set hs.vecs k ⟨hnew, hnewCap.trans hcap'⟩,
      hdropped.trans (congrArg (· ++ _) hs.dropped), hstale.trans hs.stale⟩
  | drop k =>
    obtain ⟨l, hl, rfl⟩ := Option.map_eq_some_iff.1 h
    obtain ⟨v, hv, hholds, hcap⟩ := forall₂_getElem? hs.vecs hl
    obtain ⟨m', hrun, hafter⟩ := clear_eq (m := s.mem v) hholds
    refine ⟨_, by rw [VecStore.use, hv, Option.bind_some, hrun], ?_⟩
    exact ⟨forall₂_eraseIdx hs.vecs k, hafter.dropped.trans (congrArg (· ++ _) hs.dropped),
      hafter.stale.trans hs.stale⟩

/-- Any number of uses. -/
theorem Refines.uses {us : List (VecUse T)} (hs : s.Refines b) (hb : b.Conserved)
    (h : us.foldlM (VecLedger.use elem) b = some b') :
    ∃ s', us.foldlM (VecStore.use elem) s = some s' ∧ s'.Refines b' ∧ b'.Conserved := by
  induction us generalizing s b with
  | nil =>
    obtain rfl := Option.some.inj h
    exact ⟨s, rfl, hs, hb⟩
  | cons u us ih =>
    obtain ⟨b₁, hu, h⟩ := Option.bind_eq_some_iff.1 h
    obtain ⟨s₁, hs₁, href⟩ := hs.use hu
    obtain ⟨s', hs', href', hb'⟩ := ih href (VecLedger.use_conserved hu hb) h
    refine ⟨s', ?_, href', hb'⟩
    rw [List.foldlM_cons, hs₁]
    exact hs'

/-- **Every element has one owner.**  Whatever these calls do with any number of vectors, down to
their end, as long as the asserted preconditions hold: the vectors hold what the lists do, no cell
is read that holds no element, and every element that was given or made is in a vector, was returned
or was dropped, exactly once.  When no vector is left, none of them has been forgotten. -/
theorem uses_ownOnce {us : List (VecUse T)}
    (h : us.foldlM (VecLedger.use elem) .empty = some b) :
    ∃ s, us.foldlM (VecStore.use elem) .empty = some s ∧ s.Refines b ∧ b.Conserved ∧
      (s.vecs = [] → (b.returned ++ s.dropped).Perm b.given) := by
  obtain ⟨s, hs, href, hb⟩ := empty_refines.uses VecLedger.empty_conserved h
  refine ⟨s, hs, href, hb, fun hnil => ?_⟩
  have hvecs := href.vecs
  rw [hnil, List.forall₂_nil_left_iff] at hvecs
  unfold VecLedger.Conserved VecLedger.held at hb
  rw [hvecs] at hb
  rw [href.dropped]
  exact hb

/-- Two vectors of different capacity: the one is cloned from the other, and both are dropped. -/
theorem uses_ownOnce_dropped :
    ∃ s b, [VecUse.call (.withCapacity 3), .call (.withCapacity 2), .call (.on 0 (.push 1)),
        .call (.on 1 (.push 2)), .cloneFrom 0 1, .resize 0 1 7, .call (.on 0 .pop), .drop 1,
        .drop 0].foldlM (VecStore.use ⟨false, (· + 100)⟩) .empty = some s ∧
      s.Refines b ∧ b.returned = [102] ∧ (b.returned ++ s.dropped).Perm [1, 2, 102, 7] := by
  obtain ⟨s, hs, href, -, hgone⟩ := @uses_ownOnce ℕ ⟨false, (· + 100)⟩ _
    [.call (.withCapacity 3), .call (.withCapacity 2), .call (.on 0 (.push 1)),
      .call (.on 1 (.push 2)), .cloneFrom 0 1, .resize 0 1 7, .call (.on 0 .pop), .drop 1,
      .drop 0] rfl
  exact ⟨s, _, hs, href, rfl, hgone (List.forall₂_nil_right_iff.1 href.vecs)⟩

end VecStore

end Hamerkop
