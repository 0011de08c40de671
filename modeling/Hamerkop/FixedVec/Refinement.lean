import Hamerkop.FixedVec.Vector

/-!
# A `FixedVec` is a list with a bounded length

The abstract model of the vectors of `FixedVec/Vector.lean` is a list that fits into a
capacity.  Each operation has an effect on such a list: the list afterwards, the reply, the
elements the operation was given, the elements it returned and those it dropped.  Nothing is
duplicated or lost by it (`VecOp.effect_conserves`), and the translated operation has the
same effect on the memory (`VecOp.run_refines`).

From this the vectors made by any sequence of calls are, at every moment, the lists that
the model computes (`Store.calls_refine`).
-/

namespace Hamerkop

open RawVec VecM

/-! ## Lists with a capacity -/

/-- What a `FixedVec` stands for. -/
structure BoundedList (T : Type) where
  items : List T
  capacity : ℕ
  fits : items.length ≤ capacity

namespace BoundedList

variable {T : Type}

/-- No element yet. -/
def empty (capacity : ℕ) : BoundedList T := ⟨[], capacity, Nat.zero_le _⟩

/-- The number of elements that can be added. -/
def room (b : BoundedList T) : ℕ := b.capacity - b.items.length

/-- As many of these elements are added as fit. -/
def append (b : BoundedList T) (l : List T) : BoundedList T :=
  ⟨b.items ++ l.take b.room, b.capacity, by
    have := b.fits
    rw [List.length_append, List.length_take, room]
    omega⟩

theorem append_one {b : BoundedList T} {x : T} (h : b.items.length < b.capacity) :
    (b.append [x]).items = b.items ++ [x] := by
  have htake : [x].take b.room = [x] := List.take_of_length_le (by simp [room]; omega)
  exact congrArg (b.items ++ ·) htake

/-- The list is replaced by one that is not longer. -/
def shrink (b : BoundedList T) (l : List T) (h : l.length ≤ b.items.length) : BoundedList T :=
  ⟨l, b.capacity, h.trans b.fits⟩

end BoundedList

/-! ## The operations and their effects -/

/-- The operations of `FixedVec`.  A closure is given by the results of its calls, an iterator by
its items; `extendRef` is `Extend<&T>`. -/
inductive VecOp (T : Type) where
  | push (value : T)
  | pop
  | insert (index : ℕ) (element : T)
  | remove (index : ℕ)
  | swapRemove (index : ℕ)
  | truncate (len : ℕ)
  | clear
  | resizeWith (newLen : ℕ) (f : ℕ → T)
  | extendFromSlice (other : List T)
  | extend (iter : List T)
  | extendRef (iter : List T)

/-- What an operation returns. -/
inductive VecReply (T : Type) where
  | unit
  | pushed (result : Except T Unit)
  | popped (element : Option T)
  | removed (element : T)
  | stored (count : ℕ)
  | left (iter : List T)

/-- The effect of an operation on a list. -/
structure VecEffect (T : Type) where
  after : BoundedList T
  reply : VecReply T
  /-- the elements that the operation was given or made -/
  given : List T := []
  /-- the elements that the caller got -/
  returned : List T := []
  /-- the elements that were dropped -/
  gone : List T := []

namespace VecOp

variable {T : Type}

/-- The translated operation. -/
def run (elem : ElementType T) : VecOp T → VecM T (VecReply T)
  | push value => do return .pushed (← RawVec.push value)
  | pop => do return .popped (← RawVec.pop)
  | insert index element => do
    RawVec.insert index element
    return .unit
  | remove index => do return .removed (← RawVec.remove index)
  | swapRemove index => do return .removed (← RawVec.swapRemove index)
  | truncate len => do
    RawVec.truncate len
    return .unit
  | clear => do
    RawVec.clear
    return .unit
  | resizeWith newLen f => do
    RawVec.resizeWith newLen f
    return .unit
  | extendFromSlice other => do return .stored (← RawVec.extendFromSlice elem other)
  | extend iter => do return .left (← RawVec.extend id iter)
  | extendRef iter => do return .left (← RawVec.extend elem.clone iter)

/-- What the operation does to a list; nothing when its asserted precondition does not hold. -/
def effect (elem : ElementType T) (b : BoundedList T) : VecOp T → Option (VecEffect T)
  | push value =>
    if b.items.length < b.capacity then
      some { after := b.append [value], reply := .pushed (.ok ()), given := [value] }
    else
      some { after := b, reply := .pushed (.error value), given := [value], returned := [value] }
  | pop =>
    some
      { after := b.shrink b.items.dropLast (by rw [List.length_dropLast]; omega)
        reply := .popped b.items.getLast?
        returned := b.items.getLast?.toList }
  | insert index element =>
    if h : index ≤ b.items.length ∧ b.items.length < b.capacity then
      some
        { after := ⟨b.items.insertIdx index element, b.capacity, by
            rw [List.length_insertIdx_of_le_length h.1]
            exact h.2⟩
          reply := .unit
          given := [element] }
    else
      none
  | remove index =>
    if h : index < b.items.length then
      some
        { after := b.shrink (b.items.eraseIdx index) (List.length_eraseIdx_le ..)
          reply := .removed b.items[index]
          returned := [b.items[index]] }
    else
      none
  | swapRemove index =>
    if h : index < b.items.length then
      some
        { after := b.shrink (Hamerkop.swapRemove b.items index) (by
            rw [Dedup.length_swapRemove h]
            omega)
          reply := .removed b.items[index]
          returned := [b.items[index]] }
    else
      none
  | truncate len =>
    some
      { after := b.shrink (b.items.take len) (List.length_take_le' ..)
        reply := .unit
        gone := b.items.drop len }
  | clear =>
    some { after := b.shrink [] (Nat.zero_le _), reply := .unit, gone := b.items }
  | resizeWith newLen f =>
    if h : newLen ≤ b.capacity then
      some
        { after := ⟨b.items.take newLen ++ (List.range (newLen - b.items.length)).map f,
            b.capacity, by
              rw [List.length_append, List.length_take, List.length_map, List.length_range]
              omega⟩
          reply := .unit
          given := (List.range (newLen - b.items.length)).map f
          gone := b.items.drop newLen }
    else
      none
  | extendFromSlice other =>
    some
      { after := b.append (other.map elem.stored)
        reply := .stored (min b.room other.length)
        given := (other.take b.room).map elem.stored }
  | extend iter =>
    some { after := b.append iter, reply := .left (iter.drop b.room), given := iter.take b.room }
  | extendRef iter =>
    some
      { after := b.append (iter.map elem.clone)
        reply := .left (iter.drop b.room)
        given := (iter.take b.room).map elem.clone }

variable {elem : ElementType T} {b : BoundedList T} {op : VecOp T} {e : VecEffect T} {m : Mem T}

/-- **No operation loses or duplicates an element**: what was in the list or was given is in the
list, was returned or was dropped. -/
theorem effect_conserves (h : op.effect elem b = some e) :
    (e.after.items ++ e.returned ++ e.gone).Perm (b.items ++ e.given) := by
  cases op with
  | push value =>
    simp only [effect] at h
    split_ifs at h with hroom
    · obtain rfl := Option.some.inj h
      simp [BoundedList.append_one hroom]
    · obtain rfl := Option.some.inj h
      simp
  | pop =>
    obtain rfl := Option.some.inj h
    have hsplit : b.items.dropLast ++ b.items.getLast?.toList = b.items := by
      cases hb : b.items using List.reverseRecOn <;> simp
    simp [BoundedList.shrink, hsplit]
  | insert index element =>
    simp only [effect] at h
    split_ifs at h with hpre
    obtain rfl := Option.some.inj h
    have hperm := (List.perm_insertIdx element b.items hpre.1).trans
      (List.perm_append_singleton element b.items).symm
    simpa using hperm
  | remove index =>
    simp only [effect] at h
    split_ifs at h with hpre
    obtain rfl := Option.some.inj h
    have hperm := (List.perm_append_singleton _ _).trans (List.getElem_cons_eraseIdx_perm hpre)
    simpa [BoundedList.shrink] using hperm
  | swapRemove index =>
    simp only [effect] at h
    split_ifs at h with hpre
    obtain rfl := Option.some.inj h
    have hperm := (List.perm_append_singleton _ _).trans (Dedup.perm_swapRemove hpre).symm
    simpa [BoundedList.shrink] using hperm
  | truncate len =>
    obtain rfl := Option.some.inj h
    simp [BoundedList.shrink]
  | clear =>
    obtain rfl := Option.some.inj h
    simp [BoundedList.shrink]
  | resizeWith newLen f =>
    simp only [effect] at h
    split_ifs at h with hpre
    obtain rfl := Option.some.inj h
    have hswap : ((List.range (newLen - b.items.length)).map f ++ b.items.drop newLen).Perm
        (b.items.drop newLen ++ (List.range (newLen - b.items.length)).map f) :=
      List.perm_append_comm
    have hperm := hswap.append_left (b.items.take newLen)
    rw [← List.append_assoc (b.items.take newLen) (b.items.drop newLen), List.take_append_drop]
      at hperm
    simpa using hperm
  | extendFromSlice other =>
    obtain rfl := Option.some.inj h
    simp [BoundedList.append]
  | extend iter =>
    obtain rfl := Option.some.inj h
    simp [BoundedList.append]
  | extendRef iter =>
    obtain rfl := Option.some.inj h
    simp [BoundedList.append]

/-- **The translated operation has the effect of the list operation.** -/
theorem run_refines (h : op.effect elem b = some e) (hm : m.vec.Holds b.items)
    (hcap : m.vec.capacity = b.capacity) :
    ∃ m', op.run elem m = .ok e.reply m' ∧ After m m' e.after.items e.gone ∧
      m'.vec.capacity = e.after.capacity := by
  cases op with
  | push value =>
    simp only [effect] at h
    split_ifs at h with hroom
    · obtain rfl := Option.some.inj h
      obtain ⟨m', hrun, hafter⟩ := push_room (x := value) hm (hcap ▸ hroom)
      rw [← BoundedList.append_one hroom] at hafter
      exact ⟨m', by rw [run, bind_ok hrun]; rfl, hafter, hafter.capacity.trans hcap⟩
    · obtain rfl := Option.some.inj h
      have hfull : b.items.length = m.vec.capacity := by
        have := b.fits
        omega
      exact ⟨m, by rw [run, bind_ok (push_full hm hfull)]; rfl, After.refl hm, hcap⟩
  | pop =>
    obtain rfl := Option.some.inj h
    obtain ⟨m', hrun, hafter⟩ := pop_eq hm
    exact ⟨m', by rw [run, bind_ok hrun]; rfl, hafter, hafter.capacity.trans hcap⟩
  | insert index element =>
    simp only [effect] at h
    split_ifs at h with hpre
    obtain rfl := Option.some.inj h
    obtain ⟨m', hrun, hafter⟩ := insert_eq (x := element) hm hpre.1 (hcap ▸ hpre.2)
    exact ⟨m', by rw [run, bind_ok hrun]; rfl, hafter, hafter.capacity.trans hcap⟩
  | remove index =>
    simp only [effect] at h
    split_ifs at h with hpre
    obtain rfl := Option.some.inj h
    obtain ⟨m', hrun, hafter⟩ := remove_eq hm hpre
    exact ⟨m', by rw [run, bind_ok hrun]; rfl, hafter, hafter.capacity.trans hcap⟩
  | swapRemove index =>
    simp only [effect] at h
    split_ifs at h with hpre
    obtain rfl := Option.some.inj h
    obtain ⟨m', hrun, hafter⟩ := swapRemove_eq hm hpre
    exact ⟨m', by rw [run, bind_ok hrun]; rfl, hafter, hafter.capacity.trans hcap⟩
  | truncate len =>
    obtain rfl := Option.some.inj h
    obtain ⟨m', hrun, hafter, -⟩ := truncate_eq len hm
    exact ⟨m', by rw [run, bind_ok hrun]; rfl, hafter, hafter.capacity.trans hcap⟩
  | clear =>
    obtain rfl := Option.some.inj h
    obtain ⟨m', hrun, hafter⟩ := clear_eq hm
    exact ⟨m', by rw [run, bind_ok hrun]; rfl, hafter, hafter.capacity.trans hcap⟩
  | resizeWith newLen f =>
    simp only [effect] at h
    split_ifs at h with hpre
    obtain rfl := Option.some.inj h
    obtain ⟨m', hrun, hafter⟩ := resizeWith_eq f hm (hcap ▸ hpre)
    exact ⟨m', by rw [run, bind_ok hrun]; rfl, hafter, hafter.capacity.trans hcap⟩
  | extendFromSlice other =>
    obtain rfl := Option.some.inj h
    obtain ⟨m', hrun, hafter⟩ := extendFromSlice_eq elem other hm
    rw [hcap, List.map_take] at hafter
    rw [hcap] at hrun
    exact ⟨m', by rw [run, bind_ok hrun]; rfl, hafter, hafter.capacity.trans hcap⟩
  | extend iter =>
    obtain rfl := Option.some.inj h
    obtain ⟨m', hrun, hafter⟩ := extend_eq id iter hm
    rw [hcap, List.map_id] at hafter
    rw [hcap] at hrun
    exact ⟨m', by rw [run, bind_ok hrun]; rfl, hafter, hafter.capacity.trans hcap⟩
  | extendRef iter =>
    obtain rfl := Option.some.inj h
    obtain ⟨m', hrun, hafter⟩ := extend_eq elem.clone iter hm
    rw [hcap, List.map_take] at hafter
    rw [hcap] at hrun
    exact ⟨m', by rw [run, bind_ok hrun]; rfl, hafter, hafter.capacity.trans hcap⟩

/-- Where the precondition does not hold, the operation panics before it does anything. -/
theorem run_panics (h : op.effect elem b = none) (hm : m.vec.Holds b.items)
    (hcap : m.vec.capacity = b.capacity) : op.run elem m = .panic m := by
  have hlen := hm.len_eq
  have havail := hm.available_eq
  cases op with
  | insert index element =>
    simp only [effect] at h
    split_ifs at h with hpre
    rw [run]
    apply bind_panic
    by_cases hindex : index ≤ b.items.length
    · rw [RawVec.insert, vec_bind, bind_ok (assert_pos (by omega) m)]
      exact bind_panic (assert_neg (by omega) m)
    · rw [RawVec.insert, vec_bind]
      exact bind_panic (assert_neg (by omega) m)
  | remove index =>
    simp only [effect] at h
    split_ifs at h with hpre
    rw [run]
    apply bind_panic
    rw [RawVec.remove, vec_bind]
    exact bind_panic (assert_neg (by omega) m)
  | swapRemove index =>
    simp only [effect] at h
    split_ifs at h with hpre
    rw [run]
    apply bind_panic
    rw [RawVec.swapRemove, vec_bind]
    exact bind_panic (assert_neg (by omega) m)
  | resizeWith newLen f =>
    simp only [effect] at h
    split_ifs at h with hpre
    have hle := b.fits
    rw [run]
    apply bind_panic
    rw [RawVec.resizeWith, vec_bind, if_neg (by omega)]
    exact bind_panic (assert_neg (by omega) m)
  | push value =>
    simp only [effect] at h
    split_ifs at h
  | pop => simp [effect] at h
  | truncate len => simp [effect] at h
  | clear => simp [effect] at h
  | extendFromSlice other => simp [effect] at h
  | extend iter => simp [effect] at h
  | extendRef iter => simp [effect] at h

end VecOp

/-! ## Any number of vectors -/

/-- What a caller does with the vectors it has, the `k`-th of them or a new one. -/
inductive VecCall (T : Type) where
  | withCapacity (capacity : ℕ)
  | on (k : ℕ) (op : VecOp T)
  | clone (k : ℕ)

/-- All the vectors there are, and what has happened to elements on the way. -/
structure VecStore (T : Type) where
  vecs : List (RawVec T)
  dropped : List T
  stale : List ℕ

namespace VecStore

variable {T : Type}

/-- No vector yet. -/
def empty : VecStore T := { vecs := [], dropped := [], stale := [] }

/-- This vector at work. -/
def mem (s : VecStore T) (v : RawVec T) : Mem T :=
  { vec := v, dropped := s.dropped, stale := s.stale, lent := [] }

/-- The call, if it ends normally. -/
def call (elem : ElementType T) (s : VecStore T) : VecCall T → Option (VecReply T × VecStore T)
  | .withCapacity capacity =>
    some (.unit, { s with vecs := s.vecs ++ [RawVec.withCapacity capacity] })
  | .on k op =>
    match s.vecs[k]? with
    | none => none
    | some v =>
      match op.run elem (s.mem v) with
      | .ok reply m =>
        some (reply, { vecs := s.vecs.set k m.vec, dropped := m.dropped, stale := m.stale })
      | _ => none
  | .clone k =>
    match s.vecs[k]? with
    | none => none
    | some v =>
      match RawVec.clone elem (s.mem v) with
      | .ok (.ok _ new) m =>
        some (.unit,
          { vecs := s.vecs.set k m.vec ++ [new.vec]
            dropped := m.dropped ++ new.dropped
            stale := m.stale ++ new.stale })
      | _ => none

/-- The calls, one after the other, if they all end normally. -/
def calls (elem : ElementType T) : VecStore T → List (VecCall T) →
    Option (List (VecReply T) × VecStore T)
  | s, [] => some ([], s)
  | s, c :: cs =>
    match s.call elem c with
    | none => none
    | some (reply, s') => (s'.calls elem cs).map fun (replies, t) => (reply :: replies, t)

end VecStore

/-- All the lists there are, and an account of the elements. -/
structure VecLedger (T : Type) where
  vecs : List (BoundedList T)
  given : List T
  returned : List T
  gone : List T

namespace VecLedger

variable {T : Type}

/-- No list yet. -/
def empty : VecLedger T := { vecs := [], given := [], returned := [], gone := [] }

/-- The elements in the lists. -/
def held (b : VecLedger T) : List T := b.vecs.flatMap BoundedList.items

/-- The effect of a call, if its asserted precondition holds. -/
def call (elem : ElementType T) (b : VecLedger T) : VecCall T → Option (VecReply T × VecLedger T)
  | .withCapacity capacity => some (.unit, { b with vecs := b.vecs ++ [.empty capacity] })
  | .on k op =>
    match b.vecs[k]? with
    | none => none
    | some l => (op.effect elem l).map fun e =>
      (e.reply,
        { vecs := b.vecs.set k e.after
          given := b.given ++ e.given
          returned := b.returned ++ e.returned
          gone := b.gone ++ e.gone })
  | .clone k =>
    match b.vecs[k]? with
    | none => none
    | some l =>
      some (.unit,
        { b with
          vecs := b.vecs ++ [⟨l.items.map elem.stored, l.capacity, by
            rw [List.length_map]
            exact l.fits⟩]
          given := b.given ++ l.items.map elem.stored })

/-- The replies to these calls, and the ledger after them. -/
def calls (elem : ElementType T) : VecLedger T → List (VecCall T) →
    Option (List (VecReply T) × VecLedger T)
  | b, [] => some ([], b)
  | b, c :: cs =>
    match b.call elem c with
    | none => none
    | some (reply, b') => (b'.calls elem cs).map fun (replies, t) => (reply :: replies, t)

/-- Every element that was given is in exactly one place. -/
def Conserved (b : VecLedger T) : Prop := (b.held ++ b.returned ++ b.gone).Perm b.given

variable {elem : ElementType T} {b b' : VecLedger T} {c : VecCall T} {reply : VecReply T}

theorem empty_conserved : (empty : VecLedger T).Conserved := List.Perm.refl []

theorem held_set {k : ℕ} {l : BoundedList T} (l' : BoundedList T) (hl : b.vecs[k]? = some l) :
    ∃ others : List T, b.held.Perm (others ++ l.items) ∧
      ((b.vecs.set k l').flatMap BoundedList.items).Perm (others ++ l'.items) := by
  obtain ⟨hk, hget⟩ := List.getElem?_eq_some_iff.mp hl
  obtain ⟨l₁, l₂, hvecs, -, hset⟩ := @List.exists_of_set _ _ l' _ hk
  rw [hget] at hvecs
  refine ⟨l₁.flatMap BoundedList.items ++ l₂.flatMap BoundedList.items, ?_, ?_⟩
  · rw [held, hvecs, List.flatMap_append, List.flatMap_cons, List.append_assoc]
    exact List.perm_append_comm.append_left _
  · rw [hset, List.flatMap_append, List.flatMap_cons, List.append_assoc]
    exact List.perm_append_comm.append_left _

theorem call_conserved (h : b.call elem c = some (reply, b')) (hb : b.Conserved) :
    b'.Conserved := by
  cases c with
  | withCapacity capacity =>
    obtain ⟨-, rfl⟩ := Prod.mk.inj (Option.some.inj h)
    simpa [Conserved, held, BoundedList.empty] using hb
  | on k op =>
    simp only [call] at h
    cases hl : b.vecs[k]? with
    | none => simp [hl] at h
    | some l =>
      simp only [hl, Option.map_eq_some_iff] at h
      obtain ⟨e, he, heq⟩ := h
      obtain ⟨-, rfl⟩ := Prod.mk.inj heq
      obtain ⟨others, hheld, hset⟩ := held_set e.after hl
      have hop := VecOp.effect_conserves he
      simp only [Conserved, held, ← Multiset.coe_eq_coe, ← Multiset.coe_add]
        at hb hop hheld hset ⊢
      rw [hset, ← hb, hheld]
      calc (others + e.after.items + (b.returned + e.returned) + (b.gone + e.gone) : Multiset T)
          = others + b.returned + b.gone + (e.after.items + e.returned + e.gone) := by abel
        _ = others + b.returned + b.gone + (l.items + e.given) := by rw [hop]
        _ = others + l.items + b.returned + b.gone + e.given := by abel
  | clone k =>
    simp only [call] at h
    cases hl : b.vecs[k]? with
    | none => simp [hl] at h
    | some l =>
      simp only [hl] at h
      obtain ⟨-, rfl⟩ := Prod.mk.inj (Option.some.inj h)
      simp only [Conserved, held, List.flatMap_append, List.flatMap_cons, List.flatMap_nil,
        List.append_nil, ← Multiset.coe_eq_coe, ← Multiset.coe_add] at hb ⊢
      rw [← hb]
      abel

end VecLedger

/-- The vectors hold what the lists say, and no more has happened to the elements. -/
structure VecStore.Refines {T : Type} (s : VecStore T) (b : VecLedger T) : Prop where
  vecs : List.Forall₂ (fun v l => v.Holds l.items ∧ v.capacity = l.capacity) s.vecs b.vecs
  dropped : s.dropped = b.gone
  stale : s.stale = []

section Forall₂

variable {α β : Type} {R : α → β → Prop} {l : List α} {l' : List β}

theorem forall₂_getElem? (h : List.Forall₂ R l l') {k : ℕ} {b : β} (hb : l'[k]? = some b) :
    ∃ a, l[k]? = some a ∧ R a b := by
  induction h generalizing k with
  | nil => simp at hb
  | @cons a b l l' hab _ ih =>
    cases k with
    | zero => exact ⟨a, rfl, Option.some.inj hb ▸ hab⟩
    | succ k => exact ih hb

theorem forall₂_set (h : List.Forall₂ R l l') (k : ℕ) {a : α} {b : β} (hab : R a b) :
    List.Forall₂ R (l.set k a) (l'.set k b) := by
  induction h generalizing k with
  | nil => exact .nil
  | cons hab' h ih =>
    cases k with
    | zero => exact .cons hab h
    | succ k => exact .cons hab' (ih k)

end Forall₂

namespace VecStore

variable {T : Type} {elem : ElementType T} {s : VecStore T} {b b' : VecLedger T}

theorem empty_refines : (empty : VecStore T).Refines .empty := ⟨.nil, rfl, rfl⟩

/-- One call. -/
theorem Refines.call {c : VecCall T} {reply : VecReply T} (hs : s.Refines b)
    (h : b.call elem c = some (reply, b')) :
    ∃ s', s.call elem c = some (reply, s') ∧ s'.Refines b' := by
  cases c with
  | withCapacity capacity =>
    obtain ⟨rfl, rfl⟩ := Prod.mk.inj (Option.some.inj h)
    exact ⟨_, rfl, List.rel_append hs.vecs (.cons ⟨withCapacity_holds capacity,
      capacity_withCapacity capacity⟩ .nil), hs.dropped, hs.stale⟩
  | on k op =>
    simp only [VecLedger.call] at h
    cases hl : b.vecs[k]? with
    | none => simp [hl] at h
    | some l =>
      simp only [hl, Option.map_eq_some_iff] at h
      obtain ⟨e, he, heq⟩ := h
      obtain ⟨rfl, rfl⟩ := Prod.mk.inj heq
      obtain ⟨v, hv, hholds, hcap⟩ := forall₂_getElem? hs.vecs hl
      obtain ⟨m', hrun, hafter, hcap'⟩ := VecOp.run_refines (m := s.mem v) he hholds hcap
      refine ⟨_, by simp only [VecStore.call, hv, hrun]; rfl, ?_⟩
      exact ⟨forall₂_set hs.vecs k ⟨hafter.holds, hcap'⟩,
        hafter.dropped.trans (congrArg (· ++ e.gone) hs.dropped), hafter.stale.trans hs.stale⟩
  | clone k =>
    simp only [VecLedger.call] at h
    cases hl : b.vecs[k]? with
    | none => simp [hl] at h
    | some l =>
      simp only [hl] at h
      obtain ⟨rfl, rfl⟩ := Prod.mk.inj (Option.some.inj h)
      obtain ⟨v, hv, hholds, hcap⟩ := forall₂_getElem? hs.vecs hl
      obtain ⟨n, new, hrun, hafter⟩ := clone_eq (m := s.mem v) elem hholds
      refine ⟨_, by simp only [VecStore.call, hv, hrun]; rfl, ?_⟩
      have hset : s.vecs.set k v = s.vecs := by
        obtain ⟨hk, rfl⟩ := List.getElem?_eq_some_iff.mp hv
        exact List.set_getElem_self hk
      have hnew : new.vec.capacity = l.capacity :=
        hafter.capacity.trans ((capacity_withCapacity _).trans hcap)
      have hdropped : new.dropped = [] := hafter.dropped
      have hstale : new.stale = [] := hafter.stale
      refine ⟨?_, ?_, ?_⟩
      · exact List.rel_append (hset.symm ▸ hs.vecs) (.cons ⟨hafter.holds, hnew⟩ .nil)
      · exact (congrArg (s.dropped ++ ·) hdropped).trans (by rw [List.append_nil, hs.dropped])
      · exact (congrArg (s.stale ++ ·) hstale).trans (by rw [List.append_nil, hs.stale])

/-- Any number of calls. -/
theorem Refines.calls {cs : List (VecCall T)} {replies : List (VecReply T)} (hs : s.Refines b)
    (hb : b.Conserved) (h : b.calls elem cs = some (replies, b')) :
    ∃ s', s.calls elem cs = some (replies, s') ∧ s'.Refines b' ∧ b'.Conserved := by
  induction cs generalizing s b replies with
  | nil =>
    obtain ⟨rfl, rfl⟩ := Prod.mk.inj (Option.some.inj h)
    exact ⟨s, rfl, hs, hb⟩
  | cons c cs ih =>
    rw [VecLedger.calls] at h
    cases hc : b.call elem c with
    | none => simp [hc] at h
    | some p =>
      obtain ⟨reply, b₁⟩ := p
      simp only [hc, Option.map_eq_some_iff] at h
      obtain ⟨⟨rs, b₂⟩, hcs, heq⟩ := h
      obtain ⟨rfl, rfl⟩ := Prod.mk.inj heq
      obtain ⟨s₁, hcall, hs₁⟩ := hs.call hc
      obtain ⟨s₂, hcalls, hs₂, hb₂⟩ := ih hs₁ (VecLedger.call_conserved hc hb) hcs
      exact ⟨s₂, by rw [VecStore.calls, hcall]; simp only [hcalls]; rfl, hs₂, hb₂⟩

/-- **A `FixedVec` is a list with a bounded length.**  Whatever is done with any number of vectors,
as long as the asserted preconditions hold: every operation ends normally and replies what the list
operation does, every vector holds its list in exactly the cells below its length, no cell was read
that held no element, and every element that was given is in a vector, was returned or was dropped,
exactly once. -/
theorem calls_refine {cs : List (VecCall T)} {replies : List (VecReply T)}
    (h : VecLedger.empty.calls elem cs = some (replies, b)) :
    ∃ s, VecStore.empty.calls elem cs = some (replies, s) ∧ s.Refines b ∧ b.Conserved :=
  empty_refines.calls VecLedger.empty_conserved h

/-- A vector is filled past its capacity, cloned, and taken apart. -/
theorem calls_refine_clone :
    ∃ s b, VecStore.empty.calls ⟨false, (· + 100)⟩
        [.withCapacity 3, .on 0 (.extend [1, 2, 3, 4]), .on 0 (.push 5), .on 0 (.swapRemove 0),
          .clone 0, .on 1 (.insert 1 7), .on 0 .clear] =
        some ([.unit, .left [4], .pushed (.error 5), .removed 1, .unit, .unit, .unit], s) ∧
      s.Refines b ∧ b.Conserved ∧ b.vecs.map BoundedList.items = [[], [103, 7, 102]] ∧
      b.gone = [3, 2] := by
  obtain ⟨s, hs, hr, hc⟩ := @calls_refine ℕ ⟨false, (· + 100)⟩ _
    [.withCapacity 3, .on 0 (.extend [1, 2, 3, 4]), .on 0 (.push 5), .on 0 (.swapRemove 0),
      .clone 0, .on 1 (.insert 1 7), .on 0 .clear] _ rfl
  exact ⟨s, _, hs, hr, hc, rfl, rfl⟩

end VecStore

end Hamerkop
