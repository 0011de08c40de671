import Hamerkop.Lib.Runs
import Hamerkop.Executor.Machine

/-!
# Buffer ids on the wire

The index of a buffer in the pool travels to the kernel as the `u16` of a
`ProvideBuffers` entry, and back in the upper half of the flags of an event.
`provide_buffer` only checks how many buffers there are; that their indices fit as well
is due to the slotmap, which adds a slab of 1024 slots only when every slot is taken.

`BufferPool.wireIdsFit` holds in every state of every run of `provide_buffer` calls and
removals: no index is cut off, and an id that comes back is the index it was made from.
-/

namespace Hamerkop

open Runs

namespace CompletionFlags

/-- The flags of an event that carries a buffer: its id, and whatever else the kernel sets in the
lower half. -/
def ofBufId (bid rest : UInt16) : UInt32 := bid.toUInt32 <<< 16 ||| rest.toUInt32 ||| BUFFER

theorem toNat_ofBufId (bid rest : UInt16) :
    (ofBufId bid rest).toNat = bid.toNat * 2 ^ 16 ||| rest.toNat ||| 1 := by
  have hlt : bid.toNat * 2 ^ 16 < 2 ^ 32 := by
    have := bid.toNat_lt
    omega
  simp only [ofBufId, BUFFER, UInt32.toNat_or, UInt32.toNat_shiftLeft, UInt16.toNat_toUInt32,
    UInt32.toNat_one, Nat.shiftLeft_eq]
  rw [show (16 : UInt32).toNat % 32 = 16 from rfl, Nat.mod_eq_of_lt hlt]

/-- **The id that is decoded is the one that was encoded.** -/
theorem bufId_ofBufId (bid rest : UInt16) : bufId (ofBufId bid rest) = some bid := by
  have hbuffer : ofBufId bid rest &&& BUFFER = BUFFER := by
    rw [← UInt32.toNat_inj, UInt32.toNat_and, toNat_ofBufId]
    show (_ ||| 1) &&& 1 = 1
    rw [Nat.and_one_is_mod, Nat.or_mod_two_eq_one.2 (.inr rfl)]
  have hid : (ofBufId bid rest >>> 16).toUInt16 = bid := by
    rw [← UInt16.toNat_inj, UInt32.toNat_toUInt16, UInt32.toNat_shiftRight, toNat_ofBufId,
      show (16 : UInt32).toNat % 32 = 16 from rfl, Nat.shiftRight_or_distrib,
      Nat.shiftRight_or_distrib, Nat.shiftRight_eq_div_pow, Nat.shiftRight_eq_div_pow,
      Nat.mul_div_cancel _ (by decide), Nat.div_eq_of_lt rest.toNat_lt]
    have := bid.toNat_lt
    simp
  rw [bufId, if_pos hbuffer, hid]

end CompletionFlags

namespace BufferPool

open LinkedSubmitter

/-- A buffer is put into the pool or taken out of it. -/
inductive Event where
  /-- `provide_buffer`, up to its call of `submit_sqe` -/
  | provide (buffer : FixedVec UInt8)
  /-- `buffers.remove(index)`, by whichever of its callers -/
  | remove (index : ℕ)

/-- What an event does to the pool; `none` when the process aborts. -/
def step (ctx : IOContext) : Event → Option IOContext
  | .provide buffer => (beginRequest ctx (.provideBuffer buffer)).map fun begun =>
    match begun with
    | .started _ ctx => ctx
    | .rejected _ _ | .panicked _ => ctx
  | .remove index => some { ctx with buffers := (ctx.buffers.remove index).2 }

/-- A step of the pool. -/
def Step (ctx : IOContext) (e : Event) (ctx' : IOContext) : Prop := step ctx e = some ctx'

/-- The ids of the buffers in the pool, and of the one that may be put in next, fit their field. -/
structure WireIdsFit (ctx : IOContext) : Prop where
  len : ctx.buffers.len ≤ 65535
  live : ∀ i buffer, ctx.buffers.get i = some buffer → i < 65536
  /-- the index that `insert` returns is the id in the submission entry -/
  inserted : ∀ buffer r ctx', beginRequest ctx (.provideBuffer buffer) = some (.started r ctx') →
    ∃ bufid, r.kind = .provide bufid buffer.len ∧ bufid < 65536 ∧
      ∀ sqe, (r.func sqe).bid.toNat = bufid
  distinct : ∀ i j buffer buffer', ctx.buffers.get i = some buffer →
    ctx.buffers.get j = some buffer' → UInt16.ofNat i = UInt16.ofNat j → i = j
  /-- an event brings back the index of the buffer -/
  decoded : ∀ i buffer rest, ctx.buffers.get i = some buffer →
    ∃ bid, CompletionFlags.bufId (CompletionFlags.ofBufId (UInt16.ofNat i) rest) = some bid ∧
      bid.toNat = i

/-- No more than 64 slabs, and the guard of `provide_buffer`. -/
structure Inv (ctx : IOContext) : Prop where
  small : ctx.buffers.slabCount ≤ 64
  len : ctx.buffers.len ≤ MAX_BUFFERS

variable {ctx ctx' : IOContext} {e : Event}

theorem Inv.lt (h : Inv ctx) {i : ℕ} {buffer : FixedVec UInt8}
    (hi : ctx.buffers.get i = some buffer) : i < 65536 := by
  have hlt := Slots.lt_slabCount_mul hi
  have hle := Nat.mul_le_mul_right SLABSIZE h.small
  simp only [SLABSIZE] at hlt hle
  omega

theorem Inv.new (h : ctx.buffers = .new) : Inv ctx := by
  refine ⟨?_, ?_⟩
  · rw [h, Slots.slabCount_new]
    exact Nat.zero_le _
  · rw [h, Slots.len_new]
    exact Nat.zero_le _

/-- A buffer is put in only below the limit. -/
theorem Inv.started (h : Inv ctx) {buffer : FixedVec UInt8} {r : Started}
    (hr : beginRequest ctx (.provideBuffer buffer) = some (.started r ctx')) : Inv ctx' := by
  rcases beginRequest_started hr with ⟨-, rfl⟩ | ⟨b, bufid, len, buffers, -, hins, hroom, rfl, -⟩
  · exact h
  · refine ⟨Slots.slabCount_insert_le hins h.small ?_, ?_⟩
    · simp only [SLABSIZE, MAX_BUFFERS] at hroom ⊢
      omega
    · show buffers.len ≤ _
      rw [Slots.len_insert hins]
      omega

theorem Inv.step (h : Inv ctx) (hst : Step ctx e ctx') : Inv ctx' := by
  cases e with
  | provide buffer =>
    obtain ⟨begun, hbegun, rfl⟩ := Option.map_eq_some_iff.1 hst
    cases begun with
    | started r ctx => exact h.started hbegun
    | rejected | panicked => exact h
  | remove index =>
    obtain rfl := Option.some.inj hst
    refine ⟨?_, (Slots.len_remove_le ..).trans h.len⟩
    show (ctx.buffers.remove index).2.slabCount ≤ 64
    rw [Slots.slabCount_remove]
    exact h.small

theorem toNat_ofNat {i : ℕ} (hi : i < 65536) : (UInt16.ofNat i).toNat = i :=
  UInt16.toNat_ofNat_of_lt' hi

theorem Inv.wireIds (h : Inv ctx) : WireIdsFit ctx := by
  refine ⟨h.len, fun i buffer hi => h.lt hi, fun buffer r ctx' hr => ?_,
    fun i j buffer buffer' hi hj heq => ?_, fun i buffer rest hi => ?_⟩
  · obtain ⟨bufid, hkind, hget, hfunc⟩ := beginRequest_provide hr
    have hlt := (h.started hr).lt hget
    refine ⟨bufid, hkind, hlt, fun sqe => ?_⟩
    rw [hfunc, show (provideSqe _ _ bufid sqe).bid = _ from UInt16.toUInt16_toUInt64 _,
      toNat_ofNat hlt]
  · rw [← toNat_ofNat (h.lt hi), heq, toNat_ofNat (h.lt hj)]
  · exact ⟨_, CompletionFlags.bufId_ofBufId _ _, toNat_ofNat (h.lt hi)⟩

/-- **Buffer ids always fit their field**, whatever was put into the pool and taken out of it. -/
theorem wireIdsFit {l : List (Event × IOContext)} (h0 : ctx.buffers = .new)
    (hr : Run Step ctx l) : ∀ u ∈ states ctx l, WireIdsFit u := by
  have hinv : ∀ u ∈ states ctx l, Inv u :=
    hr.invariant (C := fun _ _ => True) (fun _ _ _ hi _ hst => hi.step hst) (.new h0)
      fun _ _ => trivial
  exact fun u hu => (hinv u hu).wireIds

/-! ## A buffer that takes the place of another -/

/-- Two buffers are provided, the first is removed, and a third takes its index. -/
def reused : List Event :=
  [.provide ⟨4096, List.replicate 16 none, 0⟩, .provide ⟨8192, List.replicate 16 none, 3⟩,
    .remove 0, .provide ⟨12288, List.replicate 16 none, 5⟩]

theorem reused_wireIdsFit : Always WireIdsFit World.emptyWorld.ctx
    (play step World.emptyWorld.ctx reused) :=
  wireIdsFit rfl (run_play _ _ _)

end BufferPool

end Hamerkop
