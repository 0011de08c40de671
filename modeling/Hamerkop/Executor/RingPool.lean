import Hamerkop.Executor.PoolLeaks
import Hamerkop.Executor.RingSlots

/-!
# The pool and the kernel behind the ring

What `Pool` and `PoolLeaks` prove of the buffers of the pool, for the kernel that
reads its entries from the ring.  Both hold in the runs whose sessions leave a
slot of the ring free (`KeepsRing`); in one that fills the ring the kernel may be given a
buffer twice, and another not at all (`fullRing_providesTwice`).

`RingWorld.heldBuffers_of_keepsRing`: what the kernel may write to is in the pool.
`consumedEarly_not_live` is a run in which a read has consumed a buffer while the
event of the request that provided it is still to be processed.

`RingWorld.buffersLeave_of_keepsPool`: the pool has no other buffers than those that are
used, as long as no step loses one.  `droppedRead_stays` is a run that does.
-/

namespace Hamerkop

open Runs

namespace RingWorld

variable {hs : Hashes} {m m' : RingWorld} {k : ℕ}

/-! ## What the kernel may write to is in the pool -/

/-- What the kernel has been given to write to, or will find in the ring, and what it has handed
out and not been consumed, is in the table under the id the kernel knows it by, and is the buffer
whose address it was given. -/
structure HeldBuffers (hs : Hashes) (m : RingWorld) : Prop where
  /-- an entry to provide a buffer, in the ring or read from it, until it is carried out -/
  given : ∀ p ∈ m.read m.world.ctx.sq.unconsumed ++ m.taken, p.2.poolUse = .provides →
    ∃ buffer, m.world.ctx.buffers.get p.2.bid.toNat = some buffer ∧ buffer.ptr = p.2.addrSplice
  held : ∀ p ∈ m.held, ∃ buffer,
    m.world.ctx.buffers.get p.1.toNat = some buffer ∧ buffer.ptr = p.2
  /-- no two buffers the kernel holds share an id -/
  nodup : (m.held.map Prod.fst).Nodup
  /-- a request, by its future: until it has succeeded, and if it fails as long as its future
  lives; a read, until it has consumed its buffer; and no future panics on its event -/
  requests : m.world.HeldBuffers hs

theorem Mirrors.heldBuffers (h : m.Mirrors hs k) : m.HeldBuffers hs := by
  have hworld : m.world.HeldBuffers hs := World.Reachable.heldBuffers h.reachable
  have hsends : ∀ p ∈ m.read m.world.ctx.sq.unconsumed ++ m.taken,
      ∃ g, p.1 = some g ∧ m.world.Sends g p.2 := by
    intro p hp
    rcases List.mem_append.1 hp with hp | hp
    · exact h.ring.read le_rfl p hp
    · exact h.ring.unfinished p hp
  refine ⟨fun p hp huse => ?_, h.held ▸ hworld.held, h.held ▸ hworld.nodup, hworld⟩
  obtain ⟨g, -, f, hg, hst, hsqe, hkind⟩ := hsends p hp
  have hsent : f.Sent := .inl hst
  cases hk : f.kind with
  | completion =>
    rw [huse, hk] at hkind
    cases hkind
  | read =>
    rw [huse, hk] at hkind
    cases hkind
  | provide bufid len =>
    have hprov : f.Providing := by simp [Fut.Providing, hst]
    obtain ⟨hbid, buffer, hget, -, hptr⟩ := hworld.requested g f bufid len hg hk hsent hprov
    rw [hsqe] at hbid hptr
    exact ⟨buffer, hbid ▸ hget, hptr.symm⟩

/-- **The kernel never holds a buffer that the pool has given up**, in any state of a run from
`Runtime::new` whose sessions leave a slot of the ring free. -/
theorem heldBuffers_of_keepsRing {l : List (RingWorldEvent × RingWorld)} (h0 : m.Init)
    (hr : Run (Step hs) m l) (hk : ∀ x ∈ steps m l, x.1.KeepsRing x.2.1) :
    ∀ u ∈ states m l, u.HeldBuffers hs := by
  obtain ⟨k, hmirrors⟩ := mirrors_of_keepsRing h0 hr hk
  exact fun u hu => (hmirrors u hu).heldBuffers

/-- A buffer is provided and handed to a read at once; the task that has made both requests polls
the read before the event of the other is posted. -/
def consumedEarly : List RingWorldEvent :=
  [.run .openSession, provide 4096, .run (.request (.read 5 16)), .run .submit, .consume 2,
    .complete 0 0 0, .complete 0 3 1, .post 1, .run .spawn, .run .turn, .run .chooseWait,
    .run (.enter (.ok 2)), .run .next, .run (.poll 1)]

theorem consumedEarly_heldBuffers :
    Always (HeldBuffers ⟨id, id⟩) emptyRing (play (step ⟨id, id⟩) emptyRing consumedEarly) := by
  have hplays : playsWith (step ⟨id, id⟩) keepsRing emptyRing consumedEarly = true := rfl
  have hkeeps : PlaysWith (step ⟨id, id⟩) KeepsRing emptyRing consumedEarly :=
    .of_playsWith (fun _ _ => .of_keepsRing) hplays
  exact heldBuffers_of_keepsRing emptyRing_init (run_play _ _ _) hkeeps.forall_steps

/-- **The buffer of a request whose event is not processed yet need not be in the table**: the
kernel may have handed it out already. -/
theorem consumedEarly_not_live :
    ¬ ∀ (hs : Hashes) (m : RingWorld), Reachable hs m → ∀ g f bufid len,
      m.world.ledger.futs g = some f → f.kind = .provide bufid len → f.Outstanding →
        (m.world.ctx.buffers.get bufid).isSome := by
  intro h
  have hr := (Runs.Reachable.init emptyRing_init).run (run_play (step ⟨id, id⟩) _ consumedEarly)
  have hlive := h ⟨id, id⟩ _ (hr _ (final_mem_states ..)) 0 _ 0 0 rfl rfl (.inr ⟨_, .inl rfl⟩)
  cases hlive

/-! ## Buffers that are not used leave the pool -/

/-- The buffers of the pool are exactly those that the kernel holds, that are in a request under
way, or that belong to a read whose future is alive; none is left of a read whose future has
resolved or been dropped. -/
structure BuffersLeave (m : RingWorld) : Prop where
  exact : ∀ b, (m.world.ctx.buffers.get b).isSome ↔ (∃ p ∈ m.held, p.1.toNat = b) ∨
    (∃ g f len, m.world.ledger.futs g = some f ∧ f.kind = .provide b len ∧ f.Requesting) ∨
    ∃ g f, m.world.ledger.futs g = some f ∧ f.Handed b
  released : ∀ g f, m.world.ledger.futs g = some f → f.kind = .read → f.life ≠ .live →
    ∀ b u, m.world.ledger.bufs b = some u → u.place ≠ .handed g

/-- The step loses no buffer: neither in the ring (`KeepsRing`) nor otherwise
(`World.KeepsBuffers`). -/
def KeepsPool (m : RingWorld) (e : RingWorldEvent) : Prop :=
  m.KeepsRing e ∧ ∀ e', m.seen e = some e' → m.world.KeepsBuffers e'

/-- `KeepsPool`, where it can be evaluated. -/
def keepsPool (m : RingWorld) : RingWorldEvent → Bool
  | .complete i _ _ => (m.taken[i]?.bind Prod.fst).all fun g => (m.world.ledger.futs g).all fun f =>
    f.kind != .read || f.life == .live
  | .run .submit => m.keepsRing (.run .submit) &&
    m.world.session.all fun s => (m.world.ctx.sq.publish s.count).isSome
  | .run (.complete _ _ _) | .run .abandon | .run (.poll _) | .run (.drop _) | .run (.enter _) =>
    false
  | e => m.keepsRing e

theorem KeepsPool.of_keepsPool {e : RingWorldEvent} (h : m.keepsPool e = true) : m.KeepsPool e := by
  cases e with
  | consume count =>
    refine ⟨trivial, fun e' hseen => ?_⟩
    obtain rfl := Option.some.inj hseen
    trivial
  | complete i res flags =>
    refine ⟨trivial, fun e' hseen => ?_⟩
    obtain ⟨p, hp, hp'⟩ := Option.bind_eq_some_iff.1 hseen
    obtain ⟨g, hg, rfl⟩ := Option.map_eq_some_iff.1 hp'
    intro f hf hk hlife
    have hread : (f.kind != .read || f.life == .live) = true := by
      simpa only [keepsPool, hp, Option.bind_some, hg, hf, Option.all_some] using h
    rw [Bool.or_eq_true, bne_iff_ne, beq_iff_eq] at hread
    rcases hread with hkind | hlive
    · exact absurd hk hkind
    · exact absurd hlive hlife
  | post i =>
    refine ⟨trivial, fun e' hseen => ?_⟩
    obtain ⟨p, -, hp⟩ := Option.bind_eq_some_iff.1 hseen
    obtain ⟨g, -, rfl⟩ := Option.map_eq_some_iff.1 hp
    trivial
  | run e =>
    have hseen : ∀ {C : Event → Prop}, C e → ∀ e', m.seen (.run e) = some e' → C e' := by
      intro C hC e' he
      exact Option.some.inj he ▸ hC
    cases e with
    | submit =>
      obtain ⟨hring, hpub⟩ := Bool.and_eq_true_iff.1 h
      refine ⟨.of_keepsRing hring, hseen fun s hs' hnone => ?_⟩
      rw [hs', Option.all_some, hnone] at hpub
      cases hpub
    | complete g res flags => cases h
    | abandon => cases h
    | poll g => cases h
    | drop g => cases h
    | enter ret => cases h
    | _ => exact ⟨.of_keepsRing h, hseen trivial⟩

/-- **Buffers chosen by a read leave the pool** in a run from `Runtime::new` whose steps all keep
them: in every state passed the pool has exactly the buffers that are used. -/
theorem buffersLeave_of_keepsPool {l : List (RingWorldEvent × RingWorld)} (h0 : m.Init)
    (hr : Run (Step hs) m l) (hk : ∀ x ∈ steps m l, x.1.KeepsPool x.2.1) :
    ∀ u ∈ states m l, u.BuffersLeave := by
  obtain ⟨k, hmirrors⟩ : ∃ k, m.Mirrors hs k := h0.mirrors
  have hinv : ∀ u ∈ states m l, u.Mirrors hs k ∧ u.world.PoolInv := by
    refine hr.invariant (C := KeepsPool) (fun u e u' hi hk hst => ?_)
      ⟨hmirrors, h0.world.poolInv⟩ hk
    obtain ⟨e', hseen, hstep, hmirrors'⟩ := hi.1.step hk.1 hst
    exact ⟨hmirrors', hi.2.step (hk.2 e' hseen) hstep⟩
  intro u hu
  obtain ⟨hmirrors, hpool⟩ := hinv u hu
  obtain ⟨hexact, hreleased⟩ := hpool.buffersLeave
  exact ⟨hmirrors.held ▸ hexact, hreleased⟩

/-- A buffer is provided and handed to a read, whose event is posted. -/
def handedOut : List RingWorldEvent :=
  [.run .openSession, provide 4096, .run (.request (.read 5 16)), .run .submit, .consume 2,
    .complete 0 0 0, .complete 0 3 1, .post 0, .post 0]

theorem handedOut_buffersLeave :
    Always BuffersLeave emptyRing (play (step ⟨id, id⟩) emptyRing handedOut) := by
  have hplays : playsWith (step ⟨id, id⟩) keepsPool emptyRing handedOut = true := rfl
  have hkeeps : PlaysWith (step ⟨id, id⟩) KeepsPool emptyRing handedOut :=
    .of_playsWith (fun _ _ => .of_keepsPool) hplays
  exact buffersLeave_of_keepsPool emptyRing_init (run_play _ _ _) hkeeps.forall_steps

/-- The read is dropped, and then its event is processed. -/
def droppedRead : List RingWorldEvent :=
  handedOut ++
    [.run (.drop 1), .run .spawn, .run .turn, .run .chooseWait, .run (.enter (.ok 2))]

/-- **The buffer of a read that is dropped does not leave the pool**, so not every run meets it. -/
theorem droppedRead_stays :
    ¬ ∀ (hs : Hashes) (m : RingWorld), Reachable hs m → m.BuffersLeave := by
  intro h
  have hr := (Runs.Reachable.init emptyRing_init).run (run_play (step ⟨id, id⟩) _ droppedRead)
  have hleave := h ⟨id, id⟩ _ (hr _ (final_mem_states ..))
  exact hleave.released 1 _ rfl rfl (by decide) 0 _ rfl rfl

end RingWorld

end Hamerkop
