import Hamerkop.Executor.Wakeups

/-!
# The event loop does not spin

How often `turn` of `hamerkop/src/executor/runtime.rs` goes round, and its loop over the
runqueue, in a run of any length.  A task is queued when it is spawned, and once for each
event that is processed; nothing else gets it into the runqueue.

* `World.roundsPaid` — the loop over the runqueue goes round no more often than tasks are
  spawned and events are posted, whatever the tasks do and however the duplicates fall;
* `World.turnsPaid` — and so, with twice the events, `turn` returns `Ok`, but for the times
  that `io_uring_enter` is told to wait for an event and returns without one.  A turn that
  returns an error ends `block_on` or `run`, and is not counted.
-/

namespace Hamerkop

open Runs LinkedSubmitter

namespace Dedup

variable {T : Type} [DecidableEq T] {hash1 hash2 : T → ℕ}

theorem length_dedupLoop_le (fuel : ℕ) (data : List T) (table : ℕ → Option ℕ) (i : ℕ) :
    (dedupLoop hash1 hash2 fuel data table i).length ≤ data.length := by
  induction fuel generalizing data table i with
  | zero => exact le_rfl
  | succ fuel ih =>
    rw [dedupLoop]
    split
    · exact le_rfl
    · rename_i value hvalue
      obtain ⟨hi, -⟩ := List.getElem?_eq_some_iff.1 hvalue
      simp only
      split
      · exact (ih ..).trans ((length_swapRemove hi).trans_le (Nat.sub_le ..))
      · exact ih ..

theorem length_dedupPartial_le (data : List T) :
    (dedupPartial hash1 hash2 data).length ≤ data.length := length_dedupLoop_le ..

end Dedup

namespace Runtime

theorem setupCreated_length {created : List FutureObj} {rt rt' : Runtime}
    (h : setupCreated created rt = some rt') :
    rt'.runqueue.length = rt.runqueue.length + created.length := by
  induction created generalizing rt with
  | nil =>
    obtain rfl := Option.some.inj h
    rfl
  | cons future created ih =>
    simp only [setupCreated] at h
    split at h
    · cases h
    · have hrest := ih h
      rw [List.length_append, List.length_singleton] at hrest
      rw [hrest, List.length_cons]
      omega

/-- A turn takes over what has been created and woken. -/
theorem collect_length {rt rt' : Runtime} (h : rt.collect = some rt') :
    rt'.runqueue.length = rt.runqueue.length + rt.ctx.created.length + rt.ctx.woken.length := by
  obtain ⟨rt₁, hset, rfl⟩ := Option.map_eq_some_iff.1 h
  show (rt₁.runqueue ++ rt₁.ctx.woken).length = _
  rw [List.length_append, setupCreated_length hset, setupCreated_ctx hset]

end Runtime

namespace Ledger

theorem process_counts (l : Ledger) (p : ℕ × Cqe) :
    (l.process p).posts = l.posts ∧ (l.process p).seen = l.seen + 1 := by
  cases hg : l.futs p.1 with
  | none =>
    rw [process, hg]
    exact ⟨rfl, rfl⟩
  | some f =>
    rw [process_eq hg]
    exact ⟨rfl, rfl⟩

theorem foldl_process_counts (ps : List (ℕ × Cqe)) (l : Ledger) :
    (ps.foldl process l).posts = l.posts ∧ (ps.foldl process l).seen = l.seen + ps.length := by
  induction ps generalizing l with
  | nil => exact ⟨rfl, rfl⟩
  | cons p ps ih =>
    obtain ⟨hposts, hseen⟩ := ih (l.process p)
    obtain ⟨hposts₁, hseen₁⟩ := l.process_counts p
    rw [List.foldl_cons, hposts, hseen, hposts₁, hseen₁, List.length_cons]
    exact ⟨rfl, by omega⟩

/-- `process_cqes` leaves no event behind. -/
theorem pending_processAll (l : Ledger) : l.processAll.pending = [] := by
  obtain ⟨hposts, hseen⟩ := foldl_process_counts l.pending l
  unfold processAll
  rw [pending, hposts, hseen, pending, List.length_drop]
  exact List.drop_eq_nil_of_le (by omega)

end Ledger

namespace World

variable {hs : Hashes} {w w' : World} {e : Event} {out : Out} {a : Act}

/-! ## What a move does to the queues -/

/-- An event has been posted but not processed, or neither, or its task has been queued. -/
inductive Queues (a : Act) (w w' : World) : Prop
  | same (hrunqueue : w'.rt.runqueue = w.rt.runqueue) (hwoken : w'.ctx.woken = w.ctx.woken)
      (hposts : w'.ledger.posts = w.ledger.posts) (hpending : w'.ledger.pending = w.ledger.pending)
  | posted {p : ℕ × Cqe} (hact : a = .post p.1) (hrunqueue : w'.rt.runqueue = w.rt.runqueue)
      (hwoken : w'.ctx.woken = w.ctx.woken) (hposts : w'.ledger.posts = w.ledger.posts ++ [p])
      (hpending : w'.ledger.pending = w.ledger.pending ++ [p])
  | processed {p : ℕ × Cqe} {rest : List (ℕ × Cqe)} {queued woken : List ℕ}
      (hrunqueue : w'.rt.runqueue = w.rt.runqueue ++ queued)
      (hwoken : w'.ctx.woken = w.ctx.woken ++ woken) (hone : queued.length + woken.length ≤ 1)
      (hposts : w'.ledger.posts = w.ledger.posts) (hpending : w.ledger.pending = p :: rest)
      (hrest : w'.ledger.pending = rest)

/-- Entries and futures change, and nothing is posted. -/
theorem Queues.of_ledger (hrunqueue : w'.rt.runqueue = w.rt.runqueue)
    (hwoken : w'.ctx.woken = w.ctx.woken)
    (hl : w'.ledger.posts = w.ledger.posts ∧ w'.ledger.seen = w.ledger.seen) : Queues a w w' :=
  .same hrunqueue hwoken hl.1 (by rw [Ledger.pending, Ledger.pending, hl.1, hl.2])

theorem Move.queues (ha : a ≠ .runtime) (hc : w.Consistent) (hm : Move w a w') : Queues a w w' := by
  cases hm with
  | runtime _ => exact absurd rfl ha
  | complete hg hl =>
    obtain ⟨f, held, bufs, -, -, -, rfl⟩ := Ledger.complete_eq_some hl
    exact .of_ledger rfl rfl ⟨rfl, rfl⟩
  | @post g f cqe hg hst hroom =>
    refine .posted (p := (g, cqe)) rfl rfl rfl rfl ?_
    show (w.ledger.posts ++ [(g, cqe)]).drop w.ledger.seen = _
    exact List.drop_append_of_le_length hc.tables.posts.seen
  | newFuture hcall hnew =>
    obtain ⟨⟨i, completions⟩, -, hpair⟩ := Option.map_eq_some_iff.1 hnew
    obtain ⟨rfl, rfl⟩ := Prod.mk.inj hpair
    exact .of_ledger rfl rfl ⟨rfl, rfl⟩
  | request hcall hs hreq hnew =>
    obtain ⟨⟨i, completions⟩, -, hpair⟩ := Option.map_eq_some_iff.1 hnew
    obtain ⟨rfl, rfl⟩ := Prod.mk.inj hpair
    rcases beginRequest_started hreq with ⟨-, rfl⟩ | ⟨_, _, _, buffers, -, -, -, rfl, -⟩
    · exact .of_ledger rfl rfl ⟨rfl, rfl⟩
    · exact .of_ledger rfl rfl ⟨rfl, rfl⟩
  | fill hcall hs hg hfill =>
    obtain ⟨sq, completions, -, rfl, -⟩ := fillSlot_eq_some hfill
    exact .of_ledger rfl rfl ⟨rfl, rfl⟩
  | publish hs hpub queued =>
    have hl := Ledger.publish_eq w.ledger
    exact .of_ledger rfl rfl
      ⟨(congrArg Ledger.posts (hl _) :), (congrArg Ledger.seen (hl _) :)⟩
  | abandon hs =>
    have hl := Ledger.abandon_eq w.ledger
    exact .of_ledger rfl rfl
      ⟨(congrArg Ledger.posts (hl _) :), (congrArg Ledger.seen (hl _) :)⟩
  | resolve hcall hg hlive hkind hce hcqe hget =>
    have hl := Ledger.resolve_eq hg
    exact .of_ledger rfl rfl
      ⟨(congrArg Ledger.posts (hl _ _) :), (congrArg Ledger.seen (hl _ _) :)⟩
  | @process g f cqe ce rest intoRunqueue hp hg hst hud hce hok =>
    obtain ⟨completions, heq, -⟩ := takeCqe_eq intoRunqueue hst hud hce hok
    have hone : (queuedTask f ce).length ≤ 1 := by
      unfold queuedTask
      split <;> simp
    have hl : w.ledger.process (g, cqe) = _ := Ledger.process_eq hg
    rw [heq, hl]
    refine .processed (p := (g, cqe)) rfl rfl ?_ rfl hp ?_
    · cases intoRunqueue with
      | true => simpa using hone
      | false => simpa using hone
    · rw [Ledger.pending, ← List.tail_drop]
      exact congrArg List.tail hp
  | _ => exact .of_ledger rfl rfl ⟨rfl, rfl⟩

/-- The tasks that are queued, and those that events are going to queue, `k` times. -/
def backlog (k : ℕ) (w : World) : ℕ :=
  w.ctx.created.length + w.rt.runqueue.length + w.ctx.woken.length + k * w.ledger.pending.length

/-- The tasks that have been spawned, and the events that have been posted, `k` times. -/
def granted (k : ℕ) (w : World) : ℕ := w.nextTask + k * w.ledger.posts.length

theorem Queues.backlog_le {k : ℕ} (h : Queues a w w') (hq : Quiet w w') (hk : 1 ≤ k) :
    w'.backlog k + w.granted k ≤ w.backlog k + w'.granted k := by
  unfold backlog granted
  rw [hq.created, hq.nextTask]
  cases h with
  | same hrunqueue hwoken hposts hpending => rw [hrunqueue, hwoken, hposts, hpending]
  | posted hact hrunqueue hwoken hposts hpending =>
    rw [hrunqueue, hwoken, hposts, hpending, List.length_append, List.length_append,
      List.length_singleton, Nat.mul_add, Nat.mul_add]
    omega
  | processed hrunqueue hwoken hone hposts hpending hrest =>
    rw [hrunqueue, hwoken, hposts, hpending, hrest, List.length_append, List.length_append,
      List.length_cons, Nat.mul_succ]
    omega

/-- Only what the runtime does gets a task out of the queues. -/
theorem Does.backlog_le {k : ℕ} (h : Does Act.Quiet w w') (hc : w.Consistent) (hk : 1 ≤ k) :
    w'.backlog k + w.granted k ≤ w.backlog k + w'.granted k := by
  refine (h.keeps (I := fun u => u.backlog k + w.granted k ≤ w.backlog k + u.granted k)
    (fun u a v hu ha hle hm => ?_) hc le_rfl).2
  have hne : a ≠ .runtime := by
    rintro rfl
    exact ha
  have hstep := (Move.queues hne hu hm).backlog_le (.of_move hne hm) hk
  omega

/-- What has been queued has been granted. -/
def Balanced (k : ℕ) (w w' : World) : Prop :=
  w'.backlog k + w.granted k = w.backlog k + w'.granted k

theorem balanced_same {k : ℕ} (hcreated : w'.ctx.created = w.ctx.created)
    (hrunqueue : w'.rt.runqueue = w.rt.runqueue) (hwoken : w'.ctx.woken = w.ctx.woken)
    (hpending : w'.ledger.pending = w.ledger.pending) (hposts : w'.ledger.posts = w.ledger.posts)
    (hnext : w'.nextTask = w.nextTask) : Balanced k w w' := by
  unfold Balanced backlog granted
  rw [hcreated, hrunqueue, hwoken, hpending, hposts, hnext]

/-- A task is spawned, and queued in one place or the other. -/
theorem balanced_spawned {k : ℕ}
    (hqueued : w'.ctx.created.length + w'.rt.runqueue.length =
      w.ctx.created.length + w.rt.runqueue.length + 1) (hwoken : w'.ctx.woken = w.ctx.woken)
    (hledger : w'.ledger = w.ledger) (hnext : w'.nextTask = w.nextTask + 1) :
    Balanced k w w' := by
  unfold Balanced backlog granted
  rw [hwoken, hledger, hnext, hqueued]
  omega

theorem RuntimeStep.spawned {k : ℕ} (hst : RuntimeStep hs w e w')
    (he : e = .handleSpawn ∨ e = .spawn ∨ e = .blockOn) : Balanced k w w' := by
  cases hst with
  | handleSpawn =>
    refine balanced_spawned ?_ rfl rfl rfl
    show (w.ctx.created ++ [w.nextTask]).length + w.rt.runqueue.length = _
    rw [List.length_append, List.length_singleton]
    omega
  | @spawn id futures hphase hframe hins =>
    refine balanced_spawned ?_ rfl rfl rfl
    show w.ctx.created.length + (w.rt.runqueue ++ [id]).length = _
    rw [List.length_append, List.length_singleton]
    omega
  | @blockOn id futures hphase hframe hins =>
    refine balanced_spawned ?_ rfl rfl rfl
    show w.ctx.created.length + (w.rt.runqueue ++ [id]).length = _
    rw [List.length_append, List.length_singleton]
    omega
  | _ => simp at he

/-- Events are processed, and not more tasks queued than there are events. -/
theorem Processed.counts (h : Processed w w') (hc : w.Consistent) :
    w'.ledger.posts = w.ledger.posts ∧
      w'.rt.runqueue.length + w'.ledger.pending.length ≤
        w.rt.runqueue.length + w.ledger.pending.length := by
  refine (Does.keeps (I := fun u => u.ledger.posts = w.ledger.posts ∧
    u.rt.runqueue.length + u.ledger.pending.length ≤
      w.rt.runqueue.length + w.ledger.pending.length) ?_ h hc ⟨rfl, le_rfl⟩).2
  rintro u a v hu ⟨g, rfl⟩ ⟨hposts, hle⟩ hm
  cases Move.queues (by simp) hu hm with
  | same hrunqueue hwoken hposts' hpending =>
    rw [hrunqueue, hpending, hposts']
    exact ⟨hposts, hle⟩
  | posted hact => cases hact
  | processed hrunqueue hwoken hone hposts' hpending hrest =>
    rw [hpending, List.length_cons] at hle
    rw [hrunqueue, hrest, hposts', List.length_append]
    exact ⟨hposts, by omega⟩

/-! ## The loop over the runqueue -/

/-- The loop over the runqueue goes round. -/
def goesRound : Event → Bool
  | .next => true
  | _ => false

/-- The rounds it has still to go. -/
def roundsLeft (w : World) : ℕ := w.backlog 1 + w.toPoll.length

/-- The state in which `turn` processes the events. -/
theorem Consistent.unqueued (hc : w.Consistent) :
    (w.withCtx { w.ctx with queued := 0 }).Consistent :=
  hc.move (.runtime ⟨rfl, rfl, rfl, rfl, rfl, rfl, .inl rfl, hc.current⟩)

/-- The runqueue is drained after events have been processed: there are no more rounds to go than
tasks and events before. -/
theorem Processed.drained_rounds (hs : Hashes) (h : Processed w w') (hc : w.Consistent) :
    (w'.drained hs).roundsLeft ≤ w.backlog 1 := by
  obtain ⟨-, hle⟩ := h.counts hc
  have hdedup : (dedupPartial hs.hash1 hs.hash2 w'.rt.runqueue).length ≤ _ :=
    Dedup.length_dedupPartial_le _
  show w'.ctx.created.length + 0 + w'.ctx.woken.length + 1 * w'.ledger.pending.length +
    (dedupPartial hs.hash1 hs.hash2 w'.rt.runqueue).length ≤ _
  unfold backlog
  rw [h.quiet.created, h.woken]
  omega

theorem Processed.drained_granted (hs : Hashes) (h : Processed w w') (hc : w.Consistent) (k : ℕ) :
    (w'.drained hs).granted k = w.granted k := by
  show w'.nextTask + k * w'.ledger.posts.length = _
  rw [h.quiet.nextTask, (h.counts hc).1, granted]

/-- A turn takes over what has been created and woken. -/
theorem collect_backlog {k : ℕ} {rt : Runtime} (hrt : w.rt.collect = some rt) (phase : Phase) :
    ({ w with rt, phase } : World).backlog k = w.backlog k := by
  have hctx := Runtime.collect_ctx hrt
  have hlength := Runtime.collect_length hrt
  show rt.ctx.created.length + rt.runqueue.length + rt.ctx.woken.length +
    k * w.ledger.pending.length = _
  unfold backlog ctx
  rw [hctx, hlength]
  show 0 + _ + 0 + _ = _
  omega

/-- **The loop over the runqueue uses up what was queued.** -/
theorem RuntimeStep.rounds (hst : RuntimeStep hs w e w') (hc : w.Consistent) :
    w'.roundsLeft + (goesRound e).toNat + w.granted 1 ≤ w.roundsLeft + w'.granted 1 := by
  have hkeep (hbalanced : Balanced 1 w w')
      (hle : w'.toPoll.length + (goesRound e).toNat ≤ w.toPoll.length) :
      w'.roundsLeft + (goesRound e).toNat + w.granted 1 ≤ w.roundsLeft + w'.granted 1 := by
    unfold Balanced at hbalanced
    unfold roundsLeft
    omega
  have hidle (hphase : ∀ rest current, w.phase ≠ .polling rest current) :
      w.roundsLeft = w.backlog 1 := by
    unfold roundsLeft
    rw [toPoll_eq_nil hphase]
    rfl
  have hspawned := hst.spawned (k := 1)
  cases hst with
  | handleSpawn => exact hkeep (hspawned (by simp)) le_rfl
  | spawn hphase hframe hins => exact hkeep (hspawned (by simp)) le_rfl
  | blockOn hphase hframe hins => exact hkeep (hspawned (by simp)) le_rfl
  | turnSubmits hnone hphase hwants hrt hsub =>
    exact hkeep (congrArg (· + _) (collect_backlog hrt .choosing)) (Nat.zero_le _)
  | @turnPolls rt w₁ hphase hwants hrt hsub hproc =>
    have hcollect := collect_backlog (k := 1) hrt w.phase
    have hc₁ := (hc.collected hrt).unqueued
    have hle := hproc.drained_rounds hs hc₁
    rw [hidle (by simp [hphase]), hproc.drained_granted hs hc₁ 1]
    exact Nat.add_le_add_right (hle.trans hcollect.le) _
  | @submitted waitFor ret sq w₁ hnone hphase hring hproc =>
    have hc₁ := (hc.move hring).unqueued
    have hle := hproc.drained_rounds hs hc₁
    rw [hidle (by simp [hphase]), hproc.drained_granted hs hc₁ 1]
    exact Nat.add_le_add_right hle _
  | skip hphase hget =>
    exact hkeep (balanced_same rfl rfl rfl rfl rfl rfl) (by rw [toPoll_of_phase hphase]; rfl)
  | next hphase hget =>
    exact hkeep (balanced_same rfl rfl rfl rfl rfl rfl) (by rw [toPoll_of_phase hphase]; rfl)
  | ready hphase =>
    exact hkeep (balanced_same rfl rfl rfl rfl rfl rfl) (by rw [toPoll_of_phase hphase]; rfl)
  | pending hphase =>
    exact hkeep (balanced_same rfl rfl rfl rfl rfl rfl) (by rw [toPoll_of_phase hphase]; rfl)
  | _ => exact hkeep (balanced_same rfl rfl rfl rfl rfl rfl) (Nat.zero_le _)

/-- What the loops of the runtime do is no quiet step. -/
theorem step_phase (he : e = .next ∨ e = .turnOk) (hw : w.step hs e = some (out, w')) :
    w'.phase ≠ w.phase := by
  rcases he with rfl | rfl
  · have hw := (Option.ite_none_right_eq_some.1 hw).2
    unfold World.next at hw
    split at hw
    · rename_i id rest hphase
      rw [hphase]
      intro heq
      split at hw
      · obtain ⟨-, rfl⟩ := Prod.mk.inj (Option.some.inj hw)
        injection heq with hrest
        exact List.cons_ne_self _ _ hrest.symm
      · obtain ⟨-, rfl⟩ := Prod.mk.inj (Option.some.inj hw)
        injection heq with hrest
        exact List.cons_ne_self _ _ hrest.symm
    · cases hw
  · have hw := (Option.ite_none_right_eq_some.1 hw).2
    unfold World.turnOk at hw
    split at hw
    · rename_i hphase
      rw [hphase]
      obtain ⟨-, rfl⟩ := Prod.mk.inj (Option.some.inj hw)
      exact nofun
    · cases hw

theorem Init.backlog_eq (h : w.Init) (k : ℕ) : w.backlog k = 0 ∧ w.granted k = w.nextTask := by
  unfold backlog granted
  rw [h.created, h.runqueue, h.woken, h.ledger]
  exact ⟨by simp [Ledger.pending, Ledger.new], rfl⟩

/-- **The loop over the runqueue is paid for**: it goes round no more often than tasks have been
spawned and events posted, and for each of them that is still queued it has yet to. -/
theorem roundsPaid {l : List (Event × World)} (h0 : w.Init) (hr : Run (Step hs) w l) :
    (steps w l).countP (fun x => goesRound x.2.1) + (final w l).roundsLeft + w.nextTask ≤
      (final w l).nextTask + (final w l).ledger.posts.length := by
  have hm : ∀ u e v, Reachable hs u → True → Step hs u e v →
      v.roundsLeft + (goesRound e).toNat + u.granted 1 ≤
        u.roundsLeft + v.granted 1 + false.toNat := by
    rintro u e v hu - ⟨out, hw⟩
    have hc := Reachable.consistent hu
    rcases hc.step_cases hw with hdoes | hst
    · have hq := hdoes.quiet id
      have hle := hdoes.backlog_le (k := 1) hc le_rfl
      have hround : goesRound e = false := by
        cases e with
        | next => exact absurd hq.phase (step_phase (.inl rfl) hw)
        | _ => rfl
      unfold roundsLeft
      rw [hround, hq.toPoll, Bool.toNat_false]
      omega
    · exact hst.rounds hc
  have hpaid := hr.amortised (fun u e v hu _ hst => hu.tail hst) hm (.init h0) fun _ _ => trivial
  have hleft : w.roundsLeft = 0 := by
    unfold roundsLeft
    rw [(h0.backlog_eq 1).1, toPoll_eq_nil (by simp [h0.phase])]
    rfl
  rw [hleft, (h0.backlog_eq 1).2, List.countP_false, Function.const_apply] at hpaid
  unfold granted at hpaid
  omega

/-- A task is polled twice, the second time because of an event. -/
theorem polledAgain_roundsPaid :
    (steps emptyWorld (play (next? ⟨id, id⟩) emptyWorld polledAgain)).countP
      (fun x => goesRound x.2.1) = 2 ∧
    2 + (final emptyWorld (play (next? ⟨id, id⟩) emptyWorld polledAgain)).roundsLeft ≤
      (final emptyWorld (play (next? ⟨id, id⟩) emptyWorld polledAgain)).nextTask +
        (final emptyWorld (play (next? ⟨id, id⟩) emptyWorld polledAgain)).ledger.posts.length :=
  ⟨rfl, Nat.le_of_add_right_le (roundsPaid emptyWorld_init (run_play ⟨id, id⟩ _ polledAgain))⟩

/-! ## The turns -/

/-- A turn returns `Ok`. -/
def turnReturns : Event → Bool
  | .turnOk => true
  | _ => false

/-- `io_uring_enter` returns to a turn that has told it to wait for an event, and there is none. -/
def returnsEarly (w : World) : Event → Bool
  | .enter _ => match w.phase with
    | .submitting waitFor => waitFor != 0 && w.ledger.pending.isEmpty
    | _ => false
  | _ => false

/-- What is kept for the end of a turn: one of the tasks it polls, and before that nothing as long
as there is a task or an event to come. -/
def turnLeft (w : World) : ℕ :=
  match w.phase with
  | .polling rest _ => max rest.length 1
  | .submitting waitFor =>
    if waitFor = 0 ∧ w.rt.runqueue = [] ∧ w.ledger.pending = [] then 1 else 0
  | _ => 0

/-- The turns that may still return, where an event counts twice: it may be processed in one turn
and queue a task for the next. -/
def turnsLeft (w : World) : ℕ := w.backlog 2 + w.turnLeft

theorem Quiet.turnLeft_le (h : Quiet w w') : w'.turnLeft ≤ w.turnLeft + 1 := by
  unfold turnLeft
  rw [h.phase]
  split
  · exact Nat.le_succ _
  · split <;> omega
  · omega

theorem Queues.turnsLeft_le (h : Queues a w w') (hq : Quiet w w') :
    w'.turnsLeft + w.granted 2 ≤ w.turnsLeft + w'.granted 2 := by
  have hone := hq.turnLeft_le
  unfold turnsLeft backlog granted
  rw [hq.created, hq.nextTask]
  cases h with
  | same hrunqueue hwoken hposts hpending =>
    have hleft : w'.turnLeft = w.turnLeft := by
      unfold turnLeft
      rw [hq.phase, hrunqueue, hpending]
    rw [hrunqueue, hwoken, hposts, hpending, hleft]
  | posted hact hrunqueue hwoken hposts hpending =>
    have hleft : w'.turnLeft ≤ w.turnLeft := by
      unfold turnLeft
      rw [hq.phase, hrunqueue, hpending]
      split
      · exact le_rfl
      · rw [if_neg (by simp)]
        exact Nat.zero_le _
      · exact le_rfl
    rw [hrunqueue, hwoken, hposts, hpending, List.length_append, List.length_append,
      List.length_singleton]
    omega
  | processed hrunqueue hwoken hqueued hposts hpending hrest =>
    rw [hrunqueue, hwoken, hposts, hpending, hrest, List.length_append, List.length_append,
      List.length_cons]
    omega

theorem Does.turnsLeft_le (h : Does Act.Quiet w w') (hc : w.Consistent) :
    w'.turnsLeft + w.granted 2 ≤ w.turnsLeft + w'.granted 2 := by
  refine (h.keeps (I := fun u => u.turnsLeft + w.granted 2 ≤ w.turnsLeft + u.granted 2)
    (fun u a v hu ha hle hm => ?_) hc le_rfl).2
  have hne : a ≠ .runtime := by
    rintro rfl
    exact ha
  have hstep := (Move.queues hne hu hm).turnsLeft_le (.of_move hne hm)
  omega

/-- What `has_next` sees is there. -/
theorem Consistent.pending_of_hasNext (hc : w.Consistent) (h : w.ctx.cq.hasNext = true) :
    w.ledger.pending ≠ [] := by
  intro hnil
  obtain ⟨k, hk⟩ := hc.tables.posts.ring
  have hcount := hk.count
  rw [hnil, List.map_nil, List.length_nil] at hcount
  have hzero : w.ctx.cq.cq.ktail - w.ctx.cq.cq.khead = 0 := UInt32.toNat_inj.1 hcount
  have heq := UInt32.sub_add_cancel w.ctx.cq.cq.ktail w.ctx.cq.cq.khead
  rw [hzero, UInt32.zero_add] at heq
  rw [CompletionQueue.hasNext, heq, decide_eq_true_iff] at h
  exact absurd h (UInt32.lt_irrefl _)

theorem startPolling_pending {rest : List ℕ} {current : Option (ℕ × FutureObj)}
    (h : (w.startPolling hs).2.phase = .polling rest current) :
    (w.startPolling hs).2.ledger.pending = [] := by
  unfold startPolling at h ⊢
  split at h
  · cases h
  · exact Ledger.pending_processAll _

/-- A turn that has come to its polls has processed the events there were. -/
theorem polling_pending {rest : List ℕ} {current : Option (ℕ × FutureObj)}
    (he : e = .turn ∨
      w.call = .none ∧ ∃ ret waitFor, e = .enter ret ∧ w.phase = .submitting waitFor)
    (hw : w.step hs e = some (out, w')) (hphase : w'.phase = .polling rest current) :
    w'.ledger.pending = [] := by
  rcases he with rfl | ⟨hcall, ret, waitFor, rfl, hsub⟩
  · have hw := (Option.ite_none_right_eq_some.1 hw).2
    unfold World.turn at hw
    split at hw
    · obtain ⟨-, rfl⟩ := Prod.mk.inj (Option.some.inj hw)
      cases hphase
    · obtain ⟨rt, -, hw⟩ := Option.map_eq_some_iff.1 hw
      split at hw
      · obtain ⟨-, rfl⟩ := Prod.mk.inj hw
        cases hphase
      · obtain rfl := (congrArg Prod.snd hw :)
        exact startPolling_pending hphase
  · simp only [World.step, enter, hcall, hsub, Option.some.injEq] at hw
    unfold enterTurn at hw
    split at hw
    · obtain ⟨-, rfl⟩ := Prod.mk.inj hw
      cases hphase
    · obtain ⟨-, rfl⟩ := Prod.mk.inj hw
      have hsame : (w.retry _).phase = .submitting waitFor := hsub
      cases hsame.symm.trans hphase
    · obtain rfl := (congrArg Prod.snd hw :)
      exact startPolling_pending hphase
    · obtain ⟨-, rfl⟩ := Prod.mk.inj hw
      cases hphase

/-- The runqueue is drained when no event is left: there is a task to poll for each that was queued,
or whose event was processed. -/
theorem Processed.drained_turns (h : Processed w w') (hc : w.Consistent)
    (hpending : w'.ledger.pending = []) :
    (w'.drained hs).turnsLeft ≤ w.ctx.created.length + w.ctx.woken.length +
      max (w.rt.runqueue.length + w.ledger.pending.length) 1 := by
  obtain ⟨-, hle⟩ := h.counts hc
  have hdedup : (dedupPartial hs.hash1 hs.hash2 w'.rt.runqueue).length ≤ _ :=
    Dedup.length_dedupPartial_le _
  show w'.ctx.created.length + 0 + w'.ctx.woken.length + 2 * w'.ledger.pending.length +
    max (dedupPartial hs.hash1 hs.hash2 w'.rt.runqueue).length 1 ≤ _
  rw [h.quiet.created, h.woken, hpending, List.length_nil]
  have hmax := max_le_max_right 1
    (hdedup.trans ((Nat.le_add_right _ _).trans hle))
  omega

/-- A turn that goes on without `submit` has found a task or an event. -/
theorem Consistent.found_of_needsSubmit {rt : Runtime} (hc : ({ w with rt } : World).Consistent)
    (hsub : rt.needsSubmit = false) : 1 ≤ rt.runqueue.length + w.ledger.pending.length := by
  have hpending := hc.pending_of_hasNext
  cases hnext : rt.ctx.cq.hasNext with
  | true => exact (List.length_pos_iff.2 (hpending hnext)).trans_le (Nat.le_add_left ..)
  | false =>
    unfold Runtime.needsSubmit at hsub
    rw [hnext, Bool.not_false, Bool.and_true, Bool.or_eq_false_iff, List.isEmpty_eq_false_iff]
      at hsub
    exact (List.length_pos_iff.2 hsub.2).trans_le (Nat.le_add_right ..)

/-- With no task and no event, a turn tells the kernel to wait for one. -/
theorem Consistent.turnLeft_chooseWait (hc : w.Consistent) :
    turnLeft { w with phase := .submitting w.rt.waitFor } = 0 := by
  refine if_neg ?_
  rintro ⟨hwait, hrunqueue, hpending⟩
  have hnext : w.rt.ctx.cq.hasNext = false := by
    by_contra hnext
    exact hc.pending_of_hasNext (Bool.eq_true_of_not_eq_false hnext) hpending
  rw [Runtime.waitFor, hnext, hrunqueue] at hwait
  cases hwait

/-- When `submit` is at work there is a task or an event, or something is kept, or the kernel
does not wait. -/
theorem found_of_submitting {waitFor : UInt32} (ret : Except Errno UInt32)
    (hphase : w.phase = .submitting waitFor) :
    1 ≤ w.rt.runqueue.length + w.ledger.pending.length + w.turnLeft +
      (w.returnsEarly (.enter ret)).toNat := by
  unfold turnLeft returnsEarly
  rw [hphase]
  by_cases hpending : w.ledger.pending = []
  · by_cases hwait : waitFor = 0
    · by_cases hrunqueue : w.rt.runqueue = []
      · simp only [hwait, hrunqueue, hpending, and_self, if_true]
        omega
      · have hpos := List.length_pos_iff.2 hrunqueue
        omega
    · have hasked : (waitFor != 0) = true := bne_iff_ne.2 hwait
      simp [hasked, hpending]
  · have hpos := List.length_pos_iff.2 hpending
    omega

/-- **A turn that returns uses up what was queued**, or an event. -/
theorem RuntimeStep.turns (hst : RuntimeStep hs w e w') (hc : w.Consistent)
    (hw : w.step hs e = some (out, w')) :
    w'.turnsLeft + (turnReturns e).toNat + w.granted 2 ≤
      w.turnsLeft + w'.granted 2 + (w.returnsEarly e).toNat := by
  have hkeep (hbalanced : Balanced 2 w w')
      (hle : w'.turnLeft + (turnReturns e).toNat ≤ w.turnLeft) :
      w'.turnsLeft + (turnReturns e).toNat + w.granted 2 ≤
        w.turnsLeft + w'.granted 2 + (w.returnsEarly e).toNat := by
    unfold Balanced at hbalanced
    unfold turnsLeft
    omega
  have hpolling {rest : List ℕ} {current : Option (ℕ × FutureObj)}
      (hphase : w.phase = .polling rest current) : w.turnLeft = max rest.length 1 := by
    rw [turnLeft, hphase]
  have hidle (hphase : w.phase = .idle) : w.turnsLeft = w.backlog 2 := by
    rw [turnsLeft, turnLeft, hphase]
    rfl
  have hspawned := hst.spawned (k := 2)
  cases hst with
  | handleSpawn => exact hkeep (hspawned (by simp)) le_rfl
  | spawn hphase hframe hins =>
    refine hkeep (hspawned (by simp)) ?_
    simp only [turnLeft, hphase, turnReturns, Bool.toNat_false, le_refl]
  | blockOn hphase hframe hins =>
    refine hkeep (hspawned (by simp)) ?_
    simp only [turnLeft, hphase, turnReturns, Bool.toNat_false, le_refl]
  | turnPanics hphase hsession =>
    exact hkeep (balanced_same rfl rfl rfl rfl rfl rfl) (Nat.zero_le _)
  | turnSubmits hnone hphase hwants hrt hsub =>
    exact hkeep (congrArg (· + _) (collect_backlog hrt .choosing)) (Nat.zero_le _)
  | @turnPolls rt w₁ hphase hwants hrt hsub hproc =>
    have hcollect := collect_backlog (k := 2) hrt w.phase
    have hc₁ := hc.collected hrt
    have hgranted : (w₁.drained hs).granted 2 = w.granted 2 :=
      hproc.drained_granted hs hc₁.unqueued 2
    have hpending : (w₁.drained hs).ledger.pending = [] := polling_pending (.inl rfl) hw rfl
    have hturns : (w₁.drained hs).turnsLeft ≤ rt.ctx.created.length + rt.ctx.woken.length +
      max (rt.runqueue.length + w.ledger.pending.length) 1 :=
      hproc.drained_turns hc₁.unqueued hpending
    have hmax := max_eq_left (hc₁.found_of_needsSubmit hsub)
    have hbacklog : rt.ctx.created.length + rt.runqueue.length + rt.ctx.woken.length +
      2 * w.ledger.pending.length = w.backlog 2 := hcollect
    rw [hidle hphase, hgranted]
    show _ + 0 + _ ≤ _ + 0
    omega
  | chooseWait hphase =>
    refine hkeep (balanced_same rfl rfl rfl rfl rfl rfl) ?_
    rw [hc.turnLeft_chooseWait]
    exact Nat.zero_le _
  | @submitted waitFor ret sq w₁ hnone hphase hring hproc =>
    have hc₁ := (hc.move hring).unqueued
    have hgranted : (w₁.drained hs).granted 2 = w.granted 2 := hproc.drained_granted hs hc₁ 2
    have hpending : (w₁.drained hs).ledger.pending = [] :=
      polling_pending (.inr ⟨hnone, ret, waitFor, rfl, hphase⟩) hw rfl
    have hturns : (w₁.drained hs).turnsLeft ≤ w.ctx.created.length + w.ctx.woken.length +
      max (w.rt.runqueue.length + w.ledger.pending.length) 1 :=
      hproc.drained_turns hc₁ hpending
    have hfound := found_of_submitting ret hphase
    rw [hgranted]
    unfold turnsLeft backlog at hturns ⊢
    show _ + 0 + _ ≤ _
    omega
  | failed hnone hphase hcall hfatal =>
    exact hkeep (balanced_same rfl rfl rfl rfl rfl rfl) (Nat.zero_le _)
  | @skip id rest hphase hget =>
    refine hkeep (balanced_same rfl rfl rfl rfl rfl rfl) ?_
    rw [hpolling hphase]
    simp [turnReturns, turnLeft]
  | @next id rest task hphase hget =>
    refine hkeep (balanced_same rfl rfl rfl rfl rfl rfl) ?_
    rw [hpolling hphase]
    simp [turnReturns, turnLeft]
  | ready hphase =>
    exact hkeep (balanced_same rfl rfl rfl rfl rfl rfl) (by rw [hpolling hphase]; rfl)
  | pending hphase =>
    exact hkeep (balanced_same rfl rfl rfl rfl rfl rfl) (by rw [hpolling hphase]; rfl)
  | turnOk hphase =>
    exact hkeep (balanced_same rfl rfl rfl rfl rfl rfl) (by rw [hpolling hphase]; rfl)
  | _ => exact hkeep (balanced_same rfl rfl rfl rfl rfl rfl) (Nat.zero_le _)

/-- **The event loop does not spin**: no more turns return `Ok` than tasks have been spawned and,
twice, events posted, but for those in which `io_uring_enter` did not wait although it was told
to. -/
theorem turnsPaid {l : List (Event × World)} (h0 : w.Init) (hr : Run (Step hs) w l) :
    (steps w l).countP (fun x => turnReturns x.2.1) + (final w l).turnsLeft + w.nextTask ≤
      (final w l).nextTask + 2 * (final w l).ledger.posts.length +
        (steps w l).countP (fun x => x.1.returnsEarly x.2.1) := by
  have hm : ∀ u e v, Reachable hs u → True → Step hs u e v →
      v.turnsLeft + (turnReturns e).toNat + u.granted 2 ≤
        u.turnsLeft + v.granted 2 + (u.returnsEarly e).toNat := by
    rintro u e v hu - ⟨out, hw⟩
    have hc := Reachable.consistent hu
    rcases hc.step_cases hw with hdoes | hst
    · have hle := hdoes.turnsLeft_le hc
      have hreturn : turnReturns e = false := by
        cases e with
        | turnOk => exact absurd (hdoes.quiet id).phase (step_phase (.inr rfl) hw)
        | _ => rfl
      rw [hreturn, Bool.toNat_false]
      omega
    · exact hst.turns hc hw
  have hpaid := hr.amortised (fun u e v hu _ hst => hu.tail hst) hm (.init h0) fun _ _ => trivial
  have hleft : w.turnsLeft = 0 := by
    unfold turnsLeft turnLeft
    rw [(h0.backlog_eq 2).1, h0.phase]
    rfl
  rw [hleft, (h0.backlog_eq 2).2] at hpaid
  unfold granted at hpaid
  omega

/-- The task is polled in two turns, of which the second one finds its event. -/
theorem polledAgain_turnsPaid :
    (steps emptyWorld (play (next? ⟨id, id⟩) emptyWorld polledAgain)).countP
      (fun x => turnReturns x.2.1) = 2 ∧
    2 + (final emptyWorld (play (next? ⟨id, id⟩) emptyWorld polledAgain)).turnsLeft ≤
      (final emptyWorld (play (next? ⟨id, id⟩) emptyWorld polledAgain)).nextTask +
        2 * (final emptyWorld (play (next? ⟨id, id⟩) emptyWorld polledAgain)).ledger.posts.length :=
  ⟨rfl, Nat.le_of_add_right_le (turnsPaid emptyWorld_init (run_play ⟨id, id⟩ _ polledAgain))⟩

end World

end Hamerkop
