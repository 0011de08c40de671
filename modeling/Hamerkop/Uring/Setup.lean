import Hamerkop.Lib.Runs

/-!
# Setting up and tearing down an `IoUring`

`with_params` and `drop` of `uring/src/lib.rs`, with `mmap_queues` and `unmap_queues` of
`uring/src/detail.rs`, as they work on the memory map and the file descriptors of a process.
Addresses are counted in pages.  Whether a system call succeeds, and where a mapping is placed,
is up to the kernel.

* `always_accounted` — over any history of rings that are created and dropped, however many at
  once and whichever calls fail: a failed set-up leaves nothing behind, two rings never share
  a page, and a ring that is dropped leaves exactly the mapping of its submission queue
  entries behind, which nobody unmaps.
-/

namespace Hamerkop

open Runs

/-- `raw::io_uring_params`, as the kernel has filled it in -/
structure IoUringParams where
  sqEntries : ℕ
  cqEntries : ℕ
  /-- `Features::SINGLE_MMAP` -/
  singleMmap : Bool
  sqOffArray : ℕ
  cqOffCqes : ℕ
deriving DecidableEq, Repr

/-- What the kernel answers in a set-up, as far as it is asked; an error is its `errno`. -/
structure SetupAnswers where
  setup : Except ℤ (ℕ × IoUringParams)
  sqRing : Except ℤ ℕ
  cqRing : Except ℤ ℕ
  sqes : Except ℤ ℕ
  /-- what the indirection array contains when it is mapped -/
  array : ℕ → ℕ

/-- The mapped pages and the open file descriptors of a process. -/
structure Process where
  mapped : Finset ℕ
  fds : Finset ℕ

/-- The pages of a mapping. -/
def pages (ptr size : ℕ) : Finset ℕ := Finset.Ico ptr (ptr + (size + 4095) / 4096)

namespace Process

/-- There is no result when the kernel could not have answered so: a mapping is not empty, not
at zero, and does not replace another one. -/
def mmap (p : Process) (answer : Except ℤ ℕ) (size : ℕ) : Option (Except ℤ ℕ × Process) :=
  match answer with
  | .error e => some (.error e, p)
  | .ok ptr =>
    if 0 < ptr ∧ 0 < size ∧ Disjoint p.mapped (pages ptr size) then
      some (.ok ptr, { p with mapped := p.mapped ∪ pages ptr size })
    else
      none

/-- `munmap(ptr, size)` -/
def munmap (p : Process) (ptr size : ℕ) : Process := { p with mapped := p.mapped \ pages ptr size }

/-- There is no result when the descriptor is in use. -/
def ioUringSetup (p : Process) (answer : Except ℤ (ℕ × IoUringParams)) :
    Option (Except ℤ (ℕ × IoUringParams) × Process) :=
  match answer with
  | .error e => some (.error e, p)
  | .ok (fd, params) =>
    if fd ∈ p.fds then none else some (.ok (fd, params), { p with fds := insert fd p.fds })

/-- `close(fd)` -/
def close (p : Process) (fd : ℕ) : Process := { p with fds := p.fds.erase fd }

end Process

/-- `detail::io_uring_sq`, what the set-up makes of it -/
structure RingSq where
  ringPtr : ℕ
  ringSz : ℕ
  sqes : ℕ
  /-- what `kring_entries` points to -/
  kringEntries : ℕ
  array : ℕ → ℕ

/-- `detail::io_uring_cq`, what the set-up makes of it -/
structure RingCq where
  ringPtr : ℕ
  ringSz : ℕ
deriving DecidableEq, Repr

/-- A ring: the two mapped queues, and its descriptor. -/
structure IoUring where
  sq : RingSq
  cq : RingCq
  fd : ℕ

namespace IoUringParams

/-- `sq_ring_sz` -/
def sqRingSz (params : IoUringParams) : ℕ :=
  let sqRingSz := params.sqOffArray + params.sqEntries * 4
  let cqRingSz := params.cqOffCqes + params.cqEntries * 16
  if params.singleMmap then max sqRingSz cqRingSz else sqRingSz

/-- `cq_ring_sz` -/
def cqRingSz (params : IoUringParams) : ℕ :=
  let cqRingSz := params.cqOffCqes + params.cqEntries * 16
  if params.singleMmap then max params.sqRingSz cqRingSz else cqRingSz

theorem cqRingSz_eq {params : IoUringParams} (h : params.singleMmap) :
    params.cqRingSz = params.sqRingSz := by
  unfold cqRingSz sqRingSz
  simp only [if_pos h]
  omega

end IoUringParams

/-- `mmap_queues` -/
def mmapQueues (p : Process) (k : SetupAnswers) (params : IoUringParams) :
    Option (Except ℤ (RingSq × RingCq) × Process) := do
  let (sqRing, p) ← p.mmap k.sqRing params.sqRingSz
  match sqRing with
  | .error e => return (.error e, p)
  | .ok sqRingPtr =>
    let (cqRing, p) ←
      (if params.singleMmap then some (.ok sqRingPtr, p) else p.mmap k.cqRing params.cqRingSz)
    match cqRing with
    | .error e => return (.error e, p.munmap sqRingPtr params.sqRingSz)
    | .ok cqRingPtr =>
      let (sqes, p) ← p.mmap k.sqes (params.sqEntries * 64)
      match sqes with
      | .error e =>
        return (.error e,
          (p.munmap sqRingPtr params.sqRingSz).munmap cqRingPtr params.cqRingSz)
      | .ok sqes =>
        return (.ok
          ({ ringPtr := sqRingPtr
             ringSz := params.sqRingSz
             sqes
             kringEntries := params.sqEntries
             array := k.array },
           { ringPtr := cqRingPtr, ringSz := params.cqRingSz }), p)

/-- `unmap_queues` -/
def unmapQueues (p : Process) (sq : RingSq) (cq : RingCq) : Process :=
  let p := p.munmap sq.ringPtr sq.ringSz
  if cq.ringPtr ≠ 0 ∧ cq.ringPtr ≠ sq.ringPtr then p.munmap cq.ringPtr cq.ringSz else p

/-- The loop that sets up the indirection array -/
def fillArray (array : ℕ → ℕ) : ℕ → ℕ → ℕ
  | 0 => array
  | i + 1 => Function.update (fillArray array i) i i

namespace IoUring

/-- `with_params`, with these answers of the kernel. -/
def withParams (p : Process) (k : SetupAnswers) : Option (Except ℤ IoUring × Process) := do
  let (setup, p) ← p.ioUringSetup k.setup
  match setup with
  | .error e => return (.error e, p)
  | .ok (fd, params) =>
    let (queues, p) ← mmapQueues p k params
    match queues with
    | .error e => return (.error e, p.close fd)
    | .ok (sq, cq) =>
      let mask := sq.kringEntries - 1
      return (.ok { sq := { sq with array := fillArray sq.array (mask + 1) }, cq, fd }, p)

/-- A ring is dropped. -/
def drop (self : IoUring) (p : Process) : Process := (unmapQueues p self.sq self.cq).close self.fd

end IoUring

/-! ## What a set-up does -/

/-- The pages of the rings, each once. -/
def ringPages (sq : RingSq) (cq : RingCq) : Multiset ℕ :=
  (pages sq.ringPtr sq.ringSz).val +
    if cq.ringPtr = sq.ringPtr then 0 else (pages cq.ringPtr cq.ringSz).val

/-- The pages of the submission queue entries. -/
def sqesPages (sq : RingSq) : Multiset ℕ := (pages sq.sqes (sq.kringEntries * 64)).val

namespace Process

variable {p p' : Process}

theorem mmap_ok {answer : Except ℤ ℕ} {size ptr : ℕ}
    (h : p.mmap answer size = some (.ok ptr, p')) :
    0 < ptr ∧ (pages ptr size).Nonempty ∧ Disjoint p.mapped (pages ptr size) ∧
      p' = { p with mapped := p.mapped ∪ pages ptr size } := by
  cases answer with
  | error e => simp [mmap] at h
  | ok ptr' =>
    by_cases hok : 0 < ptr' ∧ 0 < size ∧ Disjoint p.mapped (pages ptr' size)
    · simp only [mmap, if_pos hok, Option.some.injEq, Prod.mk.injEq, Except.ok.injEq] at h
      obtain ⟨rfl, rfl⟩ := h
      obtain ⟨hptr, hsize, hdisjoint⟩ := hok
      refine ⟨hptr, ?_, hdisjoint, rfl⟩
      rw [pages, Finset.nonempty_Ico]
      omega
    · simp [mmap, hok] at h

theorem mmap_error {answer : Except ℤ ℕ} {size : ℕ} {e : ℤ}
    (h : p.mmap answer size = some (.error e, p')) : p' = p := by
  cases answer with
  | error e' =>
    simp only [mmap, Option.some.injEq, Prod.mk.injEq] at h
    exact h.2.symm
  | ok ptr =>
    unfold mmap at h
    split at h <;> simp_all

theorem ioUringSetup_ok {answer : Except ℤ (ℕ × IoUringParams)} {fd : ℕ} {params : IoUringParams}
    (h : p.ioUringSetup answer = some (.ok (fd, params), p')) :
    fd ∉ p.fds ∧ p' = { p with fds := insert fd p.fds } := by
  rcases answer with e | ⟨fd', params'⟩
  · simp [ioUringSetup] at h
  · by_cases hfd : fd' ∈ p.fds
    · simp [ioUringSetup, hfd] at h
    · simp only [ioUringSetup, if_neg hfd, Option.some.injEq, Prod.mk.injEq, Except.ok.injEq] at h
      obtain ⟨⟨rfl, rfl⟩, rfl⟩ := h
      exact ⟨hfd, rfl⟩

theorem ioUringSetup_error {answer : Except ℤ (ℕ × IoUringParams)} {e : ℤ}
    (h : p.ioUringSetup answer = some (.error e, p')) : p' = p := by
  rcases answer with e' | ⟨fd, params⟩
  · simp only [ioUringSetup, Option.some.injEq, Prod.mk.injEq] at h
    exact h.2.symm
  · unfold ioUringSetup at h
    split at h <;> simp_all

/-- Unmapping what has just been mapped. -/
theorem munmap_mapped {mapped : Finset ℕ} {ptr size : ℕ} (h : Disjoint p.mapped (pages ptr size))
    (hmapped : mapped = p.mapped ∪ pages ptr size) :
    { p with mapped }.munmap ptr size = p := by
  unfold munmap
  subst hmapped
  rw [Finset.union_sdiff_right, Finset.sdiff_eq_self_of_disjoint h]

/-- Unmapping what is not mapped. -/
theorem munmap_of_disjoint {ptr size : ℕ} (h : Disjoint p.mapped (pages ptr size)) :
    p.munmap ptr size = p := by
  unfold munmap
  rw [Finset.sdiff_eq_self_of_disjoint h]

theorem mapped_val {ptr size : ℕ} (h : Disjoint p.mapped (pages ptr size)) :
    (p.mapped ∪ pages ptr size).val = p.mapped.val + (pages ptr size).val := by
  rw [← Finset.disjUnion_eq_union _ _ h]
  rfl

/-- Unmapping some of what is mapped. -/
theorem munmap_val {ptr size : ℕ} {rest : Multiset ℕ}
    (h : p.mapped.val = rest + (pages ptr size).val) : (p.munmap ptr size).mapped.val = rest := by
  unfold munmap
  rw [Finset.sdiff_val, h, Multiset.add_sub_cancel_right]

end Process

variable {p p' : Process} {k : SetupAnswers} {params : IoUringParams}

/-- What `mmap_queues` leaves: nothing, or the rings and the entries. -/
theorem mmapQueues_cases {result : Except ℤ (RingSq × RingCq)}
    (h : mmapQueues p k params = some (result, p')) :
    (∃ e, result = .error e ∧ p' = p) ∨
      ∃ sq cq, result = .ok (sq, cq) ∧ cq.ringPtr ≠ 0 ∧ sq.kringEntries = params.sqEntries ∧
        sq.array = k.array ∧ p'.fds = p.fds ∧
        p'.mapped.val = p.mapped.val + ringPages sq cq + sqesPages sq := by
  obtain ⟨sqSz, hsqSz⟩ : ∃ n, n = params.sqRingSz := ⟨_, rfl⟩
  obtain ⟨cqSz, hcqSz⟩ : ∃ n, n = params.cqRingSz := ⟨_, rfl⟩
  rw [mmapQueues, ← hsqSz, ← hcqSz] at h
  obtain ⟨⟨⟨e⟩ | ⟨sqPtr⟩, p₁⟩, hsq, h⟩ := Option.bind_eq_some_iff.mp h
  · obtain ⟨rfl, rfl⟩ := Prod.mk.inj (Option.some.inj h)
    exact .inl ⟨e, rfl, Process.mmap_error hsq⟩
  obtain ⟨hsqPos, hsqNonempty, hsqDisjoint, rfl⟩ := Process.mmap_ok hsq
  obtain ⟨⟨cqRing, p₂⟩, hcq, h⟩ := Option.bind_eq_some_iff.mp h
  -- the mapping of the entries is left, which is the same for one ring mapping and for two
  have hrest : ∀ (p₂ : Process) (cqPtr : ℕ) (sqes : Except ℤ ℕ) (p₃ : Process), cqPtr ≠ 0 →
      (p₂.munmap sqPtr sqSz).munmap cqPtr cqSz = p → p₂.fds = p.fds →
      p₂.mapped.val = p.mapped.val + ((pages sqPtr sqSz).val +
        if cqPtr = sqPtr then 0 else (pages cqPtr cqSz).val) →
      p₂.mmap k.sqes (params.sqEntries * 64) = some (sqes, p₃) →
      (match sqes with
        | .error e => some (.error e, (p₃.munmap sqPtr sqSz).munmap cqPtr cqSz)
        | .ok sqes => some (.ok
          ({ ringPtr := sqPtr, ringSz := sqSz, sqes, kringEntries := params.sqEntries,
             array := k.array }, { ringPtr := cqPtr, ringSz := cqSz }), p₃)) =
        some (result, p') →
      (∃ e, result = .error e ∧ p' = p) ∨
        ∃ sq cq, result = .ok (sq, cq) ∧ cq.ringPtr ≠ 0 ∧ sq.kringEntries = params.sqEntries ∧
          sq.array = k.array ∧ p'.fds = p.fds ∧
          p'.mapped.val = p.mapped.val + ringPages sq cq + sqesPages sq := by
    intro p₂ cqPtr sqes p₃ hptr hclean hfds hrings hsqes h
    cases sqes with
    | error e =>
      obtain rfl := Process.mmap_error hsqes
      simp only [Option.some.injEq, Prod.mk.injEq] at h
      exact .inl ⟨e, h.1.symm, h.2.symm.trans hclean⟩
    | ok sqes =>
      obtain ⟨-, -, hdisjoint, rfl⟩ := Process.mmap_ok hsqes
      simp only [Option.some.injEq, Prod.mk.injEq] at h
      obtain ⟨rfl, rfl⟩ := h
      refine .inr ⟨_, _, rfl, hptr, rfl, rfl, hfds, ?_⟩
      simp only [Process.mapped_val hdisjoint, hrings]
      rfl
  by_cases hsingle : params.singleMmap
  · rw [if_pos hsingle, Option.some.injEq, Prod.mk.injEq] at hcq
    obtain ⟨rfl, rfl⟩ := hcq
    obtain ⟨⟨sqes, p₃⟩, hsqes, h⟩ := Option.bind_eq_some_iff.mp h
    refine hrest { p with mapped := p.mapped ∪ pages sqPtr sqSz } sqPtr sqes p₃ hsqPos.ne' ?_ rfl
      ?_ hsqes h
    · have hsize : cqSz = sqSz := by
        rw [hcqSz, hsqSz, IoUringParams.cqRingSz_eq hsingle]
      rw [Process.munmap_mapped hsqDisjoint rfl, hsize, Process.munmap_of_disjoint hsqDisjoint]
    · rw [if_pos rfl, add_zero]
      exact Process.mapped_val hsqDisjoint
  · rw [if_neg hsingle] at hcq
    cases cqRing with
    | error e =>
      obtain ⟨rfl, rfl⟩ := Prod.mk.inj (Option.some.inj h)
      obtain rfl := Process.mmap_error hcq
      exact .inl ⟨e, rfl, Process.munmap_mapped hsqDisjoint rfl⟩
    | ok cqPtr =>
      obtain ⟨hcqPos, hcqNonempty, hcqDisjoint, rfl⟩ := Process.mmap_ok hcq
      obtain ⟨⟨sqes, p₃⟩, hsqes, h⟩ := Option.bind_eq_some_iff.mp h
      have hne : cqPtr ≠ sqPtr := by
        rintro rfl
        have hsqMem := Finset.left_mem_Ico.mpr (Finset.nonempty_Ico.mp hsqNonempty)
        have hcqMem := Finset.left_mem_Ico.mpr (Finset.nonempty_Ico.mp hcqNonempty)
        exact Finset.disjoint_left.mp hcqDisjoint (Finset.mem_union_right _ hsqMem) hcqMem
      refine hrest { p with mapped := p.mapped ∪ pages sqPtr sqSz ∪ pages cqPtr cqSz } cqPtr sqes p₃
        hcqPos.ne' ?_ rfl ?_ hsqes h
      · simp only [Process.munmap]
        congr 1
        ext x
        have hsqx : x ∈ p.mapped → x ∉ pages sqPtr sqSz :=
          fun hx => Finset.disjoint_left.mp hsqDisjoint hx
        have hcqx : x ∈ p.mapped → x ∉ pages cqPtr cqSz :=
          fun hx => Finset.disjoint_left.mp hcqDisjoint (Finset.mem_union_left _ hx)
        simp only [Finset.mem_sdiff, Finset.mem_union]
        tauto
      · rw [if_neg hne]
        simp only [Process.mapped_val hcqDisjoint, Process.mapped_val hsqDisjoint, add_assoc]

theorem fillArray_eq (array : ℕ → ℕ) (n : ℕ) {i : ℕ} (hi : i < n) : fillArray array n i = i := by
  induction n with
  | zero => omega
  | succ n ih =>
    unfold fillArray
    by_cases hin : i = n
    · rw [hin, Function.update_self]
    · rw [Function.update_of_ne hin]
      exact ih (by omega)

namespace IoUring

/-- The pages of a ring that is in use. -/
def allPages (self : IoUring) : Multiset ℕ := ringPages self.sq self.cq + sqesPages self.sq

/-- The kernel finds each submission where it was put. -/
def Identity (self : IoUring) : Prop := ∀ i < self.sq.kringEntries, self.sq.array i = i

theorem withParams_cases {result : Except ℤ IoUring} (h : withParams p k = some (result, p')) :
    (∃ e, result = .error e ∧ p' = p) ∨
      ∃ ring, result = .ok ring ∧ ring.cq.ringPtr ≠ 0 ∧ ring.Identity ∧
        p'.fds.val = ring.fd ::ₘ p.fds.val ∧ p'.mapped.val = p.mapped.val + ring.allPages := by
  unfold withParams at h
  rcases hsetup : p.ioUringSetup k.setup with _ | ⟨⟨e⟩ | ⟨fd, params⟩, p₁⟩
  · simp [hsetup] at h
  · simp only [hsetup, Option.bind_eq_bind, Option.bind_some, Option.pure_def, Option.some.injEq,
      Prod.mk.injEq] at h
    exact .inl ⟨e, h.1.symm, h.2.symm.trans (Process.ioUringSetup_error hsetup)⟩
  · obtain ⟨hfd, rfl⟩ := Process.ioUringSetup_ok hsetup
    simp only [hsetup, Option.bind_eq_bind, Option.bind_some, Option.bind_eq_some_iff,
      Prod.exists] at h
    obtain ⟨queues, p₂, hqueues, h⟩ := h
    rcases mmapQueues_cases hqueues with
      ⟨e, rfl, rfl⟩ | ⟨sq, cq, rfl, hptr, hentries, -, hfds, hmapped⟩
    · simp only [Option.pure_def, Option.some.injEq, Prod.mk.injEq] at h
      refine .inl ⟨e, h.1.symm, h.2.symm.trans ?_⟩
      unfold Process.close
      rw [Finset.erase_insert hfd]
    · simp only [Option.pure_def, Option.some.injEq, Prod.mk.injEq] at h
      obtain ⟨rfl, rfl⟩ := h
      refine .inr ⟨_, rfl, hptr, ?_, ?_, ?_⟩
      · intro i hi
        exact fillArray_eq _ _ (by simp only at hi; omega)
      · rw [hfds]
        exact Finset.insert_val_of_notMem hfd
      · rw [hmapped, add_assoc]
        rfl

/-- Dropping a ring leaves its submission queue entries mapped. -/
theorem drop_mapped {self : IoUring} {rest : Multiset ℕ} (hptr : self.cq.ringPtr ≠ 0)
    (h : p.mapped.val = rest + ringPages self.sq self.cq) :
    (self.drop p).mapped.val = rest := by
  unfold drop unmapQueues Process.close
  unfold ringPages at h
  by_cases hsame : self.cq.ringPtr = self.sq.ringPtr
  · rw [if_pos hsame, add_zero] at h
    simp only [hsame, ne_eq, not_true_eq_false, and_false, if_false]
    exact Process.munmap_val h
  · rw [if_neg hsame, add_comm (pages self.sq.ringPtr self.sq.ringSz).val, ← add_assoc] at h
    simp only [ne_eq, hptr, hsame, not_false_eq_true, and_self, if_true]
    exact Process.munmap_val (Process.munmap_val h)

theorem drop_fds {self : IoUring} {rest : Multiset ℕ} (h : p.fds.val = self.fd ::ₘ rest) :
    (self.drop p).fds.val = rest := by
  have hfds : (unmapQueues p self.sq self.cq).fds = p.fds := by
    unfold unmapQueues
    split <;> rfl
  unfold drop Process.close
  rw [Finset.erase_val, hfds, h, Multiset.erase_cons_head]

end IoUring

/-! ## Histories -/

/-- A process and its rings. -/
structure RingHistory where
  process : Process
  live : List IoUring
  dropped : List IoUring

/-- A ring is created or dropped. -/
inductive RingEvent where
  /-- `with_params`, with these answers of the kernel -/
  | create (k : SetupAnswers)
  /-- the ring at this place goes out of scope -/
  | drop (i : ℕ)

namespace RingHistory

/-- A process that has no ring. -/
def start (process : Process) : RingHistory := { process, live := [], dropped := [] }

/-- The history with one event more. -/
def apply (s : RingHistory) : RingEvent → Option RingHistory
  | .create k =>
    match IoUring.withParams s.process k with
    | some (.ok ring, process) => some { s with process, live := ring :: s.live }
    | some (.error _, process) => some { s with process }
    | none => none
  | .drop i =>
    match s.live[i]? with
    | some ring =>
      some
        { process := ring.drop s.process
          live := s.live.eraseIdx i
          dropped := ring :: s.dropped }
    | none => none

/-- A step of the history. -/
def Step (s : RingHistory) (e : RingEvent) (t : RingHistory) : Prop := s.apply e = some t

/-- Everything that is mapped or open is accounted for, and no page twice. -/
structure Accounted (before : Process) (s : RingHistory) : Prop where
  mapped : s.process.mapped.val = before.mapped.val + (s.live.map IoUring.allPages).sum +
    (s.dropped.map fun ring => sqesPages ring.sq).sum
  fds : s.process.fds.val = s.live.map IoUring.fd + before.fds.val
  rings : ∀ ring ∈ s.live, ring.cq.ringPtr ≠ 0 ∧ ring.Identity

variable {before : Process} {s t : RingHistory}

theorem start_accounted (before : Process) : (start before).Accounted before :=
  ⟨by simp [start], by simp [start], nofun⟩

theorem Accounted.step {e : RingEvent} (h : s.Accounted before) (hst : s.Step e t) :
    t.Accounted before := by
  unfold Step at hst
  cases e with
  | create k =>
    rw [apply] at hst
    split at hst
    · rename_i ring process hwith
      obtain rfl := Option.some.inj hst
      rcases IoUring.withParams_cases hwith with
        ⟨e, he, -⟩ | ⟨ring', hring', hptr, hid, hfds, hmapped⟩
      · cases he
      · obtain rfl := Except.ok.inj hring'
        refine ⟨?_, ?_, ?_⟩
        · simp only [hmapped, h.mapped, List.map_cons, List.sum_cons]
          abel
        · simp only [hfds, h.fds]
          rw [List.map_cons, ← Multiset.cons_coe, Multiset.cons_add]
        · intro ring'' hring''
          rcases List.mem_cons.mp hring'' with rfl | hring''
          · exact ⟨hptr, hid⟩
          · exact h.rings ring'' hring''
    · rename_i e process hwith
      obtain rfl := Option.some.inj hst
      rcases IoUring.withParams_cases hwith with ⟨e, -, rfl⟩ | ⟨ring', hring', -⟩
      · exact h
      · cases hring'
    · cases hst
  | drop i =>
    rw [apply] at hst
    split at hst
    · rename_i ring hring
      obtain rfl := Option.some.inj hst
      obtain ⟨hi, hget⟩ := List.getElem?_eq_some_iff.mp hring
      have hperm : s.live.Perm (ring :: s.live.eraseIdx i) :=
        hget ▸ (List.getElem_cons_eraseIdx_perm hi).symm
      have hptr := (h.rings ring (List.mem_of_getElem? hring)).1
      refine ⟨?_, ?_, ?_⟩
      · have hmapped := h.mapped
        rw [(hperm.map IoUring.allPages).sum_eq, List.map_cons, List.sum_cons] at hmapped
        refine IoUring.drop_mapped hptr (hmapped.trans ?_)
        simp only [IoUring.allPages, List.map_cons, List.sum_cons]
        abel
      · refine IoUring.drop_fds (h.fds.trans ?_)
        rw [Multiset.coe_eq_coe.mpr (hperm.map IoUring.fd), List.map_cons, ← Multiset.cons_coe,
          Multiset.cons_add]
      · exact fun ring' hring' => h.rings ring' (List.mem_of_mem_eraseIdx hring')
    · cases hst

/-- **Nothing leaks but the submission queue entries of the rings that have been dropped.**
Whatever the kernel answers, a set-up that fails leaves nothing behind. -/
theorem always_accounted {l : List (RingEvent × RingHistory)} (hr : Run Step (start before) l) :
    Always (Accounted before) (start before) l :=
  hr.invariant (I := Accounted before) (C := fun _ _ => True) (fun _ _ _ hs _ hst => hs.step hst)
    (start_accounted before) (fun _ _ => trivial)

/-- A ring is created on pages 5 and 6 and dropped; then the entries of another cannot be mapped. -/
def oneDropped : List RingEvent :=
  [.create { setup := .ok (3, smallParams), sqRing := .ok 5, cqRing := .error 12, sqes := .ok 6,
             array := fun _ => 0 },
    .drop 0,
    .create { setup := .ok (3, smallParams), sqRing := .ok 5, cqRing := .error 12,
              sqes := .error 12, array := fun _ => 0 }]
where
  smallParams : IoUringParams :=
    { sqEntries := 1, cqEntries := 2, singleMmap := true, sqOffArray := 320, cqOffCqes := 64 }

theorem always_accounted_oneDropped :
    Always (Accounted ⟨{1}, {0, 1, 2}⟩) (start ⟨{1}, {0, 1, 2}⟩)
      (play apply (start ⟨{1}, {0, 1, 2}⟩) oneDropped) :=
  always_accounted (run_play _ _ _)

/-- Page 6 is still mapped. -/
example :
    let s := final (start ⟨{1}, {0, 1, 2}⟩) (play apply (start ⟨{1}, {0, 1, 2}⟩) oneDropped)
    s.process.mapped = {1, 6} ∧ s.process.fds = {0, 1, 2} := by
  decide +kernel

end RingHistory

end Hamerkop
