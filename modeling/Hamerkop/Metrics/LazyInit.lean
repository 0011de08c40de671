import Hamerkop.Metrics.LazyCell

/-!
# A `LazyCell` is initialised once

The steps of any number of calls come in any order.  The invariant says in which of six
phases the cell is.  In each of them it is settled which calls may be where: as long as the
function is being run one call owns the cell, from the `compare_exchange` that it won to the
store of `INIT` or `POISONED`, and what it has done so far is read off its place.

All the rest follows: the function leaves the cell once, every answer of `force` and `get`
agrees with the one run that there was, and the destructor finds what is left.
-/

namespace Hamerkop

/-! ## Places -/

namespace Pc

variable {T : Type}

/-- Places of a call that nobody has to wait for, while the function is in the cell. -/
def Fresh : Pc T → Prop
  | .idle | .exchanging => True
  | _ => False

/-- Places of a call that does not own the cell and has not seen `INIT`. -/
def Waits : Pc T → Prop
  | .idle | .exchanging | .spinning => True
  | _ => False

/-- Places of a call once the value is there. -/
def Reads : Pc T → Prop
  | .idle | .exchanging | .spinning | .reading _ => True
  | _ => False

theorem Fresh.waits {pc : Pc T} (h : pc.Fresh) : pc.Waits := by
  cases pc <;> simp_all [Fresh, Waits]

theorem Waits.reads {pc : Pc T} (h : pc.Waits) : pc.Reads := by
  cases pc <;> simp_all [Waits, Reads]

end Pc

namespace LazyCell

variable {ι T : Type}

/-! ## Moving a call -/

section Projections

variable [DecidableEq ι] (s : LazyCell ι T) (i : ι) (pc : Pc T)

@[simp] theorem goTo_state : (s.goTo i pc).state = s.state := rfl
@[simp] theorem goTo_value : (s.goTo i pc).value = s.value := rfl
@[simp] theorem goTo_pcs : (s.goTo i pc).pcs = Function.update s.pcs i pc := rfl
@[simp] theorem goTo_access : (s.goTo i pc).access = s.access := rfl
@[simp] theorem goTo_taken : (s.goTo i pc).taken = s.taken := rfl
@[simp] theorem goTo_funcDropped : (s.goTo i pc).funcDropped = s.funcDropped := rfl
@[simp] theorem goTo_runs : (s.goTo i pc).runs = s.runs := rfl
@[simp] theorem goTo_valueGone : (s.goTo i pc).valueGone = s.valueGone := rfl
@[simp] theorem goTo_forced : (s.goTo i pc).forced = s.forced := rfl
@[simp] theorem goTo_gotten : (s.goTo i pc).gotten = s.gotten := rfl
@[simp] theorem goTo_unreachable : (s.goTo i pc).unreachable = s.unreachable := rfl

end Projections

/-! ## The invariant -/

/-- What the call that owns the cell has done, when it is at `pc`. -/
def Owned (s : LazyCell ι T) : Pc T → Prop
  | .taking => s.taken = 0 ∧ s.runs = [] ∧ s.value = none
  | .running => s.taken = 1 ∧ s.runs = [] ∧ s.value = none
  | .writing v => s.taken = 1 ∧ s.runs = [some v] ∧ s.value = none
  | .storing => s.taken = 1 ∧ ∃ v, s.runs = [some v] ∧ s.value = some v
  | .poisoning => s.taken = 1 ∧ s.runs = [none] ∧ s.value = none
  | _ => False

@[simp] theorem owned_goTo [DecidableEq ι] (s : LazyCell ι T) (i : ι) (pc p : Pc T) :
    (s.goTo i pc).Owned p ↔ s.Owned p := Iff.rfl

/-- The cell and its calls, as long as the cell is there. -/
inductive Phase (s : LazyCell ι T) : Prop
  | untouched (hs : s.state = .uninit) (ha : s.access = .shared) (hp : ∀ i, (s.pcs i).Fresh)
      (hd : s.taken = 0 ∧ s.runs = [] ∧ s.value = none)
  | exclusive (hs : s.state = .uninit) (ha : s.access = .exclusive) (hp : ∀ i, s.pcs i = .idle)
      (hd : s.taken = 1 ∧ s.runs = [] ∧ s.value = none)
  | owned (i : ι) (hs : s.state = .initInProgress) (ha : s.access = .shared)
      (hp : ∀ j, j ≠ i → (s.pcs j).Waits) (hd : s.Owned (s.pcs i))
  | made (v : T) (hs : s.state = .init) (ha : s.access = .shared) (hp : ∀ i, (s.pcs i).Reads)
      (hd : s.taken = 1 ∧ s.runs = [some v] ∧ s.value = some v)
  | poisoned (hs : s.state = .poisoned) (ha : s.access = .shared) (hp : ∀ i, (s.pcs i).Waits)
      (hd : s.taken = 1 ∧ s.runs = [none] ∧ s.value = none)

/-- What the cell owned is with nobody any more, or with one new owner. -/
structure Gone (s : LazyCell ι T) : Prop where
  access : s.access = .gone
  idle : ∀ i, s.pcs i = .idle
  func : s.taken + s.funcDropped = 1
  runs : s.runs.length = s.taken
  value : s.valueGone = (s.runs.filter Option.isSome)

/-- How `force` may have ended when these were the runs. -/
def ForceEnds (runs : List (Option T)) : Answer T → Prop
  | .slot content => content.isSome ∧ runs = [content]
  | .panicked => runs = [none]
  | .nothing => False

/-- How `get` may have ended when these were the runs. -/
def GetEnds (runs : List (Option T)) : Answer T → Prop
  | .slot content => content.isSome ∧ runs = [content]
  | .nothing => True
  | .panicked => False

/-- What every step of the cell keeps. -/
structure Invariant (s : LazyCell ι T) : Prop where
  phase : (s.Phase ∧ s.funcDropped = 0 ∧ s.valueGone = []) ∨ s.Gone
  forced : ∀ a ∈ s.forced, ForceEnds s.runs a
  gotten : ∀ a ∈ s.gotten, GetEnds s.runs a
  reached : s.unreachable = false

/-! ## The phases -/

/-- Places at which a call may be while it does not own the cell. -/
def Fits : CellState → Pc T → Prop
  | .uninit => Pc.Fresh
  | .init => Pc.Reads
  | .initInProgress | .poisoned => Pc.Waits

theorem forall_update [DecidableEq ι] {P : Pc T → Prop} {pcs : ι → Pc T} {i : ι} {pc : Pc T}
    (h : ∀ j, P (pcs j)) (hpc : P pc) (j : ι) : P (Function.update pcs i pc j) := by
  by_cases hj : j = i
  · simpa [hj] using hpc
  · simpa [hj] using h j

/-- A call that does not own the cell goes on, and the phase stays. -/
theorem Phase.goTo [DecidableEq ι] {s : LazyCell ι T} (h : s.Phase) (ha : s.access = .shared)
    {i : ι} (hi : (s.pcs i).Reads) {pc : Pc T} (hpc : Fits s.state pc) : (s.goTo i pc).Phase := by
  cases h with
  | untouched hs _ hp hd =>
    exact .untouched hs ha (forall_update hp (by simpa [hs, Fits] using hpc)) hd
  | exclusive _ he _ _ => simp [ha] at he
  | owned k hs _ hp hd =>
    have hik : k ≠ i := by
      rintro rfl
      cases hk : s.pcs k <;> simp_all [Pc.Reads, Owned]
    refine .owned k hs ha (fun j hj => ?_) ?_
    · by_cases hji : j = i
      · simpa [hji, hs, Fits] using hpc
      · simpa [hji] using hp j hj
    · rwa [goTo_pcs, Function.update_of_ne hik, owned_goTo]
  | made v hs _ hp hd => exact .made v hs ha (forall_update hp (by simpa [hs, Fits] using hpc)) hd
  | poisoned hs _ hp hd =>
    exact .poisoned hs ha (forall_update hp (by simpa [hs, Fits] using hpc)) hd

/-- A call at a place of the owner is the owner. -/
theorem Phase.owner {s : LazyCell ι T} (h : s.Phase) {i : ι} (hi : ¬ (s.pcs i).Reads) :
    s.state = .initInProgress ∧ s.access = .shared ∧ (∀ j, j ≠ i → (s.pcs j).Waits) ∧
      s.Owned (s.pcs i) := by
  cases h with
  | untouched _ _ hp _ => exact absurd (hp i).waits.reads hi
  | exclusive _ _ hp _ => simp [hp i, Pc.Reads] at hi
  | owned k hs ha hp hd =>
    have hki : k = i := by
      by_contra hne
      exact hi (hp i (Ne.symm hne)).reads
    subst hki
    exact ⟨hs, ha, hp, hd⟩
  | made _ _ _ hp _ => exact absurd (hp i) hi
  | poisoned _ _ hp _ => exact absurd (hp i).reads hi

theorem Phase.at_init {s : LazyCell ι T} (h : s.Phase) (hs : s.state = .init) :
    s.taken = 1 ∧ ∃ v, s.runs = [some v] ∧ s.value = some v := by
  cases h with
  | made v _ _ _ hd => exact ⟨hd.1, v, hd.2⟩
  | untouched ht | exclusive ht | owned _ ht | poisoned ht => simp [hs] at ht

theorem Phase.at_poisoned {s : LazyCell ι T} (h : s.Phase) (hs : s.state = .poisoned) :
    s.taken = 1 ∧ s.runs = [none] := by
  cases h with
  | poisoned _ _ _ hd => exact ⟨hd.1, hd.2.1⟩
  | untouched ht | exclusive ht | owned _ ht | made _ ht => simp [hs] at ht

theorem Phase.at_uninit {s : LazyCell ι T} (h : s.Phase) (ha : s.access = .shared)
    (hs : s.state = .uninit) :
    (∀ i, (s.pcs i).Fresh) ∧ s.taken = 0 ∧ s.runs = [] ∧ s.value = none := by
  cases h with
  | untouched _ _ hp hd => exact ⟨hp, hd⟩
  | exclusive _ he => simp [ha] at he
  | owned _ ht | made _ ht | poisoned ht => simp [hs] at ht

/-- While the function is being run, one call is at a place of the owner. -/
theorem Phase.at_initInProgress {s : LazyCell ι T} (h : s.Phase) (hs : s.state = .initInProgress) :
    ∃ i, s.Owned (s.pcs i) := by
  cases h with
  | owned i _ _ _ hd => exact ⟨i, hd⟩
  | untouched ht | exclusive ht | made _ ht | poisoned ht => simp [hs] at ht

/-- A call that is about to read the slot has seen `INIT`. -/
theorem Phase.reading {s : LazyCell ι T} (h : s.Phase) {i : ι} {force : Bool}
    (hi : s.pcs i = .reading force) : s.state = .init := by
  cases h with
  | untouched _ _ hp _ => simpa [hi, Pc.Fresh] using hp i
  | exclusive _ _ hp _ => simpa [hi] using hp i
  | owned k _ _ hp hd =>
    by_cases hk : i = k
    · simp [← hk, hi, Owned] at hd
    · simpa [hi, Pc.Waits] using hp i hk
  | made _ hs _ _ _ => exact hs
  | poisoned _ _ hp _ => simpa [hi, Pc.Waits] using hp i

/-- No call spins before the function is taken. -/
theorem Phase.spinning {s : LazyCell ι T} (h : s.Phase) {i : ι} (hi : s.pcs i = .spinning) :
    s.state ≠ .uninit := by
  cases h with
  | untouched _ _ hp _ => simpa [hi, Pc.Fresh] using hp i
  | exclusive _ _ hp _ => simpa [hi] using hp i
  | owned _ hs | made _ hs | poisoned hs => simp [hs]

/-- A cell that nobody else uses is not being initialised by a call of `force`. -/
theorem Phase.quiet {s : LazyCell ι T} (h : s.Phase) (hp : ∀ i, s.pcs i = .idle) :
    s.state ≠ .initInProgress := by
  intro hs
  obtain ⟨i, hi⟩ := h.at_initInProgress hs
  simp [hp i, Owned] at hi

/-- The phase is read off these fields. -/
theorem Phase.congr {s t : LazyCell ι T} (h : s.Phase) (hs : t.state = s.state)
    (ha : t.access = s.access) (hp : t.pcs = s.pcs)
    (hd : (t.taken, t.runs, t.value) = (s.taken, s.runs, s.value)) : t.Phase := by
  simp only [Prod.mk.injEq] at hd
  obtain ⟨ht, hr, hv⟩ := hd
  cases h with
  | untouched h₁ h₂ h₃ h₄ => exact .untouched (hs ▸ h₁) (ha ▸ h₂) (hp ▸ h₃) (by rwa [ht, hr, hv])
  | exclusive h₁ h₂ h₃ h₄ => exact .exclusive (hs ▸ h₁) (ha ▸ h₂) (hp ▸ h₃) (by rwa [ht, hr, hv])
  | owned i h₁ h₂ h₃ h₄ =>
    refine .owned i (hs ▸ h₁) (ha ▸ h₂) (hp ▸ h₃) ?_
    rw [hp]
    cases hpc : s.pcs i <;> simp_all [Owned]
  | made v h₁ h₂ h₃ h₄ => exact .made v (hs ▸ h₁) (ha ▸ h₂) (hp ▸ h₃) (by rwa [ht, hr, hv])
  | poisoned h₁ h₂ h₃ h₄ => exact .poisoned (hs ▸ h₁) (ha ▸ h₂) (hp ▸ h₃) (by rwa [ht, hr, hv])

/-! ## Answers -/

theorem GetEnds.append {runs : List (Option T)} {a : Answer T} (h : GetEnds [] a) :
    GetEnds runs a := by
  cases a <;> simp_all [GetEnds]

theorem ForceEnds.append {runs : List (Option T)} {a : Answer T} (h : ForceEnds [] a) :
    ForceEnds runs a := by
  cases a <;> simp_all [ForceEnds]

theorem forall_mem_concat {P : Answer T → Prop} {l : List (Answer T)} {a : Answer T}
    (h : ∀ b ∈ l, P b) (ha : P a) : ∀ b ∈ l ++ [a], P b := by
  intro b hb
  rcases List.mem_append.1 hb with hb | hb
  · exact h b hb
  · simpa [List.mem_singleton.1 hb] using ha

/-! ## The steps keep the invariant -/

/-- The invariant while the cell is there. -/
theorem Invariant.live {s : LazyCell ι T} (h : s.Invariant) (ha : s.access ≠ .gone) :
    s.Phase ∧ s.funcDropped = 0 ∧ s.valueGone = [] := by
  rcases h.phase with hp | hg
  · exact hp
  · exact absurd hg.access ha

/-- A call that is under way keeps the cell alive. -/
theorem Invariant.shared {s : LazyCell ι T} (h : s.Invariant) {i : ι} (hi : s.pcs i ≠ .idle) :
    s.access = .shared := by
  rcases h.phase with ⟨hp, -⟩ | hg
  · cases hp with
    | untouched _ ha | owned _ _ ha | made _ _ ha | poisoned _ ha => exact ha
    | exclusive _ _ hp => exact absurd (hp i) hi
  · exact absurd (hg.idle i) hi

theorem Invariant.new : (LazyCell.new : LazyCell ι T).Invariant where
  phase := .inl ⟨.untouched rfl rfl (fun _ => trivial) ⟨rfl, rfl, rfl⟩, rfl, rfl⟩
  forced := by simp [LazyCell.new]
  gotten := by simp [LazyCell.new]
  reached := rfl

theorem Invariant.goTo [DecidableEq ι] {s : LazyCell ι T} (h : s.Invariant)
    (ha : s.access = .shared) {i : ι} (hi : (s.pcs i).Reads) {pc : Pc T} (hpc : Fits s.state pc) :
    (s.goTo i pc).Invariant where
  phase := by
    obtain ⟨hp, hf, hv⟩ := h.live (by simp [ha])
    exact .inl ⟨hp.goTo ha hi hpc, hf, hv⟩
  forced := h.forced
  gotten := h.gotten
  reached := h.reached

theorem Invariant.forceEnds {s : LazyCell ι T} (h : s.Invariant) {a : Answer T}
    (ha : ForceEnds s.runs a) : (s.forceEnds a).Invariant where
  phase := by
    rcases h.phase with ⟨hp, hf, hv⟩ | hg
    · exact .inl ⟨hp.congr rfl rfl rfl rfl, hf, hv⟩
    · exact .inr ⟨hg.access, hg.idle, hg.func, hg.runs, hg.value⟩
  forced := forall_mem_concat h.forced ha
  gotten := h.gotten
  reached := h.reached

theorem Invariant.getEnds {s : LazyCell ι T} (h : s.Invariant) {a : Answer T}
    (ha : GetEnds s.runs a) : (s.getEnds a).Invariant where
  phase := by
    rcases h.phase with ⟨hp, hf, hv⟩ | hg
    · exact .inl ⟨hp.congr rfl rfl rfl rfl, hf, hv⟩
    · exact .inr ⟨hg.access, hg.idle, hg.func, hg.runs, hg.value⟩
  forced := h.forced
  gotten := forall_mem_concat h.gotten ha
  reached := h.reached

/-- The owner goes from `s` on to a place that `t` describes. -/
theorem Invariant.own [DecidableEq ι] {s t : LazyCell ι T} (h : s.Invariant) {i : ι}
    (ha : s.access = .shared) (hp : ∀ j, j ≠ i → (s.pcs j).Waits) {pc : Pc T}
    (hs : t.state = .initInProgress) (hpcs : t.pcs = Function.update s.pcs i pc)
    (hd : t.Owned pc) (hruns : t.runs = s.runs ∨ s.runs = [])
    (hrest : (t.access, t.funcDropped, t.valueGone, t.forced, t.gotten, t.unreachable) =
      (s.access, s.funcDropped, s.valueGone, s.forced, s.gotten, s.unreachable)) :
    t.Invariant := by
  simp only [Prod.mk.injEq] at hrest
  obtain ⟨hta, htf, htv, hto, htg, htu⟩ := hrest
  obtain ⟨-, hf, hv⟩ := h.live (by simp [ha])
  refine ⟨.inl ⟨.owned i hs (hta.trans ha) (fun j hj => ?_) ?_, htf.trans hf, htv.trans hv⟩,
    fun a hm => ?_, fun a hm => ?_, htu.trans h.reached⟩
  · rw [hpcs, Function.update_of_ne hj]
    exact hp j hj
  · rwa [hpcs, Function.update_self]
  · have ho := h.forced a (hto ▸ hm)
    rcases hruns with hr | hr
    · rwa [hr]
    · exact (hr ▸ ho).append
  · have ho := h.gotten a (htg ▸ hm)
    rcases hruns with hr | hr
    · rwa [hr]
    · exact (hr ▸ ho).append

/-- The destructor, when no call is under way. -/
theorem Invariant.dropCell {s : LazyCell ι T} (h : s.Invariant) (ha : s.access = .shared)
    (hp : ∀ i, s.pcs i = .idle) : s.dropCell.Invariant := by
  obtain ⟨hphase, hf, hv⟩ := h.live (by simp [ha])
  cases hs : s.state with
  | uninit =>
    obtain ⟨-, ht, hr, -⟩ := hphase.at_uninit ha hs
    simp only [LazyCell.dropCell, hs]
    exact ⟨.inr ⟨rfl, hp, by simp [ht, hf], by simp [hr, ht], by simp [hv, hr]⟩, h.forced,
      h.gotten, h.reached⟩
  | initInProgress => exact absurd hs (hphase.quiet hp)
  | init =>
    obtain ⟨ht, v, hr, hval⟩ := hphase.at_init hs
    simp only [LazyCell.dropCell, hs]
    exact ⟨.inr ⟨rfl, hp, by simp [ht, hf], by simp [hr, ht], by simp [hv, hr, hval]⟩, h.forced,
      h.gotten, h.reached⟩
  | poisoned =>
    obtain ⟨ht, hr⟩ := hphase.at_poisoned hs
    simp only [LazyCell.dropCell, hs]
    exact ⟨.inr ⟨rfl, hp, by simp [ht, hf], by simp [hr, ht], by simp [hv, hr]⟩, h.forced,
      h.gotten, h.reached⟩

/-- `into_inner` moves the value out and leaves the destructor nothing to drop. -/
theorem Invariant.intoInner [DecidableEq ι] {s : LazyCell ι T} (h : s.Invariant)
    (ha : s.access = .shared) (hp : ∀ i, s.pcs i = .idle) : (s.apply .intoInner).Invariant := by
  by_cases hs : s.state = .init
  · obtain ⟨hphase, hf, hv⟩ := h.live (by simp [ha])
    obtain ⟨ht, v, hr, hval⟩ := hphase.at_init hs
    simp only [apply, hs, LazyCell.getEnds, LazyCell.dropCell]
    refine ⟨.inr ⟨rfl, hp, by simp [ht, hf], by simp [hr, ht], by simp [hv, hr, hval]⟩, h.forced,
      forall_mem_concat h.gotten ?_, h.reached⟩
    simp [GetEnds, hval, hr]
  · have hx : s.apply .intoInner = (s.getEnds .nothing).dropCell := by
      cases hs' : s.state <;> simp_all [apply]
    rw [hx]
    exact Invariant.dropCell (h.getEnds (a := .nothing) trivial) ha hp

/-- The exclusive path keeps `UNINIT` until the function has returned or panicked. -/
theorem Invariant.forceMut [DecidableEq ι] {s : LazyCell ι T} (h : s.Invariant)
    (ha : s.access = .shared) (hp : ∀ i, s.pcs i = .idle) : (s.apply .forceMut).Invariant := by
  obtain ⟨hphase, hf, hv⟩ := h.live (by simp [ha])
  cases hs : s.state with
  | uninit =>
    obtain ⟨-, ht, hr, hval⟩ := hphase.at_uninit ha hs
    simp only [apply, hs]
    exact ⟨.inl ⟨.exclusive rfl rfl hp ⟨by simp [ht], hr, hval⟩, hf, hv⟩, h.forced, h.gotten,
      h.reached⟩
  | initInProgress => exact absurd hs (hphase.quiet hp)
  | init =>
    obtain ⟨-, v, hr, hval⟩ := hphase.at_init hs
    simp only [apply, hs]
    exact h.forceEnds (by simp [ForceEnds, hval, hr])
  | poisoned =>
    simp only [apply, hs]
    exact h.forceEnds (hphase.at_poisoned hs).2

/-- What `init_mut` has done while the function runs. -/
theorem Invariant.inForceMut {s : LazyCell ι T} (h : s.Invariant) (ha : s.access = .exclusive) :
    (∀ i, s.pcs i = .idle) ∧ (s.taken = 1 ∧ s.runs = [] ∧ s.value = none) ∧
      s.funcDropped = 0 ∧ s.valueGone = [] := by
  obtain ⟨hphase, hrest⟩ := h.live (by simp [ha])
  cases hphase with
  | exclusive _ _ hp hd => exact ⟨hp, hd, hrest⟩
  | untouched _ ht | owned _ _ ht | made _ _ ht | poisoned _ ht => simp [ha] at ht

theorem Invariant.forceMutReturns [DecidableEq ι] {s : LazyCell ι T} (h : s.Invariant)
    (ha : s.access = .exclusive) (v : T) : (s.apply (.forceMutReturns v)).Invariant := by
  obtain ⟨hp, ⟨ht, hr, -⟩, hf, hv⟩ := h.inForceMut ha
  refine Invariant.forceEnds (s := { s with
    runs := s.runs ++ [some v], value := some v, state := .init, access := .shared })
    ⟨.inl ⟨.made v rfl rfl (fun i => by simp [hp i, Pc.Reads]) ⟨ht, by simp [hr], rfl⟩, hf, hv⟩,
      fun a hm => ?_, fun a hm => ?_, h.reached⟩ (by simp [ForceEnds, hr])
  · exact (hr ▸ h.forced a hm).append
  · exact (hr ▸ h.gotten a hm).append

theorem Invariant.forceMutPanics [DecidableEq ι] {s : LazyCell ι T} (h : s.Invariant)
    (ha : s.access = .exclusive) : (s.apply .forceMutPanics).Invariant := by
  obtain ⟨hp, ⟨ht, hr, hval⟩, hf, hv⟩ := h.inForceMut ha
  refine Invariant.forceEnds (s := { s with
    runs := s.runs ++ [none], state := .poisoned, access := .shared })
    ⟨.inl ⟨.poisoned rfl rfl (fun i => by simp [hp i, Pc.Waits]) ⟨ht, by simp [hr], hval⟩, hf, hv⟩,
      fun a hm => ?_, fun a hm => ?_, h.reached⟩ (by simp [ForceEnds, hr])
  · exact (hr ▸ h.forced a hm).append
  · exact (hr ▸ h.gotten a hm).append

/-- The `compare_exchange`: the call that finds `UNINIT` owns the cell from then on. -/
theorem Invariant.exchange [DecidableEq ι] {s : LazyCell ι T} (h : s.Invariant) {i : ι}
    (hi : s.pcs i = .exchanging) : (s.apply (.exchange i)).Invariant := by
  have ha : s.access = .shared := h.shared (i := i) (by simp [hi])
  obtain ⟨hphase, -⟩ := h.live (by simp [ha])
  have hreads : (s.pcs i).Reads := by simp [hi, Pc.Reads]
  cases hs : s.state with
  | uninit =>
    obtain ⟨hp, hd⟩ := hphase.at_uninit ha hs
    simp only [apply, hs]
    exact h.own ha (fun j _ => (hp j).waits) rfl rfl hd (.inl rfl) rfl
  | initInProgress =>
    simp only [apply, hs]
    exact h.goTo ha hreads (by simp [hs, Fits, Pc.Waits])
  | init =>
    simp only [apply, hs]
    exact h.goTo ha hreads (by simp [hs, Fits, Pc.Reads])
  | poisoned =>
    simp only [apply, hs]
    exact (h.goTo ha hreads (by simp [hs, Fits, Pc.Waits])).forceEnds (hphase.at_poisoned hs).2

theorem Invariant.spin [DecidableEq ι] {s : LazyCell ι T} (h : s.Invariant) {i : ι}
    (hi : s.pcs i = .spinning) : (s.apply (.spin i)).Invariant := by
  have ha : s.access = .shared := h.shared (i := i) (by simp [hi])
  obtain ⟨hphase, -⟩ := h.live (by simp [ha])
  have hreads : (s.pcs i).Reads := by simp [hi, Pc.Reads]
  cases hs : s.state with
  | uninit => exact absurd hs (hphase.spinning hi)
  | initInProgress =>
    simp only [apply, hs]
    exact h
  | init =>
    simp only [apply, hs]
    exact h.goTo ha hreads (by simp [hs, Fits, Pc.Reads])
  | poisoned =>
    simp only [apply, hs]
    exact (h.goTo ha hreads (by simp [hs, Fits, Pc.Waits])).forceEnds (hphase.at_poisoned hs).2

theorem Invariant.force [DecidableEq ι] {s : LazyCell ι T} (h : s.Invariant)
    (ha : s.access = .shared) {i : ι} (hi : s.pcs i = .idle) : (s.apply (.force i)).Invariant := by
  obtain ⟨hphase, -⟩ := h.live (by simp [ha])
  have hreads : (s.pcs i).Reads := by simp [hi, Pc.Reads]
  cases hs : s.state with
  | uninit =>
    simp only [apply, hs]
    exact h.goTo ha hreads (by simp [hs, Fits, Pc.Fresh])
  | initInProgress =>
    simp only [apply, hs]
    exact h.goTo ha hreads (by simp [hs, Fits, Pc.Waits])
  | init =>
    simp only [apply, hs]
    exact h.goTo ha hreads (by simp [hs, Fits, Pc.Reads])
  | poisoned =>
    simp only [apply, hs]
    exact h.forceEnds (hphase.at_poisoned hs).2

theorem Invariant.inner [DecidableEq ι] {s : LazyCell ι T} (h : s.Invariant) {i : ι} {force : Bool}
    (hi : s.pcs i = .reading force) : (s.apply (.inner i)).Invariant := by
  have ha : s.access = .shared := h.shared (i := i) (by simp [hi])
  obtain ⟨hphase, -⟩ := h.live (by simp [ha])
  have hs : s.state = .init := hphase.reading hi
  obtain ⟨-, v, hr, hval⟩ := hphase.at_init hs
  have hidle : (s.goTo i .idle).Invariant :=
    h.goTo ha (by simp [hi, Pc.Reads]) (by simp [hs, Fits, Pc.Reads])
  cases force with
  | true =>
    simp only [apply, hi]
    exact hidle.forceEnds (by simp [ForceEnds, hval, hr])
  | false =>
    simp only [apply, hi]
    exact hidle.getEnds (by simp [GetEnds, hval, hr])

/-- The store of `INIT` or `POISONED` ends what the owner does; the others may have waited. -/
theorem Invariant.store [DecidableEq ι] {s : LazyCell ι T} (h : s.Invariant) {i : ι}
    (hi : s.pcs i = .storing) : (s.apply (.store i)).Invariant := by
  obtain ⟨hphase, hf, hv⟩ := h.live (by simp [h.shared (i := i) (by simp [hi])])
  obtain ⟨-, ha, hp, hd⟩ := hphase.owner (i := i) (by simp [hi, Pc.Reads])
  simp only [hi, Owned] at hd
  obtain ⟨ht, v, hr, hval⟩ := hd
  refine ⟨.inl ⟨.made v rfl ha (fun j => ?_) ⟨ht, hr, hval⟩, hf, hv⟩, h.forced, h.gotten, h.reached⟩
  by_cases hj : j = i
  · simp [apply, hj, Pc.Reads]
  · simpa [apply, hj] using (hp j hj).reads

theorem Invariant.poison [DecidableEq ι] {s : LazyCell ι T} (h : s.Invariant) {i : ι}
    (hi : s.pcs i = .poisoning) : (s.apply (.poison i)).Invariant := by
  obtain ⟨hphase, hf, hv⟩ := h.live (by simp [h.shared (i := i) (by simp [hi])])
  obtain ⟨-, ha, hp, hd⟩ := hphase.owner (i := i) (by simp [hi, Pc.Reads])
  simp only [hi, Owned] at hd
  have hstored : ({ s with state := .poisoned }.goTo i .idle).Invariant := by
    refine ⟨.inl ⟨.poisoned rfl ha (fun j => ?_) hd, hf, hv⟩, h.forced, h.gotten, h.reached⟩
    by_cases hj : j = i
    · simp [hj, Pc.Waits]
    · simpa [hj] using hp j hj
  exact hstored.forceEnds (a := .panicked) hd.2.1

/-- The owner before its last store. -/
theorem Invariant.working [DecidableEq ι] {s : LazyCell ι T} (h : s.Invariant) {i : ι}
    (hi : ¬ (s.pcs i).Reads) : s.state = .initInProgress ∧ s.access = .shared ∧
      (∀ j, j ≠ i → (s.pcs j).Waits) ∧ s.Owned (s.pcs i) := by
  refine (h.live ?_).1.owner hi
  rw [h.shared (i := i) (by rintro he; simp [he, Pc.Reads] at hi)]
  simp

theorem Invariant.apply [DecidableEq ι] {s : LazyCell ι T} (h : s.Invariant) {e : CellEvent ι T}
    (he : s.Enabled e) : (s.apply e).Invariant := by
  cases e with
  | force i => exact h.force he.1 he.2
  | exchange i => exact h.exchange he
  | take i =>
    obtain ⟨hs, ha, hp, hd⟩ := h.working (i := i) (by simp [show s.pcs i = _ from he, Pc.Reads])
    simp only [show s.pcs i = _ from he, Owned] at hd
    exact h.own ha hp hs rfl ⟨by simp [LazyCell.apply, hd.1], hd.2⟩ (.inl rfl) rfl
  | runReturns i v =>
    obtain ⟨hs, ha, hp, hd⟩ := h.working (i := i) (by simp [show s.pcs i = _ from he, Pc.Reads])
    simp only [show s.pcs i = _ from he, Owned] at hd
    exact h.own ha hp hs rfl ⟨hd.1, by simp [LazyCell.apply, hd.2.1], hd.2.2⟩ (.inr hd.2.1) rfl
  | runPanics i =>
    obtain ⟨hs, ha, hp, hd⟩ := h.working (i := i) (by simp [show s.pcs i = _ from he, Pc.Reads])
    simp only [show s.pcs i = _ from he, Owned] at hd
    exact h.own ha hp hs rfl ⟨hd.1, by simp [LazyCell.apply, hd.2.1], hd.2.2⟩ (.inr hd.2.1) rfl
  | write i =>
    obtain ⟨v, hi⟩ := he
    obtain ⟨hs, ha, hp, hd⟩ := h.working (i := i) (by simp [hi, Pc.Reads])
    simp only [hi, Owned] at hd
    simp only [LazyCell.apply, hi]
    exact h.own ha hp hs rfl ⟨hd.1, v, hd.2.1, rfl⟩ (.inl rfl) rfl
  | store i => exact h.store he
  | poison i => exact h.poison he
  | spin i => exact h.spin he
  | inner i =>
    obtain ⟨force, hi⟩ := he
    exact h.inner hi
  | get i =>
    by_cases hs : s.state = .init
    · simp only [LazyCell.apply, hs]
      exact h.goTo he.1 (by simp [he.2, Pc.Reads]) (by simp [hs, Fits, Pc.Reads])
    · have hx : s.apply (.get i) = s.getEnds .nothing := by
        cases hs' : s.state <;> simp_all [LazyCell.apply]
      rw [hx]
      exact h.getEnds trivial
  | getMut =>
    by_cases hs : s.state = .init
    · obtain ⟨-, v, hr, hval⟩ := (h.live (by simp [he.1])).1.at_init hs
      simp only [LazyCell.apply, hs]
      exact h.getEnds (by simp [GetEnds, hval, hr])
    · have hx : s.apply .getMut = s.getEnds .nothing := by
        cases hs' : s.state <;> simp_all [LazyCell.apply]
      rw [hx]
      exact h.getEnds trivial
  | forceMut => exact h.forceMut he.1 he.2
  | forceMutReturns v => exact h.forceMutReturns he v
  | forceMutPanics => exact h.forceMutPanics he
  | intoInner => exact h.intoInner he.1 he.2
  | drop => exact h.dropCell he.1 he.2

theorem Phase.counts {s : LazyCell ι T} (h : s.Phase) :
    s.taken ≤ 1 ∧ s.runs.length ≤ s.taken := by
  cases h with
  | untouched _ _ _ hd => simp [hd]
  | exclusive _ _ _ hd => simp [hd]
  | owned i _ _ _ hd =>
    cases hpc : s.pcs i with
    | taking | running | writing _ | poisoning =>
      simp only [hpc, Owned] at hd
      simp [hd]
    | storing =>
      simp only [hpc, Owned] at hd
      obtain ⟨ht, v, hr, -⟩ := hd
      simp [ht, hr]
    | idle | exchanging | spinning | reading _ => simp [hpc, Owned] at hd
  | made _ _ _ _ hd => simp [hd]
  | poisoned _ _ _ hd => simp [hd]

theorem Invariant.counts {s : LazyCell ι T} (h : s.Invariant) :
    s.taken ≤ 1 ∧ s.runs.length ≤ s.taken := by
  rcases h.phase with ⟨hp, -⟩ | hg
  · exact hp.counts
  · exact ⟨by have := hg.func; omega, hg.runs.le⟩

variable [DecidableEq ι]

theorem Reachable.invariant {s : LazyCell ι T} (h : s.Reachable) : s.Invariant := by
  refine Runs.Reachable.invariant ?_ ?_ h
  · rintro s rfl
    exact .new
  · rintro s e t hi ⟨he, rfl⟩
    exact hi.apply he

theorem Reachable.step {s : LazyCell ι T} (h : s.Reachable) (e : CellEvent ι T)
    (he : s.Enabled e) : (s.apply e).Reachable := h.tail ⟨he, rfl⟩

/-! ## Initialised once -/

theorem ForceEnds.cases {runs : List (Option T)} {a : Answer T} (h : ForceEnds runs a) :
    (a = .panicked ∧ runs = [none]) ∨ ∃ v, a = .slot (some v) ∧ runs = [some v] := by
  cases a with
  | panicked => exact .inl ⟨rfl, h⟩
  | nothing => exact absurd h (by simp [ForceEnds])
  | slot content =>
    obtain ⟨hc, hr⟩ := h
    obtain ⟨v, rfl⟩ := Option.isSome_iff_exists.1 hc
    exact .inr ⟨v, rfl, hr⟩

theorem GetEnds.cases {runs : List (Option T)} {a : Answer T} (h : GetEnds runs a) :
    a = .nothing ∨ ∃ v, a = .slot (some v) ∧ runs = [some v] := by
  cases a with
  | nothing => exact .inl rfl
  | panicked => exact absurd h (by simp [GetEnds])
  | slot content =>
    obtain ⟨hc, hr⟩ := h
    obtain ⟨v, rfl⟩ := Option.isSome_iff_exists.1 hc
    exact .inr ⟨v, rfl, hr⟩

end LazyCell

end Hamerkop
