import Hamerkop.Lib.Runs

/-!
# `Join`

`hamerkop/src/util/join.rs` waits for a vector of futures.  Each poll of a `JoinNext` goes over
the futures that have not returned yet, and ends at the first one that does now.  A
`JoinNext` has no state of its own, so it makes no difference whether the next poll is one of
the same or of a new one.

What a future answers, and what it becomes, may be anything in every poll; the events of a run
are these answers.
-/

namespace Hamerkop

/-- What polling a future puts out. -/
inductive Poll (O : Type) where
  | ready (output : O)
  | pending
deriving DecidableEq, Repr

/-- The output, if it is ready. -/
def Poll.ready? {O : Type} : Poll O → Option O
  | .ready output => some output
  | .pending => none

/-- The futures, and which of them are done. -/
structure Join (F : Type) where
  futures : List F
  state : List Bool

/-- One poll of a `JoinNext`: the polls of the futures, by their index, and its result. -/
structure JoinPoll (F O : Type) where
  join : Join F
  polls : List (ℕ × Poll O)
  result : Poll (Option O)

namespace Join

variable {F O : Type}

/-- `Join::new(futures)` -/
def new (futures : List F) : Join F where
  futures := futures
  state := List.replicate futures.length false

/-- The loop of `poll` over the futures from this index on, and what comes after it. -/
def pollLoop (poll : ℕ → F → Poll O × F) : ℕ → List F → List Bool → Bool → JoinPoll F O
  | i, fut :: futures, state :: states, polled =>
    if state then
      let next := pollLoop poll (i + 1) futures states polled
      { next with join := ⟨fut :: next.join.futures, state :: next.join.state⟩ }
    else
      match poll i fut with
      | (.ready res, fut) =>
        { join := ⟨fut :: futures, true :: states⟩
          polls := [(i, .ready res)]
          result := .ready (some res) }
      | (.pending, fut) =>
        let next := pollLoop poll (i + 1) futures states true
        { next with
          join := ⟨fut :: next.join.futures, state :: next.join.state⟩
          polls := (i, .pending) :: next.polls }
  | _, futures, states, polled =>
    { join := ⟨futures, states⟩
      polls := []
      result := if polled then .pending else .ready none }

/-- `JoinNext::poll` -/
def poll (self : Join F) (poll : ℕ → F → Poll O × F) : JoinPoll F O :=
  pollLoop poll 0 self.futures self.state false

/-! ## One poll -/

/-- What a poll does to the flags from this index on, when it polls these futures and the last of
them returns this. -/
inductive Scans : ℕ → List Bool → List (ℕ × Poll O) → List Bool → Option O → Prop
  | done (i : ℕ) : Scans i [] [] [] none
  | skip {i : ℕ} {states states' : List Bool} {polls : List (ℕ × Poll O)} {res : Option O} :
      Scans (i + 1) states polls states' res → Scans i (true :: states) polls (true :: states') res
  | ready (i : ℕ) (states : List Bool) (res : O) :
      Scans i (false :: states) [(i, .ready res)] (true :: states) (some res)
  | pending {i : ℕ} {states states' : List Bool} {polls : List (ℕ × Poll O)} {res : Option O} :
      Scans (i + 1) states polls states' res →
        Scans i (false :: states) ((i, .pending) :: polls) (false :: states') res

namespace Scans

variable {i : ℕ} {states states' : List Bool} {polls : List (ℕ × Poll O)} {res : Option O}

theorem length_eq (h : Scans i states polls states' res) : states'.length = states.length := by
  induction h with
  | done i => rfl
  | skip _ ih => simp [ih]
  | ready i states res => simp
  | pending _ ih => simp [ih]

/-- Only futures that have not returned are polled. -/
theorem unfinished (h : Scans i states polls states' res) {p : ℕ × Poll O} (hp : p ∈ polls) :
    ∃ j, p.1 = i + j ∧ states[j]? = some false := by
  induction h with
  | done i => cases hp
  | skip _ ih =>
    obtain ⟨j, hj, hstate⟩ := ih hp
    exact ⟨j + 1, by omega, hstate⟩
  | ready i states res =>
    rw [List.mem_singleton.mp hp]
    exact ⟨0, rfl, rfl⟩
  | pending _ ih =>
    rcases List.mem_cons.mp hp with rfl | hp
    · exact ⟨0, rfl, rfl⟩
    · obtain ⟨j, hj, hstate⟩ := ih hp
      exact ⟨j + 1, by omega, hstate⟩

/-- They are polled in their order, each of them once. -/
theorem pairwise (h : Scans i states polls states' res) : polls.Pairwise (·.1 < ·.1) := by
  induction h with
  | done i => exact List.Pairwise.nil
  | skip _ ih => exact ih
  | ready i states res => exact List.pairwise_singleton _ _
  | pending hnext ih =>
    refine List.pairwise_cons.mpr ⟨?_, ih⟩
    intro p hp
    obtain ⟨j, hj, -⟩ := hnext.unfinished hp
    show _ < p.1
    omega

/-- A flag is set when its future returns. -/
theorem state_iff (h : Scans i states polls states' res) (j : ℕ) :
    states'[j]? = some true ↔ states[j]? = some true ∨ ∃ o, (i + j, .ready o) ∈ polls := by
  induction h generalizing j with
  | done i => simp
  | @skip i states states' polls res hnext ih =>
    cases j with
    | zero => simp
    | succ j =>
      have hij : i + (j + 1) = i + 1 + j := by omega
      simpa [hij] using ih j
  | ready i states res =>
    cases j with
    | zero => simp
    | succ j => simp
  | @pending i states states' polls res hnext ih =>
    cases j with
    | zero =>
      have hlater : ∀ o, (i, Poll.ready o) ∉ polls := by
        intro o ho
        obtain ⟨k, hk, -⟩ := hnext.unfinished ho
        simp only at hk
        omega
      simp [hlater]
    | succ j =>
      have hij : i + (j + 1) = i + 1 + j := by omega
      simpa [hij] using ih j

/-- As long as none returns, all are polled. -/
theorem all_polled (h : Scans i states polls states' res) (hres : res = none) {j : ℕ}
    (hj : states[j]? = some false) : (i + j, .pending) ∈ polls := by
  induction h generalizing j with
  | done i => simp at hj
  | @skip i states states' polls res hnext ih =>
    cases j with
    | zero => simp at hj
    | succ j =>
      have hij : i + (j + 1) = i + 1 + j := by omega
      rw [hij]
      exact ih hres (by simpa using hj)
  | ready i states res => cases hres
  | @pending i states states' polls res hnext ih =>
    cases j with
    | zero => exact List.mem_cons_self
    | succ j =>
      have hij : i + (j + 1) = i + 1 + j := by omega
      rw [hij]
      exact List.mem_cons_of_mem _ (ih hres (by simpa using hj))

/-- What is returned is the output of the future that returned. -/
theorem outputs (h : Scans i states polls states' res) :
    polls.filterMap (·.2.ready?) = res.toList := by
  induction h with
  | done i => rfl
  | skip _ ih => exact ih
  | ready i states res => rfl
  | pending _ ih => simpa [Poll.ready?] using ih

end Scans

/-- The result of a poll that polled these futures and in which this one returned. -/
def resultOf (polled : Bool) (res : Option O) : Poll (Option O) :=
  match res with
  | some res => .ready (some res)
  | none => if polled then .pending else .ready none

/-- **The loop scans the flags**, and its result says what it has found. -/
theorem pollLoop_scans (poll : ℕ → F → Poll O × F) (i : ℕ) (futures : List F) (states : List Bool)
    (polled : Bool) (h : futures.length = states.length) :
    ∃ res, Scans i states (pollLoop poll i futures states polled).polls
        (pollLoop poll i futures states polled).join.state res ∧
      (pollLoop poll i futures states polled).result =
        resultOf (polled || !(pollLoop poll i futures states polled).polls.isEmpty) res ∧
      (pollLoop poll i futures states polled).join.futures.length = futures.length := by
  induction futures generalizing i states polled with
  | nil =>
    obtain rfl := List.eq_nil_of_length_eq_zero h.symm
    exact ⟨none, .done i, by simp [pollLoop, resultOf], rfl⟩
  | cons fut futures ih =>
    cases states with
    | nil => simp at h
    | cons state states =>
      have hlength : futures.length = states.length := by simpa using h
      cases state with
      | true =>
        obtain ⟨res, hscans, hresult, hfutures⟩ := ih (i + 1) states polled hlength
        exact ⟨res, by simpa [pollLoop] using hscans.skip, by simpa [pollLoop] using hresult,
          by simpa [pollLoop] using hfutures⟩
      | false =>
        cases hpoll : poll i fut with
        | mk answer fut' =>
          cases answer with
          | ready res =>
            exact ⟨some res, by simpa [pollLoop, hpoll] using Scans.ready i states res,
              by simp [pollLoop, hpoll, resultOf], by simp [pollLoop, hpoll]⟩
          | pending =>
            obtain ⟨res, hscans, hresult, hfutures⟩ := ih (i + 1) states true hlength
            exact ⟨res, by simpa [pollLoop, hpoll] using hscans.pending,
              by simpa [pollLoop, hpoll] using hresult, by simpa [pollLoop, hpoll] using hfutures⟩

end Join

/-! ## Any number of polls -/

/-- A join, and the polls so far: of its futures, and their results. -/
structure Joining (F O : Type) where
  join : Join F
  polls : List (ℕ × Poll O)
  results : List (Poll (Option O))

namespace Joining

variable {F O : Type}

/-- A join that has not been polled. -/
def start (futures : List F) : Joining F O where
  join := Join.new futures
  polls := []
  results := []

/-- The next poll, in which the futures answer like this. -/
def apply (s : Joining F O) (poll : ℕ → F → Poll O × F) : Joining F O :=
  let next := s.join.poll poll
  { join := next.join
    polls := s.polls ++ next.polls
    results := s.results ++ [next.result] }

/-- A poll of the join. -/
def Step (s : Joining F O) (poll : ℕ → F → Poll O × F) (t : Joining F O) : Prop := t = s.apply poll

/-- The states that some polls of a new join lead to. -/
def Reachable (futures : List F) (s : Joining F O) : Prop :=
  Runs.Reachable (· = start futures) Step s

/-- The future has returned. -/
def Yielded (s : Joining F O) (i : ℕ) : Prop := ∃ o, (i, .ready o) ∈ s.polls

/-- The indices of the futures that have returned, in this order. -/
def yielded (s : Joining F O) : List ℕ := (s.polls.filter (·.2.ready?.isSome)).map Prod.fst

/-- The outputs that the polls have returned. -/
def outputs (s : Joining F O) : List O := s.results.filterMap fun result => result.ready?.join

theorem mem_yielded {s : Joining F O} {i : ℕ} : i ∈ s.yielded ↔ s.Yielded i := by
  unfold yielded Yielded
  constructor
  · intro hi
    obtain ⟨⟨j, answer⟩, hp, rfl⟩ := List.mem_map.mp hi
    obtain ⟨hp, hready⟩ := List.mem_filter.mp hp
    cases answer with
    | ready o => exact ⟨o, hp⟩
    | pending => simp [Poll.ready?] at hready
  · rintro ⟨o, ho⟩
    exact List.mem_map.mpr ⟨(i, .ready o), List.mem_filter.mpr ⟨ho, rfl⟩, rfl⟩

/-- What holds after any number of polls of a join of `n` futures. -/
structure Invariant (n : ℕ) (s : Joining F O) : Prop where
  futures : s.join.futures.length = n
  state : s.join.state.length = n
  returned : ∀ i, s.join.state[i]? = some true ↔ s.Yielded i
  bound : ∀ p ∈ s.polls, p.1 < n
  fresh : s.polls.Pairwise fun p q => p.2.ready?.isSome → q.1 ≠ p.1
  outputs : s.outputs = s.polls.filterMap (·.2.ready?)
  finished : .ready none ∈ s.results → ∀ i < n, s.Yielded i

variable {n : ℕ} {s : Joining F O} {futures : List F}

theorem start_invariant (futures : List F) :
    (start futures : Joining F O).Invariant futures.length where
  futures := rfl
  state := List.length_replicate
  returned := by
    intro i
    simp [start, Join.new, Yielded, List.getElem?_replicate]
  bound := by simp [start]
  fresh := List.Pairwise.nil
  outputs := rfl
  finished := by simp [start]

/-- A future that has not returned has its flag down. -/
theorem Invariant.waiting_iff (h : s.Invariant n) (i : ℕ) :
    s.join.state[i]? = some false ↔ i < n ∧ ¬ s.Yielded i := by
  rw [← h.returned, ← h.state]
  by_cases hi : i < s.join.state.length
  · rw [List.getElem?_eq_getElem hi]
    simp [hi]
  · simp [hi]

theorem Invariant.scans (h : s.Invariant n) (poll : ℕ → F → Poll O × F) :
    ∃ res, Join.Scans 0 s.join.state (s.join.poll poll).polls (s.join.poll poll).join.state res ∧
      (s.join.poll poll).result = Join.resultOf (!(s.join.poll poll).polls.isEmpty) res ∧
      (s.join.poll poll).join.futures.length = n := by
  obtain ⟨res, hscans, hresult, hlength⟩ :=
    Join.pollLoop_scans poll 0 s.join.futures s.join.state false (h.futures.trans h.state.symm)
  rw [Bool.false_or] at hresult
  exact ⟨res, hscans, hresult, hlength.trans h.futures⟩

/-- **`None` is returned when there is nothing left to poll.** -/
theorem Invariant.none_iff (h : s.Invariant n) (poll : ℕ → F → Poll O × F) :
    (s.join.poll poll).result = .ready none ↔ ∀ i < n, s.Yielded i := by
  obtain ⟨res, hscans, hresult, -⟩ := h.scans poll
  rw [hresult]
  cases res with
  | some res =>
    have houtputs := hscans.outputs
    have hne : ¬ ∀ i < n, s.Yielded i := by
      intro hall
      obtain ⟨p, hp⟩ := List.exists_mem_of_ne_nil (s.join.poll poll).polls (by
        rintro hnil
        simp [hnil] at houtputs)
      obtain ⟨j, hj, hstate⟩ := hscans.unfinished hp
      obtain ⟨hlt, hnot⟩ := (h.waiting_iff j).mp hstate
      exact hnot (hall j hlt)
    simp [Join.resultOf, hne]
  | none =>
    constructor
    · intro hnone i hi
      by_contra hnot
      have hmem := hscans.all_polled rfl ((h.waiting_iff i).mpr ⟨hi, hnot⟩)
      have hempty : (s.join.poll poll).polls = [] := by
        by_contra hne
        simp [Join.resultOf, hne] at hnone
      rw [hempty] at hmem
      cases hmem
    · intro hall
      have hempty : (s.join.poll poll).polls = [] := by
        rw [List.eq_nil_iff_forall_not_mem]
        intro p hp
        obtain ⟨j, hj, hstate⟩ := hscans.unfinished hp
        obtain ⟨hlt, hnot⟩ := (h.waiting_iff j).mp hstate
        exact hnot (hall j hlt)
      simp [Join.resultOf, hempty]

/-- **When `Pending` is returned every future that is left has been polled.** -/
theorem Invariant.pending_polled (h : s.Invariant n) (poll : ℕ → F → Poll O × F)
    (hpending : (s.join.poll poll).result = .pending) {i : ℕ} (hi : i < n) (hnot : ¬ s.Yielded i) :
    (i, .pending) ∈ (s.join.poll poll).polls := by
  obtain ⟨res, hscans, hresult, -⟩ := h.scans poll
  rw [hresult] at hpending
  cases res with
  | some res => simp [Join.resultOf] at hpending
  | none => simpa using hscans.all_polled rfl ((h.waiting_iff i).mpr ⟨hi, hnot⟩)

theorem Invariant.apply (h : s.Invariant n) (poll : ℕ → F → Poll O × F) :
    (s.apply poll).Invariant n := by
  have hnone := h.none_iff poll
  obtain ⟨res, hscans, hresult, hlength⟩ := h.scans poll
  have hyielded : ∀ i, (s.apply poll).Yielded i ↔
      s.Yielded i ∨ ∃ o, (i, .ready o) ∈ (s.join.poll poll).polls := by
    intro i
    simp only [Yielded, Joining.apply, List.mem_append]
    exact exists_or
  refine ⟨hlength, hscans.length_eq.trans h.state, ?_, ?_, ?_, ?_, ?_⟩
  · intro i
    have hstate := hscans.state_iff i
    rw [Nat.zero_add, h.returned] at hstate
    rw [hyielded]
    exact hstate
  · intro p hp
    rcases List.mem_append.mp hp with hp | hp
    · exact h.bound p hp
    · obtain ⟨j, hj, hstate⟩ := hscans.unfinished hp
      have := ((h.waiting_iff j).mp hstate).1
      omega
  · refine List.pairwise_append.mpr ⟨h.fresh, ?_, ?_⟩
    · refine hscans.pairwise.imp ?_
      intro p q hlt _
      omega
    · -- a future that had returned before is not among those that are polled
      intro p hp q hq hready heq
      obtain ⟨j, hj, hstate⟩ := hscans.unfinished hq
      obtain ⟨o, ho⟩ := Option.isSome_iff_exists.mp hready
      refine ((h.waiting_iff j).mp hstate).2 ⟨o, ?_⟩
      obtain ⟨i, answer⟩ := p
      cases answer with
      | pending => simp [Poll.ready?] at ho
      | ready o' =>
        obtain rfl : o' = o := by simpa [Poll.ready?] using ho
        simp only at heq
        rwa [← Nat.zero_add j, ← hj, heq]
  · have hlast : [(s.join.poll poll).result].filterMap (fun result => result.ready?.join) =
        (s.join.poll poll).polls.filterMap (·.2.ready?) := by
      rw [hscans.outputs, hresult]
      cases res with
      | some res => rfl
      | none => cases (s.join.poll poll).polls <;> rfl
    have hbefore := h.outputs
    unfold Joining.outputs at hbefore ⊢
    simp only [Joining.apply, List.filterMap_append]
    rw [hbefore, hlast]
  · intro hmem i hi
    rw [hyielded]
    left
    rcases List.mem_append.mp hmem with hmem | hmem
    · exact h.finished hmem i hi
    · exact hnone.mp (List.mem_singleton.mp hmem).symm i hi

theorem Reachable.invariant (h : Reachable futures s) : s.Invariant futures.length := by
  refine Runs.Reachable.invariant ?_ ?_ h
  · rintro s rfl
    exact start_invariant futures
  · rintro s poll t hs rfl
    exact hs.apply poll

theorem Invariant.nodup_yielded (h : s.Invariant n) : s.yielded.Nodup := by
  unfold yielded List.Nodup
  rw [List.pairwise_map]
  refine (h.fresh.filter _).imp_of_mem ?_
  intro p q hp _ hne
  exact (hne (by simpa using (List.mem_filter.mp hp).2)).symm

/-- **A join yields every output once.**  After any number of polls: the outputs returned are
those of the futures that have returned, each of them once; no future has been polled after it
returned; once `None` has been returned all futures have.  And the next poll returns `None`
if and only if all futures have been yielded, and `Pending` only after it has polled every
future that is left. -/
theorem Reachable.yieldsOnce (h : Reachable futures s) :
    (s.outputs = s.polls.filterMap (·.2.ready?) ∧ s.yielded.Nodup) ∧
      s.polls.Pairwise (fun p q => p.2.ready?.isSome → q.1 ≠ p.1) ∧
      (.ready none ∈ s.results → s.yielded.Perm (List.range futures.length)) ∧
      ∀ poll : ℕ → F → Poll O × F,
        ((s.join.poll poll).result = .ready none ↔ ∀ i < futures.length, s.Yielded i) ∧
        ((s.join.poll poll).result = .pending → ∀ i < futures.length, ¬ s.Yielded i →
          (i, .pending) ∈ (s.join.poll poll).polls) := by
  have hi := h.invariant
  refine ⟨⟨hi.outputs, hi.nodup_yielded⟩, hi.fresh, ?_, ?_⟩
  · intro hnone
    rw [List.perm_ext_iff_of_nodup hi.nodup_yielded List.nodup_range]
    intro i
    rw [mem_yielded, List.mem_range]
    constructor
    · rintro ⟨o, ho⟩
      exact hi.bound _ ho
    · exact hi.finished hnone i
  · intro poll
    exact ⟨hi.none_iff poll, fun hpending i hlt hnot => hi.pending_polled poll hpending hlt hnot⟩

/-- Two futures, the first of which returns in the second poll. -/
theorem yieldsOnce_two : ∃ s : Joining ℕ ℕ, s.outputs = [20, 10] ∧
    s.results = [.ready (some 20), .pending, .ready (some 10), .ready none] ∧
    s.yielded.Perm (List.range 2) := by
  have h : Reachable [0, 1] (start [0, 1] : Joining ℕ ℕ) := .init rfl
  have h := h.tail (e := fun i f => if i = 0 then (.pending, f) else (.ready 20, f)) rfl
  have h := h.tail (e := fun _ f => (.pending, f)) rfl
  have h := h.tail (e := fun _ f => (.ready 10, f)) rfl
  have h := h.tail (e := fun _ f => (.pending, f)) rfl
  exact ⟨_, rfl, rfl, (Reachable.yieldsOnce h).2.2.1 (by decide)⟩

end Joining

end Hamerkop
