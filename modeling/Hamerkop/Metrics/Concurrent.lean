import Hamerkop.Lib.Commuting
import Hamerkop.Metrics.Merge
import Hamerkop.Metrics.SaturatingAdd

/-!
# A sketch that threads share

All methods of a `DDSketch` take `&self`: any number of threads insert and merge at the same
time.  What a call does to the sketch is a list of atomic operations, and `saturating_add` is a
loop of them.  The steps of the threads come in any order, and a `compare_exchange_weak` may
fail for no reason.  A sketch that is merged into the shared one is not changed meanwhile.

`Reachable.anyOrder`: when all calls have returned, the sketch is the one that the calls
lead to when they are made one after the other, in whatever order.

The operations of the source are `Relaxed`.  They have an order for each counter, which is all
that the theorem needs: what a thread does to a counter depends on this counter only
(`perform_right_comm`).  Nothing is said here about what a thread sees of several counters
while others are at work, for which there is no such order.
-/

namespace Hamerkop

open Saturating
open DDSketch (SketchOp)

/-- The counters of a sketch that `saturating_add` is called for. -/
inductive SketchCounter where
  | count
  | bucket (index : ℕ)
deriving DecidableEq, Repr

/-- What a call does, step by step. -/
inductive SketchAction where
  | fetchMax (value : ℕ)
  | fetchMin (value : ℕ)
  | saturatingAdd (ctr : SketchCounter) (val : ℕ)
  | panic
deriving DecidableEq, Repr

namespace DDSketch

/-- The value of a counter. -/
def load (s : DDSketch) : SketchCounter → ℕ
  | .count => s.count
  | .bucket index => s.buckets.getD index 0

/-- The sketch with another value in a counter. -/
def store (s : DDSketch) (ctr : SketchCounter) (target : ℕ) : DDSketch :=
  match ctr with
  | .count => { s with count := target }
  | .bucket index => { s with buckets := s.buckets.set index target }

/-- What a call does to this sketch, in the order in which it does it. -/
noncomputable def actions (s : DDSketch) : SketchOp → List SketchAction
  | .insertN value count =>
    let index := s.indexOf value
    [.fetchMax value, .fetchMin value, .saturatingAdd .count count,
      if index < s.numBuckets then .saturatingAdd (.bucket index) count else .panic]
  | .merge other =>
    if s.numBuckets = other.numBuckets then
      other.buckets.mapIdx (fun index n => .saturatingAdd (.bucket index) n) ++
        [.saturatingAdd .count other.count, .fetchMin other.min, .fetchMax other.max]
    else
      [.panic]

/-- An action that nobody interrupts. -/
def perform (s : DDSketch) : SketchAction → DDSketch
  | .fetchMax value => { s with max := Max.max s.max value }
  | .fetchMin value => { s with min := Min.min s.min value }
  | .saturatingAdd ctr val => s.store ctr (saturatingAdd (s.load ctr) val)
  | .panic => s

/-- A call that nobody interrupts. -/
noncomputable def call (s : DDSketch) : SketchOp → Option DDSketch
  | .insertN value count => s.insertN value count
  | .merge other => s.merge other

/-- The calls are made one after the other. -/
noncomputable def callAll (s : DDSketch) : List SketchOp → Option DDSketch
  | [] => some s
  | op :: ops =>
    match s.call op with
    | none => none
    | some s => s.callAll ops

end DDSketch

/-- A thread: what is left of its calls, and where the `saturating_add` is that is next. -/
structure SketchThread where
  rest : List SketchAction
  pc : AddPc
deriving Repr

/-- A sketch, and the threads that use it. -/
structure SharedSketch (ι : Type) where
  sketch : DDSketch
  threads : ι → SketchThread

/-- The next atomic operation of a thread. -/
inductive SketchEvent (ι : Type) where
  | fetch (i : ι)
  | load (i : ι)
  /-- if `spurious`, the exchange fails in any case -/
  | exchange (i : ι) (spurious : Bool)

namespace SharedSketch

variable {ι : Type}

/-- Every thread is before the first of its calls. -/
noncomputable def start (sketch : DDSketch) (calls : ι → List SketchOp) : SharedSketch ι where
  sketch
  threads i := { rest := (calls i).flatMap sketch.actions, pc := .loading }

variable [DecidableEq ι]

/-- The next step of a thread. -/
def apply (s : SharedSketch ι) : SketchEvent ι → Option (SharedSketch ι)
  | .fetch i =>
    match (s.threads i).rest with
    | .fetchMax value :: rest =>
      some
        { sketch := { s.sketch with max := Max.max s.sketch.max value }
          threads := Function.update s.threads i { rest, pc := .loading } }
    | .fetchMin value :: rest =>
      some
        { sketch := { s.sketch with min := Min.min s.sketch.min value }
          threads := Function.update s.threads i { rest, pc := .loading } }
    | _ => none
  | .load i =>
    match (s.threads i).rest, (s.threads i).pc with
    | .saturatingAdd ctr val :: rest, .loading =>
      let expected := s.sketch.load ctr
      let target := DDSketch.saturatingAdd expected val
      some
        { s with
          threads := Function.update s.threads i
            { rest := .saturatingAdd ctr val :: rest, pc := .exchanging expected target } }
    | _, _ => none
  | .exchange i spurious =>
    match (s.threads i).rest, (s.threads i).pc with
    | .saturatingAdd ctr val :: rest, .exchanging expected target =>
      if s.sketch.load ctr = expected ∧ ¬ spurious then
        some
          { sketch := s.sketch.store ctr target
            threads := Function.update s.threads i { rest, pc := .loading } }
      else
        let expected := s.sketch.load ctr
        let target := DDSketch.saturatingAdd expected val
        some
          { s with
            threads := Function.update s.threads i
              { rest := .saturatingAdd ctr val :: rest, pc := .exchanging expected target } }
    | _, _ => none

/-- A step of one of the threads. -/
def Step (s : SharedSketch ι) (e : SketchEvent ι) (t : SharedSketch ι) : Prop :=
  s.apply e = some t

/-- The states that some order of the steps leads to. -/
def Reachable (sketch : DDSketch) (calls : ι → List SketchOp) (s : SharedSketch ι) : Prop :=
  Runs.Reachable (· = start sketch calls) Step s

end SharedSketch

/-! ## Actions -/

namespace DDSketch

variable {s t : DDSketch} {a b : SketchAction}

theorem perform_count (s : DDSketch) (val : ℕ) :
    s.perform (.saturatingAdd .count val) = { s with count := satAdd u64Max s.count val } := rfl

theorem perform_bucket (s : DDSketch) (index val : ℕ) :
    s.perform (.saturatingAdd (.bucket index) val) =
      { s with buckets := s.buckets.modify index (satAdd u64Max · val) } := by
  have hset : s.buckets.modify index (satAdd u64Max · val) =
      s.buckets.set index (saturatingAdd (s.buckets.getD index 0) val) :=
    List.modify_eq_set _ _ _
  exact congrArg (fun buckets => { s with buckets }) hset.symm

theorem modify_right_comm {f g : ℕ → ℕ} (hfg : ∀ n, g (f n) = f (g n)) (l : List ℕ) (i j : ℕ) :
    (l.modify i f).modify j g = (l.modify j g).modify i f := by
  by_cases hij : i = j
  · subst hij
    rw [List.modify_modify_eq, List.modify_modify_eq]
    congr 1
    exact funext hfg
  · exact List.modify_modify_ne f g l hij

theorem perform_right_comm (s : DDSketch) (a b : SketchAction) :
    (s.perform a).perform b = (s.perform b).perform a := by
  have hadd : ∀ (s : DDSketch) (a : SketchAction) (ctr : SketchCounter) (val : ℕ),
      (s.perform a).perform (.saturatingAdd ctr val) =
        (s.perform (.saturatingAdd ctr val)).perform a := by
    intro s a ctr val
    cases a with
    | fetchMax value => cases ctr <;> rfl
    | fetchMin value => cases ctr <;> rfl
    | panic => rfl
    | saturatingAdd ctr' val' =>
      cases ctr with
      | count =>
        cases ctr' with
        | count => simp only [perform_count, satAdd_right_comm u64Max s.count val val']
        | bucket index' => rfl
      | bucket index =>
        cases ctr' with
        | count => rfl
        | bucket index' =>
          have := modify_right_comm (f := (satAdd u64Max · val')) (g := (satAdd u64Max · val))
            (fun n => satAdd_right_comm u64Max n val' val) s.buckets index' index
          simp only [perform_bucket, this]
  cases b with
  | fetchMax value =>
    cases a with
    | fetchMax value' => simp only [perform, max_right_comm]
    | saturatingAdd ctr val => exact (hadd s _ ctr val).symm
    | _ => rfl
  | fetchMin value =>
    cases a with
    | fetchMin value' => simp only [perform, min_right_comm]
    | saturatingAdd ctr val => exact (hadd s _ ctr val).symm
    | _ => rfl
  | saturatingAdd ctr val => exact hadd s a ctr val
  | panic => rfl

instance : RightCommutative perform := ⟨perform_right_comm⟩

/-- No action changes which bucket a value has. -/
theorem actions_perform (s : DDSketch) (a : SketchAction) : (s.perform a).actions = s.actions := by
  have hlength : (s.perform a).numBuckets = s.numBuckets := by
    cases a with
    | saturatingAdd ctr val => cases ctr <;> simp [perform, store, numBuckets]
    | _ => rfl
  have hindex : (s.perform a).indexOf = s.indexOf := by
    funext value
    unfold indexOf
    rw [hlength]
    cases a with
    | saturatingAdd ctr val => cases ctr <;> rfl
    | _ => rfl
  funext op
  unfold actions
  rw [hlength, hindex]

theorem actions_foldl (l : List SketchAction) (s : DDSketch) :
    (l.foldl perform s).actions = s.actions := by
  induction l generalizing s with
  | nil => rfl
  | cons a l ih => rw [List.foldl_cons, ih, actions_perform]

/-! ## A call does its actions -/

/-- Adding to the buckets one by one. -/
theorem foldl_perform_buckets (buckets pre rest : List ℕ) (s : DDSketch)
    (hs : s.buckets = pre ++ rest) (hlength : rest.length = buckets.length) :
    (buckets.mapIdx fun index n =>
        SketchAction.saturatingAdd (.bucket (index + pre.length)) n).foldl perform s =
      { s with buckets := pre ++ List.zipWith (satAdd u64Max) rest buckets } := by
  induction buckets generalizing pre rest s with
  | nil =>
    obtain rfl := List.length_eq_zero_iff.mp hlength
    rw [List.append_nil] at hs
    simp [← hs]
  | cons n buckets ih =>
    obtain ⟨m, rest, rfl⟩ := List.exists_cons_of_length_eq_add_one hlength
    have hmodify : s.buckets.modify pre.length (satAdd u64Max · n) =
        (pre ++ [satAdd u64Max m n]) ++ rest := by
      rw [hs]
      simp [List.modify_eq_take_cons_drop]
    have := ih (pre ++ [satAdd u64Max m n]) rest
      { s with buckets := s.buckets.modify pre.length (satAdd u64Max · n) } hmodify
      (by simpa using hlength)
    rw [List.mapIdx_cons, List.foldl_cons, Nat.zero_add, perform_bucket]
    simp only [List.length_append, List.length_singleton, List.append_assoc,
      List.singleton_append] at this
    simpa [Nat.add_assoc, Nat.add_comm 1] using this

/-- The call does not panic. -/
def Returns (s : DDSketch) (op : SketchOp) : Prop := .panic ∉ s.actions op

theorem call_eq {op : SketchOp} (h : s.Returns op) :
    s.call op = some ((s.actions op).foldl perform s) := by
  unfold Returns actions at h
  cases op with
  | insertN value count =>
    by_cases hi : s.indexOf value < s.numBuckets
    · simp only [call, insertN, actions, if_pos hi, List.foldl_cons, List.foldl_nil,
        perform_bucket]
      rfl
    · simp [hi] at h
  | merge other =>
    by_cases hn : s.numBuckets = other.numBuckets
    · have hbuckets := foldl_perform_buckets other.buckets [] s.buckets s rfl hn
      simp only [List.length_nil, Nat.add_zero, List.nil_append] at hbuckets
      rw [call, merge_eq hn, actions, if_pos hn, List.foldl_append, hbuckets]
      rfl
    · simp [hn] at h

theorem callAll_eq {ops : List SketchOp} (h : ∀ op ∈ ops, s.Returns op) :
    s.callAll ops = some ((ops.flatMap s.actions).foldl perform s) := by
  induction ops generalizing s with
  | nil => rfl
  | cons op ops ih =>
    have hop : s.Returns op := h op (List.mem_cons_self ..)
    have hactions := actions_foldl (s.actions op) s
    have hops : ∀ op' ∈ ops, ((s.actions op).foldl perform s).Returns op' := by
      intro op' hop'
      unfold Returns
      rw [hactions]
      exact h op' (List.mem_cons_of_mem _ hop')
    simp only [callAll, call_eq hop]
    rw [ih hops, hactions, List.flatMap_cons, List.foldl_append]

end DDSketch

/-! ## Interleaving -/

namespace SharedSketch

open Commuting

variable {ι : Type} {sketch : DDSketch} {calls : ι → List SketchOp}

/-- The loop of `saturating_add` taken as one action. -/
def actionsOf (s : SharedSketch ι) : Threads ι SketchAction DDSketch where
  shared := s.sketch
  rest i := (s.threads i).rest

/-- What a thread is about to store belongs to what it has seen, and a panic is never over. -/
structure Invariant (calls : ι → List SketchOp) (sketch : DDSketch) (s : SharedSketch ι) :
    Prop where
  target : ∀ i ctr val rest expected target,
    (s.threads i).rest = .saturatingAdd ctr val :: rest →
      (s.threads i).pc = .exchanging expected target →
        target = DDSketch.saturatingAdd expected val
  panics : ∀ i, .panic ∈ (calls i).flatMap sketch.actions → .panic ∈ (s.threads i).rest

theorem invariant_start (sketch : DDSketch) (calls : ι → List SketchOp) :
    Invariant calls sketch (start sketch calls) where
  target := by
    intro i ctr val rest expected target _ hpc
    cases hpc
  panics := fun _ h => h

variable [DecidableEq ι] {s t : SharedSketch ι}

/-- A thread that has looked at the counter. -/
theorem Invariant.look (h : Invariant calls sketch s) {i : ι} {ctr : SketchCounter} {val : ℕ}
    {rest : List SketchAction} (hi : (s.threads i).rest = .saturatingAdd ctr val :: rest)
    (expected : ℕ) :
    Invariant calls sketch
      { s with
        threads := Function.update s.threads i
          { rest := .saturatingAdd ctr val :: rest
            pc := .exchanging expected (DDSketch.saturatingAdd expected val) } } where
  target := by
    intro j ctr' val' rest' expected' target' hj hpc
    by_cases hij : j = i
    · subst hij
      simp only [Function.update_self, List.cons.injEq, SketchAction.saturatingAdd.injEq,
        AddPc.exchanging.injEq] at hj hpc
      rw [← hpc.1, ← hpc.2, hj.1.2]
    · simp only [Function.update_of_ne hij] at hj hpc
      exact h.target j ctr' val' rest' expected' target' hj hpc
  panics := by
    intro j hj
    by_cases hij : j = i
    · subst hij
      simpa [hi] using h.panics j hj
    · simpa [hij] using h.panics j hj

/-- A thread that is done with an action. -/
theorem Invariant.pop (h : Invariant calls sketch s) {i : ι} {a : SketchAction}
    {rest : List SketchAction} (hi : (s.threads i).rest = a :: rest) (ha : a ≠ .panic)
    (sketch' : DDSketch) :
    Invariant calls sketch
      { sketch := sketch', threads := Function.update s.threads i { rest, pc := .loading } } where
  target := by
    intro j ctr val rest' expected target hj hpc
    by_cases hij : j = i
    · subst hij
      simp at hpc
    · simp only [Function.update_of_ne hij] at hj hpc
      exact h.target j ctr val rest' expected target hj hpc
  panics := by
    intro j hj
    have hmem := h.panics j hj
    by_cases hij : j = i
    · subst hij
      rw [hi, List.mem_cons] at hmem
      simpa using hmem.resolve_left ha.symm
    · simpa [hij] using hmem

/-- What a step does: a thread looks at a counter, or it is done with an action. -/
theorem step_cases {e : SketchEvent ι} (h : Invariant calls sketch s) (hst : Step s e t) :
    (∃ i ctr val rest expected, (s.threads i).rest = .saturatingAdd ctr val :: rest ∧
      t = { s with
            threads := Function.update s.threads i
              { rest := .saturatingAdd ctr val :: rest
                pc := .exchanging expected (DDSketch.saturatingAdd expected val) } }) ∨
    ∃ i a rest, (s.threads i).rest = a :: rest ∧ a ≠ .panic ∧
      t = { sketch := s.sketch.perform a
            threads := Function.update s.threads i { rest, pc := .loading } } := by
  unfold Step at hst
  cases e with
  | fetch i =>
    cases hi : (s.threads i).rest with
    | nil => simp [apply, hi] at hst
    | cons a rest =>
      cases a with
      | fetchMax value =>
        simp only [apply, hi, Option.some.injEq] at hst
        exact .inr ⟨i, _, rest, hi, nofun, hst.symm⟩
      | fetchMin value =>
        simp only [apply, hi, Option.some.injEq] at hst
        exact .inr ⟨i, _, rest, hi, nofun, hst.symm⟩
      | saturatingAdd ctr val => simp [apply, hi] at hst
      | panic => simp [apply, hi] at hst
  | load i =>
    cases hi : (s.threads i).rest with
    | nil => simp [apply, hi] at hst
    | cons a rest =>
      cases hpc : (s.threads i).pc with
      | loading =>
        cases a with
        | saturatingAdd ctr val =>
          simp only [apply, hi, hpc, Option.some.injEq] at hst
          exact .inl ⟨i, ctr, val, rest, _, hi, hst.symm⟩
        | _ => simp [apply, hi, hpc] at hst
      | exchanging expected target => simp [apply, hi, hpc] at hst
      | returned expected => simp [apply, hi, hpc] at hst
  | exchange i spurious =>
    cases hi : (s.threads i).rest with
    | nil => simp [apply, hi] at hst
    | cons a rest =>
      cases hpc : (s.threads i).pc with
      | loading => simp [apply, hi, hpc] at hst
      | exchanging expected target =>
        cases a with
        | saturatingAdd ctr val =>
          simp only [apply, hi, hpc] at hst
          by_cases hsucceeds : s.sketch.load ctr = expected ∧ ¬ spurious
          · rw [if_pos hsucceeds, Option.some.injEq] at hst
            obtain rfl := h.target i ctr val rest expected target hi hpc
            rw [← hsucceeds.1] at hst
            exact .inr ⟨i, _, rest, hi, nofun, hst.symm⟩
          · rw [if_neg hsucceeds, Option.some.injEq] at hst
            exact .inl ⟨i, ctr, val, rest, _, hi, hst.symm⟩
        | _ => simp [apply, hi, hpc] at hst
      | returned expected => simp [apply, hi, hpc] at hst

theorem actionsOf_look {i : ι} {rest : List SketchAction} (hi : (s.threads i).rest = rest)
    (pc : AddPc) :
    actionsOf { s with threads := Function.update s.threads i { rest, pc } } = actionsOf s := by
  unfold actionsOf
  congr 1
  funext j
  by_cases hij : j = i
  · subst hij
    simp [hi]
  · simp [hij]

theorem step_actionsOf {i : ι} {a : SketchAction} {rest : List SketchAction}
    (hi : (s.threads i).rest = a :: rest) :
    Commuting.Step DDSketch.perform (actionsOf s) i
      (actionsOf
        { sketch := s.sketch.perform a
          threads := Function.update s.threads i { rest, pc := .loading } }) := by
  have hrest : actionsOf
      { sketch := s.sketch.perform a
        threads := Function.update s.threads i { rest, pc := .loading } } =
      ⟨s.sketch.perform a, Function.update (actionsOf s).rest i rest⟩ := by
    unfold actionsOf
    congr 1
    funext j
    by_cases hij : j = i
    · subst hij
      simp
    · simp [hij]
  rw [hrest]
  exact .act hi

variable [Fintype ι]

theorem Reachable.progress (h : Reachable sketch calls s) :
    Invariant calls sketch s ∧ ∃ done, Progress DDSketch.perform sketch
      (fun i => (calls i).flatMap sketch.actions) done (actionsOf s) := by
  refine reachable_progress (I := Invariant calls sketch) (F := actionsOf) ?_ ?_ h
  · rintro s rfl
    exact ⟨invariant_start sketch calls, rfl⟩
  · intro s e t hs hst
    rcases step_cases hs hst with ⟨i, ctr, val, rest, expected, hi, rfl⟩ | ⟨i, a, rest, hi, ha, rfl⟩
    · exact ⟨hs.look hi expected, .inl (actionsOf_look hi _)⟩
    · exact ⟨hs.pop hi ha _, .inr ⟨i, step_actionsOf hi⟩⟩

/-- **Threads that share a sketch are as good as one thread.**  When all calls have returned, the
sketch is the one that they lead to when they are made one after the other, in any order. -/
theorem Reachable.anyOrder (h : Reachable sketch calls s)
    (hreturned : ∀ i, (s.threads i).rest = []) {ops : List SketchOp}
    (hops : (ops : Multiset SketchOp) = ∑ i, (calls i : Multiset SketchOp)) :
    sketch.callAll ops = some s.sketch := by
  obtain ⟨hinv, done, hdone⟩ := h.progress
  have hreturns : ∀ op ∈ ops, sketch.Returns op := by
    intro op hop hpanic
    have hmem : op ∈ ∑ i, (calls i : Multiset SketchOp) := by
      rw [← hops]
      exact hop
    obtain ⟨i, -, hi⟩ := Multiset.mem_sum.mp hmem
    have := hinv.panics i (List.mem_flatMap.mpr ⟨op, hi, hpanic⟩)
    rw [hreturned i] at this
    cases this
  have horder := coe_flatMap sketch.actions hops
  rw [DDSketch.callAll_eq hreturns, ← hdone.quiescent hreturned horder]
  rfl

/-- `DDSketch::with_limit(1, 0.5)`: a bucket for zero, and one for all that is above. -/
noncomputable def twoBuckets : DDSketch where
  buckets := [0, 0]
  gamma := (3 : ℕ)
  cutoff := 1
  count := 0
  limit := 1
  min := u64Max
  max := 0

theorem withLimit_twoBuckets : DDSketch.withLimit 1 (1 / 2) = some twoBuckets := by
  have hgamma : (1 + 1 / 2 : ℝ) / (1 - 1 / 2) = (3 : ℕ) := by norm_num
  have hlog : 0 ≤ Real.logb (3 : ℕ) ((3 : ℕ) - 1) := Real.logb_nonneg (by norm_num) (by norm_num)
  have hlog' : Real.logb (3 : ℕ) ((3 : ℕ) - 1) < 1 := by
    rw [Real.logb_lt_iff_lt_rpow (by norm_num) (by norm_num)]
    norm_num
  have hcutoff : ⌈-Real.logb (3 : ℕ) ((3 : ℕ) - 1)⌉ = 0 := by
    rw [Int.ceil_eq_zero_iff]
    exact ⟨by linarith, by linarith⟩
  have hlimit : (1 : ℕ) ≠ u64Max := by decide
  unfold DDSketch.withLimit
  rw [if_pos (by norm_num)]
  simp only [hgamma, hcutoff, hlimit, Nat.cast_one, Real.logb_one, Int.ceil_zero, le_refl, if_true,
    if_false]
  rfl

omit [Fintype ι] in
theorem Reachable.step (h : Reachable sketch calls s) (e : SketchEvent ι)
    (hst : s.apply e = some t) : Reachable sketch calls t := h.tail hst

/-- Both see the counter at the same time, and one has to try again. -/
theorem anyOrder_race : DDSketch.withLimit 1 (1 / 2) = some twoBuckets ∧
    ∃ s : SharedSketch Bool, s.sketch.buckets = [2, 5] ∧ s.sketch.count = 7 ∧
      twoBuckets.callAll [.insertN 0 2, .insertN 9 5] = some s.sketch := by
  refine ⟨withLimit_twoBuckets, ?_⟩
  have h : Reachable twoBuckets (fun i => if i then [.insertN 9 5] else [.insertN 0 2])
      (start twoBuckets _ : SharedSketch Bool) := .init rfl
  have h := h.step (.fetch true) rfl
  have h := h.step (.fetch false) rfl
  have h := h.step (.fetch false) rfl
  have h := h.step (.fetch true) rfl
  have h := h.step (.load true) rfl
  have h := h.step (.load false) rfl
  have h := h.step (.exchange true false) rfl
  have h := h.step (.load true) rfl
  have h := h.step (.exchange false false) rfl
  have h := h.step (.exchange false false) rfl
  have h := h.step (.load false) rfl
  have h := h.step (.exchange false false) rfl
  have h := h.step (.exchange true true) rfl
  have h := h.step (.exchange true false) rfl
  refine ⟨_, rfl, rfl, h.anyOrder (Bool.forall_bool.mpr ⟨rfl, rfl⟩) ?_⟩
  simp only [Fintype.sum_bool, Multiset.coe_add]
  exact Multiset.coe_eq_coe.mpr (List.Perm.swap _ _ _)

end SharedSketch

end Hamerkop
