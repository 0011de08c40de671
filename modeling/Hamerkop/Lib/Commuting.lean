import Hamerkop.Lib.Runs

/-!
# Threads whose actions commute

Threads share a state and each does the actions of its program on it, one after the other.
The actions of different threads come in any order.  When actions commute the order makes no
difference:

* `Progress` — in every state each thread has done a beginning of its program, and the shared
  state is what these beginnings come to;
* `Progress.quiescent` — when all programs are done, the shared state is what all their actions
  come to, in whatever order they are listed;
* `reachable_progress` — the same for a system that takes several steps for an action, as long
  as only one of them has an effect.
-/

namespace Commuting

variable {ι α σ : Type*}

/-- A shared state, and what the threads still have to do. -/
structure Threads (ι α σ : Type*) where
  shared : σ
  rest : ι → List α

variable [DecidableEq ι]

/-- The thread `i` does its next action. -/
inductive Step (act : σ → α → σ) (s : Threads ι α σ) : ι → Threads ι α σ → Prop
  | act {i : ι} {a : α} {l : List α} (h : s.rest i = a :: l) :
      Step act s i ⟨act s.shared a, Function.update s.rest i l⟩

variable [Fintype ι] {act : σ → α → σ} [RightCommutative act] {s0 : σ}
  {program done : ι → List α} {s t : Threads ι α σ}

/-- The threads have done this much of their programs. -/
structure Progress (act : σ → α → σ) [RightCommutative act] (s0 : σ) (program done : ι → List α)
    (s : Threads ι α σ) : Prop where
  split : ∀ i, done i ++ s.rest i = program i
  shared : s.shared = (∑ i, (done i : Multiset α)).foldl act s0

omit [DecidableEq ι] in
theorem progress_start (act : σ → α → σ) [RightCommutative act] (s0 : σ)
    (program : ι → List α) : Progress act s0 program (fun _ => []) ⟨s0, program⟩ where
  split := fun _ => rfl
  shared := by simp

theorem sum_update_append (done : ι → List α) (i : ι) (a : α) :
    ∑ j, (Function.update done i (done i ++ [a]) j : Multiset α) =
      ∑ j, (done j : Multiset α) + {a} := by
  have hupdate : ∀ j, (Function.update done i (done i ++ [a]) j : Multiset α) =
      (done j : Multiset α) + if j = i then {a} else 0 := by
    intro j
    by_cases hj : j = i
    · subst hj
      simp [← Multiset.coe_add]
    · simp [hj]
  simp only [hupdate, Finset.sum_add_distrib, Finset.sum_ite_eq', Finset.mem_univ, if_true]

theorem Progress.step (h : Progress act s0 program done s) {i : ι} (hst : Step act s i t) :
    ∃ a, Progress act s0 program (Function.update done i (done i ++ [a])) t := by
  cases hst with
  | @act a l hi =>
    refine ⟨a, ?_, ?_⟩
    · intro j
      by_cases hj : j = i
      · subst hj
        simpa [hi] using h.split j
      · simpa [hj] using h.split j
    · simp only [sum_update_append, Multiset.foldl_add, ← h.shared]
      rfl

omit [DecidableEq ι] in
/-- **The order of the actions does not matter.**  When all programs are done, the actions may be
listed in any order. -/
theorem Progress.quiescent (h : Progress act s0 program done s) (hdone : ∀ i, s.rest i = [])
    {order : List α} (horder : (order : Multiset α) = ∑ i, (program i : Multiset α)) :
    s.shared = order.foldl act s0 := by
  have hall : done = program := by
    funext i
    simpa [hdone i] using h.split i
  rw [h.shared, hall, ← horder, Multiset.coe_foldl]

omit [DecidableEq ι] in
/-- Calls that come to lists of actions: listing the calls in some order lists the actions. -/
theorem coe_flatMap {β : Type*} (f : β → List α) {calls : ι → List β} {order : List β}
    (horder : (order : Multiset β) = ∑ i, (calls i : Multiset β)) :
    ((order.flatMap f : List α) : Multiset α) =
      ∑ i, (((calls i).flatMap f : List α) : Multiset α) := by
  let bind : Multiset β →+ Multiset α :=
    { toFun := fun m => m.bind fun b => (f b : Multiset α)
      map_zero' := Multiset.zero_bind _
      map_add' := fun m m' => Multiset.add_bind m m' _ }
  have hbind : ∀ l : List β, bind (l : Multiset β) = (l.flatMap f : List α) :=
    fun l => Multiset.coe_bind l f
  simp only [← hbind, horder, map_sum]

/-! ## Systems in which an action takes several steps -/

section Simulation

variable {τ ε : Type*} {init : τ → Prop} {step : τ → ε → τ → Prop} {I : τ → Prop}
  {F : τ → Threads ι α σ}

/-- When every step either has no effect or is a step of the threads, every reachable state
shows what some beginnings of the programs come to. -/
theorem reachable_progress (hinit : ∀ x, init x → I x ∧ F x = ⟨s0, program⟩)
    (hstep : ∀ x e y, I x → step x e y → I y ∧ (F y = F x ∨ ∃ i, Step act (F x) i (F y)))
    {x : τ} (h : Runs.Reachable init step x) :
    I x ∧ ∃ done, Progress act s0 program done (F x) := by
  refine h.invariant (I := fun x => I x ∧ ∃ done, Progress act s0 program done (F x)) ?_ ?_
  · intro x hx
    obtain ⟨hI, hF⟩ := hinit x hx
    rw [hF]
    exact ⟨hI, _, progress_start act s0 program⟩
  · rintro x e y ⟨hI, done, hdone⟩ hxy
    obtain ⟨hI', hquiet | ⟨i, hi⟩⟩ := hstep x e y hI hxy
    · rw [hquiet]
      exact ⟨hI', done, hdone⟩
    · obtain ⟨a, ha⟩ := hdone.step hi
      exact ⟨hI', _, ha⟩

end Simulation

end Commuting
