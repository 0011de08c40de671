import Mathlib

/-!
# Runs of a labelled transition system

A small library about systems that take one step after another: a step relation
`step s e t` says that the event `e` may take the system from `s` to `t`.  It
provides

* `Run step s l` — the events of `l`, each with the state it leads to, are a run
  that starts in `s`, with `states` and `steps` the states and steps it passes;
* `Always` and `EachStep` — what holds in every state, and of every step, of a run;
* `play` — the run of a list of events, when steps are given by a function;
* `Run.append_iff` — a run is taken apart at any of the states it passes;
* `Reachable init step` — the states some run from an initial state ends in;
* `Reachable.invariant` and `Run.invariant` — what every step preserves holds
  everywhere, the second for runs whose steps all meet a side condition;
* `Run.forall_steps_iff` and `Run.forall_states_iff` — when every step that
  breaks the side condition also breaks the property at once, the condition is
  exact: a run has the property everywhere iff all its steps meet it;
* `Run.amortised` — what is granted on the way bounds the steps that use it up;
* `Run.countP_add_le` — a measure that no step raises bounds the steps that lower it;
* `Run.simulates` — what is seen of a run is taken by a system that simulates it.
-/

namespace Runs

variable {σ ε : Type*} {step : σ → ε → σ → Prop}

/-- `Run step s l`: from `s`, the events of `l` are taken one after the other,
each leading to the state it is paired with. -/
inductive Run (step : σ → ε → σ → Prop) : σ → List (ε × σ) → Prop
  | nil (s : σ) : Run step s []
  | cons {s t : σ} {e : ε} {l : List (ε × σ)} : step s e t → Run step t l → Run step s ((e, t) :: l)

/-- The states a run passes, the first one included. -/
def states (s : σ) (l : List (ε × σ)) : List σ := s :: l.map Prod.snd

/-- The steps of a run: state before, event, state after. -/
def steps : σ → List (ε × σ) → List (σ × ε × σ)
  | _, [] => []
  | s, (e, t) :: l => (s, e, t) :: steps t l

/-- The state a run ends in. -/
def final : σ → List (ε × σ) → σ
  | s, [] => s
  | _, (_, t) :: l => final t l

/-- The states that some run from an initial state reaches. -/
inductive Reachable (init : σ → Prop) (step : σ → ε → σ → Prop) : σ → Prop
  | init {s : σ} : init s → Reachable init step s
  | tail {s t : σ} {e : ε} : Reachable init step s → step s e t → Reachable init step t

@[simp] theorem steps_nil (s : σ) : steps s ([] : List (ε × σ)) = [] := rfl

@[simp] theorem steps_cons (s t : σ) (e : ε) (l : List (ε × σ)) :
    steps s ((e, t) :: l) = (s, e, t) :: steps t l := rfl

theorem snd_mem_of_mem_steps {s : σ} {l : List (ε × σ)} {x : σ × ε × σ} (hx : x ∈ steps s l) :
    x.2 ∈ l := by
  induction l generalizing s with
  | nil => cases hx
  | cons p l ih =>
    rcases List.mem_cons.1 hx with rfl | hx
    · exact List.mem_cons_self ..
    · exact List.mem_cons_of_mem _ (ih hx)

@[simp] theorem states_nil (s : σ) : states s ([] : List (ε × σ)) = [s] := rfl

@[simp] theorem states_cons (s t : σ) (e : ε) (l : List (ε × σ)) :
    states s ((e, t) :: l) = s :: states t l := rfl

theorem mem_states_self (s : σ) (l : List (ε × σ)) : s ∈ states s l := List.mem_cons_self ..

@[simp] theorem final_nil (s : σ) : final s ([] : List (ε × σ)) = s := rfl

@[simp] theorem final_cons (s t : σ) (e : ε) (l : List (ε × σ)) :
    final s ((e, t) :: l) = final t l := rfl

theorem final_mem_states (s : σ) (l : List (ε × σ)) : final s l ∈ states s l := by
  induction l generalizing s with
  | nil => exact mem_states_self ..
  | cons p l ih =>
    obtain ⟨e, t⟩ := p
    exact List.mem_cons_of_mem _ (ih t)

@[simp] theorem final_append (s : σ) (l l' : List (ε × σ)) :
    final s (l ++ l') = final (final s l) l' := by
  induction l generalizing s with
  | nil => rfl
  | cons p l ih => exact ih p.2

/-- A run is taken apart where one likes. -/
theorem Run.append_iff {s : σ} {l l' : List (ε × σ)} :
    Run step s (l ++ l') ↔ Run step s l ∧ Run step (final s l) l' := by
  induction l generalizing s with
  | nil => exact ⟨fun h => ⟨.nil s, h⟩, fun h => h.2⟩
  | cons p l ih =>
    obtain ⟨e, t⟩ := p
    constructor
    · rintro (_ | ⟨hst, h⟩)
      exact ⟨.cons hst (ih.1 h).1, (ih.1 h).2⟩
    · rintro ⟨_ | ⟨hst, h⟩, h'⟩
      exact .cons hst (ih.2 ⟨h, h'⟩)

theorem Run.cons_iff {s t : σ} {e : ε} {l : List (ε × σ)} :
    Run step s ((e, t) :: l) ↔ step s e t ∧ Run step t l :=
  ⟨fun | .cons hst h => ⟨hst, h⟩, fun h => .cons h.1 h.2⟩

/-- `P` holds in every state that the run passes. -/
def Always (P : σ → Prop) (s : σ) (l : List (ε × σ)) : Prop := ∀ t ∈ states s l, P t

/-- `Q` holds of every step of the run. -/
def EachStep (Q : σ × ε × σ → Prop) (s : σ) (l : List (ε × σ)) : Prop := ∀ x ∈ steps s l, Q x

/-! ## Steps given by a function -/

/-- The run that takes the given events, as far as they can be taken. -/
def play (next : σ → ε → Option σ) : σ → List ε → List (ε × σ)
  | _, [] => []
  | s, e :: es => match next s e with
    | some t => (e, t) :: play next t es
    | none => []

theorem run_play (next : σ → ε → Option σ) (s : σ) (es : List ε) :
    Run (fun s e t => next s e = some t) s (play next s es) := by
  induction es generalizing s with
  | nil => exact .nil s
  | cons e es ih =>
    simp only [play]
    split
    · rename_i t ht
      exact .cons ht (ih t)
    · exact .nil s

theorem fst_mem_of_mem_play {next : σ → ε → Option σ} {s : σ} {es : List ε} {p : ε × σ}
    (hp : p ∈ play next s es) : p.1 ∈ es := by
  induction es generalizing s with
  | nil => cases hp
  | cons e es ih =>
    simp only [play] at hp
    split at hp
    · rcases List.mem_cons.1 hp with rfl | hp
      · exact List.mem_cons_self ..
      · exact List.mem_cons_of_mem _ (ih hp)
    · cases hp

/-- `C` holds of the steps that `play` takes. -/
def PlaysWith (next : σ → ε → Option σ) (C : σ → ε → Prop) : σ → List ε → Prop
  | _, [] => True
  | s, e :: es => match next s e with
    | some t => C s e ∧ PlaysWith next C t es
    | none => True

/-- `PlaysWith` of a condition that can be evaluated. -/
def playsWith (next : σ → ε → Option σ) (c : σ → ε → Bool) : σ → List ε → Bool
  | _, [] => true
  | s, e :: es => match next s e with
    | some t => c s e && playsWith next c t es
    | none => true

theorem PlaysWith.of_playsWith {next : σ → ε → Option σ} {c : σ → ε → Bool} {C : σ → ε → Prop}
    (hc : ∀ s e, c s e = true → C s e) {s : σ} {es : List ε} (h : playsWith next c s es = true) :
    PlaysWith next C s es := by
  induction es generalizing s with
  | nil => trivial
  | cons e es ih =>
    simp only [playsWith] at h
    simp only [PlaysWith]
    split at h
    · obtain ⟨hce, hrest⟩ := Bool.and_eq_true_iff.1 h
      exact ⟨hc _ _ hce, ih hrest⟩
    · trivial

theorem PlaysWith.forall_steps {next : σ → ε → Option σ} {C : σ → ε → Prop} {s : σ} {es : List ε}
    (h : PlaysWith next C s es) : ∀ x ∈ steps s (play next s es), C x.1 x.2.1 := by
  induction es generalizing s with
  | nil => nofun
  | cons e es ih =>
    simp only [PlaysWith] at h
    simp only [play]
    split at h
    · intro x hx
      rcases List.mem_cons.1 hx with rfl | hx
      · exact h.1
      · exact ih h.2 x hx
    · nofun

/-! ## Invariants -/

/-- What holds initially and is kept by every step holds in every reachable state. -/
theorem Reachable.invariant {init : σ → Prop} {I : σ → Prop} (h0 : ∀ s, init s → I s)
    (hs : ∀ s e t, I s → step s e t → I t) {s : σ} (h : Reachable init step s) : I s := by
  induction h with
  | init hi => exact h0 _ hi
  | tail _ hst ih => exact hs _ _ _ ih hst

/-- A run that starts in a reachable state only passes reachable states. -/
theorem Reachable.run {init : σ → Prop} {s : σ} {l : List (ε × σ)} (h : Reachable init step s)
    (hr : Run step s l) : ∀ t ∈ states s l, Reachable init step t := by
  induction hr with
  | nil s =>
    intro t ht
    simp only [states_nil, List.mem_singleton] at ht
    exact ht ▸ h
  | cons hst _ ih =>
    intro t ht
    rcases List.mem_cons.1 ht with rfl | ht
    · exact h
    · exact ih (h.tail hst) t ht

/-- Run rule with a side condition: when the steps that meet `C` keep `I`, a run
all of whose steps meet `C` satisfies `I` everywhere. -/
theorem Run.invariant {I : σ → Prop} {C : σ → ε → Prop}
    (hs : ∀ s e t, I s → C s e → step s e t → I t) {s : σ} {l : List (ε × σ)}
    (hr : Run step s l) (h0 : I s) (hC : ∀ x ∈ steps s l, C x.1 x.2.1) :
    ∀ t ∈ states s l, I t := by
  induction hr with
  | nil s =>
    intro t ht
    simp only [states_nil, List.mem_singleton] at ht
    exact ht ▸ h0
  | cons hst _ ih =>
    intro t ht
    rcases List.mem_cons.1 ht with rfl | ht
    · exact h0
    · exact ih (hs _ _ _ h0 (hC _ (List.mem_cons_self ..)) hst)
        (fun x hx => hC x (List.mem_cons_of_mem _ hx)) t ht

/-- The run rule for a run whose events all meet `C`. -/
theorem Run.invariant_of_events {I : σ → Prop} {C : ε → Prop}
    (hs : ∀ s e t, I s → C e → step s e t → I t) {s : σ} {l : List (ε × σ)}
    (hr : Run step s l) (h0 : I s) (hC : ∀ p ∈ l, C p.1) : ∀ t ∈ states s l, I t :=
  hr.invariant (C := fun _ e => C e) hs h0 fun _ hx => hC _ (snd_mem_of_mem_steps hx)

/-- The same for what a step does rather than where it leads. -/
theorem Run.forall_steps {I : σ → Prop} {C : σ → ε → Prop} {Q : σ → ε → σ → Prop}
    (hs : ∀ s e t, I s → C s e → step s e t → I t ∧ Q s e t) {s : σ} {l : List (ε × σ)}
    (hr : Run step s l) (h0 : I s) (hC : ∀ x ∈ steps s l, C x.1 x.2.1) :
    ∀ x ∈ steps s l, Q x.1 x.2.1 x.2.2 := by
  induction hr with
  | nil s => simp
  | cons hst _ ih =>
    obtain ⟨hi, hq⟩ := hs _ _ _ h0 (hC _ (List.mem_cons_self ..)) hst
    intro x hx
    rcases List.mem_cons.1 hx with rfl | hx
    · exact hq
    · exact ih hi (fun y hy => hC y (List.mem_cons_of_mem _ hy)) x hx

/-! ## Exact conditions -/

/-- **Exactness for steps.**  Suppose the steps that meet `C` keep `I` and have
`Q`, and a step from `I` that does not meet `C` never has `Q`.  Then a run from
`I` has `Q` at every step iff every step meets `C`. -/
theorem Run.forall_steps_iff {I : σ → Prop} {C : σ → ε → Prop} {Q : σ → ε → σ → Prop}
    (hgood : ∀ s e t, I s → C s e → step s e t → I t ∧ Q s e t)
    (hbad : ∀ s e t, I s → ¬ C s e → step s e t → ¬ Q s e t) {s : σ} {l : List (ε × σ)}
    (hr : Run step s l) (h0 : I s) :
    (∀ x ∈ steps s l, Q x.1 x.2.1 x.2.2) ↔ ∀ x ∈ steps s l, C x.1 x.2.1 := by
  refine ⟨fun hQ => ?_, fun hC => hr.forall_steps hgood h0 hC⟩
  induction hr with
  | nil s => simp
  | @cons s t e l hst _ ih =>
    have hCe : C s e := by
      by_contra hn
      exact hbad _ _ _ h0 hn hst (hQ _ (List.mem_cons_self ..))
    intro x hx
    rcases List.mem_cons.1 hx with rfl | hx
    · exact hCe
    · exact ih (hgood _ _ _ h0 hCe hst).1 (fun y hy => hQ y (List.mem_cons_of_mem _ hy)) x hx

theorem forall_states_iff_forall_steps {P : σ → Prop} {s : σ} (h0 : P s) (l : List (ε × σ)) :
    (∀ t ∈ states s l, P t) ↔ ∀ x ∈ steps s l, P x.2.2 := by
  induction l generalizing s with
  | nil => simpa using h0
  | cons p l ih =>
    obtain ⟨e, t⟩ := p
    constructor
    · intro h x hx
      have ht : P t := h t (List.mem_cons_of_mem _ (mem_states_self ..))
      rcases List.mem_cons.1 hx with rfl | hx
      · exact ht
      · exact (ih ht).1 (fun u hu => h u (List.mem_cons_of_mem _ hu)) x hx
    · intro h u hu
      have ht : P t := h (s, e, t) (List.mem_cons_self ..)
      rcases List.mem_cons.1 hu with rfl | hu
      · exact h0
      · exact (ih ht).2 (fun x hx => h x (List.mem_cons_of_mem _ hx)) u hu

/-- **Exactness for states.**  As `Run.forall_steps_iff`, for a property of the
states passed. -/
theorem Run.forall_states_iff {I P : σ → Prop} {C : σ → ε → Prop}
    (hgood : ∀ s e t, I s → C s e → step s e t → I t) (hP : ∀ s, I s → P s)
    (hbad : ∀ s e t, I s → ¬ C s e → step s e t → ¬ P t) {s : σ} {l : List (ε × σ)}
    (hr : Run step s l) (h0 : I s) :
    (∀ t ∈ states s l, P t) ↔ ∀ x ∈ steps s l, C x.1 x.2.1 := by
  rw [forall_states_iff_forall_steps (hP s h0)]
  exact hr.forall_steps_iff (Q := fun _ _ t => P t)
    (fun s e t hi hc hst => ⟨hgood s e t hi hc hst, hP t (hgood s e t hi hc hst)⟩) hbad h0

/-! ## How long a run can be -/

/-- **Amortised cost.**  The measure `m` is what is left to do, and the credit `c` has been granted
for it.  A step that `moves` lowers what is left, unless it is granted more or is one of `p`: so the
steps that move are paid for by what there was to do, the credit granted, and the steps of `p`. -/
theorem Run.amortised {I : σ → Prop} {C : σ → ε → Prop} {m c : σ → ℕ} {moves p : σ → ε → Bool}
    (hI : ∀ s e t, I s → C s e → step s e t → I t)
    (hm : ∀ s e t, I s → C s e → step s e t →
      m t + (moves s e).toNat + c s ≤ m s + c t + (p s e).toNat)
    {s : σ} {l : List (ε × σ)} (hr : Run step s l) (h0 : I s)
    (hC : ∀ x ∈ steps s l, C x.1 x.2.1) :
    (steps s l).countP (fun x => moves x.1 x.2.1) + m (final s l) + c s ≤
      m s + c (final s l) + (steps s l).countP (fun x => p x.1 x.2.1) := by
  have hone : ∀ b : Bool, (if b = true then 1 else 0) = b.toNat := by
    intro b
    cases b <;> rfl
  induction hr with
  | nil s => simp
  | @cons s t e l hst _ ih =>
    have hCe : C s e := hC _ (List.mem_cons_self ..)
    have hle := hm s e t h0 hCe hst
    have hrest := ih (hI s e t h0 hCe hst) fun x hx => hC x (List.mem_cons_of_mem _ hx)
    rw [steps_cons, List.countP_cons, List.countP_cons, final_cons, hone, hone]
    dsimp only
    omega

/-- **Bounded progress.**  No step raises the measure, and those that make progress lower it: their
number and what is left of the measure come to no more than what there was of it. -/
theorem Run.countP_add_le {I : σ → Prop} {C : σ → ε → Prop} {m : σ → ℕ} {moves : σ → ε → Bool}
    (hI : ∀ s e t, I s → C s e → step s e t → I t)
    (hm : ∀ s e t, I s → C s e → step s e t → m t + (moves s e).toNat ≤ m s)
    {s : σ} {l : List (ε × σ)} (hr : Run step s l) (h0 : I s)
    (hC : ∀ x ∈ steps s l, C x.1 x.2.1) :
    (steps s l).countP (fun x => moves x.1 x.2.1) + m (final s l) ≤ m s := by
  have hpaid := hr.amortised (c := fun _ => 0) (p := fun _ _ => false) hI
    (fun s e t hs hc hst => by simpa using hm s e t hs hc hst) h0 hC
  simpa using hpaid

/-! ## What a run shows -/

/-- What an observer sees of a run who sees some of its steps. -/
def observed {α : Type*} (see : σ → ε → Option α) (s : σ) (l : List (ε × σ)) : List α :=
  (steps s l).filterMap fun x => see x.1 x.2.1

/-- **Forward simulation.**  A second system takes a step whenever one of the first is seen, and
stays related to it: it takes what is seen of a run, and ends related to where the run ends. -/
theorem Run.simulates {α τ : Type*} {see : σ → ε → Option α} {next : τ → α → Option τ}
    {I : σ → Prop} {R : σ → τ → Prop} (hI : ∀ s e t, I s → step s e t → I t)
    (hnone : ∀ s e t a, I s → R s a → step s e t → see s e = none → R t a)
    (hsome : ∀ s e t a x, I s → R s a → step s e t → see s e = some x →
      ∃ b, next a x = some b ∧ R t b)
    {s : σ} {l : List (ε × σ)} (hr : Run step s l) (h0 : I s) {a : τ} (ha : R s a) :
    ∃ b, (observed see s l).foldlM next a = some b ∧ R (final s l) b := by
  induction hr generalizing a with
  | nil s => exact ⟨a, rfl, ha⟩
  | @cons s t e l hst _ ih =>
    unfold observed
    rw [steps_cons, List.filterMap_cons]
    cases hsee : see s e with
    | none => exact ih (hI s e t h0 hst) (hnone s e t a h0 ha hst hsee)
    | some x =>
      obtain ⟨b, hb, hR⟩ := hsome s e t a x h0 ha hst hsee
      obtain ⟨c, hc, hfinal⟩ := ih (hI s e t h0 hst) hR
      refine ⟨c, ?_, hfinal⟩
      show (next a x).bind _ = some c
      rw [hb]
      exact hc

end Runs
