import Mathlib

/-!
# Lists threaded through cells

A free list keeps its links inside the free cells themselves.  Here `link a` is
the cell that cell `a` points to (`none` when `a` holds no link), and
`Path link stop a l` says that following links from `a` passes exactly the cells
of `l`, in order, and then arrives at `stop`.

When `stop` holds no link, the path from a cell is unique (`Path.unique`) and
visits no cell twice (`Path.nodup`).  A free list is *complete* when it visits
every cell that holds a link (`Complete`); taking its first cell away
(`Complete.pop`), putting a cell back in front (`Complete.push`) and putting a
whole block of consecutive fresh cells in front (`Complete.block`) keep it so.
-/

namespace FreeList

variable {ι : Type*} {link : ι → Option ι} {stop : ι}

/-- Following links from the given cell passes exactly the given cells, then `stop`. -/
inductive Path (link : ι → Option ι) (stop : ι) : ι → List ι → Prop
  | nil : Path link stop stop []
  | cons {a b : ι} {l : List ι} : link a = some b → Path link stop b l → Path link stop a (a :: l)

namespace Path

/-- There is one path from each cell. -/
theorem unique (hstop : link stop = none) {a : ι} {l l' : List ι} (h : Path link stop a l)
    (h' : Path link stop a l') : l = l' := by
  induction h generalizing l' with
  | nil =>
    cases h' with
    | nil => rfl
    | cons hab _ => simp [hstop] at hab
  | cons hab _ ih =>
    cases h' with
    | nil => simp [hstop] at hab
    | cons hab' ht =>
      rw [hab, Option.some.injEq] at hab'
      subst hab'
      rw [ih ht]

/-- From a cell that a path visits, a path of suffix length leads on. -/
theorem exists_suffix {a c : ι} {l : List ι} (h : Path link stop a l) (hc : c ∈ l) :
    ∃ l', Path link stop c l' ∧ l'.length ≤ l.length := by
  induction h with
  | nil => simp at hc
  | cons hab hb ih =>
    rcases List.mem_cons.1 hc with rfl | hc
    · exact ⟨_, .cons hab hb, le_rfl⟩
    · obtain ⟨l', hl', hlen⟩ := ih hc
      exact ⟨l', hl', by simp only [List.length_cons]; omega⟩

/-- **A free list is acyclic**: no cell is visited twice. -/
theorem nodup (hstop : link stop = none) {a : ι} {l : List ι} (h : Path link stop a l) :
    l.Nodup := by
  induction h with
  | nil => exact List.nodup_nil
  | @cons a b l hab hb ih =>
    refine List.nodup_cons.2 ⟨fun hmem => ?_, ih⟩
    obtain ⟨l', hl', hlen⟩ := hb.exists_suffix hmem
    have : l' = a :: l := hl'.unique hstop (.cons hab hb)
    rw [this, List.length_cons] at hlen
    omega

/-- A path only depends on the links of the cells it visits. -/
theorem congr {link' : ι → Option ι} {a : ι} {l : List ι} (h : Path link stop a l)
    (heq : ∀ i ∈ l, link' i = link i) : Path link' stop a l := by
  induction h with
  | nil => exact .nil
  | cons hab _ ih =>
    exact .cons (by rw [heq _ (List.mem_cons_self ..), hab])
      (ih fun i hi => heq i (List.mem_cons_of_mem _ hi))

theorem eq_nil_of_eq_stop (hstop : link stop = none) {l : List ι} (h : Path link stop stop l) :
    l = [] := h.unique hstop .nil

/-- A path that does not start at `stop` has a first cell. -/
theorem exists_cons {a : ι} {l : List ι} (h : Path link stop a l) (ha : a ≠ stop) :
    ∃ b l', l = a :: l' ∧ link a = some b ∧ Path link stop b l' := by
  cases h with
  | nil => exact absurd rfl ha
  | cons hab hb => exact ⟨_, _, rfl, hab, hb⟩

end Path

/-- The free list from `head` visits exactly the cells that hold a link. -/
def Complete (link : ι → Option ι) (stop head : ι) : Prop :=
  ∃ l, Path link stop head l ∧ ∀ i, i ∈ l ↔ (link i).isSome

namespace Complete

variable {head : ι}

/-- The first cell of a nonempty free list holds a link. -/
theorem exists_next (h : Complete link stop head) (hne : head ≠ stop) :
    ∃ next, link head = some next := by
  obtain ⟨l, hl, -⟩ := h
  obtain ⟨b, l', -, hb, -⟩ := hl.exists_cons hne
  exact ⟨b, hb⟩

/-- An empty free list: no cell holds a link. -/
theorem eq_none_of_head_eq_stop (hstop : link stop = none) (h : Complete link stop head)
    (heq : head = stop) (i : ι) : link i = none := by
  obtain ⟨l, hl, hmem⟩ := h
  subst heq
  rw [hl.eq_nil_of_eq_stop hstop] at hmem
  simpa using hmem i

variable [DecidableEq ι]

/-- Taking the first cell off the free list. -/
theorem pop (hstop : link stop = none) (h : Complete link stop head) {next : ι}
    (hnext : link head = some next) {link' : ι → Option ι}
    (hlink' : link' = Function.update link head none) : Complete link' stop next := by
  obtain ⟨l, hl, hmem⟩ := h
  obtain ⟨b, l', rfl, hb, hpath⟩ := hl.exists_cons (by rintro rfl; simp [hstop] at hnext)
  rw [hnext, Option.some.injEq] at hb
  subst hb
  have hnd : head ∉ l' := (List.nodup_cons.1 (hl.nodup hstop)).1
  have hne : ∀ i ∈ l', i ≠ head := fun i hi he => hnd (he ▸ hi)
  refine ⟨l', hpath.congr fun i hi => by simp [hlink', hne i hi], fun i => ?_⟩
  by_cases hi : i = head
  · subst hi
    simp [hlink', hnd]
  · rw [hlink', Function.update_of_ne hi, ← hmem i]
    simp [hi]

/-- Putting a cell in front of the free list. -/
theorem push (h : Complete link stop head) {a : ι} (ha : link a = none)
    {link' : ι → Option ι} (hlink' : link' = Function.update link a (some head)) :
    Complete link' stop a := by
  obtain ⟨l, hl, hmem⟩ := h
  have hnd : a ∉ l := fun hal => by simpa [ha] using (hmem a).1 hal
  have hne : ∀ i ∈ l, i ≠ a := fun i hi he => hnd (he ▸ hi)
  refine ⟨a :: l, .cons (by simp [hlink']) (hl.congr fun i hi => by simp [hlink', hne i hi]),
    fun i => ?_⟩
  by_cases hi : i = a
  · subst hi
    simp [hlink']
  · rw [hlink', Function.update_of_ne hi, ← hmem i]
    simp [hi]

end Complete

/-- A block of `n` consecutive cells from `base`, each linked to the next and the last
to `head`, leads through the whole block and on. -/
theorem Path.block {link : ℕ → Option ℕ} {stop head : ℕ} {l : List ℕ} (hl : Path link stop head l) :
    ∀ (n base : ℕ), (∀ i < n, link (base + i) = some (base + i + 1)) →
      link (base + n) = some head → Path link stop base (List.range' base (n + 1) ++ l)
  | 0, base, _, hlast => by simpa using Path.cons hlast hl
  | n + 1, base, hnext, hlast => by
    rw [List.range'_succ, List.cons_append]
    refine .cons (by simpa using hnext 0 (by omega)) (hl.block n (base + 1) ?_ ?_)
    · intro i hi
      have := hnext (i + 1) (by omega)
      rwa [show base + (i + 1) = base + 1 + i from by omega] at this
    · rwa [show base + (n + 1) = base + 1 + n from by omega] at hlast

/-- Putting a block of `n + 1` fresh consecutive cells in front of the free list. -/
theorem Complete.block {link link' : ℕ → Option ℕ} {stop head base n : ℕ}
    (h : Complete link stop head) (hfresh : ∀ i, base ≤ i → link i = none)
    (hold : ∀ i, i < base ∨ base + n < i → link' i = link i)
    (hnext : ∀ i < n, link' (base + i) = some (base + i + 1))
    (hlast : link' (base + n) = some head) : Complete link' stop base := by
  obtain ⟨l, hl, hmem⟩ := h
  have hlt : ∀ i ∈ l, i < base := by
    intro i hi
    by_contra hge
    simpa [hfresh i (by omega)] using (hmem i).1 hi
  refine ⟨List.range' base (n + 1) ++ l,
    (hl.congr fun i hi => hold i (.inl (hlt i hi))).block n base hnext hlast, fun i => ?_⟩
  rw [List.mem_append, List.mem_range'_1, hmem i]
  by_cases hin : base ≤ i ∧ i < base + (n + 1)
  · have hsome : (link' i).isSome := by
      by_cases he : i = base + n
      · simp [he, hlast]
      · have := hnext (i - base) (by omega)
        rw [show base + (i - base) = i from by omega] at this
        simp [this]
    simp [hin, hsome]
  · rw [hold i (by omega)]
    simp [hin]

end FreeList
