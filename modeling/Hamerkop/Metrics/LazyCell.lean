import Hamerkop.Lib.Runs

/-!
# `LazyCell`

The lazily initialised cell of `metrics/src/lazy_cell.rs`.  Any number of calls of `force`
and `get` work on it at the same time; each of their accesses to the shared memory is a
step of its own, and the steps of different calls come in any order.  A call that needs `&mut
self` comes when there is no other.  The function that computes the value may return or
panic, which the events say.

The state keeps account of what happens to the function and to the value: how often they are
moved out or dropped, and what a reference that is handed out refers to.
-/

namespace Hamerkop

/-- The constants of `LazyCell::state`. -/
inductive CellState where
  | uninit
  | initInProgress
  | init
  | poisoned
deriving DecidableEq, Repr

/-- Where a call of `force` or `get` is. -/
inductive Pc (T : Type) where
  /-- there is no call -/
  | idle
  /-- before the `compare_exchange` of `init` -/
  | exchanging
  /-- before the function is read out of the cell -/
  | taking
  /-- the function runs -/
  | running
  /-- before this value is written -/
  | writing (value : T)
  /-- before the store of `INIT` -/
  | storing
  /-- before the store of `POISONED` -/
  | poisoning
  /-- in the loop that waits for another call -/
  | spinning
  /-- before the reference of `inner` is taken, by `force` or by `get` -/
  | reading (force : Bool)
deriving DecidableEq, Repr

/-- How a call ends. -/
inductive Answer (T : Type) where
  /-- with the value slot, of which this is the content -/
  | slot (content : Option T)
  | nothing
  | panicked
deriving DecidableEq, Repr

/-- Who may use the cell. -/
inductive Access where
  | shared
  /-- `init_mut` runs the function -/
  | exclusive
  /-- nobody any more -/
  | gone
deriving DecidableEq, Repr

/-- A cell, the calls that use it, and what has happened. -/
structure LazyCell (ι T : Type) where
  state : CellState
  /-- the value slot, if it has been written -/
  value : Option T
  pcs : ι → Pc T
  access : Access
  /-- how often the function was moved out of the cell -/
  taken : ℕ
  /-- how often the function was dropped in the cell -/
  funcDropped : ℕ
  /-- how the runs of the function ended, with a value or a panic -/
  runs : List (Option T)
  /-- the contents of the value slot that were dropped or moved out -/
  valueGone : List (Option T)
  /-- how the calls of `force` and `force_mut` ended -/
  forced : List (Answer T)
  /-- how the calls of `get`, `get_mut` and `into_inner` ended -/
  gotten : List (Answer T)
  /-- an `unreachable!()` was reached -/
  unreachable : Bool

/-- The next atomic operation of a thread, or an access by the owner alone. -/
inductive CellEvent (ι T : Type) where
  /-- the load of `force` -/
  | force (i : ι)
  | exchange (i : ι)
  | take (i : ι)
  | runReturns (i : ι) (value : T)
  | runPanics (i : ι)
  | write (i : ι)
  | store (i : ι)
  | poison (i : ι)
  | spin (i : ι)
  | inner (i : ι)
  /-- the load of `get` -/
  | get (i : ι)
  | getMut
  | forceMut
  | forceMutReturns (value : T)
  | forceMutPanics
  | intoInner
  | drop

namespace LazyCell

variable {ι T : Type} [DecidableEq ι]

/-- `new` -/
def new : LazyCell ι T where
  state := .uninit
  value := none
  pcs := fun _ => .idle
  access := .shared
  taken := 0
  funcDropped := 0
  runs := []
  valueGone := []
  forced := []
  gotten := []
  unreachable := false

/-- The thread goes on at `pc`. -/
def goTo (s : LazyCell ι T) (i : ι) (pc : Pc T) : LazyCell ι T :=
  { s with pcs := Function.update s.pcs i pc }

/-- A `force` returns, or panics. -/
def forceEnds (s : LazyCell ι T) (answer : Answer T) : LazyCell ι T :=
  { s with forced := s.forced ++ [answer] }

/-- A `get` returns. -/
def getEnds (s : LazyCell ι T) (answer : Answer T) : LazyCell ι T :=
  { s with gotten := s.gotten ++ [answer] }

/-- `Drop for LazyCell` -/
def dropCell (s : LazyCell ι T) : LazyCell ι T :=
  match s.state with
  | .uninit => { s with funcDropped := s.funcDropped + 1, access := .gone }
  | .init => { s with valueGone := s.valueGone ++ [s.value], value := none, access := .gone }
  | _ => { s with access := .gone }

/-- What the event does. -/
def apply (s : LazyCell ι T) : CellEvent ι T → LazyCell ι T
  | .force i =>
    match s.state with
    | .init => s.goTo i (.reading true)
    | .poisoned => s.forceEnds .panicked
    | .initInProgress | .uninit => s.goTo i .exchanging
  | .exchange i =>
    match s.state with
    | .uninit => { s with state := .initInProgress }.goTo i .taking
    | .init => s.goTo i (.reading true)
    | .initInProgress => s.goTo i .spinning
    | .poisoned => (s.goTo i .idle).forceEnds .panicked
  | .take i => { s with taken := s.taken + 1 }.goTo i .running
  | .runReturns i value => { s with runs := s.runs ++ [some value] }.goTo i (.writing value)
  | .runPanics i => { s with runs := s.runs ++ [none] }.goTo i .poisoning
  | .write i =>
    match s.pcs i with
    | .writing value => { s with value := some value }.goTo i .storing
    | _ => s
  | .store i => { s with state := .init }.goTo i (.reading true)
  | .poison i => ({ s with state := .poisoned }.goTo i .idle).forceEnds .panicked
  | .spin i =>
    match s.state with
    | .initInProgress => s
    | .init => s.goTo i (.reading true)
    | .poisoned => (s.goTo i .idle).forceEnds .panicked
    | .uninit => { s with unreachable := true }.goTo i .idle
  | .inner i =>
    match s.pcs i with
    | .reading true => (s.goTo i .idle).forceEnds (.slot s.value)
    | _ => (s.goTo i .idle).getEnds (.slot s.value)
  | .get i =>
    match s.state with
    | .init => s.goTo i (.reading false)
    | _ => s.getEnds .nothing
  | .getMut =>
    match s.state with
    | .init => s.getEnds (.slot s.value)
    | _ => s.getEnds .nothing
  | .forceMut =>
    match s.state with
    | .init => s.forceEnds (.slot s.value)
    | .uninit => { s with taken := s.taken + 1, access := .exclusive }
    | .poisoned => s.forceEnds .panicked
    | .initInProgress => { s with unreachable := true }
  | .forceMutReturns value =>
    { s with
      runs := s.runs ++ [some value]
      value := some value
      state := .init
      access := .shared }.forceEnds (.slot (some value))
  | .forceMutPanics =>
    { s with runs := s.runs ++ [none], state := .poisoned, access := .shared }.forceEnds .panicked
  | .intoInner =>
    match s.state with
    | .init =>
      ({ s with
        state := .poisoned
        valueGone := s.valueGone ++ [s.value]
        value := none }.getEnds (.slot s.value)).dropCell
    | _ => (s.getEnds .nothing).dropCell
  | .drop => s.dropCell

/-- Where the event may happen.  What needs `&mut self` happens when no call is under way. -/
def Enabled (s : LazyCell ι T) : CellEvent ι T → Prop
  | .force i | .get i => s.access = .shared ∧ s.pcs i = .idle
  | .exchange i => s.pcs i = .exchanging
  | .take i => s.pcs i = .taking
  | .runReturns i _ | .runPanics i => s.pcs i = .running
  | .write i => ∃ value, s.pcs i = .writing value
  | .store i => s.pcs i = .storing
  | .poison i => s.pcs i = .poisoning
  | .spin i => s.pcs i = .spinning
  | .inner i => ∃ force, s.pcs i = .reading force
  | .getMut | .forceMut | .intoInner | .drop => s.access = .shared ∧ ∀ i, s.pcs i = .idle
  | .forceMutReturns _ | .forceMutPanics => s.access = .exclusive

/-- A step of the cell. -/
def Step (s : LazyCell ι T) (e : CellEvent ι T) (t : LazyCell ι T) : Prop :=
  s.Enabled e ∧ t = s.apply e

/-- The states that some order of steps leads to. -/
def Reachable (s : LazyCell ι T) : Prop := Runs.Reachable (· = new) Step s

end LazyCell

end Hamerkop
