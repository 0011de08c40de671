import Mathlib

/-!
# The macros behind `metric!`

`metrics/src/macros.rs` walks over the attributes of a metric twice, to find its name and to
leave out what only names it.  An invocation of a macro takes the first arm that matches.

The arm that leaves a name out does not match when another attribute follows it, for the
pattern of the attributes that follow lacks their `#`; the next arm then keeps it like any
other.  And both macros put what they find in front of what they have found, which turns the
order around.  So the attributes come out as documented when they are the same in both
orders, and no name stands before another attribute (`handlesNames_iff`).
-/

namespace Hamerkop

/-- An attribute of a metric: `#[name = value]`, or other tokens. -/
inductive Attr (A : Type) where
  | name (value : String)
  | other (attr : A)
deriving DecidableEq, Repr

namespace Attr

variable {A : Type}

/-- The name, if the attribute gives one. -/
def value? : Attr A → Option String
  | .name value => some value
  | .other _ => none

/-- Whether the attribute is one that gives a name. -/
def isName (attr : Attr A) : Bool := attr.value?.isSome

@[simp] theorem value?_name (value : String) : (name value : Attr A).value? = some value := rfl
@[simp] theorem value?_other (attr : A) : (other attr : Attr A).value? = none := rfl
@[simp] theorem isName_name (value : String) : (name value : Attr A).isName = true := rfl
@[simp] theorem isName_other (attr : A) : (other attr : Attr A).isName = false := rfl

end Attr

/-- A static in the body of `metric!`. -/
structure MetricDecl (A : Type) where
  attrs : List (Attr A)
  name : String

/-- What is emitted for it: its attributes, and the name in its `MetricEntry`. -/
structure MetricStatic (A : Type) where
  attrs : List (Attr A)
  name : String
  entryName : String

variable {A : Type}

/-- The arms of `__metric_first_name` that go over the attributes. -/
def metricFirstNames : List (Attr A) → List String → List String
  | .name name :: attrs, rest => metricFirstNames attrs (name :: rest)
  | .other _ :: rattrs, rest => metricFirstNames rattrs rest
  | [], rest => rest

/-- `__metric_first_name` -/
def metricFirstName (modulePath name : String) (attrs : List (Attr A)) : String :=
  let names := metricFirstNames attrs []
  match names.getLast? with
  | some last => last
  | none => modulePath ++ "::" ++ name

/-- `__metric_filter_attrs`, with the attributes that are left in braces. -/
def metricFilterAttrs : List (Attr A) → List (Attr A) → List (Attr A)
  | [], attrs => attrs
  -- what may follow the name in the braces has no `#`, so no attribute may
  | [.name _], attrs => metricFilterAttrs [] attrs
  | current :: left, attrs => metricFilterAttrs left (current :: attrs)

/-- `metric!` in the module with this path. -/
def metric (modulePath : String) (decls : List (MetricDecl A)) : List (MetricStatic A) :=
  decls.map fun decl =>
    { attrs := metricFilterAttrs decl.attrs []
      name := decl.name
      entryName := metricFirstName modulePath decl.name decl.attrs }

/-! ## What the documentation says -/

/-- The attributes that do not name the metric are kept in their order, and it has the last of its
names. -/
def HandlesNames (modulePath : String) (decl : MetricDecl A) (static : MetricStatic A) : Prop :=
  static.attrs = decl.attrs.filter (!·.isName) ∧
    static.entryName =
      ((decl.attrs.filterMap Attr.value?).getLast?).getD (modulePath ++ "::" ++ decl.name)

/-! ## What the macros do -/

theorem metricFirstNames_eq (attrs : List (Attr A)) (rest : List String) :
    metricFirstNames attrs rest = (attrs.filterMap Attr.value?).reverse ++ rest := by
  induction attrs generalizing rest with
  | nil => rfl
  | cons attr attrs ih =>
    cases attr with
    | name value => simp [metricFirstNames, ih]
    | other attr => simp [metricFirstNames, List.filterMap_cons, ih]

/-- The first name wins. -/
theorem metricFirstName_eq (modulePath name : String) (attrs : List (Attr A)) :
    metricFirstName modulePath name attrs =
      ((attrs.filterMap Attr.value?).head?).getD (modulePath ++ "::" ++ name) := by
  unfold metricFirstName
  simp only [metricFirstNames_eq, List.append_nil, List.getLast?_reverse]
  cases (attrs.filterMap Attr.value?).head? with
  | none => rfl
  | some value => rfl

/-- Only a name at the end is left out, and the rest is turned around. -/
theorem metricFilterAttrs_concat (init : List (Attr A)) (last : Attr A) (attrs : List (Attr A)) :
    metricFilterAttrs (init ++ [last]) attrs =
      (if last.isName then [] else [last]) ++ init.reverse ++ attrs := by
  induction init generalizing attrs with
  | nil =>
    cases last with
    | name value => simp [metricFilterAttrs]
    | other attr => simp [metricFilterAttrs]
  | cons current init ih =>
    have hstep : metricFilterAttrs (current :: (init ++ [last])) attrs =
        metricFilterAttrs (init ++ [last]) (current :: attrs) := by
      cases init with
      | nil => cases current <;> rfl
      | cons next init => cases current <;> rfl
    rw [List.cons_append, hstep, ih]
    simp

/-- No name stands before another attribute, and the others are the same in both orders. -/
def NamedLast (attrs : List (Attr A)) : Prop :=
  (∀ attr ∈ attrs.dropLast, attr.isName = false) ∧
    (attrs.filter (!·.isName)).reverse = attrs.filter (!·.isName)

theorem filter_of_no_name {attrs : List (Attr A)} (h : ∀ attr ∈ attrs, attr.isName = false) :
    attrs.filter (!·.isName) = attrs := by
  apply List.filter_eq_self.mpr
  intro attr hattr
  simp [h attr hattr]

theorem filterMap_of_no_name {attrs : List (Attr A)} (h : ∀ attr ∈ attrs, attr.isName = false) :
    attrs.filterMap Attr.value? = [] := by
  apply List.filterMap_eq_nil_iff.mpr
  intro attr hattr
  simpa [Attr.isName] using h attr hattr

/-- What is kept is what should be kept. -/
theorem metricFilterAttrs_eq_filter_iff (attrs : List (Attr A)) :
    metricFilterAttrs attrs [] = attrs.filter (!·.isName) ↔ NamedLast attrs := by
  unfold NamedLast
  rcases List.eq_nil_or_concat' attrs with rfl | ⟨init, last, rfl⟩
  · simp [metricFilterAttrs]
  rw [metricFilterAttrs_concat, List.append_nil, List.dropLast_concat, List.filter_append]
  constructor
  · intro heq
    -- the result has no names, so there are none but the last
    have hinit : ∀ attr ∈ init, attr.isName = false := by
      intro attr hattr
      have hmem : attr ∈ init.filter (!·.isName) ++ [last].filter (!·.isName) := by
        rw [← heq]
        exact List.mem_append_right _ (List.mem_reverse.mpr hattr)
      rw [← List.filter_append] at hmem
      simpa using (List.mem_filter.mp hmem).2
    refine ⟨hinit, ?_⟩
    rw [filter_of_no_name hinit] at heq ⊢
    cases last with
    | name value => simpa using heq
    | other attr => simpa using heq
  · rintro ⟨hinit, hreverse⟩
    rw [filter_of_no_name hinit] at hreverse ⊢
    cases last with
    | name value => simpa using hreverse
    | other attr => simpa using hreverse

/-- Then there is at most one name. -/
theorem NamedLast.head?_eq_getLast? {attrs : List (Attr A)} (h : NamedLast attrs) :
    (attrs.filterMap Attr.value?).head? = (attrs.filterMap Attr.value?).getLast? := by
  rcases List.eq_nil_or_concat' attrs with rfl | ⟨init, last, rfl⟩
  · rfl
  have hinit := h.1
  rw [List.dropLast_concat] at hinit
  rw [List.filterMap_append, filterMap_of_no_name hinit, List.nil_append]
  cases last with
  | name value => rfl
  | other attr => rfl

/-- **The attributes of metrics are handled as documented if and only if in all of them no name
stands before another attribute, and the other attributes are the same in both orders.** -/
theorem handlesNames_iff (modulePath : String) (decls : List (MetricDecl A)) :
    List.Forall₂ (HandlesNames modulePath) decls (metric modulePath decls) ↔
      ∀ decl ∈ decls, NamedLast decl.attrs := by
  unfold metric
  rw [List.forall₂_map_right_iff, List.forall₂_same]
  refine forall₂_congr ?_
  intro decl _
  unfold HandlesNames
  simp only [metricFilterAttrs_eq_filter_iff, metricFirstName_eq]
  constructor
  · intro h
    exact h.1
  · intro h
    exact ⟨h, by rw [h.head?_eq_getLast?]⟩

/-- Two names and a comment: both names stay behind as attributes, which there are none of, and
the metric would be registered under the first. -/
theorem twoNames_not_handled :
    ¬ ∀ decls : List (MetricDecl String),
      List.Forall₂ (HandlesNames "basic") decls (metric "basic" decls) := by
  intro h
  have hone := h [⟨[.name "first", .name "second", .other "doc"], "METRIC"⟩]
  simp [metric, HandlesNames, metricFilterAttrs, List.filter] at hone

end Hamerkop
