import PowdrrEngine.ContractJson
import PowdrrEngine.ContractTables

/-! Read plans and what their predicates mean. A plan is asked over rows of JSON values. The reference
meaning of a predicate is that of the SQL built for it: a comparison with a missing or null value
selects nothing, two integers compare exactly and an integer is widened to a double only beside a
double. The serving code compares rows with functions of its own, which are below as well. -/

namespace PowdrrEngine

variable {cmp : Value → Value → Option Ordering} {value : Value} {cmp' : Value → Value → Option Ordering}

structure ReadPredicate where
  field : String
  eq : Option Value := none
  inValues : Option (List Value) := none
  gt : Option Value := none
  gte : Option Value := none
  lt : Option Value := none
  lte : Option Value := none
  deriving DecidableEq

structure ReadSort where
  field : String
  descending : Bool
  deriving DecidableEq

structure ReadPlan where
  select : Option (List String) := none
  filters : List ReadPredicate := []
  aggregate : Option ServingAggregateSpec := none
  orderBy : List ReadSort := []
  limit : Option Nat := none
  offset : Nat := 0
  searchAfter : Option (List Value) := none
  deriving DecidableEq

def defaultLimit : Nat := 100

def maxLimit : Nat := 1000

def maxInValues : Nat := 32

def ReadPlan.normalizedLimit (request : ReadPlan) : Nat := min (request.limit.getD defaultLimit) maxLimit

/-- A row of a data file: its columns by name. -/
abbrev ServingRow := Dict String Value

/-! ### Comparisons -/

/-- The value of an integer number; none for a double. -/
def Number.asInt : Number → Option Int
  | .posInt n => some n
  | .negInt n => some (-(n + 1))
  | .float _ => none

def sqlCompareNumbers (left right : Number) : Ordering :=
  match left.asInt, right.asInt with
  | some left, some right => compare left right
  | _, _ => left.asF64.cmp right.asF64

def sqlCompare : Value → Value → Option Ordering
  | .number left, .number right => some (sqlCompareNumbers left right)
  | .string left, .string right => some (compare left right)
  | .bool left, .bool right => some (compare left right)
  | _, _ => none

/-- `compare_values`: null comes last, two numbers compare as doubles, two strings and two Booleans by
their order, and anything else by its JSON text. -/
def compareValues (text : Value → String) : Value → Value → Ordering
  | .null, .null => .eq
  | .null, _ => .gt
  | _, .null => .lt
  | .number left, .number right => left.asF64.cmp right.asF64
  | .string left, .string right => compare left right
  | .bool left, .bool right => compare left right
  | left, right => compare (text left) (text right)

/-- `compare_row_values`: a missing value counts as null. -/
def compareRowValues (text : Value → String) (left right : Option Value) (descending : Bool) : Ordering :=
  let ordering := compareValues text (left.getD .null) (right.getD .null)
  if descending then ordering.swap else ordering

/-- The order of SQL in a sorted result: nulls last, or first where it is descending. -/
def sqlOrder (left right : Option Value) (descending : Bool) : Ordering :=
  let ordering :=
    match left.getD .null, right.getD .null with
    | .null, .null => .eq
    | .null, _ => .gt
    | _, .null => .lt
    | left, right => (sqlCompare left right).getD .eq
  if descending then ordering.swap else ordering

def Value.rank : Value → Nat
  | .bool _ | .number _ | .string _ => 0
  | .array _ | .object _ => 1
  | .null => 2

def Value.numberKey : Value → Dyadic
  | .number n => n.asF64
  | _ => ⟨false, 0, 0⟩

def Value.stringKey : Value → String
  | .string s => s
  | _ => ""

def Value.boolKey : Value → Bool
  | .bool b => b
  | _ => false

/-- The order of a column: its type decides which key tells two values apart, null comes last. -/
def columnOrder (left right : Value) : Ordering :=
  (compare left.rank right.rank).then ((left.numberKey.cmp right.numberKey).then
    ((compare left.stringKey right.stringKey).then (compare left.boolKey right.boolKey)))

theorem transCmp_on {α β : Type*} (f : α → β) (cmp : β → β → Ordering) [Std.TransCmp cmp] :
    Std.TransCmp fun a b => cmp (f a) (f b) where
  eq_swap := Std.OrientedCmp.eq_swap
  isLE_trans := Std.TransCmp.isLE_trans

theorem transCmp_byKeys (number : Value → Dyadic) : Std.TransCmp fun left right : Value =>
    (compare left.rank right.rank).then (((number left).cmp (number right)).then
      ((compare left.stringKey right.stringKey).then (compare left.boolKey right.boolKey))) :=
  have := transCmp_on Value.rank compare
  have := transCmp_on number Dyadic.cmp
  have := transCmp_on Value.stringKey compare
  have := transCmp_on Value.boolKey compare
  inferInstanceAs (Std.TransCmp (compareLex (fun a b : Value => compare a.rank b.rank)
    (compareLex (fun a b : Value => (number a).cmp (number b))
      (compareLex (fun a b : Value => compare a.stringKey b.stringKey)
        (fun a b : Value => compare a.boolKey b.boolKey)))))

instance : Std.TransCmp columnOrder := transCmp_byKeys Value.numberKey

/-- The value of a row in the sort column; a missing one counts as null. -/
def sortKey (field : String) (row : ServingRow) : Value := (row.lookup field).getD .null

/-- Null comes after every other value. -/
def NullLast (cmp : Value → Value → Ordering) : Prop :=
  cmp .null .null = .eq ∧ ∀ value ≠ .null, cmp .null value = .gt ∧ cmp value .null = .lt

theorem nullLast_compareValues (text : Value → String) : NullLast (compareValues text) := by
  refine ⟨rfl, fun value hvalue => ?_⟩
  cases value with
  | null => exact absurd rfl hvalue
  | bool _ | number _ | string _ | array _ | object _ => exact ⟨rfl, rfl⟩

theorem nullLast_byRank {cmp : Value → Value → Ordering} (h : cmp .null .null = .eq) :
    NullLast fun left right => (compare left.rank right.rank).then (cmp left right) := by
  refine ⟨h, fun value hvalue => ?_⟩
  cases value with
  | null => exact absurd rfl hvalue
  | bool _ | number _ | string _ | array _ | object _ => exact ⟨rfl, rfl⟩

theorem nullLast_columnOrder : NullLast columnOrder := nullLast_byRank (by decide)

theorem sqlOrder_eq {cmp : Value → Value → Ordering} {a b : Option Value} (hnull : NullLast cmp)
    (h : a.getD .null ≠ .null → b.getD .null ≠ .null →
      sqlCompare (a.getD .null) (b.getD .null) = some (cmp (a.getD .null) (b.getD .null))) :
    sqlOrder a b false = cmp (a.getD .null) (b.getD .null) := by
  unfold sqlOrder
  generalize a.getD .null = left at h ⊢
  generalize b.getD .null = right at h ⊢
  by_cases hleft : left = .null
  · subst hleft
    by_cases hright : right = .null
    · subst hright
      exact hnull.1.symm
    · rw [(hnull.2 right hright).1]
      cases right <;> first | exact absurd rfl hright | rfl
  by_cases hright : right = .null
  · subst hright
    rw [(hnull.2 left hleft).2]
    cases left <;> first | exact absurd rfl hleft | rfl
  · have hcmp := h hleft hright
    cases left <;> first | exact absurd rfl hleft | (cases right <;> first | exact absurd rfl hright | simp [hcmp])

theorem columnOrder_of_scalar {left right : Value} {o : Ordering} (h : compareScalarValues left right = some o) :
    columnOrder left right = o := by
  cases left <;> cases right <;> cases h <;>
    simp [columnOrder, Value.rank, Value.numberKey, Value.stringKey, Value.boolKey, Dyadic.cmp]

theorem compareScalarValues_trans {a b c : Value} {x y : Ordering} (hab : compareScalarValues a b = some x)
    (hbc : compareScalarValues b c = some y) : compareScalarValues a c = some (columnOrder a c) := by
  have hac : ∃ z, compareScalarValues a c = some z := by
    cases a <;> cases b <;> cases hab <;> cases c <;> cases hbc <;> exact ⟨_, rfl⟩
  obtain ⟨z, hz⟩ := hac
  rw [hz, columnOrder_of_scalar hz]

theorem compareValues_of_scalar {text : Value → String} {left right : Value} {o : Ordering}
    (h : compareScalarValues left right = some o) : compareValues text left right = o := by
  cases left <;> cases right <;> cases h <;> rfl

/-! ### The meaning of a predicate -/

/-- A value satisfies a predicate under a comparison. As in the SQL built for it, `eq` comes before
`in`, and the bounds are joined only where neither is given. -/
def ReadPredicate.accepts (predicate : ReadPredicate) (cmp : Value → Value → Option Ordering) (value : Value) : Bool :=
  match predicate.eq, predicate.inValues with
  | some literal, _ => (cmp value literal).any (·.isEq)
  | none, some literals => literals.any fun literal => (cmp value literal).any (·.isEq)
  | none, none =>
    (predicate.gt.all fun bound => (cmp value bound).any (·.isGT)) &&
      (predicate.gte.all fun bound => (cmp value bound).any (·.isGE)) &&
      (predicate.lt.all fun bound => (cmp value bound).any (·.isLT)) &&
      (predicate.lte.all fun bound => (cmp value bound).any (·.isLE))

variable {predicate : ReadPredicate}

theorem ReadPredicate.accepts_cases (h : predicate.accepts cmp value = true) :
    (∃ literal, predicate.eq = some literal ∧ (cmp value literal).any (·.isEq) = true) ∨
    (predicate.eq = none ∧ ∃ literals, predicate.inValues = some literals ∧
      ∃ literal ∈ literals, (cmp value literal).any (·.isEq) = true) ∨
    (predicate.eq = none ∧ predicate.inValues = none ∧ (∀ bound ∈ predicate.gt, (cmp value bound).any (·.isGT) = true) ∧
      (∀ bound ∈ predicate.gte, (cmp value bound).any (·.isGE) = true) ∧
      (∀ bound ∈ predicate.lt, (cmp value bound).any (·.isLT) = true) ∧
      ∀ bound ∈ predicate.lte, (cmp value bound).any (·.isLE) = true) := by
  unfold accepts at h
  cases heq : predicate.eq with
  | some literal =>
    rw [heq] at h
    exact Or.inl ⟨literal, rfl, h⟩
  | none =>
    cases hin : predicate.inValues with
    | some literals =>
      rw [heq, hin] at h
      exact Or.inr (Or.inl ⟨rfl, literals, rfl, List.any_eq_true.mp h⟩)
    | none =>
      rw [heq, hin] at h
      simp only [Bool.and_eq_true, Option.all_eq_true] at h
      exact Or.inr (Or.inr ⟨rfl, rfl, h.1.1.1, h.1.1.2, h.1.2, h.2⟩)

def ReadPredicate.holds (predicate : ReadPredicate) (cmp : Value → Value → Option Ordering) (row : ServingRow) : Bool :=
  match row.lookup predicate.field with
  | none | some .null => false
  | some value => predicate.accepts cmp value

theorem ReadPredicate.holds_iff {row : ServingRow} : predicate.holds cmp row = true ↔
      ∃ value, row.lookup predicate.field = some value ∧ value ≠ .null ∧ predicate.accepts cmp value = true := by
  unfold holds
  split
  · rename_i h
    simp [h]
  · rename_i h
    simp [h]
  · rename_i value hnull h
    simp only [h, Option.some.injEq, exists_eq_left', ne_eq]
    exact ⟨fun ha => ⟨hnull, ha⟩, fun ha => ha.2⟩

def ReadPlan.holds (request : ReadPlan) (cmp : Value → Value → Option Ordering) (row : ServingRow) : Bool :=
  request.filters.all fun predicate => predicate.holds cmp row

def ReadPredicate.literals (predicate : ReadPredicate) : List Value :=
  predicate.eq.toList ++ predicate.inValues.getD [] ++ predicate.gt.toList ++ predicate.gte.toList ++
    predicate.lt.toList ++ predicate.lte.toList

theorem all_any_congr {bound : Option Value} {test : Ordering → Bool}
    (h : ∀ literal ∈ bound, cmp value literal = cmp' value literal) :
    (bound.all fun literal => (cmp value literal).any test) =
      bound.all fun literal => (cmp' value literal).any test := by
  cases bound with
  | none => rfl
  | some literal => simp only [Option.all_some, h literal rfl]

theorem ReadPredicate.accepts_congr (h : ∀ literal ∈ predicate.literals, cmp value literal = cmp' value literal) :
    predicate.accepts cmp value = predicate.accepts cmp' value := by
  obtain ⟨field, eq, inValues, gt, gte, lt, lte⟩ := predicate
  have hmem : ∀ literal, literal ∈ eq ∨ literal ∈ inValues.getD [] ∨ literal ∈ gt ∨ literal ∈ gte ∨
      literal ∈ lt ∨ literal ∈ lte → cmp value literal = cmp' value literal := by
    intro literal hliteral
    apply h literal
    simpa only [literals, List.mem_append, Option.mem_toList, Option.mem_def, or_assoc] using hliteral
  cases eq with
  | some literal => simp only [accepts, hmem literal (Or.inl rfl)]
  | none =>
    cases inValues with
    | some values =>
      rw [Bool.eq_iff_iff]
      simp only [accepts, List.any_eq_true]
      refine exists_congr fun literal => and_congr_right fun hliteral => ?_
      rw [hmem literal (Or.inr (Or.inl hliteral))]
    | none =>
      simp only [accepts]
      rw [all_any_congr fun literal hl => hmem literal (by simp [hl]),
        all_any_congr fun literal hl => hmem literal (by simp [hl]),
        all_any_congr fun literal hl => hmem literal (by simp [hl]),
        all_any_congr fun literal hl => hmem literal (by simp [hl])]

end PowdrrEngine
