import PowdrrEngine.ServingLookupSpec

/-! The SQL meaning of a lookup. On rows whose values SQL and the serving code compare alike, the plan of
a request admits the rows that its filters select, and a lookup over the rows answers what a scan of them
may answer. -/

namespace PowdrrEngine

open ReadPredicate List Std Lists
open Option (ite_none_left_eq_some all_some map_eq_some_iff any_some all_none bind_eq_some_iff)

variable {request : ReadPlan} {row : ServingRow} {key : SnapshotLookupKey} {text : Value → String}
  {value : Value} {rows : List ServingRow} {plan : SnapshotLookupPlan} {limit : Nat} {field : String}
  {result rows' : List ServingRow}

/-! ### Where both compare alike -/

/-- SQL and the serving code can both compare two values and find the same. -/
def sameOrder (left right : Value) : Bool :=
  (sqlCompare left right).isSome && sqlCompare left right = compareScalarValues left right

/-- On a row, every comparison of the predicate is one that SQL and the serving code agree on, and SQL
finds no literal of an equality equal to a value that is written in another way. -/
def ReadPredicate.plain (predicate : ReadPredicate) (row : ServingRow) : Bool :=
  (row.lookup predicate.field).all fun value => value = .null ||
    predicate.literals.all fun literal => sameOrder value literal &&
      (!predicate.hasEq || sqlCompare value literal ≠ some .eq || value = literal)

theorem ReadPredicate.plain_iff {predicate : ReadPredicate} :
    predicate.plain row = true ↔ ∀ value ∈ row.lookup predicate.field, value ≠ .null →
      ∀ literal ∈ predicate.literals, sameOrder value literal = true ∧
        (predicate.hasEq = true → sqlCompare value literal = some .eq → value = literal) := by
  simp [plain, Option.all_eq_true, or_iff_not_imp_left]

theorem sameOrder_iff {left right : Value} : sameOrder left right = true ↔
    ∃ o, sqlCompare left right = some o ∧ compareScalarValues left right = some o := by
  simp only [sameOrder, Bool.and_eq_true, Option.isSome_iff_exists, decide_eq_true_eq]
  constructor
  · rintro ⟨⟨o, ho⟩, heq⟩
    exact ⟨o, ho, heq ▸ ho⟩
  · rintro ⟨o, ho, ho'⟩
    exact ⟨⟨o, ho⟩, ho.trans ho'.symm⟩

theorem sqlCompareNumbers_self (n : Number) : sqlCompareNumbers n n = .eq := by
  unfold sqlCompareNumbers
  cases n.asInt with
  | none => exact (ReflCmp.compare_self : n.asF64.cmp n.asF64 = .eq)
  | some i => exact (ReflCmp.compare_self : compare i i = .eq)

theorem sqlCompare_self_of_key (h : encodeExactLookupKey value = some key) : sqlCompare value value = some .eq := by
  cases value with
  | null => cases h
  | bool b => exact congrArg some ReflCmp.compare_self
  | number n => exact congrArg some (sqlCompareNumbers_self n)
  | string s => exact congrArg some ReflCmp.compare_self
  | array items => cases h
  | object fields => cases h

theorem hasKey_literal {literal : Value} (hkey : encodeExactLookupKey literal = some key)
    (hplain : sqlCompare value literal = some .eq → value = literal) :
    encodeExactLookupKey value = some key ↔ (sqlCompare value literal).any (·.isEq) = true := by
  constructor
  · intro h
    have hsame : value = literal := by
      cases value <;> cases h <;> cases literal <;> cases hkey <;> rfl
    subst hsame
    rw [sqlCompare_self_of_key h]
    rfl
  · intro h
    obtain ⟨o, ho, heq⟩ := (Option.any_eq_true _ _).mp h
    rw [hplain (ho.trans (congrArg some (Ordering.isEq_iff_eq_eq.mp heq)))]
    exact hkey

theorem hasKey_of_lookup (hlookup : row.lookup field = some value) (key : SnapshotLookupKey) :
    hasKey field key row = decide (encodeExactLookupKey value = some key) := by
  rw [hasKey, hlookup, any_some]

theorem hasKey_of_absent (key : SnapshotLookupKey)
    (habsent : row.lookup field = none ∨ row.lookup field = some .null) : hasKey field key row = false := by
  rcases habsent with h | h
  · rw [hasKey, h, Option.any_none]
  · rw [hasKey_of_lookup h]
    rfl

namespace ReadPredicate

variable {filter : ReadPredicate} {predicate : ExactLookupPredicate}

theorem holds_of_absent (cmp : Value → Value → Option Ordering)
    (habsent : row.lookup filter.field = none ∨ row.lookup filter.field = some .null) :
    filter.holds cmp row = false := by
  rcases habsent with h | h <;> simp [holds, h]

theorem holds_of_lookup (cmp : Value → Value → Option Ordering)
    (hlookup : row.lookup filter.field = some value) (hnull : value ≠ .null) :
    filter.holds cmp row = filter.accepts cmp value := by
  rw [Bool.eq_iff_iff, holds_iff]
  simp [hlookup, hnull]

theorem absent_or_lookup (row : ServingRow) (field : String) :
    (row.lookup field = none ∨ row.lookup field = some .null) ∨
      ∃ value, row.lookup field = some value ∧ value ≠ .null := by
  cases h : row.lookup field with
  | none => exact Or.inl (Or.inl rfl)
  | some value =>
    by_cases hnull : value = .null
    · exact Or.inl (Or.inr (congrArg some hnull))
    · exact Or.inr ⟨value, rfl, hnull⟩

theorem exactLookupPredicate_cases (h : filter.exactLookupPredicate = some predicate) :
    filter.hasEq = true ∧ predicate.field = filter.field ∧ ∃ (values : List Value) (keys : List SnapshotLookupKey),
      values.mapM encodeExactLookupKey = some keys ∧ (∀ key, key ∈ predicate.values ↔ key ∈ keys) ∧
      (∀ literal ∈ values, literal ∈ filter.literals) ∧
      ∀ cmp value, filter.accepts cmp value = values.any fun literal => (cmp value literal).any (·.isEq) := by
  obtain ⟨field, eq, inValues, gt, gte, lt, lte⟩ := filter
  simp only [exactLookupPredicate, ite_none_left_eq_some] at h
  obtain ⟨-, h⟩ := h
  cases eq with
  | some literal =>
    obtain ⟨key, hkey, hpredicate⟩ := map_eq_some_iff.mp h
    cases hpredicate
    refine ⟨rfl, rfl, [literal], [key], ?_, fun _ => Iff.rfl, ?_, fun cmp value => ?_⟩
    · simp [hkey]
    · simp [literals]
    · simp [accepts]
  | none =>
    cases inValues with
    | none => cases h
    | some values =>
      simp only [ite_none_left_eq_some] at h
      obtain ⟨keys, hkeys, hpredicate⟩ := map_eq_some_iff.mp h.2
      cases hpredicate
      refine ⟨rfl, rfl, values, keys, hkeys, fun _ => mem_dedup, ?_, fun cmp value => rfl⟩
      intro literal hliteral
      simp [literals, hliteral]

theorem admits_exactLookupPredicate (h : filter.exactLookupPredicate = some predicate)
    (hplain : filter.plain row = true) :
    predicate.admits row = filter.holds sqlCompare row := by
  obtain ⟨heq, hfield, values, keys, hkeys, hmem, hliterals, haccepts⟩ := exactLookupPredicate_cases h
  have hany : predicate.admits row = keys.any fun key => hasKey filter.field key row := by
    rw [Bool.eq_iff_iff, ExactLookupPredicate.admits, hfield, any_eq_true, any_eq_true]
    simp [hmem]
  rw [hany]
  rcases absent_or_lookup row filter.field with habsent | ⟨value, hlookup, hnull⟩
  · rw [holds_of_absent _ habsent]
    simp [hasKey_of_absent _ habsent]
  rw [holds_of_lookup _ hlookup hnull, haccepts]
  refine any_congr_of_forall₂ (forall₂_of_mapM hkeys) fun literal hliteral key hkey => ?_
  obtain ⟨-, hsame⟩ := plain_iff.mp hplain value hlookup hnull literal (hliterals literal hliteral)
  rw [hasKey_of_lookup hlookup, Bool.eq_iff_iff, decide_eq_true_eq]
  exact hasKey_literal hkey (hsame heq)

theorem singleKey_cases (h : filter.singleKey = some key) :
    filter.hasEq = true ∧ ∃ literal ∈ filter.literals, encodeExactLookupKey literal = some key ∧
      ∀ cmp value, filter.accepts cmp value = (cmp value literal).any (·.isEq) := by
  obtain ⟨field, eq, inValues, gt, gte, lt, lte⟩ := filter
  unfold singleKey at h
  split at h
  · rename_i literal heq
    cases heq
    exact ⟨rfl, literal, by simp [literals], h, fun cmp value => rfl⟩
  · rename_i literal heq hin
    cases heq
    cases hin
    exact ⟨rfl, literal, by simp [literals], h, fun cmp value => by simp [accepts]⟩
  · cases h

theorem hasKey_singleKey (h : filter.singleKey = some key)
    (hplain : filter.plain row = true) : hasKey filter.field key row = filter.holds sqlCompare row := by
  obtain ⟨heq, literal, hliteral, hkey, haccepts⟩ := singleKey_cases h
  rcases absent_or_lookup row filter.field with habsent | ⟨value, hlookup, hnull⟩
  · rw [holds_of_absent _ habsent, hasKey_of_absent _ habsent]
  · obtain ⟨-, hsame⟩ := plain_iff.mp hplain value hlookup hnull literal hliteral
    rw [holds_of_lookup _ hlookup hnull, haccepts, hasKey_of_lookup hlookup, Bool.eq_iff_iff, decide_eq_true_eq]
    exact hasKey_literal hkey (hsame heq)

theorem all_compareValues (text : Value → String) (test : Ordering → Bool) {bound : Option Value}
    (h : ∀ literal ∈ bound, sameOrder value literal = true) :
    (bound.all fun literal => test (compareValues text value literal)) =
      bound.all fun literal => (sqlCompare value literal).any test := by
  cases bound with
  | none => rfl
  | some literal =>
    obtain ⟨o, hsql, hscalar⟩ := sameOrder_iff.mp (h literal rfl)
    rw [all_some, all_some, compareValues_of_scalar hscalar, hsql, any_some]

theorem valueMatchesRange_rangeLookupPredicate (text : Value → String) (heq : filter.hasEq = false)
    (hplain : filter.plain row = true) :
    valueMatchesRange text filter.rangeLookupPredicate (row.lookup filter.field) = filter.holds sqlCompare row := by
  rcases absent_or_lookup row filter.field with habsent | ⟨value, hlookup, hnull⟩
  · rw [holds_of_absent _ habsent]
    rcases habsent with h | h <;> rw [h] <;> rfl
  have hsame : ∀ literal ∈ filter.literals, sameOrder value literal = true :=
    fun literal hliteral => (plain_iff.mp hplain value hlookup hnull literal hliteral).1
  rw [holds_of_lookup _ hlookup hnull, hlookup]
  obtain ⟨field, eq, inValues, gt, gte, lt, lte⟩ := filter
  obtain ⟨h1, h2⟩ := Bool.or_eq_false_iff.mp heq
  cases Option.not_isSome_iff_eq_none.mp (Bool.eq_false_iff.mp h1)
  cases Option.not_isSome_iff_eq_none.mp (Bool.eq_false_iff.mp h2)
  simp only [literals, mem_append, Option.mem_toList, or_imp, forall_and] at hsame
  obtain ⟨⟨⟨⟨-, hgt⟩, hgte⟩, hlt⟩, hlte⟩ := hsame
  rw [valueMatchesRange]
  swap
  · exact hnull
  unfold accepts
  dsimp only [rangeLookupPredicate]
  rw [all_compareValues text _ hgt, all_compareValues text _ hgte, all_compareValues text _ hlt,
    all_compareValues text _ hlte]

end ReadPredicate

/-! ### Plans -/

def SnapshotLookupPlan.admits (text : Value → String) (plan : SnapshotLookupPlan) (row : ServingRow) : Bool :=
  match plan with
  | .exact predicates => predicates.all fun predicate => predicate.admits row
  | .keyRange eqField eqValue _ _ range => hasKey eqField eqValue row && inLookupRange text range row

def ReadPlan.plain (request : ReadPlan) (row : ServingRow) : Bool := request.filters.all fun filter => filter.plain row

/-- A row satisfies the filters that the loop of the plan has found. -/
def KeyRangeFilters.admits (text : Value → String) (found : KeyRangeFilters) (row : ServingRow) : Bool :=
  (found.eq.all fun eq => hasKey eq.1 eq.2 row) && inLookupRange text found.range row

theorem KeyRangeFilters.admits_add {found found' : KeyRangeFilters} {filter : ReadPredicate}
    (h : found.add filter = some found') (hplain : filter.plain row = true) :
    found'.admits text row = (found.admits text row && filter.holds sqlCompare row) := by
  unfold add at h
  split at h
  · simp only [ite_none_left_eq_some, Bool.not_eq_true, Option.isSome_eq_false_iff,
      Option.isNone_iff_eq_none] at h
    obtain ⟨hnone, h⟩ := h
    obtain ⟨key, hkey, hfound⟩ := map_eq_some_iff.mp h
    cases hfound
    rw [admits, admits, hnone, all_some, all_none, Bool.true_and,
      hasKey_singleKey hkey hplain, Bool.and_comm]
  · rename_i heq _
    simp only [ite_none_left_eq_some, Bool.not_eq_true, Option.isSome_eq_false_iff,
      Option.isNone_iff_eq_none] at h
    obtain ⟨hnone, h⟩ := h
    cases h
    rw [admits, admits, hnone, inLookupRange, inLookupRange, all_some, all_none, Bool.and_true]
    congr 1
    exact valueMatchesRange_rangeLookupPredicate text heq hplain
  · cases h

theorem KeyRangeFilters.admits_foldlM (text : Value → String) {filters : List ReadPredicate}
    {found found' : KeyRangeFilters} (h : filters.foldlM add found = some found')
    (hplain : ∀ filter ∈ filters, filter.plain row = true) :
    found'.admits text row = (found.admits text row && filters.all fun filter => filter.holds sqlCompare row) := by
  induction filters generalizing found with
  | nil =>
    cases h
    simp
  | cons filter filters ih =>
    obtain ⟨next, hnext, hrest⟩ := bind_eq_some_iff.mp h
    rw [ih hrest (fun f hf => hplain f (mem_cons_of_mem _ hf)),
      admits_add hnext (hplain filter mem_cons_self), all_cons, Bool.and_assoc]

theorem exactLookupPredicates_cases {predicates : List ExactLookupPredicate}
    (h : exactLookupPredicates request = some predicates) : request.orderBy = [] ∧ predicates ≠ [] ∧
      request.filters.mapM exactLookupPredicate = some predicates := by
  simp only [exactLookupPredicates, ite_none_left_eq_some, bind_eq_some_iff, not_or, not_not] at h
  obtain ⟨⟨-, horder, -⟩, _, hmap, hne, hsome⟩ := h
  cases hsome
  exact ⟨horder, hne, hmap⟩

theorem snapshotLookupPlan_cases (h : snapshotLookupPlan request = some plan) :
    (∃ predicates, plan = .exact predicates ∧ exactLookupPredicates request = some predicates) ∨
    ∃ found eqField eqValue orderField descending, plan = .keyRange eqField eqValue orderField descending found.range ∧
      request.filters.foldlM KeyRangeFilters.add {} = some found ∧ found.eq = some (eqField, eqValue) ∧
      (request.orderBy = [] ∨ request.orderBy = [⟨orderField, descending⟩]) := by
  unfold snapshotLookupPlan at h
  split at h
  · rename_i predicates hexact
    exact Or.inl ⟨predicates, (Option.some.inj h).symm, hexact⟩
  simp only [ite_none_left_eq_some, not_or, Nat.not_lt, Option.bind_eq_bind, bind_eq_some_iff] at h
  obtain ⟨⟨-, -, -, -, hlength⟩, found, hfound, ⟨eqField, eqValue⟩, heq, orderField, horder, hplan⟩ := h
  refine Or.inr ⟨found, eqField, eqValue, orderField, _, (Option.some.inj hplan).symm, hfound, heq, ?_⟩
  match hsort : request.orderBy, hlength with
  | [], _ => exact Or.inl rfl
  | [sort], _ =>
    have hfield : sort.field = orderField := by
      unfold keyRangeOrderField at horder
      rw [hsort] at horder
      cases hrange : found.range with
      | none =>
        rw [hrange] at horder
        exact Option.some.inj (ite_none_left_eq_some.mp horder).2
      | some range =>
        rw [hrange] at horder
        exact Option.some.inj (Option.ite_none_right_eq_some.mp horder).2
    rw [← hfield]
    exact Or.inr rfl

theorem admits_snapshotLookupPlan (text : Value → String) (h : snapshotLookupPlan request = some plan)
    (hplain : request.plain row = true) :
    plan.admits text row = request.holds sqlCompare row := by
  have hfilters : ∀ filter ∈ request.filters, filter.plain row = true := all_eq_true.mp hplain
  rcases snapshotLookupPlan_cases h with ⟨predicates, rfl, hexact⟩ |
    ⟨found, eqField, eqValue, orderField, descending, rfl, hfound, heq, -⟩
  · obtain ⟨-, -, hmap⟩ := exactLookupPredicates_cases hexact
    exact all_congr_of_forall₂ (forall₂_of_mapM hmap) fun filter hfilter predicate hpredicate =>
      admits_exactLookupPredicate hpredicate (hfilters filter hfilter)
  · have hall := KeyRangeFilters.admits_foldlM text hfound hfilters
    rw [KeyRangeFilters.admits, heq, all_some] at hall
    exact hall

/-! ### A lookup is a scan -/

def sqlRowOrder : List ReadSort → ServingRow → ServingRow → Ordering
  | [], _, _ => .eq
  | sort :: sorts, left, right =>
    (sqlOrder (left.lookup sort.field) (right.lookup sort.field) sort.descending).then
      (sqlRowOrder sorts left right)

/-- What a scan of rows may answer to a request: the rows selected by the filters, in an order that the
sort fields allow, cut at the limit and projected. -/
def IsScanResult (request : ReadPlan) (limit : Nat) (rows result : List ServingRow) : Prop :=
  ∃ selected : List ServingRow, selected.Perm (rows.filter (request.holds sqlCompare)) ∧
    (selected.Pairwise fun left right => sqlRowOrder request.orderBy left right ≠ .gt) ∧
    result = (selected.take limit).map (projectedRowValue request.select)

theorem IsScanResult.length_eq (h : IsScanResult request limit rows result) :
    result.length = min limit (rows.filter (request.holds sqlCompare)).length := by
  obtain ⟨selected, hperm, -, rfl⟩ := h
  rw [length_map, length_take, hperm.length_eq]

def ReadPlan.sortable (request : ReadPlan) (rows : List ServingRow) : Bool :=
  request.orderBy.all fun sort => rows.all fun left => rows.all fun right =>
    (left.lookup sort.field).all fun value => (right.lookup sort.field).all fun value' =>
      value = .null || value' = .null || sameOrder value value'

def SameColumnOrder (left right : Option Value) : Prop :=
  ∀ value ∈ left, ∀ value' ∈ right, value ≠ .null → value' ≠ .null → sameOrder value value' = true

theorem ReadPlan.sortable_iff : request.sortable rows = true ↔ ∀ sort ∈ request.orderBy, ∀ left ∈ rows, ∀ right ∈ rows,
      SameColumnOrder (left.lookup sort.field) (right.lookup sort.field) := by
  simp only [sortable, SameColumnOrder, all_eq_true, Option.all_eq_true, Bool.or_eq_true,
    decide_eq_true_eq, or_iff_not_imp_left, Classical.not_imp, and_imp, ne_eq, Option.mem_def]

theorem SameColumnOrder.getD {left right : Option Value} (h : SameColumnOrder left right)
    (hleft : left.getD .null ≠ .null) (hright : right.getD .null ≠ .null) :
    ∃ o, sqlCompare (left.getD .null) (right.getD .null) = some o ∧
      compareScalarValues (left.getD .null) (right.getD .null) = some o := by
  cases left with
  | none => exact absurd rfl hleft
  | some value =>
    cases right with
    | none => exact absurd rfl hright
    | some value' => exact sameOrder_iff.mp (h value rfl value' rfl hleft hright)

section

variable {a b : Option Value}

theorem sqlOrder_eq_columnOrder (h : SameColumnOrder a b) :
    sqlOrder a b false = columnOrder (a.getD .null) (b.getD .null) := by
  refine sqlOrder_eq nullLast_columnOrder fun ha hb => ?_
  obtain ⟨o, hsql, hscalar⟩ := h.getD ha hb
  rw [hsql, columnOrder_of_scalar hscalar]

theorem compareRowValues_eq_sqlOrder (h : SameColumnOrder a b) (descending : Bool) :
    compareRowValues text a b descending = sqlOrder a b descending := by
  have hcompare : sqlOrder a b false = compareRowValues text a b false := by
    refine sqlOrder_eq (nullLast_compareValues text) fun ha hb => ?_
    obtain ⟨o, hsql, hscalar⟩ := h.getD ha hb
    rw [hsql, compareValues_of_scalar hscalar]
  cases descending with
  | false => exact hcompare.symm
  | true => exact congrArg Ordering.swap hcompare.symm

end

section

variable (hash : SnapshotLookupKey → Nat) (text : Value → String)

/-- What is looked at after the limit: a key range lookup takes a row before it looks. -/
def SnapshotLookupPlan.cut (limit : Nat) : SnapshotLookupPlan → Nat
  | .exact _ => limit
  | .keyRange .. => max limit 1

theorem pairwise_keyRangePositions {eqField orderField : String} {eqValue : SnapshotLookupKey}
    {descending : Bool} {range : Option RangeLookupPredicate}
    (hsort : ∀ left ∈ rows, ∀ right ∈ rows, SameColumnOrder (left.lookup orderField) (right.lookup orderField)) :
    (keyRangePositions hash rows text eqField eqValue orderField descending range).Pairwise
      fun i j => ∀ a ∈ rows[i]?, ∀ b ∈ rows[j]?, rowOrder text orderField descending a b ≠ .gt := by
  have := transCmp_on (sortKey orderField) columnOrder
  have horder : ∀ a ∈ rows, ∀ b ∈ rows,
      rowOrder text orderField false a b = columnOrder (sortKey orderField a) (sortKey orderField b) := fun a ha b hb =>
    (compareRowValues_eq_sqlOrder (hsort a ha b hb) false).trans (sqlOrder_eq_columnOrder (hsort a ha b hb))
  have hordered := pairwise_orderedRows hash text orderField horder
    (shardPostings hash eqField eqValue (buildInMemorySnapshotLookupCache hash rows).shards)
    (fun i => lt_of_mem_shardPostings hash rows eqField eqValue)
  refine List.Pairwise.filter _ ?_
  cases descending with
  | false => exact hordered
  | true =>
    refine pairwise_reverse.mpr (hordered.imp fun h a ha b hb => ?_)
    rw [rowOrder_reverse]
    exact h b hb a ha

/-- **Lookups.** The rows a lookup answers are the first of a list with the rows its plan admits; where
the plan orders rows that have comparable values, the list is in that order. -/
theorem exists_lookupRowRefs (h : snapshotLookupPlan request = some plan) (hsort : request.sortable rows = true) :
    ∃ selected : List ServingRow, selected.Perm (rows.filter (plan.admits text)) ∧
      (selected.Pairwise fun left right => sqlRowOrder request.orderBy left right ≠ .gt) ∧
      ∀ limit, ((buildInMemorySnapshotLookupCache hash rows).lookupRowRefs hash text plan limit).filterMap
        (fun i => rows[i]?) = selected.take (plan.cut limit) := by
  have hsome : ∀ (p : Nat → Bool) i, i ∈ (List.range rows.length).filter p → (rows[i]?).isSome := by
    intro p i hi
    simpa using mem_range.mp (mem_of_mem_filter hi)
  rcases snapshotLookupPlan_cases h with ⟨predicates, rfl, hexact⟩ |
    ⟨found, eqField, eqValue, orderField, descending, rfl, -, -, horder⟩
  · obtain ⟨horder, hne, -⟩ := exactLookupPredicates_cases hexact
    refine ⟨rows.filter (SnapshotLookupPlan.admits text (.exact predicates)), List.Perm.refl _, ?_, ?_⟩
    · rw [horder]
      exact pairwise_of_forall fun _ _ => by simp [sqlRowOrder]
    intro limit
    dsimp only [SnapshotLookupCache.lookupRowRefs, SnapshotLookupPlan.cut]
    rw [executeSnapshotExactLookupRowRefs_built hash rows hne, filterMap_take (hsome _), filterMap_range_filter]
    rfl
  · let positions := keyRangePositions hash rows text eqField eqValue orderField descending found.range
    have hperm := keyRangePositions_perm hash rows text eqField eqValue orderField descending found.range
    refine ⟨positions.filterMap fun i => rows[i]?, ?_, ?_, ?_⟩
    · have hrows := hperm.filterMap fun i => rows[i]?
      rw [filterMap_range_filter] at hrows
      exact hrows
    · rcases horder with horder | horder
      · rw [horder]
        exact pairwise_of_forall fun _ _ => by simp [sqlRowOrder]
      have hsame : ∀ left ∈ rows, ∀ right ∈ rows, SameColumnOrder (left.lookup orderField) (right.lookup orderField) :=
        ReadPlan.sortable_iff.mp hsort ⟨orderField, descending⟩ (by simp [horder])
      rw [horder]
      refine pairwise_filterMap.mpr ((pairwise_keyRangePositions hash text hsame).imp ?_)
      intro i j hij a ha b hb
      have hle := hij a ha b hb
      rw [rowOrder, compareRowValues_eq_sqlOrder (hsame a (mem_of_getElem? ha) b (mem_of_getElem? hb))] at hle
      simpa [sqlRowOrder] using hle
    · intro limit
      dsimp only [SnapshotLookupCache.lookupRowRefs, SnapshotLookupPlan.cut]
      rw [keyRangeRows_built, filterMap_take fun i hi => hsome _ i (hperm.mem_iff.mp hi)]

theorem isScanResult_lookup (h : snapshotLookupPlan request = some plan)
    (hplain : ∀ row ∈ rows, request.plain row = true) (hsort : request.sortable rows = true)
    (hcut : plan.cut limit = limit) :
    IsScanResult request limit rows ((buildInMemorySnapshotLookupCache hash rows).projectedValues request
      ((buildInMemorySnapshotLookupCache hash rows).lookupRowRefs hash text plan limit)) := by
  obtain ⟨selected, hperm, hsorted, htake⟩ := exists_lookupRowRefs hash text h hsort
  refine ⟨selected, ?_, hsorted, ?_⟩
  · rwa [filter_congr fun row hrow => admits_snapshotLookupPlan text h (hplain row hrow)] at hperm
  rw [SnapshotLookupCache.projectedValues]
  congr 1
  have hlimit := htake limit
  rw [hcut] at hlimit
  exact hlimit

end

theorem SnapshotLookupPlan.cut_of_ne_zero (h : limit ≠ 0) (plan : SnapshotLookupPlan) : plan.cut limit = limit := by
  cases plan with
  | exact predicates => rfl
  | keyRange eqField eqValue orderField descending range => exact max_eq_left (Nat.pos_of_ne_zero h)

theorem ReadPlan.normalizedLimit_ne_zero (h : request.limit ≠ some 0) : request.normalizedLimit ≠ 0 := by
  unfold normalizedLimit defaultLimit maxLimit
  cases hlimit : request.limit with
  | none => decide
  | some limit =>
    have hne : limit ≠ 0 := fun hzero => h (hlimit.trans (congrArg some hzero))
    rw [Option.getD_some]
    omega

theorem ReadPlan.holds_compareScalarValues (hplain : request.plain row = true) :
    request.holds compareScalarValues row = request.holds sqlCompare row := by
  rw [Bool.eq_iff_iff, holds, holds, all_eq_true, all_eq_true]
  refine forall₂_congr fun filter hfilter => ?_
  rcases absent_or_lookup row filter.field with habsent | ⟨value, hlookup, hnull⟩
  · rw [holds_of_absent _ habsent, holds_of_absent _ habsent]
  rw [holds_of_lookup _ hlookup hnull, holds_of_lookup _ hlookup hnull, accepts_congr]
  intro literal hliteral
  have hsame := (plain_iff.mp (all_eq_true.mp hplain filter hfilter) value hlookup hnull literal hliteral).1
  obtain ⟨o, hsql, hscalar⟩ := sameOrder_iff.mp hsame
  rw [hsql, hscalar]

end PowdrrEngine
