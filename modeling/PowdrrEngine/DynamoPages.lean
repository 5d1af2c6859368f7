import PowdrrEngine.DynamoPatterns
import PowdrrEngine.LibPaging

/-! The pages of a Query or Scan. A page is cut from the rows that the read path answers with; the key of
its last row is returned where more may follow, and the rows of the page are filtered, projected and turned
into items. -/

namespace PowdrrEngine

open List

/-! ### A page -/

def projectRow (row : JsonMap) (projection : List String) : JsonMap :=
  projection.foldl (fun projected field =>
    match visibleObjectValue row field with
    | some value => projected.insert field value
    | none => projected) ∅

def projectRows (rows : List JsonMap) (projection : Option (List String)) : List JsonMap :=
  match projection with
  | none => rows
  | some projection => rows.map fun row => projectRow row projection

/-- `QueryResponse` and `ScanResponse`, without the capacity. -/
structure ReadResponse where
  items : List JsonMap
  count : Nat
  scannedCount : Nat
  lastEvaluatedKey : Option JsonMap

/-- A page: the rows evaluated for it and the answer made of them. -/
structure ReadPage where
  evaluated : List JsonMap
  response : ReadResponse

/-- The last evaluated key. One row too many shows that there are more; where none was asked for, a full
page may have more behind it. -/
def lastEvaluatedKey (toKey : JsonMap → DynamoResult JsonMap) (pageLimit : Nat) (eager : Bool)
    (rows : List JsonMap) : DynamoResult (Option JsonMap) :=
  if pageLimit < rows.length then
    match rows[pageLimit - 1]? with
    | some row => (toKey row).map some
    | none => .panicked
  else if rows.length = pageLimit ∧ eager then
    match rows.getLast? with
    | some row => (toKey row).map some
    | none => .internal "Expected a row at page boundary"
  else .ok none

variable (floatText : F64 → String)

/-- The items of a page; a request that only counts gets none. -/
def pageItems (selectMode : SelectMode) (projection : Option (List String))
    (rows : List JsonMap) : DynamoResult (List JsonMap) :=
  if selectMode = .count then .ok []
  else (projectRows rows projection).mapM (jsonRowToDynamodbItem floatText)

/-- What `handle_query` and `handle_scan` make of the rows they read. -/
def readPage (toKey : JsonMap → DynamoResult JsonMap) (pageLimit : Nat)
    (eager : Bool) (filter : Option FilterNode) (selectMode : SelectMode) (projection : Option (List String))
    (rows : List JsonMap) : DynamoResult ReadPage := do
  let key ← lastEvaluatedKey toKey pageLimit eager rows
  let evaluated := rows.take pageLimit
  let filtered := applyFilterExpression evaluated filter
  let items ← pageItems floatText selectMode projection filtered
  .ok ⟨evaluated, ⟨items, filtered.length, evaluated.length, key⟩⟩

/-! ### Rows that can be returned -/

section

variable {floatText : F64 → String} {toKey : JsonMap → DynamoResult JsonMap} {pageLimit : Nat} {eager : Bool}
  {filter : Option FilterNode} {selectMode : SelectMode} {projection : Option (List String)}
  {rows : List JsonMap}

def Returnable (floatText : F64 → String) (filter : Option FilterNode) (selectMode : SelectMode)
    (projection : Option (List String)) (row : JsonMap) : Prop :=
  ∃ items, pageItems floatText selectMode projection (applyFilterExpression [row] filter) = .ok items

theorem applyFilterExpression_append (rows rows' : List JsonMap) : applyFilterExpression (rows ++ rows') filter =
      applyFilterExpression rows filter ++ applyFilterExpression rows' filter := by
  cases filter with
  | none => rfl
  | some expression => exact filter_append ..

theorem pageItems_append (rows rows' : List JsonMap) : pageItems floatText selectMode projection (rows ++ rows') = (do
      let items ← pageItems floatText selectMode projection rows
      let items' ← pageItems floatText selectMode projection rows'
      .ok (items ++ items')) := by
  unfold pageItems
  split
  · rfl
  have happend : projectRows (rows ++ rows') projection =
      projectRows rows projection ++ projectRows rows' projection := by
    cases projection with
    | none => rfl
    | some projection => exact map_append ..
  rw [happend, mapM_append]
  rfl

theorem pageItems_nil : pageItems floatText selectMode projection (applyFilterExpression [] filter) = .ok [] := by
  have hfilter : applyFilterExpression [] filter = [] := by cases filter <;> rfl
  have hproject : projectRows [] projection = [] := by cases projection <;> rfl
  rw [hfilter, pageItems, hproject]
  split <;> rfl

theorem pageItems_isOk_iff :
    (∃ items, pageItems floatText selectMode projection (applyFilterExpression rows filter) = .ok items) ↔
      ∀ row ∈ rows, Returnable floatText filter selectMode projection row := by
  induction rows with
  | nil => exact iff_of_true ⟨[], pageItems_nil⟩ (by simp)
  | cons row rows ih =>
    rw [← singleton_append, applyFilterExpression_append, pageItems_append, singleton_append, forall_mem_cons, ← ih]
    constructor
    · rintro ⟨items, h⟩
      obtain ⟨first, hfirst, h⟩ := Run.exists_ok_of_bind h
      obtain ⟨rest, hrest, -⟩ := Run.exists_ok_of_bind h
      exact ⟨⟨first, hfirst⟩, rest, hrest⟩
    · rintro ⟨⟨first, hfirst⟩, rest, hrest⟩
      refine ⟨first ++ rest, ?_⟩
      rw [hfirst, hrest]
      rfl

theorem pageItems_flatMap {pages : List ReadPage} (h : ∀ page ∈ pages,
      pageItems floatText selectMode projection (applyFilterExpression page.evaluated filter) =
        .ok page.response.items) :
    pageItems floatText selectMode projection (applyFilterExpression (pages.flatMap (·.evaluated)) filter) =
      .ok (pages.flatMap (·.response.items)) := by
  induction pages with
  | nil => exact pageItems_nil
  | cons page pages ih =>
    obtain ⟨hpage, hpages⟩ := forall_mem_cons.mp h
    rw [flatMap_cons, applyFilterExpression_append, pageItems_append]
    exact Run.bind_eq_ok.mpr ⟨_, hpage, Run.bind_eq_ok.mpr ⟨_, ih hpages, rfl⟩⟩

/-! ### The end of a page -/

/-- More rows may follow. -/
def More (pageLimit : Nat) (eager : Bool) (rows : List JsonMap) : Prop :=
  pageLimit < rows.length ∨ rows.length = pageLimit ∧ eager = true

theorem lastEvaluatedKey_of_more (toKey : JsonMap → DynamoResult JsonMap) (hpos : 0 < pageLimit)
    (hmore : More pageLimit eager rows) :
    ∃ row, (rows.take pageLimit).getLast? = some row ∧
      lastEvaluatedKey toKey pageLimit eager rows = (toKey row).map some := by
  have hle : pageLimit ≤ rows.length := by
    rcases hmore with h | ⟨h, -⟩ <;> omega
  obtain ⟨row, hlast, hget⟩ := Paging.getLast?_take hpos hle
  refine ⟨row, hlast, ?_⟩
  unfold lastEvaluatedKey
  rcases hmore with h | ⟨h, heager⟩
  · rw [if_pos h, hget]
  · rw [take_of_length_le h.le] at hlast
    rw [if_neg (by omega), if_pos ⟨h, heager⟩, hlast]

theorem lastEvaluatedKey_of_not_more (hmore : ¬ More pageLimit eager rows) :
    lastEvaluatedKey toKey pageLimit eager rows = .ok none := by
  obtain ⟨hlt, heq⟩ := not_or.mp hmore
  rw [lastEvaluatedKey, if_neg hlt, if_neg heq]

/-- **A page.** It holds the first rows, each of which can be returned, and the key of its last row exactly
if more may follow. -/
theorem readPage_eq_ok (hpos : 0 < pageLimit) {page : ReadPage}
    (h : readPage floatText toKey pageLimit eager filter selectMode projection rows = .ok page) :
    page.evaluated = rows.take pageLimit ∧
    pageItems floatText selectMode projection (applyFilterExpression page.evaluated filter) = .ok page.response.items ∧
    (page.response.lastEvaluatedKey = none ↔ ¬ More pageLimit eager rows) ∧
    ∀ key, page.response.lastEvaluatedKey = some key → More pageLimit eager rows ∧
      ∃ row, page.evaluated.getLast? = some row ∧ toKey row = .ok key := by
  obtain ⟨key, hkey, h⟩ := Run.exists_ok_of_bind h
  obtain ⟨items, hitems, h⟩ := Run.exists_ok_of_bind h
  cases h
  refine ⟨rfl, hitems, ?_⟩
  by_cases hmore : More pageLimit eager rows
  · obtain ⟨row, hlast, hrow⟩ := lastEvaluatedKey_of_more toKey hpos hmore
    rw [hrow] at hkey
    obtain ⟨attrs, hto, rfl⟩ := Run.map_eq_ok.mp hkey
    simp [hmore, hlast, hto]
  · rw [lastEvaluatedKey_of_not_more hmore] at hkey
    cases hkey
    simp [hmore]

theorem exists_readPage (hpos : 0 < pageLimit)
    (hreturn : ∀ row ∈ rows.take pageLimit, Returnable floatText filter selectMode projection row)
    (hkey : More pageLimit eager rows → ∀ row ∈ rows.take pageLimit, ∃ key, toKey row = .ok key) :
    ∃ page, readPage floatText toKey pageLimit eager filter selectMode projection rows = .ok page := by
  obtain ⟨items, hitems⟩ := pageItems_isOk_iff.mpr hreturn
  have hlast : ∃ key, lastEvaluatedKey toKey pageLimit eager rows = .ok key := by
    by_cases hmore : More pageLimit eager rows
    · obtain ⟨row, hlast, hrow⟩ := lastEvaluatedKey_of_more toKey hpos hmore
      obtain ⟨key, hto⟩ := hkey hmore row (mem_of_getLast? hlast)
      exact ⟨some key, by rw [hrow, hto]; rfl⟩
    · exact ⟨none, lastEvaluatedKey_of_not_more hmore⟩
  obtain ⟨key, hkey⟩ := hlast
  exact ⟨_, Run.bind_eq_ok.mpr ⟨key, hkey, Run.bind_eq_ok.mpr ⟨items, hitems, rfl⟩⟩⟩

end

end PowdrrEngine
