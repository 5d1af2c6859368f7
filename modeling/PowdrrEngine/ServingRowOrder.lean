import PowdrrEngine.ServingParallel

/-! The order of rows over values of any types. Two values of one type are compared by that type, or by their
texts where they are arrays or objects; of two types the texts decide, and as the type shows in the first
character of a text this is an order of the types. So rows of mixed types are sorted, by one merge or by the
whole parallel plan, and in whatever order they come they are sorted alike. -/

namespace PowdrrEngine

open List Std TopK

/-- The characters that the JSON text of a value can start with. -/
def Value.heads : Value → List Char
  | .string _ => ['"']
  | .number _ => ['-', '0', '1', '2', '3', '4', '5', '6', '7', '8', '9']
  | .array _ => ['[']
  | .bool _ => ['f', 't']
  | .object _ => ['\x7b']
  | .null => ['n']

/-- The place of a type in the order: null is last, the others are separated by how their texts start. -/
def Value.shape : Value → Nat
  | .string _ => 0
  | .number _ => 1
  | .array _ => 2
  | .bool _ => 3
  | .object _ => 4
  | .null => 5

/-- What is used of `Value::to_string`: the type of a value shows in the first character. -/
def JsonTexts (text : Value → String) : Prop :=
  ∀ value, ∃ c ∈ value.heads, ∃ cs, (text value).toList = c :: cs

theorem Value.heads_lt {left right : Value} (h : left.shape < right.shape) (hright : right ≠ .null) :
    (left.heads.all fun c => right.heads.all fun d => c < d) = true := by
  cases left <;> cases right <;>
    first
    | exact absurd h (of_decide_eq_false rfl)
    | exact absurd rfl hright
    | rfl

/-- The order of rows that a sort asks for. -/
def ReadSort.order (text : Value → String) (sort : ReadSort) : ServingRow → ServingRow → Ordering :=
  rowOrder text sort.field sort.descending

section

variable {text : Value → String} (htext : JsonTexts text)

include htext

theorem compareValues_of_shape_lt {left right : Value} (h : left.shape < right.shape) :
    compareValues text left right = .lt := by
  have htexts (hright : right ≠ .null) : compare (text left) (text right) = .lt := by
    obtain ⟨c, hc, cs, hleft⟩ := htext left
    obtain ⟨d, hd, ds, hds⟩ := htext right
    refine if_pos (show (text left).toList < (text right).toList from ?_)
    rw [hleft, hds]
    have hlt := all_eq_true.mp (all_eq_true.mp (Value.heads_lt h hright) c hc) d hd
    exact List.Lex.rel (of_decide_eq_true hlt)
  cases left <;> cases right <;>
    first
    | rfl
    | exact absurd h (of_decide_eq_false rfl)
    | exact htexts (by rintro ⟨⟩)

theorem shape_le_of_isLE {left right : Value} (h : (compareValues text left right).isLE = true) :
    left.shape ≤ right.shape := by
  by_contra hlt
  rw [compareValues_swap, compareValues_of_shape_lt htext (Nat.lt_of_not_le hlt)] at h
  cases h

theorem transCmp_compareValues : TransCmp (compareValues text) where
  eq_swap {left right} := compareValues_swap text right left
  isLE_trans {a b c} hab hbc := by
    have hle := shape_le_of_isLE htext hab
    have hle' := shape_le_of_isLE htext hbc
    rcases (hle.trans hle').lt_or_eq with hlt | heq
    · rw [compareValues_of_shape_lt htext hlt]
      rfl
    have hb : a.shape = b.shape := hle.antisymm (hle'.trans heq.ge)
    have hnumbers : TransCmp Dyadic.cmp := inferInstance
    -- the three values are of one type
    cases a <;> cases b <;> cases hb <;> cases c <;> cases heq <;>
      first
      | rfl
      | exact hnumbers.isLE_trans hab hbc
      | exact TransOrd.isLE_trans hab hbc

theorem transCmp_order (sort : ReadSort) : TransCmp (sort.order text) := by
  have := transCmp_compareValues htext
  obtain ⟨field, descending⟩ := sort
  have hascending : TransCmp (rowOrder text field false) := transCmp_on (sortKey field) (compareValues text)
  cases descending with
  | false => exact hascending
  | true =>
    have hreverse : rowOrder text field true = fun left right => rowOrder text field false right left :=
      funext₂ (rowOrder_reverse text field)
    rw [ReadSort.order, hreverse]
    exact TransCmp.opposite

variable {request : ReadPlan} {sort : ReadSort}

theorem isFirst_mergeRows (hsort : request.orderBy.head? = some sort) (limit : Nat) (rows newRows : List ServingRow) :
    IsFirst (sort.order text) limit (rows ++ newRows) (mergeRows text rows newRows request limit) := by
  have := transCmp_order htext sort
  rw [mergeRows, hsort]
  exact isFirst_sort limit _

theorem isFirst_executeParallelPlan (hsort : request.orderBy.head? = some sort) (limit : Nat)
    (results : List (List ServingRow)) :
    IsFirst (sort.order text) limit results.flatten (executeParallelPlan text request limit results) := by
  have := transCmp_order htext sort
  -- what has been merged are the first of the answers so far
  suffices hgen : ∀ all merged, IsFirst (sort.order text) limit all merged →
      IsFirst (sort.order text) limit (all ++ results.flatten)
        (results.foldl (fun rows result => mergeRows text rows result request limit) merged) from hgen [] [] isFirst_nil
  induction results with
  | nil =>
    intro all merged h
    rwa [flatten_nil, append_nil]
  | cons result results ih =>
    intro all merged h
    rw [flatten_cons, ← append_assoc]
    exact ih _ _ ((isFirst_mergeRows htext hsort limit merged result).extend h)

/-- **The order of rows** is a total preorder on the values of all types, and descending is its reverse.
Merged rows are the first of all rows, and they are the same up to ties in whatever order the rows come. -/
theorem rowOrder_totalPreorder :
    (∀ a, compareValues text a a = .eq) ∧
    (∀ a b, compareValues text b a = (compareValues text a b).swap) ∧
    (∀ a b, (compareValues text a b).isLE = true → (compareValues text b a).isLE = true →
      compareValues text a b = .eq) ∧
    (∀ a b c, (compareValues text a b).isLE = true → (compareValues text b c).isLE = true →
      (compareValues text a c).isLE = true) ∧
    (∀ a b, compareRowValues text a b true = (compareRowValues text a b false).swap) ∧
    ∀ request sort limit, request.orderBy.head? = some sort →
      (∀ rows newRows rows' newRows', (rows ++ newRows).Perm (rows' ++ newRows') →
        IsFirst (sort.order text) limit (rows ++ newRows) (mergeRows text rows newRows request limit) ∧
        SameKeys (sort.order text) (mergeRows text rows newRows request limit)
          (mergeRows text rows' newRows' request limit)) ∧
      ∀ results results', results.flatten.Perm results'.flatten →
        IsFirst (sort.order text) limit results.flatten (executeParallelPlan text request limit results) ∧
        SameKeys (sort.order text) (executeParallelPlan text request limit results)
          (executeParallelPlan text request limit results') := by
  have := transCmp_compareValues htext
  refine ⟨fun _ => ReflCmp.compare_self, compareValues_swap text, fun _ _ => OrientedCmp.isLE_antisymm,
    fun _ _ _ => TransCmp.isLE_trans, fun _ _ => rfl, fun request sort limit hsort => ?_⟩
  have := transCmp_order htext sort
  refine ⟨fun rows newRows rows' newRows' hperm => ?_, fun results results' hperm => ?_⟩
  · have hfirst := isFirst_mergeRows htext hsort limit rows newRows
    exact ⟨hfirst, (hfirst.perm hperm).sameKeys (isFirst_mergeRows htext hsort limit rows' newRows')⟩
  · have hfirst := isFirst_executeParallelPlan htext hsort limit results
    exact ⟨hfirst, (hfirst.perm hperm).sameKeys (isFirst_executeParallelPlan htext hsort limit results')⟩

end

/-! ### A column of all types -/

def numberText : Number → String
  | .posInt n => toString n
  | .negInt n => "-" ++ toString (n + 1)
  | .float f => (if f.neg then "-" else "") ++ toString f.mant ++ "e" ++ toString f.exp

mutual

/-- A JSON text; characters of strings are not escaped. -/
def jsonTextOf : Value → String
  | .null => "null"
  | .bool b => if b then "true" else "false"
  | .number n => numberText n
  | .string s => "\"" ++ s ++ "\""
  | .array items => "[" ++ itemTexts items ++ "]"
  | .object members => "\x7b" ++ memberTexts members ++ "\x7d"

def itemTexts : List Value → String
  | [] => ""
  | item :: items => jsonTextOf item ++ "," ++ itemTexts items

def memberTexts : List (String × Value) → String
  | [] => ""
  | member :: members => memberText member ++ "," ++ memberTexts members

def memberText : String × Value → String
  | (key, value) => "\"" ++ key ++ "\":" ++ jsonTextOf value

end

theorem exists_head_toString (n : Nat) (text : String) :
    ∃ c ∈ ['0', '1', '2', '3', '4', '5', '6', '7', '8', '9'], ∃ cs, (toString n ++ text).toList = c :: cs := by
  have hne : Nat.toDigits 10 n ≠ [] := by
    rw [Nat.toDigits_eq_if (by decide)]
    split <;> simp
  obtain ⟨c, cs, hdigits⟩ := exists_cons_of_ne_nil hne
  have hdigit : c.isDigit = true := Nat.isDigit_of_mem_toDigits (by decide) (by decide) (hdigits ▸ mem_cons_self)
  refine ⟨c, ?_, cs ++ text.toList, ?_⟩
  · rw [Char.isDigit, Bool.and_eq_true, decide_eq_true_iff, decide_eq_true_iff] at hdigit
    have hlow : 48 ≤ c.toNat := UInt32.le_iff_toNat_le.mp hdigit.1
    have hhigh : c.toNat ≤ 57 := UInt32.le_iff_toNat_le.mp hdigit.2
    have hmem : c ∈ (List.range 10).map fun d => Char.ofNat (d + 48) :=
      mem_map.mpr ⟨c.toNat - 48, mem_range.mpr (by omega), by rw [Nat.sub_add_cancel hlow, Char.ofNat_toNat]⟩
    exact hmem
  · rw [String.toList_append, show (toString n).toList = Nat.toDigits 10 n from Nat.toList_repr, hdigits, cons_append]

theorem jsonTexts_jsonTextOf : JsonTexts jsonTextOf := by
  intro value
  cases value with
  | null => exact ⟨'n', mem_cons_self, _, rfl⟩
  | bool b => cases b <;> exact ⟨_, by decide, _, rfl⟩
  | string s => exact ⟨_, mem_cons_self, _, by simp [jsonTextOf]; rfl⟩
  | array items => exact ⟨_, mem_cons_self, _, by simp [jsonTextOf]; rfl⟩
  | object members => exact ⟨_, mem_cons_self, _, by simp [jsonTextOf]; rfl⟩
  | number n =>
    cases n with
    | posInt n =>
      obtain ⟨c, hc, cs, hcs⟩ := exists_head_toString n ""
      exact ⟨c, mem_cons_of_mem _ hc, cs, by rw [jsonTextOf, numberText, ← hcs, String.append_empty]⟩
    | negInt n => exact ⟨'-', mem_cons_self, _, by simp [jsonTextOf, numberText]; rfl⟩
    | float f =>
      cases hneg : f.neg with
      | true => exact ⟨'-', mem_cons_self, _, by simp [jsonTextOf, numberText, hneg]; rfl⟩
      | false =>
        obtain ⟨c, hc, cs, hcs⟩ := exists_head_toString f.mant ("e" ++ toString f.exp)
        exact ⟨c, mem_cons_of_mem _ hc, cs, by simp [jsonTextOf, numberText, hneg, ← hcs]⟩

theorem rowOrder_totalPreorder_mixed : SameKeys (rowOrder jsonTextOf "score" true)
    (mergeRows jsonTextOf [scoreRow (.string "a"), scoreRow (.array [score 1])]
      [scoreRow (score 5), scoreRow .null, scoreRow (.array [score 2]), scoreRow (.bool true)] (topScore true) 3)
    (mergeRows jsonTextOf [scoreRow (.bool true), scoreRow (.array [score 2]), scoreRow .null, scoreRow (score 5)]
      [scoreRow (.array [score 1]), scoreRow (.string "a")] (topScore true) 3) := by
  have hperm := reverse_perm [scoreRow (.bool true), scoreRow (.array [score 2]), scoreRow .null, scoreRow (score 5),
    scoreRow (.array [score 1]), scoreRow (.string "a")]
  have hmerges := (rowOrder_totalPreorder jsonTexts_jsonTextOf).2.2.2.2.2 (topScore true) ⟨"score", true⟩ 3 rfl
  exact (hmerges.1 _ _ _ _ hperm).2

end PowdrrEngine
