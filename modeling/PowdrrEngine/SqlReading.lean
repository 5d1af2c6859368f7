import PowdrrEngine.SqlFinalize

/-! How an engine reads a rendered filter. `stringize` escapes no quotes, sets no brackets around `IN`,
`IS NULL`, `LIKE` and `NOT`, and renders an empty list as it is, so not every text stands for the expression it
was made from. Where it does, an engine that evaluates each text from the texts of its parts gets the value of
the expression. -/

namespace PowdrrEngine

open SqlExpression List

namespace SqlExpression

def children : SqlExpression → List SqlExpression
  | .and exprs | .or exprs => exprs
  | .arithmetic left _ right | .comparison left _ right | .like left right => [left, right]
  | .average value | .countDistinct value | .isNull value | .not value => [value]
  | .in left right => left :: right
  | .namedStruct entries => entries.map Prod.snd
  | .count | .fieldRef _ _ | .literalNonString _ | .literalString _ | .null _ => []

/-- Expressions that can stand beside an operator: their text is one word, is quoted or ends with the bracket
that it begins with. -/
def isOperand : SqlExpression → Bool
  | .in _ _ | .isNull _ | .like _ _ | .not _ => false
  | _ => true

def arithmeticOperators : List String := ["+", "-", "*", "/", "%"]

/-- A truth value, null or a number without exponent. -/
def isLiteral (value : String) : Bool :=
  value ∈ ["true", "false", "null"] ||
    match value.toList with
    | '-' :: digits => isNumber digits
    | digits => isNumber digits
where
  isNumber (digits : List Char) : Bool :=
    (digits.head?.any Char.isDigit) && digits.all fun c => c.isDigit || c = '.'

/-- The text of an expression is read as this expression, given that its parts are. -/
def isClear : SqlExpression → Bool
  | .and exprs | .or exprs => exprs ≠ []
  | .arithmetic left op right => op ∈ arithmeticOperators && left.isOperand && right.isOperand
  | .comparison left op right => op ∈ SqlEngine.comparisonOperators && left.isOperand && right.isOperand
  | .fieldRef table name => table ≠ "" && table.toList.all Char.isAlphanum && '"' ∉ name.toList
  | .in left right => left.isOperand && right ≠ []
  | .isNull value => value.isOperand
  | .like left right => left.isOperand && right.isOperand
  | .literalNonString value => isLiteral value
  | .literalString value => '\'' ∉ value.toList
  | .namedStruct entries => entries ≠ [] && entries.all fun entry => '\'' ∉ entry.1.toList
  | .average _ | .count | .countDistinct _ | .not _ | .null _ => true

/-- A property of an expression and of all its parts. -/
inductive Throughout (P : SqlExpression → Prop) : SqlExpression → Prop
  | mk {e : SqlExpression} (h : P e) (hparts : ∀ part ∈ e.children, Throughout P part) : Throughout P e

def RendersClearly (e : SqlExpression) : Prop := e.Throughout fun part => part.isClear = true

end SqlExpression

namespace SqlEngine

variable (engine : SqlEngine) (columns : String → String → Value)

/-- The value of an expression from the values of its parts. -/
def evalParts (value : SqlExpression → Value) : SqlExpression → Value
  | .and exprs => .ofTruth (Kleene.all (exprs.map fun e => (value e).truth))
  | .arithmetic left op right => engine.arithmetic op (value left) (value right)
  | .average e => engine.average (value e)
  | .comparison left op right => engine.compare op (value left) (value right)
  | .count => engine.count
  | .countDistinct e => engine.countDistinct (value e)
  | .fieldRef table name => columns table (if table = "t" then denormalizedName name else name)
  | .in left right => .ofTruth (Kleene.any (right.map fun e => (engine.compare "=" (value left) (value e)).truth))
  | .isNull e => .bool (value e = .null)
  | .like left right => engine.like (value left) (value right)
  | .literalNonString text => engine.literal text
  | .literalString text => .string text
  | .namedStruct entries => .object (entries.map fun entry => (entry.1, value entry.2))
  | .not e => .ofTruth (Kleene.not (value e).truth)
  | .null dataType => engine.renderedNull dataType
  | .or exprs => .ofTruth (Kleene.any (exprs.map fun e => (value e).truth))

/-- The value that `sql` gives to the text of an expression. -/
def textValue (sql : String → Value) (e : SqlExpression) : Value := (e.stringize.map sql).getD .null

/-- `sql` evaluates the text of an expression, and the texts of all its parts, from the values of the texts of
their parts, where these are clear. -/
def Reads (sql : String → Value) (e : SqlExpression) : Prop :=
  e.Throughout fun part => part.isClear = true → textValue sql part = engine.evalParts columns (textValue sql) part

variable {engine columns}

theorem evalParts_congr {f g : SqlExpression → Value} {e : SqlExpression} (h : ∀ part ∈ e.children, f part = g part) :
    engine.evalParts columns f e = engine.evalParts columns g e := by
  cases e with
  | and exprs | or exprs =>
    have hmap : exprs.map (fun e => (f e).truth) = exprs.map fun e => (g e).truth :=
      map_congr_left fun e he => congrArg Value.truth (h e he)
    rw [evalParts, evalParts, hmap]
  | arithmetic left _ right | comparison left _ right | like left right =>
    rw [evalParts, evalParts, h left mem_cons_self, h right (mem_cons_of_mem _ mem_cons_self)]
  | average value | countDistinct value | isNull value | not value =>
    simp only [evalParts, h value mem_cons_self]
  | «in» left right =>
    rw [evalParts, evalParts, h left mem_cons_self, map_congr_left fun e he => by rw [h e (mem_cons_of_mem _ he)]]
  | namedStruct entries =>
    rw [evalParts, evalParts, map_congr_left fun entry hentry => by rw [h entry.2 (mem_map_of_mem hentry)]]
  | count | fieldRef | literalNonString | literalString | null => rfl

theorem evalRendered_eq_evalParts (e : SqlExpression) :
    engine.evalRendered columns e = engine.evalParts columns (engine.evalRendered columns) e := by
  have htruths : ∀ exprs, engine.evalTruths columns engine.renderedNull exprs =
      exprs.map fun e => (engine.evalRendered columns e).truth := by
    intro exprs
    induction exprs with
    | nil => rfl
    | cons e exprs ih => rw [evalTruths, ih]; rfl
  have hmembers : ∀ v exprs, engine.evalMembers columns engine.renderedNull v exprs =
      exprs.map fun e => (engine.compare "=" v (engine.evalRendered columns e)).truth := by
    intro v exprs
    induction exprs with
    | nil => rfl
    | cons e exprs ih => rw [evalMembers, ih]; rfl
  have hentries : ∀ entries, engine.evalEntries columns engine.renderedNull entries =
      entries.map fun entry => (entry.1, engine.evalRendered columns entry.2) := by
    intro entries
    induction entries with
    | nil => rfl
    | cons entry entries ih =>
      cases entry
      rw [evalEntries, ih]
      rfl
  cases e with
  | and exprs | or exprs => rw [evalParts, ← htruths]; rfl
  | «in» left right => rw [evalParts, ← hmembers]; rfl
  | namedStruct entries => rw [evalParts, ← hentries]; rfl
  | arithmetic | average | comparison | count | countDistinct | fieldRef | isNull | like | literalNonString
  | literalString | not | null => rfl

/-- **Reading a clear text** gives the value of the expression that was rendered. -/
theorem Reads.textValue_eq {sql : String → Value} {e : SqlExpression} (h : engine.Reads columns sql e)
    (hclear : e.RendersClearly) : textValue sql e = engine.evalRendered columns e := by
  induction h with
  | mk htext _ ih =>
    obtain ⟨hnode, hparts⟩ := hclear
    rw [htext hnode, evalRendered_eq_evalParts]
    exact evalParts_congr fun part hpart => ih part hpart (hparts part hpart)

end SqlEngine

section

variable {engine : SqlEngine} {table file : PowdrrSchema} {columns : String → String → Value}

end

/-- An engine with the literals and the equality that the filters below use. -/
def SqlEngine.plain : SqlEngine where
  literal text := if text = "true" then .bool true else if text = "false" then .bool false else .null
  arithmetic _ _ _ := .null
  compare op v w := if v = .null ∨ w = .null ∨ op ≠ "=" then .null else .bool (v = w)
  like _ _ := .null
  average _ := .null
  count := .null
  countDistinct _ := .null

theorem SqlEngine.lawful_plain : SqlEngine.plain.Lawful where
  literal_null := rfl
  literal_false := rfl
  literal_nullText := by
    intro dataType hne text htext
    cases dataType with
    | boolean => exact absurd rfl hne
    | array | object | null | float | integer | string =>
      cases htext
      rfl
  compare_null _ _ _ := by simp [SqlEngine.plain]

def sampleTable : PowdrrSchema := ⟨[⟨"a", .integer⟩, ⟨"b", .string⟩]⟩

/-- A file without the column `a`. -/
def sampleFile : PowdrrSchema := ⟨[⟨"b", .string⟩]⟩

/-- A filter with the column `a` and with a column `c` that the table does not have. -/
def sampleFilter : SqlExpression :=
  .or [.not (.comparison (.fieldRef "t" "a") "=" (.literalNonString "1")),
    .comparison (.fieldRef "t" "c") "=" (.literalNonString "1"), .in (.fieldRef "t" "b") [.literalString "x"]]

def sampleFinal : SqlExpression :=
  .or [.not (.comparison (.null .integer) "=" (.literalNonString "1")), .literalNonString "false",
    .in (.fieldRef "t" "b") [.literalString "x"]]

/-- The values of the texts of `sampleFinal` on a row with the `b` of `x`. -/
def sampleSql (text : String) : Value :=
  if text ∈ ["(NOT((CAST(NULL AS BIGINT) = 1)) OR false OR t.\"b\" IN ('x'))", "t.\"b\" IN ('x')"] then .bool true
  else if text ∈ ["'x'", "t.\"b\""] then .string "x"
  else if text = "false" then .bool false
  else .null

theorem finalize_sampleFilter : sampleFilter.finalize sampleTable sampleFile = some sampleFinal := by
  have ha : denormalizedName "a" = "a" := by decide +kernel
  have hb : denormalizedName "b" = "b" := by decide +kernel
  have hc : denormalizedName "c" = "c" := by decide +kernel
  simp [sampleFilter, sampleFinal, sampleTable, sampleFile, finalize, finalizeAll, stringize, lookupField,
    PowdrrSchema.toMapGet, ha, hb, hc, PowdrrDataType.nullText, PowdrrDataType.toSqlType, populateField]

theorem throughout_sampleFinal {P : SqlExpression → Prop} (h : ∀ part ∈ [sampleFinal,
      .not (.comparison (.null .integer) "=" (.literalNonString "1")),
      .comparison (.null .integer) "=" (.literalNonString "1"), .null .integer, .literalNonString "1",
      .literalNonString "false", .in (.fieldRef "t" "b") [.literalString "x"], .fieldRef "t" "b",
      .literalString "x"], P part) : sampleFinal.Throughout P := by
  simp only [forall_mem_cons] at h
  obtain ⟨hor, hnot, hcomparison, hnull, hone, hfalse, hin, hfield, htext, -⟩ := h
  have hleaf : ∀ {e : SqlExpression}, P e → e.children = [] → e.Throughout P := fun he hnil =>
    .mk he (by simp [hnil])
  refine .mk hor ?_
  simp only [sampleFinal, children, forall_mem_cons]
  refine ⟨.mk hnot ?_, hleaf hfalse rfl, .mk hin ?_, by simp⟩
  · simp only [children, forall_mem_singleton]
    refine .mk hcomparison ?_
    simp only [children, forall_mem_cons]
    exact ⟨hleaf hnull rfl, hleaf hone rfl, by simp⟩
  · simp only [children, forall_mem_cons]
    exact ⟨hleaf hfield rfl, hleaf htext rfl, by simp⟩

end PowdrrEngine
