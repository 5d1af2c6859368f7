import PowdrrEngine.LibKleene
import PowdrrEngine.SqlExpression

/-! What a filter means. The original filter is read with null for every column the file does not have;
the rendered one is evaluated on the file as it stands, with each placeholder at the value of its text.
Where the two differ is a boolean column, which is rendered as `false`, and a comparison with a column
that the table does not have, which becomes `false` too. -/

namespace PowdrrEngine

open SqlExpression Bool Value Option List

namespace Value

/-- A value as a condition. -/
def truth : Value → Option Bool
  | .bool b => some b
  | _ => none

def ofTruth : Option Bool → Value
  | some b => .bool b
  | none => .null

theorem truth_ofTruth (a : Option Bool) : (ofTruth a).truth = a := by
  cases a <;> rfl

/-- A row is selected where its condition is true. -/
def selected (v : Value) : Prop := v = .bool true

instance (v : Value) : Decidable v.selected := inferInstanceAs (Decidable (v = .bool true))

theorem selected_iff (v : Value) : v.selected ↔ v.truth = some true := by
  unfold selected
  cases v with
  | bool b => cases b <;> simp [truth]
  | null | number | string | array | object => simp [truth]

theorem selected_ofTruth (a : Option Bool) : (ofTruth a).selected ↔ a = some true := by
  rw [selected_iff, truth_ofTruth]

end Value

/-- The scalar functions of the SQL engine. -/
structure SqlEngine where
  literal : String → Value
  arithmetic : String → Value → Value → Value
  compare : String → Value → Value → Value
  like : Value → Value → Value
  average : Value → Value
  count : Value
  countDistinct : Value → Value

namespace SqlEngine

def comparisonOperators : List String := ["=", "<>", "!=", "<", "<=", ">", ">="]

/-- What is assumed of an engine: how it reads the texts that `finalize` puts in, and that a comparison
with null is null. -/
structure Lawful (engine : SqlEngine) : Prop where
  literal_null : engine.literal "null" = .null
  literal_false : engine.literal "false" = .bool false
  literal_nullText : ∀ dataType : PowdrrDataType, dataType ≠ .boolean → ∀ text,
    dataType.nullText = some text → engine.literal text = .null
  compare_null : ∀ op ∈ comparisonOperators, ∀ v, engine.compare op .null v = .null

variable (engine : SqlEngine) (columns : String → String → Value) (placeholder : PowdrrDataType → Value)

mutual

def eval : SqlExpression → Value
  | .and exprs => .ofTruth (Kleene.all (evalTruths exprs))
  | .arithmetic left op right => engine.arithmetic op (eval left) (eval right)
  | .average value => engine.average (eval value)
  | .comparison left op right => engine.compare op (eval left) (eval right)
  | .count => engine.count
  | .countDistinct value => engine.countDistinct (eval value)
  | .fieldRef table name => columns table (if table = "t" then denormalizedName name else name)
  | .in left right => .ofTruth (Kleene.any (evalMembers (eval left) right))
  | .isNull value => .bool (eval value = .null)
  | .like left right => engine.like (eval left) (eval right)
  | .literalNonString value => engine.literal value
  | .literalString value => .string value
  | .namedStruct entries => .object (evalEntries entries)
  | .not value => .ofTruth (Kleene.not (eval value).truth)
  | .null dataType => placeholder dataType
  | .or exprs => .ofTruth (Kleene.any (evalTruths exprs))

def evalTruths : List SqlExpression → List (Option Bool)
  | [] => []
  | expr :: exprs => (eval expr).truth :: evalTruths exprs

/-- `v IN (...)` is a disjunction of equalities. -/
def evalMembers (v : Value) : List SqlExpression → List (Option Bool)
  | [] => []
  | expr :: exprs => (engine.compare "=" v (eval expr)).truth :: evalMembers v exprs

def evalEntries : List (String × SqlExpression) → List (String × Value)
  | [] => []
  | entry :: entries => evalEntry entry :: evalEntries entries

def evalEntry : String × SqlExpression → String × Value
  | (name, expr) => (name, eval expr)

end

def renderedNull (dataType : PowdrrDataType) : Value := engine.literal (dataType.nullText.getD "")

def evalRendered : SqlExpression → Value := engine.eval columns engine.renderedNull

end SqlEngine

def readMissing (file : PowdrrSchema) (columns : String → String → Value) (table name : String) : Value :=
  if table = "t" ∧ lookupField file name = none then .null else columns table name

def SqlEngine.evalOriginal (engine : SqlEngine) (file : PowdrrSchema) (columns : String → String → Value) :
    SqlExpression → Value :=
  engine.eval (readMissing file columns) fun _ => .null

namespace SqlExpression

/-- An expression whose text after `finalize` is that of a null: the literal, or a column that the table
does not have. -/
def isNullText (table : PowdrrSchema) : SqlExpression → Bool
  | .literalNonString value => value = "null"
  | .fieldRef t name => t = "t" && (lookupField table (denormalizedName name)).isNone
  | _ => false

section

variable (table file : PowdrrSchema)

/-- The columns that `finalize` keeps the value of. -/
def exactColumn (name : String) : Bool :=
  match lookupField table name, lookupField file name with
  | some original, some target => !(original.dataType.isObject && target.dataType.isObject)
  | some original, none => original.dataType ≠ .boolean
  | none, target => target.isNone

mutual

/-- An expression that has its value after `finalize`. -/
def exact : SqlExpression → Bool
  | .and exprs | .or exprs => exactAll exprs
  | .arithmetic left _ right | .like left right => exact left && exact right
  | .average value | .countDistinct value | .isNull value | .not value => exact value
  | .comparison left _ right => exact left && exact right && !left.isNullText table
  | .count | .literalNonString _ | .literalString _ => true
  | .fieldRef t name => if t = "t" then exactColumn table file (denormalizedName name) else !name.contains '.'
  | .in left right => exact left && exactAll right
  | .namedStruct entries => exactEntries entries
  | .null dataType => dataType ≠ .boolean

def exactAll : List SqlExpression → Bool
  | [] => true
  | expr :: exprs => exact expr && exactAll exprs

def exactEntries : List (String × SqlExpression) → Bool
  | [] => true
  | entry :: entries => exactEntry entry && exactEntries entries

def exactEntry : String × SqlExpression → Bool
  | (_, expr) => exact expr

end

mutual

/-- A filter that selects the same rows after `finalize`: a comparison with a column that the table does
not have may stand where no denial reaches it. -/
def selectsAlike : SqlExpression → Bool
  | .and exprs | .or exprs => selectsAlikeAll exprs
  | .comparison left op right =>
    exact table file left && exact table file right &&
      (!left.isNullText table || decide (op ∈ SqlEngine.comparisonOperators))
  | expr => exact table file expr

def selectsAlikeAll : List SqlExpression → Bool
  | [] => true
  | expr :: exprs => selectsAlike expr && selectsAlikeAll exprs

end

end

end SqlExpression

/-! ### Expressions that keep their value -/

theorem nullText_spec (dataType : PowdrrDataType) : ∃ text, dataType.nullText = some text ∧ text ≠ "null" := by
  cases dataType with
  | object _ | array _ | null => exact ⟨_, rfl, by decide⟩
  | boolean | float | integer | string => exact ⟨_, rfl, by decide⟩

section

variable (engine : SqlEngine) (table file : PowdrrSchema) (columns : String → String → Value)

/-- What `finalize` makes of an expression that keeps its value. -/
structure Kept (e e' : SqlExpression) : Prop where
  finalized : e.finalize table file = some e'
  rendered : ∃ text, e'.stringize = some text ∧ (text = "null" → e.isNullText table = true)
  value : engine.evalRendered columns e' = engine.evalOriginal file columns e

structure KeptAll (es es' : List SqlExpression) : Prop where
  finalized : finalizeAll table file es = some es'
  rendered : ∃ texts, stringizeAll es' = some texts
  truths : engine.evalTruths columns engine.renderedNull es' =
    engine.evalTruths (readMissing file columns) (fun _ => .null) es
  members : ∀ v, engine.evalMembers columns engine.renderedNull v es' =
    engine.evalMembers (readMissing file columns) (fun _ => .null) v es

/-- ... and of the members of a struct. -/
structure KeptEntries (es es' : List (String × SqlExpression)) : Prop where
  finalized : finalizeEntries table file es = some es'
  rendered : ∃ texts, stringizeEntries es' = some texts
  values : engine.evalEntries columns engine.renderedNull es' =
    engine.evalEntries (readMissing file columns) (fun _ => .null) es

end

section

variable {engine : SqlEngine} {table file : PowdrrSchema} {columns : String → String → Value}

theorem Kept.of_text {e e' : SqlExpression} {text : String} {c : Char}
    (hfinalized : e.finalize table file = some e') (htext : e'.stringize = some text)
    (hvalue : engine.evalRendered columns e' = engine.evalOriginal file columns e)
    (hmem : c ∈ text.toList := by simp) (hc : c ∉ "null".toList := by decide) :
    Kept engine table file columns e e' :=
  ⟨hfinalized, ⟨text, htext, fun hnull => absurd (hnull ▸ hmem) hc⟩, hvalue⟩

theorem populateField_eq_self {self : SqlExpression} {original target : PowdrrDataType}
    (h : (original.isObject && target.isObject) = false) :
    populateField self target original = self := by
  cases original with
  | object schema =>
    obtain ⟨fields⟩ := schema
    cases target with
    | object => cases h
    | array | boolean | float | integer | null | string => rfl
  | array | boolean | float | integer | null | string => rfl

theorem kept_fieldRef (hlaw : engine.Lawful) (name : String)
    (h : exactColumn table file (denormalizedName name) = true) :
    ∃ e', Kept engine table file columns (.fieldRef "t" name) e' := by
  unfold exactColumn at h
  have hself : stringize (.fieldRef "t" name) = some ("t" ++ ".\"" ++ denormalizedName name ++ "\"") := if_pos rfl
  have hvalue : engine.evalOriginal file columns (.fieldRef "t" name) =
      readMissing file columns "t" (denormalizedName name) := rfl
  cases htable : lookupField table (denormalizedName name) with
  | none =>
    rw [htable] at h
    have hfile : lookupField file (denormalizedName name) = none := isNone_iff_eq_none.mp h
    refine ⟨.literalNonString "null", ?_, ⟨"null", rfl, fun _ => ?_⟩, ?_⟩
    · rw [finalize, if_pos rfl, htable]
    · rw [isNullText, htable]
      rfl
    · rw [hvalue, readMissing, if_pos ⟨rfl, hfile⟩]
      exact hlaw.literal_null
  | some original =>
    rw [htable] at h
    cases hfile : lookupField file (denormalizedName name) with
    | none =>
      rw [hfile] at h
      obtain ⟨text, htext, hne⟩ := nullText_spec original.dataType
      refine ⟨.null original.dataType, ?_, ⟨text, htext, fun hnull => absurd hnull hne⟩, ?_⟩
      · rw [finalize, if_pos rfl, htable, hfile]
      · rw [hvalue, readMissing, if_pos ⟨rfl, hfile⟩]
        change engine.literal (original.dataType.nullText.getD "") = _
        rw [htext]
        exact hlaw.literal_nullText _ (of_decide_eq_true h) text htext
    | some target =>
      rw [hfile] at h
      have hkept : populateField (.fieldRef "t" name) target.dataType original.dataType =
          .fieldRef "t" name := populateField_eq_self (not_eq_true' _ ▸ h)
      refine ⟨.fieldRef "t" name, .of_text (c := '.') ?_ hself ?_⟩
      · rw [finalize, if_pos rfl, htable, hfile]
        exact congrArg some hkept
      · rw [hvalue, readMissing, if_neg (by simp [hfile])]
        rfl

mutual

theorem exact_kept (hlaw : engine.Lawful) : (e : SqlExpression) → exact table file e = true →
    ∃ e', Kept engine table file columns e e'
  | .and exprs, h => by
    obtain ⟨exprs', hall⟩ := exactAll_kept hlaw exprs h
    obtain ⟨texts, htexts⟩ := hall.rendered
    refine ⟨.and exprs', .of_text (c := '(') ?_ (by rw [stringize, htexts]; rfl)
      (congrArg (Value.ofTruth ∘ Kleene.all) hall.truths)⟩
    rw [finalize, hall.finalized]
    rfl
  | .or exprs, h => by
    obtain ⟨exprs', hall⟩ := exactAll_kept hlaw exprs h
    obtain ⟨texts, htexts⟩ := hall.rendered
    refine ⟨.or exprs', .of_text (c := '(') ?_ (by rw [stringize, htexts]; rfl)
      (congrArg (Value.ofTruth ∘ Kleene.any) hall.truths)⟩
    rw [finalize, hall.finalized]
    rfl
  | .arithmetic left op right, h => by
    obtain ⟨hleft, hright⟩ := (and_eq_true _ _).mp h
    obtain ⟨left', hl⟩ := exact_kept hlaw left hleft
    obtain ⟨right', hr⟩ := exact_kept hlaw right hright
    obtain ⟨ltext, hltext, -⟩ := hl.rendered
    obtain ⟨rtext, hrtext, -⟩ := hr.rendered
    refine ⟨.arithmetic left' op right', .of_text (c := '(') ?_
      (by rw [stringize, hltext, hrtext]; rfl) (congrArg₂ (engine.arithmetic op) hl.value hr.value)⟩
    rw [finalize, hl.finalized, hr.finalized]
    rfl
  | .average value, h => by
    obtain ⟨value', hv⟩ := exact_kept hlaw value h
    obtain ⟨text, htext, -⟩ := hv.rendered
    refine ⟨.average value', .of_text (c := '(') ?_ (by rw [stringize, htext]; rfl) (congrArg engine.average hv.value)⟩
    rw [finalize, hv.finalized]
    rfl
  | .comparison left op right, h => by
    obtain ⟨hboth, hnot⟩ := (and_eq_true _ _).mp h
    obtain ⟨hleft, hright⟩ := (and_eq_true _ _).mp hboth
    obtain ⟨left', hl⟩ := exact_kept hlaw left hleft
    obtain ⟨right', hr⟩ := exact_kept hlaw right hright
    obtain ⟨ltext, hltext, hnull⟩ := hl.rendered
    obtain ⟨rtext, hrtext, -⟩ := hr.rendered
    refine ⟨.comparison left' op right', .of_text (c := '(') ?_
      (by rw [stringize, hltext, hrtext]; rfl) (congrArg₂ (engine.compare op) hl.value hr.value)⟩
    have hne : ltext ≠ "null" := fun heq => by
      rw [hnull heq] at hnot
      cases hnot
    rw [finalize, hl.finalized, hr.finalized]
    simp only [bind_eq_bind, bind_some, hltext, if_neg hne]
  | .count, _ => ⟨.count, .of_text (c := '(') rfl rfl rfl⟩
  | .countDistinct value, h => by
    obtain ⟨value', hv⟩ := exact_kept hlaw value h
    obtain ⟨text, htext, -⟩ := hv.rendered
    refine ⟨.countDistinct value', .of_text (c := '(') ?_ (by rw [stringize, htext]; rfl)
      (congrArg engine.countDistinct hv.value)⟩
    rw [finalize, hv.finalized]
    rfl
  | .fieldRef t name, h => by
    by_cases ht : t = "t"
    · subst ht
      rw [exact, if_pos rfl] at h
      exact kept_fieldRef hlaw name h
    rw [exact, if_neg ht] at h
    have htext : stringize (.fieldRef t name) = some (t ++ ".\"" ++ name ++ "\"") := by
      rw [stringize, if_neg ht, if_neg fun hdot => by rw [hdot] at h; cases h]
    refine ⟨.fieldRef t name, .of_text (c := '.') ?_ htext ?_⟩
    · rw [finalize, if_neg ht]
    · change columns t _ = readMissing file columns t _
      rw [if_neg ht, readMissing, if_neg fun hand => ht hand.1]
  | .in left right, h => by
    obtain ⟨hleft, hright⟩ := (and_eq_true _ _).mp h
    obtain ⟨left', hl⟩ := exact_kept hlaw left hleft
    obtain ⟨right', hr⟩ := exactAll_kept hlaw right hright
    obtain ⟨ltext, hltext, -⟩ := hl.rendered
    obtain ⟨rtexts, hrtexts⟩ := hr.rendered
    refine ⟨.in left' right', .of_text (c := '(') ?_ (by rw [stringize, hltext, hrtexts]; rfl) ?_⟩
    · rw [finalize, hl.finalized, hr.finalized]
      rfl
    · exact congrArg (Value.ofTruth ∘ Kleene.any) ((hr.members _).trans
        (congrArg (fun v => engine.evalMembers (readMissing file columns) (fun _ => .null) v right) hl.value))
  | .isNull value, h => by
    obtain ⟨value', hv⟩ := exact_kept hlaw value h
    obtain ⟨text, htext, -⟩ := hv.rendered
    refine ⟨.isNull value', .of_text (c := ' ') ?_ (by rw [stringize, htext]; rfl)
      (congrArg (fun v => Value.bool (decide (v = Value.null))) hv.value)⟩
    rw [finalize, hv.finalized]
    rfl
  | .like left right, h => by
    obtain ⟨hleft, hright⟩ := (and_eq_true _ _).mp h
    obtain ⟨left', hl⟩ := exact_kept hlaw left hleft
    obtain ⟨right', hr⟩ := exact_kept hlaw right hright
    obtain ⟨ltext, hltext, -⟩ := hl.rendered
    obtain ⟨rtext, hrtext, -⟩ := hr.rendered
    refine ⟨.like left' right', .of_text (c := ' ') ?_
      (by rw [stringize, hltext, hrtext]; rfl) (congrArg₂ engine.like hl.value hr.value)⟩
    rw [finalize, hl.finalized, hr.finalized]
    rfl
  | .literalNonString value, _ =>
    ⟨.literalNonString value, rfl, ⟨value, rfl, fun hnull => decide_eq_true hnull⟩, rfl⟩
  | .literalString value, _ => ⟨.literalString value, .of_text (c := '\'') rfl rfl rfl⟩
  | .namedStruct entries, h => by
    obtain ⟨entries', hall⟩ := exactEntries_kept hlaw entries h
    obtain ⟨texts, htexts⟩ := hall.rendered
    refine ⟨.namedStruct entries', .of_text (c := '(') ?_ (by rw [stringize, htexts]; rfl)
      (congrArg Value.object hall.values)⟩
    rw [finalize, hall.finalized]
    rfl
  | .not value, h => by
    obtain ⟨value', hv⟩ := exact_kept hlaw value h
    obtain ⟨text, htext, -⟩ := hv.rendered
    refine ⟨.not value', .of_text (c := '(') ?_ (by rw [stringize, htext]; rfl)
      (congrArg (fun v => Value.ofTruth (Kleene.not (Value.truth v))) hv.value)⟩
    rw [finalize, hv.finalized]
    rfl
  | .null dataType, h => by
    obtain ⟨text, htext, hne⟩ := nullText_spec dataType
    refine ⟨.null dataType, rfl, ⟨text, htext, fun hnull => absurd hnull hne⟩, ?_⟩
    change engine.literal (dataType.nullText.getD "") = .null
    rw [htext]
    exact hlaw.literal_nullText _ (of_decide_eq_true h) text htext
termination_by structural e => e

theorem exactAll_kept (hlaw : engine.Lawful) : (es : List SqlExpression) → exactAll table file es = true →
      ∃ es', KeptAll engine table file columns es es'
  | [], _ => ⟨[], rfl, ⟨[], rfl⟩, rfl, fun _ => rfl⟩
  | e :: es, h => by
    obtain ⟨hfirst, hrest⟩ := (and_eq_true _ _).mp h
    obtain ⟨e', he⟩ := exact_kept hlaw e hfirst
    obtain ⟨es', hes⟩ := exactAll_kept hlaw es hrest
    obtain ⟨text, htext, -⟩ := he.rendered
    obtain ⟨texts, htexts⟩ := hes.rendered
    refine ⟨e' :: es', ?_, ⟨text :: texts, ?_⟩, ?_, fun v => ?_⟩
    · rw [finalizeAll, he.finalized, hes.finalized]
      rfl
    · rw [stringizeAll, htext, htexts]
      rfl
    · exact congrArg₂ List.cons (congrArg Value.truth he.value) hes.truths
    · exact congrArg₂ List.cons (congrArg (fun w => Value.truth (engine.compare "=" v w)) he.value)
        (hes.members v)
termination_by structural es => es

theorem exactEntries_kept (hlaw : engine.Lawful) :
    (es : List (String × SqlExpression)) → exactEntries table file es = true →
      ∃ es', KeptEntries engine table file columns es es'
  | [], _ => ⟨[], rfl, ⟨[], rfl⟩, rfl⟩
  | entry :: es, h => by
    obtain ⟨hfirst, hrest⟩ := (and_eq_true _ _).mp h
    obtain ⟨e', hname, he, hvalue⟩ := exactEntry_kept hlaw entry hfirst
    obtain ⟨es', hes⟩ := exactEntries_kept hlaw es hrest
    obtain ⟨text, htext, -⟩ := he.rendered
    obtain ⟨texts, htexts⟩ := hes.rendered
    refine ⟨(entry.1, e') :: es', ?_, ⟨("'" ++ entry.1 ++ "', " ++ text) :: texts, ?_⟩, ?_⟩
    · rw [finalizeEntries, hname, hes.finalized]
      rfl
    · rw [stringizeEntries, stringizeEntry, htext, htexts]
      rfl
    · exact congrArg₂ List.cons hvalue hes.values
termination_by structural es => es

theorem exactEntry_kept (hlaw : engine.Lawful) : (entry : String × SqlExpression) → exactEntry table file entry = true →
      ∃ e', finalizeEntry table file entry = some (entry.1, e') ∧ Kept engine table file columns entry.2 e' ∧
          engine.evalEntry columns engine.renderedNull (entry.1, e') =
            engine.evalEntry (readMissing file columns) (fun _ => .null) entry
  | (name, e), h => by
    obtain ⟨e', he⟩ := exact_kept hlaw e h
    refine ⟨e', ?_, he, congrArg (Prod.mk name) he.value⟩
    rw [finalizeEntry, he.finalized]
    rfl
termination_by structural entry => entry

end

/-! ### Filters that select the same rows -/

section

variable (engine table file columns)

/-- What `finalize` makes of a filter that selects the same rows. -/
structure Alike (e e' : SqlExpression) : Prop where
  finalized : e.finalize table file = some e'
  rendered : ∃ text, e'.stringize = some text
  selected : (engine.evalRendered columns e').selected ↔ (engine.evalOriginal file columns e).selected

structure AlikeAll (es es' : List SqlExpression) : Prop where
  finalized : finalizeAll table file es = some es'
  rendered : ∃ texts, stringizeAll es' = some texts
  all : (∀ a ∈ engine.evalTruths columns engine.renderedNull es', a = some true) ↔
    ∀ a ∈ engine.evalTruths (readMissing file columns) (fun _ => .null) es, a = some true
  any : some true ∈ engine.evalTruths columns engine.renderedNull es' ↔
    some true ∈ engine.evalTruths (readMissing file columns) (fun _ => .null) es

end

theorem Kept.alike {e e' : SqlExpression} (h : Kept engine table file columns e e') :
    Alike engine table file columns e e' := by
  obtain ⟨text, htext, -⟩ := h.rendered
  exact ⟨h.finalized, ⟨text, htext⟩, by rw [h.value]⟩

theorem isNullText_spec (hlaw : engine.Lawful) {e : SqlExpression} (h : e.isNullText table = true)
    (hexact : exact table file e = true) :
    e.finalize table file = some (.literalNonString "null") ∧ engine.evalOriginal file columns e = .null := by
  cases e with
  | literalNonString value =>
    obtain rfl : value = "null" := of_decide_eq_true h
    exact ⟨rfl, hlaw.literal_null⟩
  | fieldRef t name =>
    obtain ⟨ht, hnone⟩ := (and_eq_true _ _).mp h
    obtain rfl : t = "t" := of_decide_eq_true ht
    have htable := isNone_iff_eq_none.mp hnone
    rw [exact, if_pos rfl, exactColumn, htable] at hexact
    refine ⟨by rw [finalize, if_pos rfl, htable], ?_⟩
    change readMissing file columns "t" (denormalizedName name) = .null
    rw [readMissing, if_pos ⟨rfl, isNone_iff_eq_none.mp hexact⟩]
  | and | arithmetic | average | comparison | count | countDistinct | «in» | isNull | like | literalString
    | namedStruct | not | null | or => cases h

theorem alike_comparison (hlaw : engine.Lawful) {left right : SqlExpression} {op : String}
    (h : selectsAlike table file (.comparison left op right) = true) :
    ∃ e', Alike engine table file columns (.comparison left op right) e' := by
  obtain ⟨hboth, hop⟩ := (and_eq_true _ _).mp h
  obtain ⟨hleft, hright⟩ := (and_eq_true _ _).mp hboth
  cases hnull : left.isNullText table with
  | false =>
    have hexact : exact table file (.comparison left op right) = true := by
      rw [exact, hboth, hnull]
      rfl
    obtain ⟨e', hkept⟩ := exact_kept hlaw _ hexact
    exact ⟨e', hkept.alike⟩
  | true =>
    rw [hnull] at hop
    obtain ⟨hfinalized, hvalue⟩ : _ ∧ engine.evalOriginal file columns left = .null := isNullText_spec hlaw hnull hleft
    obtain ⟨right', hr⟩ : ∃ right', Kept engine table file columns right right' := exact_kept hlaw right hright
    refine ⟨.literalNonString "false", ?_, ⟨"false", rfl⟩, ?_⟩
    · rw [finalize, hfinalized, hr.finalized]
      rfl
    · change (engine.literal "false").selected ↔ (engine.compare op (engine.evalOriginal file columns left)
        (engine.evalOriginal file columns right)).selected
      rw [hlaw.literal_false, hvalue, hlaw.compare_null op (of_decide_eq_true hop)]
      exact ⟨nofun, nofun⟩

mutual

theorem selectsAlike_alike (hlaw : engine.Lawful) : (e : SqlExpression) → selectsAlike table file e = true →
      ∃ e', Alike engine table file columns e e'
  | .and exprs, h => by
    obtain ⟨exprs', hall⟩ := selectsAlikeAll_alike hlaw exprs h
    obtain ⟨texts, htexts⟩ := hall.rendered
    refine ⟨.and exprs', ?_, ⟨_, by rw [stringize, htexts]; rfl⟩, ?_⟩
    · rw [finalize, hall.finalized]
      rfl
    · change (Value.ofTruth _).selected ↔ (Value.ofTruth _).selected
      rw [selected_ofTruth, selected_ofTruth, Kleene.all_eq_true, Kleene.all_eq_true]
      exact hall.all
  | .or exprs, h => by
    obtain ⟨exprs', hall⟩ := selectsAlikeAll_alike hlaw exprs h
    obtain ⟨texts, htexts⟩ := hall.rendered
    refine ⟨.or exprs', ?_, ⟨_, by rw [stringize, htexts]; rfl⟩, ?_⟩
    · rw [finalize, hall.finalized]
      rfl
    · change (Value.ofTruth _).selected ↔ (Value.ofTruth _).selected
      rw [selected_ofTruth, selected_ofTruth, Kleene.any_eq_true, Kleene.any_eq_true]
      exact hall.any
  | .comparison left op right, h => alike_comparison hlaw h
  | .arithmetic left op right, h | .average value, h | .count, h | .countDistinct value, h
  | .fieldRef t name, h | .in left right, h | .isNull value, h | .like left right, h
  | .literalNonString value, h | .literalString value, h | .namedStruct entries, h | .not value, h
  | .null dataType, h => by
    obtain ⟨e', hkept⟩ := exact_kept hlaw _ h
    exact ⟨e', hkept.alike⟩
termination_by structural e => e

theorem selectsAlikeAll_alike (hlaw : engine.Lawful) :
    (es : List SqlExpression) → selectsAlikeAll table file es = true → ∃ es', AlikeAll engine table file columns es es'
  | [], _ => ⟨[], rfl, ⟨[], rfl⟩, Iff.rfl, Iff.rfl⟩
  | e :: es, h => by
    obtain ⟨hfirst, hrest⟩ := (and_eq_true _ _).mp h
    obtain ⟨e', he⟩ := selectsAlike_alike hlaw e hfirst
    obtain ⟨es', hes⟩ := selectsAlikeAll_alike hlaw es hrest
    obtain ⟨text, htext⟩ := he.rendered
    obtain ⟨texts, htexts⟩ := hes.rendered
    have htruth : (engine.evalRendered columns e').truth = some true ↔
        (engine.evalOriginal file columns e).truth = some true := by
      rw [← Value.selected_iff, ← Value.selected_iff]
      exact he.selected
    refine ⟨e' :: es', ?_, ⟨text :: texts, ?_⟩, ?_, ?_⟩
    · rw [finalizeAll, he.finalized, hes.finalized]
      rfl
    · rw [stringizeAll, htext, htexts]
      rfl
    · rw [SqlEngine.evalTruths, SqlEngine.evalTruths, forall_mem_cons, forall_mem_cons, hes.all]
      exact and_congr_left' htruth
    · rw [SqlEngine.evalTruths, SqlEngine.evalTruths, mem_cons, mem_cons, hes.any, eq_comm,
        @eq_comm _ (some true) (Value.truth (engine.eval (readMissing file columns) _ e))]
      exact or_congr_left htruth
termination_by structural es => es

end

end

end PowdrrEngine
