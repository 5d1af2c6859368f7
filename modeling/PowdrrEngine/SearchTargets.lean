import PowdrrEngine.ContractTables
import Mathlib.Data.List.Destutter
import Mathlib.Data.List.DropRight
import Mathlib.Data.List.Sort
import Mathlib.Data.String.Basic

/-! The index patterns of a search request. A pattern is matched by one loop that remembers only the last
star: when the text behind it does not fit, that star takes one more character. -/

namespace PowdrrEngine

open List

/-- The loops of `wildcard_matches`, with what is left of both texts. Of the last star the state has the
pattern behind it and what has been read of the value since. -/
def wildcardLoop (pattern value : List Char) (lastStar : Option (List Char × List Char)) : Bool :=
  match value with
  | [] => pattern.all (· = '*')
  | c :: value =>
    if pattern.head? = some '?' ∨ pattern.head? = some c then
      wildcardLoop pattern.tail value (lastStar.map fun (after, read) => (after, read ++ [c]))
    else if pattern.head? = some '*' then wildcardLoop pattern.tail (c :: value) (some (pattern.tail, []))
    else
      match lastStar with
      | none => false
      | some (after, read) => wildcardLoop after (read ++ c :: value).tail (some (after, []))
termination_by ((lastStar.map fun star => star.2.length + value.length).getD (value.length + 1),
  pattern.length + value.length)
decreasing_by
  all_goals simp_all [Prod.lex_def]
  · cases lastStar <;> cases pattern <;> simp_all
    omega
  · cases lastStar <;> cases pattern <;> simp_all [length_pos_iff, or_comm, em]

def wildcardMatches (pattern value : String) : Bool := wildcardLoop pattern.toList value.toList none

/-- A text is obtained from a pattern: each star is replaced by some text, each question mark by one
character, and any other character stays. -/
inductive Obtained : List Char → List Char → Prop
  | nil : Obtained [] []
  | star {pattern value : List Char} (part : List Char) :
    Obtained pattern value → Obtained ('*' :: pattern) (part ++ value)
  | char {pattern value : List Char} {p c : Char} (hstar : p ≠ '*') (hchar : p = '?' ∨ p = c) :
    Obtained pattern value → Obtained (p :: pattern) (c :: value)

namespace Obtained

variable {p c : Char} {pattern value : List Char}

theorem cons_iff (hp : p ≠ '*') :
    Obtained (p :: pattern) value ↔ ∃ c rest, value = c :: rest ∧ (p = '?' ∨ p = c) ∧ Obtained pattern rest := by
  constructor
  · rintro (_ | _ | ⟨-, hc, h⟩)
    · exact absurd rfl hp
    · exact ⟨_, _, rfl, hc, h⟩
  · rintro ⟨c, rest, rfl, hc, h⟩
    exact .char hp hc h

theorem star_iff : Obtained ('*' :: pattern) value ↔ ∃ rest, rest <:+ value ∧ Obtained pattern rest := by
  constructor
  · rintro (_ | ⟨part, h⟩ | ⟨hstar, -, -⟩)
    · exact ⟨_, suffix_append _ _, h⟩
    · exact absurd rfl hstar
  · rintro ⟨rest, ⟨part, rfl⟩, h⟩
    exact .star part h

theorem nil_iff : Obtained pattern [] ↔ pattern.all (· = '*') = true := by
  induction pattern with
  | nil => exact iff_of_true .nil rfl
  | cons p pattern ih =>
    rw [all_cons, Bool.and_eq_true, decide_eq_true_iff, ← ih]
    by_cases hp : p = '*'
    · subst hp
      simp [star_iff]
    · simp [cons_iff hp, hp]

theorem head?_eq (h : Obtained pattern (c :: value)) :
    (pattern.head? = some '?' ∨ pattern.head? = some c) ∨ pattern.head? = some '*' := by
  cases pattern with
  | nil => cases h
  | cons p pattern =>
    by_cases hp : p = '*'
    · exact Or.inr (congrArg some hp)
    · obtain ⟨_, _, ⟨⟩, hc, -⟩ := (cons_iff hp).mp h
      exact Or.inl (hc.imp (congrArg some) (congrArg some))

end Obtained

/-- The pattern behind a star has been read up to some place: one character of the value for each of its
characters. -/
structure ReadUpTo (after read pattern : List Char) : Prop where
  obtained : ∀ {rest}, Obtained pattern rest → Obtained after (read ++ rest)
  rest : ∀ {value}, Obtained after value →
    ∃ rest, rest <:+ value ∧ value.length = read.length + rest.length ∧ Obtained pattern rest

namespace ReadUpTo

variable {p c : Char} {after read pattern value : List Char}

theorem start (after : List Char) : ReadUpTo after [] after :=
  ⟨id, fun {value} h => ⟨value, suffix_rfl, (Nat.zero_add _).symm, h⟩⟩

theorem next (h : ReadUpTo after read (p :: pattern)) (hp : p ≠ '*') (hc : p = '?' ∨ p = c) :
    ReadUpTo after (read ++ [c]) pattern where
  obtained hrest := by
    rw [append_assoc]
    exact h.obtained (.char hp hc hrest)
  rest hvalue := by
    obtain ⟨_, hsuffix, hlength, hrest⟩ := h.rest hvalue
    obtain ⟨_, rest, rfl, -, hrest⟩ := (Obtained.cons_iff hp).mp hrest
    refine ⟨rest, (suffix_cons _ _).trans hsuffix, ?_, hrest⟩
    rw [hlength, length_append, length_cons, length_singleton, Nat.add_assoc, Nat.add_comm 1]

/-- What was read behind the star is not needed again: the rest of the pattern finds its place in the rest
of the value. -/
theorem reaches_iff (h : ReadUpTo after read pattern)
    (hsuffix : ∀ rest, rest <:+ value → Obtained pattern rest → Obtained pattern value) :
    Obtained pattern value ↔ Obtained ('*' :: after) (read ++ value) := by
  refine ⟨fun hvalue => .star [] (h.obtained hvalue), fun hstar => ?_⟩
  obtain ⟨taken, htaken, hafter⟩ := Obtained.star_iff.mp hstar
  obtain ⟨rest, hrest, hlength, hpattern⟩ := h.rest hafter
  refine hsuffix rest (suffix_of_suffix_length_le (hrest.trans htaken) (suffix_append _ _) ?_) hpattern
  have hle := htaken.length_le
  rw [length_append] at hle
  omega

theorem retry (h : ReadUpTo after read pattern) (hno : ¬ Obtained pattern (c :: value)) :
    Obtained ('*' :: after) (read ++ c :: value) ↔ Obtained ('*' :: after) (read ++ c :: value).tail := by
  rw [Obtained.star_iff, Obtained.star_iff]
  constructor
  · rintro ⟨taken, ⟨part, hpart⟩, hafter⟩
    refine ⟨taken, ?_, hafter⟩
    cases part with
    | cons d part =>
      rw [← hpart]
      exact suffix_append _ _
    | nil =>
      rw [nil_append] at hpart
      obtain ⟨rest, hrest, hlength, hpattern⟩ := h.rest hafter
      rw [hpart] at hrest hlength
      have heq : rest = c :: value := by
        refine (suffix_of_suffix_length_le hrest (suffix_append _ _) ?_).eq_of_length ?_ <;>
          · rw [length_append] at hlength
            omega
      exact absurd (heq ▸ hpattern) hno
  · rintro ⟨taken, htaken, hafter⟩
    exact ⟨taken, htaken.trans (tail_suffix _), hafter⟩

end ReadUpTo

/-- What the loop decides: with a star behind it, whether that star can take some of the value that was
not yet given to it. -/
def Reaches (pattern value : List Char) : Option (List Char × List Char) → Prop
  | none => Obtained pattern value
  | some (after, read) => Obtained ('*' :: after) (read ++ value)

theorem wildcardLoop_iff {pattern value : List Char} {lastStar : Option (List Char × List Char)}
    (hread : ∀ star ∈ lastStar, '*' ∉ star.2 ∧ ReadUpTo star.1 star.2 pattern) (hvalue : '*' ∉ value) :
    wildcardLoop pattern value lastStar = true ↔ Reaches pattern value lastStar := by
  fun_induction wildcardLoop pattern value lastStar with
  | case1 pattern lastStar =>
    rw [← Obtained.nil_iff]
    cases lastStar with
    | none => exact Iff.rfl
    | some star => exact (hread star rfl).2.reaches_iff fun rest hrest h => suffix_nil.mp hrest ▸ h
  | case2 pattern lastStar c value hfits ih =>
    rw [mem_cons, not_or] at hvalue
    cases pattern with
    | nil => simp at hfits
    | cons p pattern =>
      simp only [head?_cons, Option.some.injEq] at hfits
      have hp : p ≠ '*' := by
        rintro rfl
        exact hfits.elim (by decide) hvalue.1
      cases lastStar with
      | none =>
        rw [ih nofun hvalue.2, Option.map_none, Reaches, Reaches, Obtained.cons_iff hp]
        refine ⟨fun h => ⟨c, value, rfl, hfits, h⟩, ?_⟩
        rintro ⟨_, _, ⟨⟩, -, h⟩
        exact h
      | some star =>
        obtain ⟨hclean, hstar⟩ := hread star rfl
        rw [ih ?_ hvalue.2, Option.map_some, Reaches, Reaches, append_assoc, singleton_append]
        rintro _ ⟨⟩
        exact ⟨by simp [hclean, hvalue.1], hstar.next hp hfits⟩
  | case3 pattern lastStar c value _ hstar ih =>
    obtain ⟨pattern, rfl⟩ := head?_eq_some_iff.mp hstar
    rw [ih (fun _ h => ?_) hvalue, Reaches, nil_append]
    · cases lastStar with
      | none => exact Iff.rfl
      | some star =>
        refine (hread star rfl).2.reaches_iff fun rest hrest h => ?_
        obtain ⟨taken, htaken, h⟩ := Obtained.star_iff.mp h
        exact Obtained.star_iff.mpr ⟨taken, htaken.trans hrest, h⟩
    · cases h
      exact ⟨not_mem_nil, .start _⟩
  | case4 pattern c value hfits hstar =>
    exact iff_of_false nofun fun h => (Obtained.head?_eq h).elim hfits hstar
  | case5 pattern c value hfits hstar after read ih =>
    obtain ⟨hclean, hup⟩ := hread _ rfl
    have hmem : '*' ∉ (read ++ c :: value).tail := fun h =>
      (mem_append.mp (mem_of_mem_tail h)).elim hclean hvalue
    rw [ih (fun _ h => ?_) hmem, Reaches, nil_append, Reaches,
      hup.retry fun h => (Obtained.head?_eq h).elim hfits hstar]
    cases h
    exact ⟨not_mem_nil, .start _⟩

theorem wildcardMatches_iff {pattern value : String} (hvalue : '*' ∉ value.toList) :
    wildcardMatches pattern value = true ↔ Obtained pattern.toList value.toList :=
  wildcardLoop_iff nofun hvalue

/-! ### Targets of a request -/

/-- `requested_parts`; white space is as the library has it. -/
def requestedParts (whitespace : Char → Bool) (requested : String) : List String :=
  ((requested.toList.splitOn ',').map fun part =>
    ((part.dropWhile whitespace).reverse.dropWhile whitespace).reverse).filter (· ≠ []) |>.map String.ofList

/-- A text is what is left of a longer one without the white space at both ends, and something is left. -/
structure IsTrimmed (whitespace : Char → Bool) (text part : List Char) : Prop where
  ends : ∃ left right, text = left ++ part ++ right ∧ (∀ c ∈ left, whitespace c) ∧ ∀ c ∈ right, whitespace c
  first : ∃ c ∈ part.head?, whitespace c = false
  last : ∃ c ∈ part.getLast?, whitespace c = false

/-- The parts of a request: its pieces between the commas, trimmed. -/
def IsPart (whitespace : Char → Bool) (request part : String) : Prop :=
  ∃ pieces, [','].intercalate pieces = request.toList ∧ (∀ piece ∈ pieces, ',' ∉ piece) ∧
    ∃ piece ∈ pieces, IsTrimmed whitespace piece part.toList

theorem isTrimmed_iff {whitespace : Char → Bool} {text part : List Char} :
    IsTrimmed whitespace text part ↔ (text.dropWhile whitespace).rdropWhile whitespace = part ∧ part ≠ [] := by
  constructor
  · rintro ⟨⟨left, right, rfl, hleft, hright⟩, ⟨first, hfirst, hfirst'⟩, last, hlast, hlast'⟩
    have hne : part ≠ [] := by
      rintro rfl
      cases hfirst
    refine ⟨?_, hne⟩
    rw [append_assoc, dropWhile_append_of_pos hleft, dropWhile_eq_self_iff.mpr ?_, rdropWhile, reverse_append,
      dropWhile_append_of_pos (by simpa using hright), ← rdropWhile, rdropWhile_eq_self_iff]
    · intro _
      rw [getLast?_eq_some_getLast hne] at hlast
      cases hlast
      rw [hlast']
      exact Bool.false_ne_true
    · intro hl
      rw [head?_eq_some_head hne] at hfirst
      cases hfirst
      rw [← head_eq_getElem (append_ne_nil_of_left_ne_nil hne _), head_append_of_ne_nil hne, hfirst']
      exact Bool.false_ne_true
  · rintro ⟨rfl, hne⟩
    have hfront := rdropWhile_prefix whitespace (text.dropWhile whitespace)
    refine ⟨⟨text.takeWhile whitespace, (text.dropWhile whitespace).rtakeWhile whitespace, ?_, ?_, ?_⟩, ?_, ?_⟩
    · rw [append_assoc, rdropWhile_append_rtakeWhile, takeWhile_append_dropWhile]
    · exact fun c hc => mem_takeWhile_imp hc
    · exact fun c hc => mem_takeWhile_imp (mem_reverse.mp hc)
    · refine ⟨_, head?_eq_some_head hne, ?_⟩
      rw [hfront.head hne]
      exact head_dropWhile_not _ _
    · exact ⟨_, getLast?_eq_some_getLast hne, Bool.eq_false_iff.mpr (rdropWhile_last_not _ _ hne)⟩

theorem notMem_of_mem_splitOn {α : Type} [DecidableEq α] {a : α} {l : List α} : ∀ piece ∈ l.splitOn a, a ∉ piece := by
  induction l with
  | nil => simp
  | cons x l ih =>
    rw [splitOn_cons_eq_if_modifyHead]
    split
    · exact forall_mem_cons.mpr ⟨not_mem_nil, ih⟩
    · rename_i hx
      obtain ⟨first, rest, hsplit⟩ := exists_cons_of_ne_nil (splitOn_ne_nil a l)
      rw [hsplit, forall_mem_cons] at ih
      rw [hsplit, modifyHead_cons, forall_mem_cons, mem_cons, not_or]
      exact ⟨⟨fun h => hx (beq_iff_eq.mpr h.symm), ih.1⟩, ih.2⟩

theorem mem_requestedParts {whitespace : Char → Bool} {request part : String} :
    part ∈ requestedParts whitespace request ↔ IsPart whitespace request part := by
  have hpart : part ∈ requestedParts whitespace request ↔
      ∃ piece ∈ request.toList.splitOn ',', IsTrimmed whitespace piece part.toList := by
    simp only [requestedParts, mem_map, mem_filter, decide_eq_true_eq, isTrimmed_iff]
    constructor
    · rintro ⟨_, ⟨⟨piece, hpiece, rfl⟩, hne⟩, rfl⟩
      exact ⟨piece, hpiece, (String.toList_ofList).symm, by rwa [String.toList_ofList]⟩
    · rintro ⟨piece, hpiece, heq, hne⟩
      exact ⟨part.toList, ⟨⟨piece, hpiece, heq⟩, hne⟩, String.ofList_toList⟩
  rw [hpart]
  constructor
  · intro h
    exact ⟨_, intercalate_splitOn _, notMem_of_mem_splitOn, h⟩
  · rintro ⟨pieces, hjoined, hcomma, piece, hpiece, htrimmed⟩
    refine ⟨piece, ?_, htrimmed⟩
    rwa [← hjoined, splitOn_intercalate _ hcomma (ne_nil_of_mem hpiece)]

/-- No part, `*` and `_all` ask for every table. -/
def requestsAll (parts : List String) : Bool := parts = [] || parts.any fun part => part = "*" || part = "_all"

/-- `sort` and `dedup`. -/
def sortDedup (names : List String) : List String := (names.insertionSort (· ≤ ·)).destutter (· ≠ ·)

section

variable (parseAliases : String → Option (List String))

/-- The names in the aliases of `parse_index_body`. -/
def aliasNames (table : TableDescription) : List String :=
  (((table.tags.lookup "_es_original").bind parseAliases).getD []).insertionSort (· ≤ ·)

def matchingTargetNames (requestedValue : String) (tables : List TableDescription) : List String :=
  let named := tables.filter fun table => wildcardMatches requestedValue table.name
  let aliased := tables.filter fun table => (aliasNames parseAliases table).any (wildcardMatches requestedValue)
  sortDedup ((named ++ aliased).map (·.name))

def resolvedTargetNamesFromDescriptions (requested : List String) (tables : List TableDescription) : List String :=
  if requestsAll requested then sortDedup (tables.map (·.name))
  else sortDedup (requested.flatMap fun part => matchingTargetNames parseAliases part tables)

end

theorem mem_sortDedup {names : List String} {name : String} : name ∈ sortDedup names ↔ name ∈ names := by
  rw [sortDedup, (pairwise_insertionSort (· ≤ ·) names).destutter_eq_dedup, mem_dedup, mem_insertionSort]

theorem sortDedup_strict (names : List String) : (sortDedup names).Pairwise (· < ·) := by
  have hsorted := pairwise_insertionSort (· ≤ ·) names
  rw [sortDedup, hsorted.destutter_eq_dedup]
  exact (hsorted.sublist (dedup_sublist _)).imp₂ (fun _ _ => lt_of_le_of_ne) (nodup_dedup _)

/-- **Index patterns.** A pattern matches the names that are obtained from it. A request resolves to the
tables with a name or an alias that one of its parts matches, in order and each once; a request without a
part, or with a part `*` or `_all`, resolves to all tables. -/
theorem indexPatterns_resolve (parseAliases : String → Option (List String)) (whitespace : Char → Bool) :
    (∀ pattern value : String, '*' ∉ value.toList →
      (wildcardMatches pattern value = true ↔ Obtained pattern.toList value.toList)) ∧
    ∀ (request : String) (tables : List TableDescription),
      (∀ table ∈ tables, '*' ∉ table.name.toList ∧ ∀ other ∈ aliasNames parseAliases table, '*' ∉ other.toList) →
      let IsPart := IsPart whitespace request
      let targets := resolvedTargetNamesFromDescriptions parseAliases (requestedParts whitespace request) tables
      targets.Pairwise (· < ·) ∧ ∀ name, name ∈ targets ↔ ∃ table ∈ tables, table.name = name ∧
        (((∀ part, ¬ IsPart part) ∨ IsPart "*" ∨ IsPart "_all") ∨ ∃ part, IsPart part ∧
          (Obtained part.toList table.name.toList ∨
            ∃ other ∈ aliasNames parseAliases table, Obtained part.toList other.toList)) := by
  refine ⟨fun _ _ => wildcardMatches_iff, fun request tables hnames => ?_⟩
  simp only [← mem_requestedParts, ← eq_nil_iff_forall_not_mem]
  generalize requestedParts whitespace request = parts
  have hall : requestsAll parts = true ↔ parts = [] ∨ "*" ∈ parts ∨ "_all" ∈ parts := by
    simp only [requestsAll, Bool.or_eq_true, decide_eq_true_eq, any_eq_true]
    grind
  refine ⟨?_, fun name => ?_⟩
  · unfold resolvedTargetNamesFromDescriptions
    split <;> exact sortDedup_strict _
  unfold resolvedTargetNamesFromDescriptions
  split
  · rename_i hrequest
    rw [mem_sortDedup, mem_map]
    exact exists_congr fun table => and_congr_right fun _ => (and_iff_left (Or.inl (hall.mp hrequest))).symm
  rename_i hrequest
  rw [mem_sortDedup, mem_flatMap]
  simp only [matchingTargetNames, mem_sortDedup, mem_map, mem_append, mem_filter, any_eq_true, ← and_or_left,
    and_assoc, or_iff_right (mt hall.mpr hrequest)]
  have hmatch : ∀ table ∈ tables, ∀ part, (wildcardMatches part table.name = true ∨
      ∃ other ∈ aliasNames parseAliases table, wildcardMatches part other = true) ↔ _ := fun table htable part =>
    or_congr (wildcardMatches_iff (hnames table htable).1) (exists_congr fun other => and_congr_right fun hother =>
      wildcardMatches_iff ((hnames table htable).2 other hother))
  constructor
  · rintro ⟨part, hpart, table, htable, h, hname⟩
    exact ⟨table, htable, hname, part, hpart, (hmatch table htable part).mp h⟩
  · rintro ⟨table, htable, hname, part, hpart, h⟩
    exact ⟨part, hpart, table, htable, (hmatch table htable part).mpr h, hname⟩

/-- A table with an alias. -/
def aliasedLogs : TableDescription := { name := "logs", tags := Dict.single "_es_original" "today" }

theorem indexPatterns_resolve_aliasedLogs : wildcardMatches "to?a*" "today" = true ∧
    "logs" ∈ resolvedTargetNamesFromDescriptions (fun body => some [body])
      (requestedParts Char.isWhitespace "a*, to?a*") [aliasedLogs] := by
  have hresolve := indexPatterns_resolve (fun body => some [body]) Char.isWhitespace
  have hobtained : Obtained "to?a*".toList "today".toList := by
    iterate 4 refine .char (by decide) (by decide) ?_
    exact .star ['y'] .nil
  refine ⟨(hresolve.1 "to?a*" "today" (by decide)).mpr hobtained, ((hresolve.2 _ _ (by decide)).2 "logs").mpr ?_⟩
  refine ⟨aliasedLogs, mem_singleton_self _, rfl, Or.inr ⟨"to?a*", ?_, Or.inr ⟨"today", by decide, hobtained⟩⟩⟩
  exact mem_requestedParts.mp (by decide)

end PowdrrEngine
