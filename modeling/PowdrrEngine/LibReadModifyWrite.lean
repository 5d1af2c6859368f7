import PowdrrEngine.LibDict
import PowdrrEngine.LibRun

/-! Requests that read a store in one step and write it in a later one. Nothing keeps another request
from writing in between. A schedule is a list of load and publish steps of any number of clients; where
every write that takes effect finds the store as its request has read it, the schedule does what the
successful requests do one after the other, in the order in which they took effect. -/

namespace PowdrrEngine

open Option List Dict

namespace ReadModifyWrite

/-- What the two steps of a request do. Loading either answers at once or leaves a plan; publishing a
plan answers, and gives the new store where it wrote one. -/
structure Protocol (σ ρ π α : Type) where
  load : σ → ρ → α ⊕ π
  publish : σ → π → α × Option σ

/-- A request between its two steps. `loadedAt` counts the writes before it has read the store. -/
structure Waiting (ρ π : Type) where
  request : ρ
  plan : π
  loadedAt : Nat

/-- The store, the number of writes so far, the requests in progress and the answers given. -/
structure System (κ σ ρ π α : Type) where
  store : σ
  published : Nat := 0
  waiting : Dict κ (Waiting ρ π) := ∅
  answered : List (ρ × α) := []

inductive Event (κ ρ : Type) where
  | load (client : κ) (request : ρ)
  | publish (client : κ)

variable {κ σ ρ π α : Type} [DecidableEq κ] (P : Protocol σ ρ π α)

/-- A request on its own: both steps, with nothing between them. -/
def Protocol.perform (s : σ) (request : ρ) : α × σ :=
  match P.load s request with
  | .inl answer => (answer, s)
  | .inr plan => ((P.publish s plan).1, (P.publish s plan).2.getD s)

/-- One step of a schedule; a client has one request in progress at most. -/
def step (sys : System κ σ ρ π α) : Event κ ρ → Option (System κ σ ρ π α)
  | .load client request =>
    if client ∈ sys.waiting then none
    else
      match P.load sys.store request with
      | .inl answer => some { sys with answered := sys.answered ++ [(request, answer)] }
      | .inr plan =>
        some { sys with waiting := sys.waiting.insert client ⟨request, plan, sys.published⟩ }
  | .publish client =>
    match sys.waiting.lookup client with
    | none => none
    | some w =>
      match P.publish sys.store w.plan with
      | (answer, none) =>
        some { sys with waiting := sys.waiting.erase client
                        answered := sys.answered ++ [(w.request, answer)] }
      | (answer, some store) =>
        some { store := store
               published := sys.published + 1
               waiting := sys.waiting.erase client
               answered := sys.answered ++ [(w.request, answer)] }

/-- The requests done one after the other lead from one store to another, each with the answer noted. -/
def Serial : σ → List (ρ × α) → σ → Prop
  | s, [], s' => s = s'
  | s, (request, answer) :: rest, s' =>
    (P.perform s request).1 = answer ∧ Serial (P.perform s request).2 rest s'

/-- `Q` holds of each request in the store it is done in. -/
def AlongSerial (Q : σ → ρ → Prop) : σ → List (ρ × α) → Prop
  | _, [] => True
  | s, (request, _) :: rest => Q s request ∧ AlongSerial Q (P.perform s request).2 rest

variable (ok : α → Bool)

/-- The successful requests, in the order in which they took effect. -/
def System.successes (sys : System κ σ ρ π α) : List (ρ × α) := sys.answered.filter fun entry => ok entry.2

/-- **Nothing in between.** A write that takes effect finds no other write since its request has read the
store, and it is answered with success. -/
def Undisturbed (sys : System κ σ ρ π α) : Event κ ρ → Prop
  | .load _ _ => True
  | .publish client => ∀ w, sys.waiting.lookup client = some w → (P.publish sys.store w.plan).2.isSome = true →
        w.loadedAt = sys.published ∧ ok (P.publish sys.store w.plan).1 = true

instance (ok : α → Bool) (sys : System κ σ ρ π α) : ∀ e, Decidable (Undisturbed P ok sys e)
  | .load _ _ => isTrue trivial
  | .publish client =>
    match h : sys.waiting.lookup client with
    | none => isTrue (by intro w hw; rw [h] at hw; cases hw)
    | some w =>
      decidable_of_iff ((P.publish sys.store w.plan).2.isSome = true →
        w.loadedAt = sys.published ∧ ok (P.publish sys.store w.plan).1 = true) (by simp [Undisturbed, h])

variable {P}

/-! ### Serial executions -/

variable {entries : List (ρ × α)} {s s' : σ}

theorem Serial.snoc (h : Serial P s entries s') {request : ρ} {answer : α} {t : σ}
    (hperform : P.perform s' request = (answer, t)) :
    Serial P s (entries ++ [(request, answer)]) t := by
  induction entries generalizing s with
  | nil =>
    obtain rfl : s = s' := h
    exact ⟨by rw [hperform], by rw [hperform]; rfl⟩
  | cons entry entries ih => exact ⟨h.1, ih h.2⟩

theorem Serial.split {before after : List (ρ × α)} (h : Serial P s (before ++ after) s') :
    ∃ m, Serial P s before m ∧ Serial P m after s' := by
  induction before generalizing s with
  | nil => exact ⟨s, rfl, h⟩
  | cons entry before ih =>
    obtain ⟨m, hm, hrest⟩ := ih h.2
    exact ⟨m, ⟨h.1, hm⟩, hrest⟩

theorem Serial.invariant {I : σ → Prop} (hI : ∀ s request, I s → I (P.perform s request).2)
    (h : Serial P s entries s') (hs : I s) : I s' := by
  induction entries generalizing s with
  | nil => exact (show s = s' from h) ▸ hs
  | cons entry entries ih => exact ih h.2 (hI s entry.1 hs)

theorem Serial.along {ok : α → Bool} {Q : σ → ρ → Prop}
    (hQ : ∀ s request, ok (P.perform s request).1 = true → Q s request) (h : Serial P s entries s')
    (hok : ∀ entry ∈ entries, ok entry.2 = true) :
    AlongSerial P Q s entries := by
  induction entries generalizing s with
  | nil => trivial
  | cons entry entries ih =>
    refine ⟨hQ s entry.1 ?_, ih h.2 fun e he => hok e (mem_cons_of_mem _ he)⟩
    rw [h.1]
    exact hok entry mem_cons_self

/-! ### Schedules -/

theorem step_cases {sys sys' : System κ σ ρ π α} {e : Event κ ρ} (h : step P sys e = some sys') :
    (∃ client request answer, e = .load client request ∧ P.load sys.store request = .inl answer ∧
      sys' = { sys with answered := sys.answered ++ [(request, answer)] }) ∨
    (∃ client request plan, e = .load client request ∧ P.load sys.store request = .inr plan ∧
      sys' = { sys with waiting := sys.waiting.insert client ⟨request, plan, sys.published⟩ }) ∨
    (∃ client w answer, e = .publish client ∧ sys.waiting.lookup client = some w ∧
      P.publish sys.store w.plan = (answer, none) ∧
      sys' = { sys with waiting := sys.waiting.erase client
                        answered := sys.answered ++ [(w.request, answer)] }) ∨
    ∃ client w answer store, e = .publish client ∧ sys.waiting.lookup client = some w ∧
      P.publish sys.store w.plan = (answer, some store) ∧
      sys' = { store := store
               published := sys.published + 1
               waiting := sys.waiting.erase client
               answered := sys.answered ++ [(w.request, answer)] } := by
  cases e with
  | load client request =>
    simp only [step] at h
    split at h
    · cases h
    split at h
    · rename_i answer hload
      exact Or.inl ⟨client, request, answer, rfl, hload, (some.inj h).symm⟩
    · rename_i plan hload
      exact Or.inr (Or.inl ⟨client, request, plan, rfl, hload, (some.inj h).symm⟩)
  | publish client =>
    simp only [step] at h
    split at h
    · cases h
    rename_i w hw
    split at h
    · rename_i answer hpublish
      exact Or.inr (Or.inr (Or.inl ⟨client, w, answer, rfl, hw, hpublish, (some.inj h).symm⟩))
    · rename_i answer store hpublish
      exact Or.inr (Or.inr (Or.inr ⟨client, w, answer, store, rfl, hw, hpublish, (some.inj h).symm⟩))

/-- The successes so far lead from the first store to the present one, and a request that has seen every
write so far would read the same again. -/
structure Ordered (P : Protocol σ ρ π α) (ok : α → Bool) (first : σ) (sys : System κ σ ρ π α) : Prop where
  serial : Serial P first (sys.successes ok) sys.store
  loadedAt_le : ∀ client w, sys.waiting.lookup client = some w → w.loadedAt ≤ sys.published
  fresh : ∀ client w, sys.waiting.lookup client = some w → w.loadedAt = sys.published →
    P.load sys.store w.request = .inr w.plan

theorem ordered_start (first : σ) : Ordered P ok first ({ store := first } : System κ σ ρ π α) :=
  ⟨rfl, fun _ _ h => by simp at h, fun _ _ h => by simp at h⟩

section

variable {ok : α → Bool} {first : σ} {sys sys' : System κ σ ρ π α}

theorem Ordered.serial_append (h : Ordered P ok first sys) {request : ρ} {answer : α} {store : σ}
    (hperform : ok answer = true → P.perform sys.store request = (answer, store))
    (hstore : ok answer = false → store = sys.store) :
    Serial P first (({ sys with answered := sys.answered ++ [(request, answer)] } :
      System κ σ ρ π α).successes ok) store := by
  rw [System.successes, filter_append, filter_singleton]
  cases hok : ok answer with
  | true =>
    exact h.serial.snoc (hperform hok)
  | false =>
    rw [cond_false, append_nil, hstore hok]
    exact h.serial

theorem ordered_of_step (hpublish : ∀ s plan answer, P.publish s plan = (answer, none) → ok answer = false)
    (h : Ordered P ok first sys) {e : Event κ ρ} (hok : Undisturbed P ok sys e)
    (hstep : step P sys e = some sys') : Ordered P ok first sys' := by
  obtain ⟨client, request, answer, rfl, hload, rfl⟩ | ⟨client, request, plan, rfl, hload, rfl⟩ |
    ⟨client, w, answer, rfl, hw, hout, rfl⟩ | ⟨client, w, answer, store, rfl, hw, hout, rfl⟩ := step_cases hstep
  · -- answered at once: the store stays as it is
    refine ⟨h.serial_append (fun _ => ?_) (fun _ => rfl), h.loadedAt_le, h.fresh⟩
    rw [Protocol.perform, hload]
  · refine ⟨h.serial, fun other v hv => ?_, fun other v hv hat => ?_⟩
    · rw [lookup_insert_eq] at hv
      split at hv
      · cases hv
        exact le_rfl
      · exact h.loadedAt_le other v hv
    rw [lookup_insert_eq] at hv
    split at hv
    · cases hv
      exact hload
    · exact h.fresh other v hv hat
  · have hfail := hpublish _ _ _ hout
    have hsub := erase_sub client sys.waiting
    exact ⟨h.serial_append (fun hanswer => by rw [hfail] at hanswer; cases hanswer) (fun _ => rfl),
      fun other v hv => h.loadedAt_le other v (hsub _ _ hv), fun other v hv => h.fresh other v (hsub _ _ hv)⟩
  · obtain ⟨hat, hanswer⟩ := hok w hw (by rw [hout]; rfl)
    rw [hout] at hanswer
    have hperform : P.perform sys.store w.request = (answer, store) := by
      rw [Protocol.perform, h.fresh client w hw hat]
      simp [hout]
    have hsub := erase_sub client sys.waiting
    refine ⟨h.serial_append (fun _ => hperform) (fun hfail => by rw [hanswer] at hfail; cases hfail),
      fun other v hv => Nat.le_succ_of_le (h.loadedAt_le other v (hsub _ _ hv)), fun other v hv hlate => ?_⟩
    -- whoever waits has read the store before this write
    have hle := h.loadedAt_le other v (hsub _ _ hv)
    simp only at hlate
    omega

/-- **Serializability.** Where every write that takes effect is undisturbed, the store at the end is that
of the successful requests done one after the other. -/
theorem serial_of_exec (hpublish : ∀ s plan answer, P.publish s plan = (answer, none) → ok answer = false)
    {events : List (Event κ ρ)}
    (hok : Run.Along (step P) (Undisturbed P ok) ({ store := first } : System κ σ ρ π α) events)
    (hrun : Run.exec (step P) { store := first } events = some sys) :
    Serial P first (sys.successes ok) sys.store :=
  (Run.exec_invariant (fun _ _ _ hinv hcur hstep => ordered_of_step hpublish hinv hcur hstep)
    (ordered_start ok first) hok hrun).serial

end

end ReadModifyWrite

end PowdrrEngine
