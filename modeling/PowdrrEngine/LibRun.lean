import Mathlib.Data.List.Basic

/-! Runs of a partial step function. A step either yields the next state or stops the machine, so a
run is a monadic fold over the list of events. `Along` says that every step of a run, taken from
the state it starts in, meets a condition; the invariant rules carry a predicate through every run
whose steps meet the condition. -/

namespace Run

open List Option

variable {σ ε : Type} {es fs : List ε} {s s' : σ} {P : σ → Prop} {δ α β : Type} {p : ε → Prop}

/-- The state after a list of events, if no step stops the machine. -/
def exec (step : σ → ε → Option σ) : σ → List ε → Option σ
  | s, [] => some s
  | s, e :: es => (step s e).bind fun m => exec step m es

/-- Every step of the run meets `ok` in the state the step starts from. -/
def Along (step : σ → ε → Option σ) (ok : σ → ε → Prop) : σ → List ε → Prop
  | _, [] => True
  | s, e :: es => ok s e ∧ ∀ m, step s e = some m → Along step ok m es

instance decidableAlong (step : σ → ε → Option σ) (ok : σ → ε → Prop) [∀ s e, Decidable (ok s e)] :
    ∀ s es, Decidable (Along step ok s es)
  | _, [] => isTrue trivial
  | s, e :: es =>
    match h : step s e with
    | none => decidable_of_iff (ok s e) (by simp [Along, h])
    | some m =>
      have := decidableAlong step ok m es
      decidable_of_iff (ok s e ∧ Along step ok m es) (by simp [Along, h])

variable {step : σ → ε → Option σ} {ok : σ → ε → Prop}

theorem exec_eq_foldlM (s : σ) (es : List ε) : exec step s es = es.foldlM step s := by
  induction es generalizing s with
  | nil => rfl
  | cons e es ih =>
    exact congrArg _ (funext ih)

theorem exec_append (s : σ) (es fs : List ε) :
    exec step s (es ++ fs) = (exec step s es).bind fun m => exec step m fs := by
  induction es generalizing s with
  | nil => rfl
  | cons e es ih =>
    rw [cons_append, exec, exec]
    cases step s e with
    | none => rfl
    | some m => exact ih m

theorem exec_append_eq_some :
    exec step s (es ++ fs) = some s' ↔ ∃ m, exec step s es = some m ∧ exec step m fs = some s' := by
  rw [exec_append, bind_eq_some_iff]

theorem exec_snoc_eq_some {e : ε} :
    exec step s (es ++ [e]) = some s' ↔ ∃ m, exec step s es = some m ∧ step m e = some s' := by
  rw [exec_append_eq_some]
  simp [exec]

/-- **The invariant rule.** A predicate that every step meeting `ok` preserves holds at the end of
every run whose steps meet `ok`. -/
theorem exec_invariant (hstep : ∀ s e s', P s → ok s e → step s e = some s' → P s') (hs : P s)
    (hok : Along step ok s es) (hrun : exec step s es = some s') : P s' := by
  induction es generalizing s with
  | nil =>
    cases hrun
    exact hs
  | cons e es ih =>
    obtain ⟨m, hm, hrest⟩ := bind_eq_some_iff.mp hrun
    exact ih (hstep s e m hs hok.1 hm) (hok.2 m hm) hrest

theorem Along.of_forall (h : ∀ e ∈ es, p e) (s : σ) : Along step (fun _ e => p e) s es := by
  induction es generalizing s with
  | nil => trivial
  | cons e es ih =>
    exact ⟨h e mem_cons_self, fun m _ => ih (fun e' he' => h e' (mem_cons_of_mem _ he')) m⟩

theorem exec_invariant_all (hstep : ∀ s e s', P s → step s e = some s' → P s') (hs : P s)
    (hrun : exec step s es = some s') : P s' :=
  exec_invariant (fun s e s' hs _ => hstep s e s' hs) hs (Along.of_forall (fun _ _ => trivial) s) hrun

theorem foldlM_invariant (hstep : ∀ e ∈ es, ∀ s s', P s → step s e = some s' → P s') (hs : P s)
    (hrun : es.foldlM step s = some s') : P s' :=
  exec_invariant (fun s e s' hs he => hstep e he s s' hs) hs (Along.of_forall (fun _ he => he) s)
    ((exec_eq_foldlM s es).trans hrun)

theorem Along.left (h : Along step ok s (es ++ fs)) : Along step ok s es := by
  induction es generalizing s with
  | nil => trivial
  | cons e es ih => exact ⟨h.1, fun m hm => ih (h.2 m hm)⟩

theorem Along.right {m : σ} (h : Along step ok s (es ++ fs)) (hm : exec step s es = some m) : Along step ok m fs := by
  induction es generalizing s with
  | nil =>
    cases hm
    exact h
  | cons e es ih =>
    obtain ⟨k, hk, hrest⟩ := bind_eq_some_iff.mp hm
    exact ih (h.2 k hk) hrest

/-- **The forward simulation rule.** A machine that can follow every step of another one from related
states follows its runs. -/
theorem exec_forward {τ : Type} {step' : τ → ε → Option τ} {R : σ → τ → Prop}
    (hstep : ∀ s t e s', R s t → p e → step s e = some s' → ∃ t', step' t e = some t' ∧ R s' t') {t : τ}
    (hR : R s t) (hp : ∀ e ∈ es, p e) (hrun : exec step s es = some s') :
    ∃ t', exec step' t es = some t' ∧ R s' t' := by
  induction es generalizing s t with
  | nil =>
    cases hrun
    exact ⟨t, rfl, hR⟩
  | cons e es ih =>
    obtain ⟨m, hm, hrest⟩ := bind_eq_some_iff.mp hrun
    obtain ⟨n, hn, hmn⟩ := hstep s t e m hR (hp e mem_cons_self) hm
    obtain ⟨t', ht', hend⟩ := ih hmn (fun e he => hp e (mem_cons_of_mem _ he)) hrest
    refine ⟨t', ?_, hend⟩
    rw [exec, hn, bind_some, ht']

/-! ### Runs with answers -/

section

variable {τ : Type} {R : σ → τ → Prop} {f : β → α}

/-- The answers along a run, and the state after it. -/
def trace (answer : σ → ε → Option (α × σ)) : σ → List ε → Option (List α × σ)
  | s, [] => some ([], s)
  | s, e :: es => (answer s e).bind fun (a, m) => (trace answer m es).map fun (as, s') => (a :: as, s')

/-- Two machines answer an event alike, up to `f`, and go to related states; or both stop. -/
def AnswerAlike (f : β → α) (R : σ → τ → Prop) : Option (α × σ) → Option (β × τ) → Prop
  | some (a, s), some (b, t) => a = f b ∧ R s t
  | none, none => True
  | _, _ => False

theorem AnswerAlike.map_eq {γ : Type} {x : Option (α × σ)} {y : Option (β × τ)} {view : σ → γ} {view' : τ → γ}
    (h : AnswerAlike f R x y) (hview : ∀ s t, R s t → view s = view' t) :
    x.map (fun (a, s) => (a, view s)) = y.map fun (b, t) => (f b, view' t) := by
  match x, y, h with
  | some (a, s), some (b, t), ⟨hanswer, hstates⟩ =>
    simp [hanswer, hview s t hstates]
  | none, none, _ => rfl

/-- **The simulation rule.** Two machines that answer every event alike from related states have like
traces, along runs whose steps meet a condition. -/
theorem trace_alike {answer : σ → ε → Option (α × σ)} {answer' : τ → ε → Option (β × τ)} {p : τ → ε → Prop}
    (hstep : ∀ s t e, R s t → p t e → AnswerAlike f R (answer s e) (answer' t e)) {t : τ}
    (hR : R s t) (hok : Along (fun t e => (answer' t e).map Prod.snd) p t es) :
    AnswerAlike (List.map f) R (trace answer s es) (trace answer' t es) := by
  induction es generalizing s t with
  | nil => exact ⟨rfl, hR⟩
  | cons e es ih =>
    have halike := hstep s t e hR hok.1
    have hnext := hok.2
    dsimp only at hnext
    unfold trace
    generalize answer s e = x at halike ⊢
    generalize answer' t e = y at halike hnext ⊢
    match x, y, halike with
    | none, none, _ => trivial
    | some (a, m), some (b, n), ⟨hanswer, hmn⟩ =>
      have hrest := ih hmn (hnext n rfl)
      simp only [bind_some]
      generalize trace answer m es = x' at hrest ⊢
      generalize trace answer' n es = y' at hrest ⊢
      match x', y', hrest with
      | none, none, _ => trivial
      | some (as, m'), some (bs, n'), ⟨hanswers, hend⟩ =>
        exact ⟨by rw [hanswer, hanswers, map_cons], hend⟩

end

/-! ### Computations that may fail -/

theorem bind_eq_some {x : Option α} {f : α → Option β} {b : β} :
    (x >>= f) = some b ↔ ∃ a, x = some a ∧ f a = some b := bind_eq_some_iff

theorem exists_end {x : Option α} {p q : α → Prop} (h : ∃ a, x = some a ∧ p a)
    (hq : ∀ a, x = some a → p a → q a) : ∃ a, x = some a ∧ q a :=
  h.imp fun a ha => ⟨ha.1, hq a ha.1 ha.2⟩

theorem of_any {x : Option α} {p : α → Bool} (h : x.any p = true) : ∃ a, x = some a ∧ p a = true :=
  (any_eq_true _ _).mp h

/-- What holds at the end of a run can be evaluated. -/
instance (priority := low) decidableExists {x : Option α} {p : α → Prop} [DecidablePred p] :
    Decidable (∃ a, x = some a ∧ p a) :=
  inferInstanceAs (Decidable (∃ a ∈ x, p a))

instance (priority := low) decidableForall {x : Option α} {p : α → Prop} [DecidablePred p] :
    Decidable (∀ a, x = some a → p a) :=
  inferInstanceAs (Decidable (∀ a ∈ x, p a))

variable {x : Except δ α} {f : α → Except δ β} {b : β}

theorem exists_ok_of_bind (h : (x >>= f) = .ok b) : ∃ a, x = .ok a ∧ f a = .ok b := by
  cases x with
  | error e => cases h
  | ok a => exact ⟨a, rfl, h⟩

theorem foldlM_invariant_ok {step : α → β → Except δ α} {P : α → Prop} {l : List β} {a a' : α}
    (hstep : ∀ b ∈ l, ∀ a a', P a → step a b = .ok a' → P a') (ha : P a) (hrun : l.foldlM step a = .ok a') : P a' := by
  induction l generalizing a with
  | nil =>
    cases hrun
    exact ha
  | cons b l ih =>
    obtain ⟨m, hm, hrun⟩ := exists_ok_of_bind hrun
    obtain ⟨hb, hl⟩ := forall_mem_cons.mp hstep
    exact ih hl (hb a m ha hm) hrun

theorem ok_bind (a : α) (f : α → Except δ β) : ((Except.ok a : Except δ α) >>= f) = f a := rfl

theorem map_eq_ok {g : α → β} : x.map g = .ok b ↔ ∃ a, x = .ok a ∧ g a = b := by
  cases x <;> simp [Except.map]

theorem bind_eq_ok : (x >>= f) = .ok b ↔ ∃ a, x = .ok a ∧ f a = .ok b := by
  refine ⟨exists_ok_of_bind, ?_⟩
  rintro ⟨a, rfl, h⟩
  exact h

theorem check_eq_ok {x : Except δ Unit} {f : Unit → Except δ β} : (x >>= f) = .ok b ↔ x = .ok () ∧ f () = .ok b := by
  rw [bind_eq_ok]
  exact ⟨fun ⟨_, hx, hf⟩ => ⟨hx, hf⟩, fun ⟨hx, hf⟩ => ⟨(), hx, hf⟩⟩

theorem forM_eq_ok {f : α → Except δ Unit} {l : List α} : forM l f = .ok () ↔ ∀ a ∈ l, f a = .ok () := by
  induction l with
  | nil => simp [pure, Except.pure]
  | cons a l ih =>
    rw [forM_cons, forall_mem_cons, ← ih]
    exact check_eq_ok

instance decidableExistsOk {p : α → Prop} [DecidablePred p] : Decidable (∃ a, x = .ok a ∧ p a) :=
  match x with
  | .ok a => decidable_of_iff (p a) (by simp)
  | .error _ => .isFalse nofun

theorem ok_of_toOption {a : α} (h : x.toOption = some a) : x = .ok a := by
  cases x with
  | error e => cases h
  | ok b => exact congrArg Except.ok (Option.some.inj h)

end Run
