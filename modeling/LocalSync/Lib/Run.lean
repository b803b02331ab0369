/-
  `Run`, the runs of a labelled transition relation.

  `Run step s as t`: the actions `as`, performed in this order, lead from `s`
  to `t`.  A property that every step preserves holds at the end of every run
  that starts in it (`Run.invariant`); runs compose (`Run.trans`), split again
  (`Run.append_inv`) and can be replayed in another relation, step by step
  (`Run.simulate`) or with several steps for one (`Run.simulate_many`).
  `Visited` collects the states that a run has been in, and `SameRuns` says that
  two systems can do the same.
-/
import Mathlib.Data.List.Induction

namespace Lib

variable {σ τ α β : Type*}

/-- The actions `as`, performed in this order, lead from the first state to the last. -/
inductive Run (step : σ → α → σ → Prop) (s : σ) : List α → σ → Prop
  /-- The empty run stays where it is. -/
  | nil : Run step s [] s
  /-- One more step at the end. -/
  | snoc {as : List α} {a : α} {t u : σ} :
      Run step s as t → step t a u → Run step s (as ++ [a]) u

namespace Run

variable {step : σ → α → σ → Prop} {s t u : σ} {as bs : List α} {a : α}

theorem single (h : step s a t) : Run step s [a] t := Run.snoc .nil h

theorem trans (h : Run step s as t) (h' : Run step t bs u) : Run step s (as ++ bs) u := by
  induction h' with
  | nil => rwa [List.append_nil]
  | snoc _ hstep ih =>
    rw [← List.append_assoc]
    exact ih.snoc hstep

theorem cons (h : step s a t) (h' : Run step t as u) : Run step s (a :: as) u :=
  (single h).trans h'

/-- **Invariants.** What every step preserves holds at the end of every run. -/
theorem invariant {I : σ → Prop} (hI : ∀ s a t, I s → step s a t → I t)
    (h : Run step s as t) (hs : I s) : I t := by
  induction h with
  | nil => exact hs
  | snoc _ hstep ih => exact hI _ _ _ ih hstep

/-- **Simulation.** A run can be replayed in a second relation, action by action, when each of its
steps can, from any state related to the one it starts in. -/
theorem simulate {step' : τ → α → τ → Prop} {R : σ → τ → Prop} {s' : τ}
    (hR : ∀ s a t s', R s s' → step s a t → ∃ t', step' s' a t' ∧ R t t')
    (h : Run step s as t) (hs : R s s') : ∃ t', Run step' s' as t' ∧ R t t' := by
  induction h with
  | nil => exact ⟨s', .nil, hs⟩
  | snoc _ hstep ih =>
    obtain ⟨t', hrun, hRt⟩ := ih
    obtain ⟨u', hstep', hRu⟩ := hR _ _ _ _ hRt hstep
    exact ⟨u', hrun.snoc hstep', hRu⟩

/-- A run with other names for its actions. -/
theorem relabel (f : β → α) {bs : List β} (h : Run (fun s b t => step s (f b) t) s bs t) :
    Run step s (bs.map f) t := by
  induction h with
  | nil => exact .nil
  | snoc _ hstep ih =>
    rw [List.map_append]
    exact ih.snoc hstep

/-- **Simulation by many steps.** A run can be followed in a second relation, with other actions,
when each of its steps can be followed by a run. -/
theorem simulate_many {step' : τ → β → τ → Prop} {R : σ → τ → Prop} {s' : τ}
    (hR : ∀ s a t s', R s s' → step s a t → ∃ bs t', Run step' s' bs t' ∧ R t t')
    (h : Run step s as t) (hs : R s s') : ∃ bs t', Run step' s' bs t' ∧ R t t' := by
  induction h with
  | nil => exact ⟨[], s', .nil, hs⟩
  | snoc _ hstep ih =>
    obtain ⟨bs, t', hrun, hRt⟩ := ih
    obtain ⟨cs, u', hrun', hRu⟩ := hR _ _ _ _ hRt hstep
    exact ⟨bs ++ cs, u', hrun.trans hrun', hRu⟩

/-- The empty run goes nowhere. -/
theorem nil_inv (h : Run step s [] t) : t = s := by
  obtain ⟨as, has⟩ : ∃ as : List α, as = [] := ⟨[], rfl⟩
  rw [← has] at h
  cases h with
  | nil => rfl
  | snoc => exact absurd has (List.append_ne_nil_of_right_ne_nil _ (List.cons_ne_nil _ _))

/-- The last action of a run. -/
theorem snoc_inv (h : Run step s (as ++ [a]) u) : ∃ t, Run step s as t ∧ step t a u := by
  obtain ⟨bs, hbs⟩ : ∃ bs, bs = as ++ [a] := ⟨_, rfl⟩
  rw [← hbs] at h
  cases h with
  | nil => exact absurd hbs.symm (List.append_ne_nil_of_right_ne_nil _ (List.cons_ne_nil _ _))
  | snoc hrun hstep =>
    obtain ⟨rfl, hlast⟩ := List.append_inj' hbs rfl
    obtain rfl := List.singleton_inj.mp hlast
    exact ⟨_, hrun, hstep⟩

/-- A run splits where its list of actions does. -/
theorem append_inv (h : Run step s (as ++ bs) u) : ∃ t, Run step s as t ∧ Run step t bs u := by
  induction bs using List.reverseRecOn generalizing u with
  | nil => exact ⟨u, List.append_nil as ▸ h, .nil⟩
  | append_singleton bs b ih =>
    rw [← List.append_assoc] at h
    obtain ⟨t, hrun, hstep⟩ := h.snoc_inv
    obtain ⟨v, hrun₁, hrun₂⟩ := ih hrun
    exact ⟨v, hrun₁, hrun₂.snoc hstep⟩

/-- The action in the middle of a run. -/
theorem middle_inv (h : Run step s (as ++ a :: bs) u) :
    ∃ t t', Run step s as t ∧ step t a t' ∧ Run step t' bs u := by
  rw [← List.singleton_append, ← List.append_assoc] at h
  obtain ⟨t', hrun, hrun'⟩ := h.append_inv
  obtain ⟨t, hrun, hstep⟩ := hrun.snoc_inv
  exact ⟨t, t', hrun, hstep, hrun'⟩

/-- The first action of a run. -/
theorem cons_inv (h : Run step s (a :: as) u) : ∃ t, step s a t ∧ Run step t as u := by
  rw [← List.nil_append (a :: as)] at h
  obtain ⟨t, t', hrun, hstep, hrun'⟩ := h.middle_inv
  obtain rfl := hrun.nil_inv
  exact ⟨t', hstep, hrun'⟩

/-- **Two runs.** Two runs of the same actions stay related, when any two steps of one action do. -/
theorem together {step' : τ → α → τ → Prop} {R : σ → τ → Prop} {s' t' : τ}
    (hR : ∀ s a t s' t', R s s' → step s a t → step' s' a t' → R t t')
    (h : Run step s as t) (h' : Run step' s' as t') (hs : R s s') : R t t' := by
  induction h generalizing t' with
  | nil =>
    rw [h'.nil_inv]
    exact hs
  | snoc _ hstep ih =>
    obtain ⟨u', hrun', hstep'⟩ := h'.snoc_inv
    exact hR _ _ _ _ _ (ih hrun') hstep hstep'

/-- When each action has one result, so has a run. -/
theorem unique (hdet : ∀ s a t u, step s a t → step s a u → t = u) (h : Run step s as t)
    (h' : Run step s as u) : t = u :=
  h.together (R := Eq) (fun _ _ _ _ _ hs ht hu => hdet _ _ _ _ ht (hs ▸ hu)) h' rfl

/-- **Determinism.** When each action has one result, so has a run, and the answers are the
same. -/
theorem deterministic {step : σ → α × β → σ → Prop}
    (hdet : ∀ s a b t b' t', step s (a, b) t → step s (a, b') t' → b = b' ∧ t = t')
    {es es' : List (α × β)} (h : Run step s es t) (h' : Run step s es' u)
    (hes : es.map Prod.fst = es'.map Prod.fst) : es = es' ∧ t = u := by
  induction h generalizing es' u with
  | nil =>
    obtain rfl := List.map_eq_nil_iff.mp hes.symm
    exact ⟨rfl, h'.nil_inv.symm⟩
  | @snoc as e t v hrun hstep ih =>
    obtain ⟨bs, e', rfl⟩ : ∃ bs e', es' = bs ++ [e'] := by
      rcases List.eq_nil_or_concat es' with rfl | ⟨bs, e', rfl⟩
      · simp at hes
      · exact ⟨bs, e', List.concat_eq_append⟩
    obtain ⟨w, hrun', hstep'⟩ := h'.snoc_inv
    rw [List.map_append, List.map_append] at hes
    obtain ⟨hinit, hlast⟩ := List.append_inj' hes rfl
    obtain ⟨rfl, rfl⟩ := ih hrun' hinit
    obtain ⟨a, b⟩ := e
    obtain ⟨a', b'⟩ := e'
    obtain rfl : a = a' := List.singleton_inj.mp hlast
    obtain ⟨rfl, rfl⟩ := hdet _ _ _ _ _ _ hstep hstep'
    exact ⟨rfl, rfl⟩

/-- **Conservation.**  When no step loses or doubles anything, no run does: what was there and what
came in is what has gone and what is there. -/
theorem conserved {β : Type*} (given gone : α → List β) (held : σ → List β) {I : σ → Prop}
    (hstep : ∀ s a t, I s → step s a t → I t ∧ (held s ++ given a).Perm (gone a ++ held t))
    {as : List α} (hrun : Run step s as t) (hs : I s) :
    I t ∧ (held s ++ as.flatMap given).Perm (as.flatMap gone ++ held t) := by
  induction hrun with
  | nil => exact ⟨hs, List.perm_append_comm⟩
  | @snoc as a t u hrun hlast ih =>
    obtain ⟨ht, hperm⟩ := ih
    obtain ⟨hu, hlast⟩ := hstep t a u ht hlast
    refine ⟨hu, ?_⟩
    have hone := hlast.append_left (as.flatMap gone)
    rw [← List.append_assoc, ← List.append_assoc] at hone
    rw [List.flatMap_append, List.flatMap_append, List.flatMap_singleton, List.flatMap_singleton,
      ← List.append_assoc]
    exact (hperm.append_right _).trans hone

/-- **Progress.**  When every state that is not done has a step after which less is to be done, some
run gets everything done. -/
theorem exists_of_less {I : ℕ → σ → Prop} {D : σ → Prop}
    (hI : ∀ n s, I n s → D s ∨ ∃ a t k, step s a t ∧ I k t ∧ k < n) {n : ℕ} (hs : I n s) :
    ∃ as t k, Run step s as t ∧ I k t ∧ D t := by
  induction n using Nat.strongRecOn generalizing s with
  | ind n ih =>
    rcases hI n s hs with hdone | ⟨a, t, k, hstep, ht, hlt⟩
    · exact ⟨[], s, n, .nil, hs, hdone⟩
    · obtain ⟨as, u, m, hrun, hu, hdone⟩ := ih k hlt ht
      exact ⟨a :: as, u, m, .cons hstep hrun, hu, hdone⟩

end Run

/-! ### The states on the way -/

/-- The state `u` is visited by the actions `as`: the first of them lead to it. -/
def Visited (step : σ → α → σ → Prop) (s : σ) (as : List α) (u : σ) : Prop :=
  ∃ bs, bs <+: as ∧ Run step s bs u

section Visited

variable {step : σ → α → σ → Prop} {s t u : σ} {as : List α} {a : α}

theorem Run.visited (h : Run step s as t) : Visited step s as t := ⟨as, List.prefix_rfl, h⟩

/-- One more action visits one more state. -/
theorem visited_snoc : Visited step s (as ++ [a]) u ↔
    Visited step s as u ∨ Run step s (as ++ [a]) u := by
  constructor
  · rintro ⟨bs, hbs, hrun⟩
    rcases List.prefix_concat_iff.mp hbs with rfl | hbs
    · exact Or.inr hrun
    · exact Or.inl ⟨bs, hbs, hrun⟩
  · rintro (⟨bs, hbs, hrun⟩ | hrun)
    · exact ⟨bs, hbs.trans (List.prefix_append _ _), hrun⟩
    · exact hrun.visited

theorem visited_nil : Visited step s [] u ↔ u = s := by
  constructor
  · rintro ⟨bs, hbs, hrun⟩
    obtain rfl := List.prefix_nil.mp hbs
    exact hrun.nil_inv
  · rintro rfl
    exact Run.nil.visited

end Visited

/-! ### Runs with a meter -/

/-- A step with a meter, which adds up what the steps are worth in the states they start from. -/
def metered (step : σ → α → σ → Prop) (worth : σ → α → ℕ) (s : σ × ℕ) (a : α) (t : σ × ℕ) : Prop :=
  step s.1 a t.1 ∧ t.2 = s.2 + worth s.1 a

/-! ### Systems with the same runs -/

/-- **The same runs**: whatever one system does from its state, the other one does from its own, and
`R` relates the states they reach. -/
structure SameRuns {σ τ α : Type*} (step : σ → α → σ → Prop) (step' : τ → α → τ → Prop)
    (R : σ → τ → Prop) (s : σ) (s' : τ) : Prop where
  forth : ∀ as t, Run step s as t → ∃ t', Run step' s' as t' ∧ R t t'
  back : ∀ as t', Run step' s' as t' → ∃ t, Run step s as t ∧ R t t'

/-- A system that answers as a second one does, in all states that `I` relates, has the same
runs. -/
theorem SameRuns.of_exec {σ τ γ β ε : Type*} {allowed : σ → γ → Prop}
    {exec : σ → γ → Except ε (β × σ)} {allowed' : τ → γ → Prop} {exec' : τ → γ → β × τ}
    {I R : σ → τ → Prop} {s : σ} {s' : τ}
    (hallowed : ∀ s s' c, I s s' → (allowed s c ↔ allowed' s' c))
    (hexec : ∀ s s' c, I s s' → allowed s c →
      ∃ t, exec s c = .ok ((exec' s' c).1, t) ∧ I t (exec' s' c).2)
    (hR : ∀ s s', I s s' → R s s') (hs : I s s') :
    SameRuns (fun s (e : γ × β) t => allowed s e.1 ∧ exec s e.1 = .ok (e.2, t))
      (fun s' (e : γ × β) t' => allowed' s' e.1 ∧ exec' s' e.1 = (e.2, t')) R s s' where
  forth as t hrun := by
    have key : ∃ t', Run (fun s' (e : γ × β) t' => allowed' s' e.1 ∧ exec' s' e.1 = (e.2, t')) s' as
        t' ∧ I t t' := by
      refine hrun.simulate (R := I) (fun s e t s' hI hstep => ?_) hs
      obtain ⟨u, hu, hIu⟩ := hexec s s' e.1 hI hstep.1
      obtain ⟨ho, rfl⟩ := Prod.mk.inj (Except.ok.inj (hu.symm.trans hstep.2))
      exact ⟨_, ⟨(hallowed s s' e.1 hI).mp hstep.1, Prod.ext ho rfl⟩, hIu⟩
    obtain ⟨t', hrun', ht⟩ := key
    exact ⟨t', hrun', hR t t' ht⟩
  back as t' hrun := by
    have key : ∃ t, Run (fun s (e : γ × β) t => allowed s e.1 ∧ exec s e.1 = .ok (e.2, t)) s as t ∧
        I t t' := by
      refine hrun.simulate (R := fun s' s => I s s') (fun s' e t' s hI hstep => ?_) hs
      have hc := (hallowed s s' e.1 hI).mpr hstep.1
      obtain ⟨u, hu, hIu⟩ := hexec s s' e.1 hI hc
      rw [hstep.2] at hu hIu
      exact ⟨u, ⟨hc, hu⟩, hIu⟩
    obtain ⟨t, hrun', ht⟩ := key
    exact ⟨t, hrun', hR t t' ht⟩

/-! ### Replaying a script -/

/-- Perform an action, if it is allowed and does not fail. -/
def attempt {ε γ : Type*} (allowed : σ → α → Prop) [∀ s a, Decidable (allowed s a)]
    (exec : σ → α → Except ε γ) (s : σ) (a : α) : Option γ :=
  if allowed s a then (exec s a).toOption else none

theorem eq_ok_of_toOption {ε γ : Type*} {x : Except ε γ} {r : γ} (h : x.toOption = some r) :
    x = .ok r := by
  cases x with
  | error e => cases h
  | ok r' => exact congrArg Except.ok (Option.some.inj h)

theorem of_attempt {ε γ : Type*} {allowed : σ → α → Prop} [∀ s a, Decidable (allowed s a)]
    {exec : σ → α → Except ε γ} {s : σ} {a : α} {r : γ} (h : attempt allowed exec s a = some r) :
    allowed s a ∧ exec s a = .ok r := by
  unfold attempt at h
  split_ifs at h with hc
  exact ⟨hc, eq_ok_of_toOption h⟩

/-- Perform the actions of a script one after the other, collecting what they answer. -/
def replay (f : σ → α → Option (β × σ)) (s : σ) : List α → Option (List (α × β) × σ)
  | [] => some ([], s)
  | a :: as =>
    (f s a).bind fun (b, t) => (replay f t as).bind fun (es, u) => some ((a, b) :: es, u)

/-- A replayed script is a run, when every performed action is a step. -/
theorem run_of_replay {f : σ → α → Option (β × σ)} {step : σ → α × β → σ → Prop}
    (hf : ∀ s a b t, f s a = some (b, t) → step s (a, b) t) {s t : σ} {as : List α}
    {es : List (α × β)} (h : replay f s as = some (es, t)) : Run step s es t := by
  induction as generalizing s es with
  | nil =>
    obtain ⟨rfl, rfl⟩ := Prod.mk.inj (Option.some.inj h)
    exact .nil
  | cons a as ih =>
    obtain ⟨⟨b, u⟩, hb, h⟩ := Option.bind_eq_some_iff.mp h
    obtain ⟨⟨es', v⟩, hes, h⟩ := Option.bind_eq_some_iff.mp h
    obtain ⟨rfl, rfl⟩ := Prod.mk.inj (Option.some.inj h)
    exact .cons (hf s a b u hb) (ih hes)

/-- A script without answers. -/
theorem run_of_foldlM {f : σ → α → Option σ} {step : σ → α → σ → Prop}
    (hf : ∀ s a t, f s a = some t → step s a t) {s t : σ} {as : List α}
    (h : as.foldlM f s = some t) : Run step s as t := by
  induction as generalizing s with
  | nil =>
    obtain rfl := Option.some.inj h
    exact .nil
  | cons a as ih =>
    rw [List.foldlM_cons] at h
    obtain ⟨u, hu, h⟩ := Option.bind_eq_some_iff.mp h
    exact .cons (hf s a u hu) (ih h)

end Lib
