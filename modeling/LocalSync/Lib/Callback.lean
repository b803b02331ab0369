/-
  Callbacks that re-enter the program that calls them.

  An action may call a callback before it returns, and the callback performs
  actions of its own, which may call it in turn.  `callback exec script stuck`
  is the callback that performs the actions of a script; how deep the calls nest
  is bounded by an argument, so that the recursion is structural.

  What a script does is decided action by action.  When no action calls the
  callback, a script keeps every invariant of its actions
  (`callback_of_invariant`).  A script that fails at one of its actions fails
  there (`callback_of_error`).
-/
import Mathlib.Data.Nat.Notation
import Mathlib.Tactic.TypeStar

namespace Lib

universe u

variable {σ : Type u} {α ε : Type*}

/-- The callback that performs the actions of `script`.  An action is told which callback to use for
its own calls; at depth 0 there is none left. -/
def callback (exec : (σ → Except ε σ) → σ → α → Except ε σ) (script : σ → List α) (stuck : ε) :
    ℕ → σ → Except ε σ
  | 0, _ => .error stuck
  | depth + 1, s => (script s).foldlM (exec (callback exec script stuck depth)) s

variable {exec : (σ → Except ε σ) → σ → α → Except ε σ} {script : σ → List α} {stuck e : ε}
  {I : σ → Prop} {f : σ → α → Except ε σ} {s t : σ} {a : α}

/-- Actions that keep an invariant and do not fail, one after the other. -/
theorem foldlM_of_invariant (as : List α) (hI : ∀ s a, I s → ∃ t, f s a = .ok t ∧ I t) (hs : I s) :
    ∃ t, as.foldlM f s = .ok t ∧ I t := by
  induction as generalizing s with
  | nil => exact ⟨s, rfl, hs⟩
  | cons a as ih =>
    obtain ⟨t, hres, ht⟩ := hI s a hs
    obtain ⟨u, hres', hu⟩ := ih ht
    exact ⟨u, by rw [List.foldlM_cons, hres]; exact hres', hu⟩

/-- **A script of quiet actions** keeps their invariant: no matter what they would call, they
return. -/
theorem callback_of_invariant (hI : ∀ wake s a, I s → ∃ t, exec wake s a = .ok t ∧ I t)
    (hs : I s) (depth : ℕ) :
    ∃ t, callback exec script stuck (depth + 1) s = .ok t ∧ I t :=
  foldlM_of_invariant _ (hI _) hs

/-- **A script that fails** at the action `a`. -/
theorem callback_of_error (as bs : List α) {depth : ℕ} (hscript : script s = as ++ a :: bs)
    (has : as.foldlM (exec (callback exec script stuck depth)) s = .ok t)
    (ha : exec (callback exec script stuck depth) t a = .error e) :
    callback exec script stuck (depth + 1) s = .error e := by
  rw [callback, hscript, List.foldlM_append, has]
  show (a :: bs).foldlM (exec (callback exec script stuck depth)) t = .error e
  rw [List.foldlM_cons, ha]
  rfl

/-! ### Programs that call back -/

variable {β γ : Type u}

/-- The program `y` calls the callback `n` times and ends in `r`, when the callback returns at once
each time; where it calls, `Q` holds. -/
inductive Calls (Q : σ → Prop) : ℕ → ((σ → Except ε σ) → Except ε β) → Except ε β → Prop
  /-- It ends. -/
  | done (r : Except ε β) : Calls Q 0 (fun _ => r) r
  /-- It calls, and goes on where the callback returns. -/
  | call {s : σ} {n : ℕ} {y : (σ → Except ε σ) → σ → Except ε β} {r : Except ε β} : Q s →
      Calls Q n (fun wake => y wake s) r → Calls Q (n + 1) (fun wake => wake s >>= y wake) r

namespace Calls

variable {Q : σ → Prop} {n m : ℕ} {y : (σ → Except ε σ) → Except ε β} {r : Except ε β}
  {r' : Except ε γ} {k : (σ → Except ε σ) → β → Except ε γ} {b : β} {wake : σ → Except ε σ}

/-- A callback that returns at once. -/
theorem eq_of_idle (h : Calls Q n y r) (hwake : ∀ s, Q s → wake s = .ok s) : y wake = r := by
  induction h with
  | done r => rfl
  | @call s n y r hs _ ih =>
    show wake s >>= y wake = r
    rw [hwake s hs]
    exact ih

/-- A callback that is never called. -/
theorem eq_of_quiet (h : Calls Q 0 y r) (wake : σ → Except ε σ) : y wake = r := by
  obtain ⟨n, hn⟩ : ∃ n, n = 0 := ⟨0, rfl⟩
  rw [← hn] at h
  cases h with
  | done => rfl
  | call => cases hn

/-- **The first call decides**, where it fails. -/
theorem error_of_first (h : Calls Q n y r) (hn : n ≠ 0) (hwake : ∀ s, Q s → wake s = .error e) :
    y wake = .error e := by
  cases h with
  | done => exact absurd rfl hn
  | @call s _ y _ hs _ =>
    show wake s >>= y wake = .error e
    rw [hwake s hs]
    rfl

/-- One program after the other. -/
theorem bind_ok (h : Calls Q n y (.ok b)) (hk : Calls Q m (fun wake => k wake b) r') :
    Calls Q (n + m) (fun wake => y wake >>= k wake) r' := by
  obtain ⟨r, hr⟩ : ∃ r : Except ε β, r = .ok b := ⟨_, rfl⟩
  rw [← hr] at h
  induction h with
  | done r =>
    subst hr
    rw [Nat.zero_add]
    exact hk
  | @call s n y r hs _ ih =>
    have hassoc : (fun wake => (wake s >>= y wake) >>= k wake) =
        fun wake : σ → Except ε σ => wake s >>= fun s' => y wake s' >>= k wake := by
      funext wake
      cases wake s <;> rfl
    rw [hassoc, Nat.add_right_comm]
    exact call hs (ih hr)

/-- A program that fails is not continued. -/
theorem bind_error (h : Calls Q n y (.error e)) :
    Calls Q n (fun wake => y wake >>= k wake) (.error e) := by
  obtain ⟨r, hr⟩ : ∃ r : Except ε β, r = .error e := ⟨_, rfl⟩
  rw [← hr] at h
  induction h with
  | done r =>
    subst hr
    exact done _
  | @call s n y r hs _ ih =>
    have hassoc : (fun wake => (wake s >>= y wake) >>= k wake) =
        fun wake : σ → Except ε σ => wake s >>= fun s' => y wake s' >>= k wake := by
      funext wake
      cases wake s <;> rfl
    rw [hassoc]
    exact call hs (ih hr)

end Calls

end Lib
