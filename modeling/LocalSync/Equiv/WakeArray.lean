/-
  The array of wakers is the list of its wakers.

  `Holds w l`: the first slots of `w` have the wakers of `l`, and no other slot has
  one.  Reading the last one keeps this for the list without it (`Holds.read`),
  from which the two loops follow (`wakeLoop_spec`, `dropSlots_spec`).

  So the array has the runs of the list (`array_follows_list`), and each waker that
  is pushed is woken once or dropped once, also when the code of one of them
  panics (`wakers_conserved`).
-/
import LocalSync.Lib.Run
import LocalSync.WakeArray

namespace LocalSync.WakeArray

open Lib

variable {A : Type}

/-- **The array has the wakers of the list**, and no others. -/
structure Holds (w : WakeArray A) (l : List A) : Prop where
  curr : w.curr = l.length
  le : l.length ≤ numWakers
  inner : ∀ i, w.inner i = l[(i : ℕ)]?

variable {w : WakeArray A} {l : List A} {a : A} {n : ℕ} {wakes : A → Bool}

theorem new_holds : Holds (new : WakeArray A) [] :=
  ⟨rfl, Nat.zero_le _, fun _ => rfl⟩

theorem slot_eq (h : n < numWakers) : slot n = .ok ⟨n, h⟩ := by
  rw [slot, dif_pos h]

/-- Reading a slot that has a waker moves it out. -/
theorem read_eq (hn : n < numWakers) (h : w.inner ⟨n, hn⟩ = some a) :
    w.read n = .ok (a, { w with inner := Function.update w.inner ⟨n, hn⟩ none }) := by
  rw [read, slot_eq hn, ok_bind]
  simp only [h]
  rfl

theorem Holds.push (h : Holds w l) (hlt : l.length < numWakers) (a : A) :
    ∃ w', w.push a = .ok w' ∧ Holds w' (l ++ [a]) := by
  have hcan : w.canPush = true := by
    rw [canPush, h.curr]
    exact decide_eq_true hlt
  refine ⟨{ inner := Function.update w.inner ⟨l.length, hlt⟩ (some a), curr := l.length + 1 }, ?_,
    ?_, ?_, fun i => ?_⟩
  · rw [WakeArray.push, hcan, assert_true, ok_bind, h.curr, slot_eq hlt]
    rfl
  · rw [List.length_append, List.length_singleton]
  · rw [List.length_append, List.length_singleton]
    exact hlt
  · by_cases hi : i = ⟨l.length, hlt⟩
    · subst hi
      simp
    · have hne : (i : ℕ) ≠ l.length := fun heq => hi (Fin.ext heq)
      dsimp only
      rw [Function.update_of_ne hi, h.inner]
      rcases Nat.lt_or_gt_of_ne hne with hlt | hgt
      · rw [List.getElem?_append_left hlt]
      · rw [List.getElem?_eq_none (by omega), List.getElem?_eq_none (by simp; omega)]

/-- **Reading the last waker** moves it out. -/
theorem Holds.read (h : Holds w (l ++ [a])) :
    ∃ w', ({ w with curr := l.length } : WakeArray A).read l.length = .ok (a, w') ∧
      Holds w' l := by
  have hle := h.le
  rw [List.length_append, List.length_singleton] at hle
  have hlast : w.inner ⟨l.length, hle⟩ = some a := by
    rw [h.inner]
    simp
  refine ⟨{ inner := Function.update w.inner ⟨l.length, hle⟩ none, curr := l.length },
    read_eq hle hlast, rfl, by omega, fun i => ?_⟩
  · by_cases hi : i = ⟨l.length, hle⟩
    · subst hi
      simp
    · have hne : (i : ℕ) ≠ l.length := fun heq => hi (Fin.ext heq)
      dsimp only
      rw [Function.update_of_ne hi, h.inner]
      rcases Nat.lt_or_gt_of_ne hne with hlt | hgt
      · rw [List.getElem?_append_left hlt]
      · rw [List.getElem?_eq_none (by simp; omega), List.getElem?_eq_none (by omega)]

/-- **The loop of `wake_all`** wakes from the last waker on, until the code of one panics. -/
theorem wakeLoop_spec (wakes : A → Bool) (h : Holds w l) :
    ∃ w', (l.reverse.dropWhile wakes = [] →
        wakeLoop wakes l.length w = .ok ((l.reverse, true), w') ∧ Holds w' []) ∧
      ∀ a rest, l.reverse.dropWhile wakes = a :: rest →
        wakeLoop wakes l.length w = .ok ((l.reverse.takeWhile wakes ++ [a], false), w') ∧
          Holds w' rest.reverse := by
  induction l using List.reverseRecOn generalizing w with
  | nil => exact ⟨w, fun _ => ⟨rfl, h⟩, fun a rest hrest => by cases hrest⟩
  | append_singleton l a ih =>
    obtain ⟨w', hread, hw'⟩ := h.read
    have hlen : (l ++ [a]).length = l.length + 1 := by
      rw [List.length_append, List.length_singleton]
    rw [hlen, wakeLoop, hread, ok_bind, List.reverse_append, List.reverse_singleton,
      List.singleton_append, List.dropWhile_cons, List.takeWhile_cons]
    by_cases ha : wakes a = true
    · obtain ⟨w'', hdone, hpanics⟩ := ih hw'
      rw [if_pos ha, if_pos ha]
      refine ⟨w'', fun hrest => ?_, fun b rest hrest => ?_⟩
      · obtain ⟨hres, hw''⟩ := hdone hrest
        exact ⟨by simp only [ha, if_true, hres, ok_bind]; rfl, hw''⟩
      · obtain ⟨hres, hw''⟩ := hpanics b rest hrest
        exact ⟨by simp only [ha, if_true, hres, ok_bind]; rfl, hw''⟩
    · rw [if_neg ha, if_neg ha]
      refine ⟨w', fun hrest => (by cases hrest), fun b rest hrest => ?_⟩
      obtain ⟨rfl, rfl⟩ := List.cons.inj hrest
      rw [List.reverse_reverse]
      exact ⟨by simp only [ha, Bool.false_eq_true, if_false]; rfl, hw'⟩

/-- **The destructor** drops the wakers in their order. -/
theorem dropSlots_spec (hinner : ∀ i : Fin numWakers, w.inner i = l[(i : ℕ)]?)
    (hle : l.length ≤ numWakers) (hn : n ≤ l.length) :
    ∃ w', dropSlots n w = .ok (l.take n, w') ∧ w'.curr = w.curr ∧
      ∀ i : Fin numWakers, w'.inner i = if (i : ℕ) < n then none else l[(i : ℕ)]? := by
  induction n with
  | zero => exact ⟨w, rfl, rfl, fun i => hinner i⟩
  | succ n ih =>
    obtain ⟨w', hres, hcurr, hw'⟩ := ih (by omega)
    have hlt : n < numWakers := by omega
    have hlast : w'.inner ⟨n, hlt⟩ = some l[n] := by
      rw [hw', if_neg (Nat.lt_irrefl n)]
      exact List.getElem?_eq_getElem hn
    refine ⟨{ w' with inner := Function.update w'.inner ⟨n, hlt⟩ none }, ?_, hcurr, fun i => ?_⟩
    · rw [dropSlots, hres, ok_bind]
      dsimp only
      rw [read_eq hlt hlast, List.take_succ_eq_append_getElem hn]
      rfl
    · by_cases hi : i = ⟨n, hlt⟩
      · subst hi
        simp
      · have hne : (i : ℕ) ≠ n := fun heq => hi (Fin.ext heq)
        dsimp only
        rw [Function.update_of_ne hi, hw']
        have hiff : (i : ℕ) < n + 1 ↔ (i : ℕ) < n := by omega
        simp only [hiff]

/-- **What the list shows** of the array. -/
structure Shows (s : Frame (WakeArray A)) (t : Frame (WakeList A)) : Prop where
  alive : s.alive = t.alive
  list : s.alive = true → Holds s.list t.list.inner

variable {s : Frame (WakeArray A)} {t : Frame (WakeList A)} {c : Action A}

theorem Shows.canPush (h : Shows s t) (ha : s.alive = true) : s.list.canPush = t.list.canPush := by
  rw [WakeArray.canPush, WakeList.canPush, (h.list ha).curr]

theorem Shows.allowed_iff (h : Shows s t) (c : Action A) : Allowed s c ↔ WakeList.Allowed t c := by
  cases c with
  | push val =>
    rw [Allowed, WakeList.Allowed, ← h.alive]
    exact and_congr_right fun ha => by rw [h.canPush ha]
  | wakeAll wakes | drop => exact iff_of_eq (congrArg (· = true) h.alive)

/-- Dropping the array. -/
theorem Holds.drop (h : Holds w l) : ∃ w', w.drop = .ok (l, w') := by
  obtain ⟨w', hres, -⟩ := dropSlots_spec h.inner h.le (Nat.le_refl _)
  rw [List.take_length] at hres
  exact ⟨w', by rw [WakeArray.drop, h.curr, hres]⟩

/-- **Every step gives the answer of the list.** -/
theorem exec_shows (h : Shows s t) (hc : Allowed s c) :
    ∃ s', exec s c = .ok ((WakeList.exec t c).1, s') ∧ Shows s' (WakeList.exec t c).2 := by
  cases c with
  | push val =>
    have hl := h.list hc.1
    have hcan : t.list.canPush = true := (h.canPush hc.1).symm.trans hc.2
    obtain ⟨list, hpush, hinner⟩ := WakeList.push_eq hcan val
    obtain ⟨w', hres, hw'⟩ := hl.push (of_decide_eq_true hcan) val
    refine ⟨{ s with list := w' }, ?_⟩
    rw [WakeList.exec, hpush, exec, hres]
    exact ⟨rfl, h.alive, fun _ => hinner ▸ hw'⟩
  | wakeAll wakes =>
    have hl := h.list hc
    obtain ⟨w', hdone, hpanics⟩ := wakeLoop_spec wakes hl
    have hle : decide (s.list.curr ≤ numWakers) = true := by
      rw [hl.curr]
      exact decide_eq_true hl.le
    simp only [exec, WakeArray.wakeAll, hle, assert_true, ok_bind, WakeList.exec,
      WakeList.wakeUntil, WakeList.wakeAll]
    rw [hl.curr]
    cases hrest : t.list.inner.reverse.dropWhile wakes with
    | nil =>
      obtain ⟨hres, hw'⟩ := hdone hrest
      exact ⟨{ s with list := w' }, by rw [hres]; rfl, h.alive, fun _ => hw'⟩
    | cons a rest =>
      obtain ⟨hres, hw'⟩ := hpanics a rest hrest
      obtain ⟨w'', hdrop⟩ := hw'.drop
      refine ⟨{ list := w'', alive := false }, ?_, rfl, fun hf => by cases hf⟩
      rw [hres, ok_bind]
      simp only [Bool.false_eq_true, if_false, hdrop, ok_bind]
      rfl
  | drop =>
    obtain ⟨w', hdrop⟩ := (h.list hc).drop
    refine ⟨{ list := w', alive := false }, ?_, rfl, fun hf => by cases hf⟩
    rw [exec, hdrop]
    rfl

/-- **The array of wakers is the list of its wakers**: both have the same runs, with the same
answers. -/
theorem array_follows_list (A : Type) :
    SameRuns Step WakeList.Step Shows { list := (new : WakeArray A), alive := true }
      { list := WakeList.new, alive := true } :=
  SameRuns.of_exec (fun _ _ c h => h.allowed_iff c) (fun _ _ _ h hc => exec_shows h hc)
    (fun _ _ h => h) ⟨rfl, fun _ => new_holds⟩

/-! ### What becomes of the wakers -/

/-- **One step**: the wakers in the list and those that come in are those that are woken or dropped
and those that are then in the list. -/
theorem held_step (hc : WakeList.Allowed t c) :
    (WakeList.held t ++ pushed c).Perm
      (gone (WakeList.exec t c).1 ++ WakeList.held (WakeList.exec t c).2) := by
  cases c with
  | push val =>
    obtain ⟨list, hpush, hinner⟩ := WakeList.push_eq hc.2 val
    simp only [WakeList.exec, hpush, WakeList.held, hc.1, if_true, hinner]
    exact List.Perm.refl _
  | wakeAll wakes =>
    have ha : t.alive = true := hc
    have hperm : t.list.inner.Perm t.list.inner.reverse := t.list.inner.reverse_perm.symm
    simp only [WakeList.exec, WakeList.wakeUntil, WakeList.wakeAll]
    cases hrest : t.list.inner.reverse.dropWhile wakes with
    | nil =>
      simp only [WakeList.held, ha, if_true, pushed, List.append_nil]
      exact hperm.trans (List.Perm.of_eq (List.append_nil _).symm)
    | cons a rest =>
      have hsplit := List.takeWhile_append_dropWhile (p := wakes) (l := t.list.inner.reverse)
      rw [hrest, ← List.singleton_append, ← List.append_assoc] at hsplit
      rw [← hsplit] at hperm
      simp only [WakeList.held, ha, if_true, pushed, gone, List.append_nil, Bool.false_eq_true,
        if_false]
      exact hperm.trans (rest.reverse_perm.symm.append_left _)
  | drop =>
    have ha : t.alive = true := hc
    simp only [WakeList.exec, WakeList.held, ha, if_true, pushed, gone, List.append_nil,
      Bool.false_eq_true, if_false]
    exact List.Perm.refl _

theorem filterMap_getElem? (l : List A) (n : ℕ) :
    ((List.range n).filterMap fun i => l[i]?) = l.take n := by
  induction n with
  | zero => simp
  | succ n ih =>
    rw [List.range_succ, List.filterMap_append, ih, List.take_add_one]
    cases h : l[n]? <;> simp [h]

/-- The wakers that are found in the array are those of the list. -/
theorem Shows.held_eq (h : Shows s t) : held s = WakeList.held t := by
  rw [held, WakeList.held, ← h.alive]
  cases ha : s.alive with
  | false => rfl
  | true =>
    have hl := h.list ha
    have hinner : s.list.inner = (fun i => t.list.inner[i]?) ∘ fun i : Fin numWakers => (i : ℕ) :=
      funext hl.inner
    rw [if_pos rfl, if_pos rfl, hinner, ← List.filterMap_map, List.map_coe_finRange_eq_range,
      filterMap_getElem?, List.take_of_length_le hl.le]

/-- **Each waker that is pushed is woken or dropped exactly once**, if it is not still in the list,
also when the code of one of them panics. -/
theorem wakers_conserved {es : List (Action A × Answer A)} {s : Frame (WakeArray A)}
    (hrun : Run Step { list := (new : WakeArray A), alive := true } es s) :
    (es.flatMap fun e => pushed e.1).Perm ((es.flatMap fun e => gone e.2) ++ held s) := by
  have hstart : Shows { list := (new : WakeArray A), alive := true }
      { list := WakeList.new, alive := true } := ⟨rfl, fun _ => new_holds⟩
  have hstep : ∀ s (e : Action A × Answer A) s', (∃ t, Shows s t) → Step s e s' →
      (∃ t, Shows s' t) ∧ (held s ++ pushed e.1).Perm (gone e.2 ++ held s') := by
    rintro s ⟨c, o⟩ s' ⟨t, h⟩ ⟨hc, hres⟩
    obtain ⟨u, hres', hu⟩ := exec_shows h hc
    obtain ⟨ho, rfl⟩ := Prod.mk.inj (Except.ok.inj (hres.symm.trans hres'))
    dsimp only at ho hc hu ⊢
    rw [ho, h.held_eq, hu.held_eq]
    exact ⟨⟨_, hu⟩, held_step ((h.allowed_iff c).mp hc)⟩
  have hperm := (Run.conserved (fun e => pushed e.1) (fun e => gone e.2) held hstep hrun
    ⟨_, hstart⟩).2
  rw [hstart.held_eq] at hperm
  exact hperm

/-- Three wakers are pushed, and the code of the second one panics: the first one is dropped. -/
theorem wakers_conserved_unwound : ∃ (es : List (Action ℕ × Answer ℕ)) (s : Frame (WakeArray ℕ)),
    Run Step { list := (new : WakeArray ℕ), alive := true } es s ∧
      (es.map Prod.snd).getLast? = some (.unwound [3, 2] [1]) ∧
      (es.flatMap fun e => pushed e.1).Perm ((es.flatMap fun e => gone e.2) ++ held s) := by
  have hcheck : (replay (attempt Allowed exec) { list := (new : WakeArray ℕ), alive := true }
      [.push 1, .push 2, .push 3, .wakeAll fun w => w != 2]).map
        (fun r => (r.1.map Prod.snd).getLast?) = some (some (.unwound [3, 2] [1])) := by
    decide +kernel
  obtain ⟨⟨es, s⟩, hres, hlast⟩ := Option.map_eq_some_iff.mp hcheck
  have hrun : Run Step _ es s := run_of_replay (fun _ _ _ _ => of_attempt) hres
  exact ⟨es, s, hrun, hlast, wakers_conserved hrun⟩

end LocalSync.WakeArray
