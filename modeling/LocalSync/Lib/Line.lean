/-
  First come, first served.

  A line is a list of demands, oldest first.  A supply of `n` units is handed
  out along it: `serve n l` is what is still owed afterwards, and `rest n l` is
  what nobody asked for.  The first demand that is not met in full keeps what
  is left, and everybody behind it waits.

  What a line looks like depends on its demands and the total supply only.  So
  it does not matter when a supply comes in (`serve_add`), nor whether a demand
  that is withdrawn in the end was in the line in between (`serve_withdraw`).

  How long a demand waits is known from the start: `upTo i l` is what has to come
  in before `i` is served, and a supply takes off exactly what it is (`upTo_serve`).
-/
import Mathlib.Data.List.Basic

namespace Lib

variable {ι : Type*}

/-- What is still owed once `n` units have been handed out. -/
def serve : ℕ → List (ι × ℕ) → List (ι × ℕ)
  | _, [] => []
  | n, (i, k) :: l => if k ≤ n then serve (n - k) l else (i, k - n) :: l

/-- What is left of `n` units. -/
def rest : ℕ → List (ι × ℕ) → ℕ
  | n, [] => n
  | n, (_, k) :: l => if k ≤ n then rest (n - k) l else 0

/-- What the line owes to `i`. -/
def owed [DecidableEq ι] (l : List (ι × ℕ)) (i : ι) : ℕ := (l.lookup i).getD 0

/-- The line without `i`. -/
def without [DecidableEq ι] (i : ι) (l : List (ι × ℕ)) : List (ι × ℕ) := l.filter (·.1 != i)

variable {n m k : ℕ} {i : ι} {l l₁ l₂ : List (ι × ℕ)}

/-- Who is served leaves the line from its oldest end. -/
theorem serve_suffix (n : ℕ) (l : List (ι × ℕ)) :
    (serve n l).map Prod.fst <:+ l.map Prod.fst := by
  induction l generalizing n with
  | nil => exact List.suffix_rfl
  | cons d l ih =>
    rw [serve]
    split_ifs
    · exact (ih _).trans (List.suffix_cons _ _)
    · exact List.suffix_rfl

/-- **Two supplies** come to the same as one. -/
theorem serve_add (m n : ℕ) (l : List (ι × ℕ)) : serve (m + n) l = serve n (serve m l) := by
  induction l generalizing m with
  | nil => rfl
  | cons d l ih =>
    obtain ⟨i, k⟩ := d
    rw [serve, serve]
    by_cases hm : k ≤ m
    · rw [if_pos hm, if_pos (by omega), ← ih, Nat.sub_add_comm hm]
    · rw [if_neg hm, serve]
      by_cases hmn : k ≤ m + n
      · rw [if_pos hmn, if_pos (by omega), show m + n - k = n - (k - m) by omega]
      · rw [if_neg hmn, if_neg (by omega), Nat.sub_sub]

theorem rest_add (m n : ℕ) (l : List (ι × ℕ)) :
    rest (m + n) l = rest m l + rest n (serve m l) := by
  induction l generalizing m with
  | nil => rfl
  | cons d l ih =>
    obtain ⟨i, k⟩ := d
    rw [serve, rest, rest]
    by_cases hm : k ≤ m
    · rw [if_pos hm, if_pos hm, if_pos (by omega), ← ih, Nat.sub_add_comm hm]
    · rw [if_neg hm, if_neg hm, rest, Nat.zero_add]
      by_cases hmn : k ≤ m + n
      · rw [if_pos hmn, if_pos (by omega), show m + n - k = n - (k - m) by omega]
      · rw [if_neg hmn, if_neg (by omega)]

/-- **A new demand** goes to the end of the line, unless it is met at once. -/
theorem serve_snoc (hk : 0 < k) (n : ℕ) (l : List (ι × ℕ)) :
    serve n (l ++ [(i, k)]) =
      serve n l ++ if k ≤ rest n l then [] else [(i, k - rest n l)] := by
  induction l generalizing n with
  | nil =>
    show serve n [(i, k)] = [] ++ if k ≤ n then [] else [(i, k - n)]
    rw [serve, List.nil_append]
    rfl
  | cons d l ih =>
    obtain ⟨j, k'⟩ := d
    rw [List.cons_append, serve, serve, rest]
    by_cases hn : k' ≤ n
    · rw [if_pos hn, if_pos hn, if_pos hn, ih]
    · rw [if_neg hn, if_neg hn, if_neg hn, if_neg (by omega), Nat.sub_zero]
      rfl

theorem rest_snoc (n : ℕ) (l : List (ι × ℕ)) : rest n (l ++ [(i, k)]) = rest n l - k := by
  induction l generalizing n with
  | nil =>
    show rest n [(i, k)] = n - k
    rw [rest]
    split_ifs
    · rfl
    · omega
  | cons d l ih =>
    obtain ⟨j, k'⟩ := d
    rw [List.cons_append, rest, rest]
    split_ifs
    · exact ih _
    · rw [Nat.zero_sub]

section DecidableEq

variable [DecidableEq ι]

theorem lookup_of_not_mem (h : i ∉ l.map Prod.fst) : l.lookup i = none := by
  refine List.lookup_eq_none_iff.mpr fun d hd => ?_
  rw [bne_iff_ne]
  rintro rfl
  exact h (List.mem_map_of_mem hd)

theorem owed_of_not_mem (h : i ∉ l.map Prod.fst) : owed l i = 0 := by
  rw [owed, lookup_of_not_mem h]
  rfl

theorem without_of_not_mem (h : i ∉ l.map Prod.fst) : without i l = l := by
  refine List.filter_eq_self.mpr fun d hd => ?_
  rw [bne_iff_ne]
  rintro rfl
  exact h (List.mem_map_of_mem hd)

theorem owed_middle (h₁ : i ∉ l₁.map Prod.fst) : owed (l₁ ++ (i, k) :: l₂) i = k := by
  rw [owed, List.lookup_append, lookup_of_not_mem h₁, Option.none_or, List.lookup_cons_self]
  rfl

theorem without_middle (h₁ : i ∉ l₁.map Prod.fst) (h₂ : i ∉ l₂.map Prod.fst) :
    without i (l₁ ++ (i, k) :: l₂) = l₁ ++ l₂ := by
  rw [without, List.filter_append, List.filter_cons_of_neg (by simp)]
  exact congrArg₂ (· ++ ·) (without_of_not_mem h₁) (without_of_not_mem h₂)

/-- **A demand is withdrawn.**  When `i` gives back what it has been given, the line is what it
would be if `i` had never been in it. -/
theorem serve_withdraw (h₁ : i ∉ l₁.map Prod.fst) (h₂ : i ∉ l₂.map Prod.fst) :
    serve (k - owed (serve n (l₁ ++ (i, k) :: l₂)) i) (without i (serve n (l₁ ++ (i, k) :: l₂))) =
        serve n (l₁ ++ l₂) ∧
      rest n (l₁ ++ (i, k) :: l₂) + rest (k - owed (serve n (l₁ ++ (i, k) :: l₂)) i)
        (without i (serve n (l₁ ++ (i, k) :: l₂))) = rest n (l₁ ++ l₂) := by
  induction l₁ generalizing n with
  | nil =>
    rw [List.nil_append, List.nil_append, serve, rest]
    by_cases hn : k ≤ n
    · -- it has been served, and gives everything back
      have hserved : i ∉ (serve (n - k) l₂).map Prod.fst := fun h =>
        h₂ ((serve_suffix _ _).subset h)
      rw [if_pos hn, if_pos hn, owed_of_not_mem hserved, without_of_not_mem hserved, Nat.sub_zero,
        ← serve_add, ← rest_add, Nat.sub_add_cancel hn]
      exact ⟨rfl, rfl⟩
    · -- it has received what was there, and everybody else waits behind it
      have howed : owed ((i, k - n) :: l₂) i = k - n := owed_middle h₁
      have hwithout : without i ((i, k - n) :: l₂) = l₂ := without_middle h₁ h₂
      rw [if_neg hn, if_neg hn, howed, hwithout, show k - (k - n) = n by omega, Nat.zero_add]
      exact ⟨rfl, rfl⟩
  | cons d l₁ ih =>
    obtain ⟨j, k'⟩ := d
    rw [List.cons_append, List.cons_append, serve, rest, serve, rest]
    by_cases hn : k' ≤ n
    · rw [if_pos hn, if_pos hn, if_pos hn, if_pos hn]
      exact ih fun h => h₁ (List.mem_cons_of_mem _ h)
    · -- nothing has reached it, and nothing comes back
      have hfront : i ∉ ((j, k' - n) :: l₁).map Prod.fst := h₁
      have howed : owed ((j, k' - n) :: (l₁ ++ (i, k) :: l₂)) i = k := owed_middle hfront
      have hwithout : without i ((j, k' - n) :: (l₁ ++ (i, k) :: l₂)) = (j, k' - n) :: (l₁ ++ l₂) :=
        without_middle hfront h₂
      rw [if_neg hn, if_neg hn, if_neg hn, if_neg hn, howed, hwithout, Nat.sub_self, serve, rest,
        if_neg (by omega), if_neg (by omega)]
      exact ⟨rfl, rfl⟩

/-! ### Waiting in a line -/

/-- The demands of the line up to that of `i`: what has to come in before `i` is served.  Nothing
has to when `i` is not in the line. -/
def upTo (i : ι) : List (ι × ℕ) → ℕ
  | [] => 0
  | (j, k) :: l => if j = i then k else if i ∈ l.map Prod.fst then k + upTo i l else 0

theorem upTo_of_not_mem (h : i ∉ l.map Prod.fst) : upTo i l = 0 := by
  cases l with
  | nil => rfl
  | cons d l =>
    rw [List.map_cons, List.mem_cons, not_or] at h
    rw [upTo, if_neg (Ne.symm h.1), if_neg h.2]

/-- Everybody waits at least for the own demand. -/
theorem le_upTo (h₁ : i ∉ l₁.map Prod.fst) : k ≤ upTo i (l₁ ++ (i, k) :: l₂) := by
  induction l₁ with
  | nil =>
    have hself : upTo i ((i, k) :: l₂) = k := by rw [upTo, if_pos rfl]
    exact Nat.le_of_eq hself.symm
  | cons d l₁ ih =>
    obtain ⟨j, k'⟩ := d
    rw [List.map_cons, List.mem_cons, not_or] at h₁
    have hmem : i ∈ (l₁ ++ (i, k) :: l₂).map Prod.fst := by
      rw [List.map_append]
      exact List.mem_append_right _ (List.mem_cons_self ..)
    have hle := ih h₁.2
    rw [List.cons_append, upTo, if_neg (Ne.symm h₁.1), if_pos hmem]
    omega

/-- **A supply** brings everybody nearer to the front, until they are served. -/
theorem upTo_serve (hnd : (l.map Prod.fst).Nodup) (n : ℕ) : upTo i (serve n l) = upTo i l - n := by
  induction l generalizing n with
  | nil => exact (Nat.zero_sub n).symm
  | cons d l ih =>
    obtain ⟨j, k⟩ := d
    obtain ⟨hj, hnd⟩ := List.nodup_cons.mp hnd
    rw [serve, upTo]
    by_cases hn : k ≤ n
    · rw [if_pos hn, ih hnd]
      by_cases hji : j = i
      · subst hji
        rw [if_pos rfl, upTo_of_not_mem hj]
        omega
      · rw [if_neg hji]
        split_ifs with hi
        · omega
        · rw [upTo_of_not_mem hi]
          omega
    · rw [if_neg hn, upTo]
      split_ifs <;> omega

/-- Who comes later does not matter. -/
theorem upTo_append_left (hi : i ∈ l₁.map Prod.fst) : upTo i (l₁ ++ l₂) = upTo i l₁ := by
  induction l₁ with
  | nil => exact absurd hi List.not_mem_nil
  | cons d l₁ ih =>
    obtain ⟨j, k⟩ := d
    rw [List.cons_append, upTo, upTo]
    by_cases hji : j = i
    · rw [if_pos hji, if_pos hji]
    · have hmem : i ∈ l₁.map Prod.fst := (List.mem_cons.mp hi).resolve_left (Ne.symm hji)
      have hmem' : i ∈ (l₁ ++ l₂).map Prod.fst := by
        rw [List.map_append]
        exact List.mem_append_left _ hmem
      rw [if_neg hji, if_neg hji, if_pos hmem, if_pos hmem', ih hmem]

theorem upTo_snoc {j : ι} (hji : j ≠ i) : upTo i (l ++ [(j, k)]) = upTo i l := by
  by_cases hi : i ∈ l.map Prod.fst
  · exact upTo_append_left hi
  · rw [upTo_of_not_mem hi, upTo_of_not_mem]
    rw [List.map_append, List.mem_append, not_or]
    exact ⟨hi, fun hm => hji (List.mem_singleton.mp hm).symm⟩

/-- Who comes before `i` holds it up by the whole demand. -/
theorem upTo_middle {j : ι} (hji : j ≠ i) (h₁ : i ∉ l₁.map Prod.fst) (h₂ : i ∈ l₂.map Prod.fst) :
    upTo i (l₁ ++ (j, k) :: l₂) = upTo i (l₁ ++ l₂) + k := by
  induction l₁ with
  | nil =>
    rw [List.nil_append, List.nil_append, upTo, if_neg hji, if_pos h₂]
    omega
  | cons d l₁ ih =>
    obtain ⟨j', k'⟩ := d
    rw [List.map_cons, List.mem_cons, not_or] at h₁
    have hmem : i ∈ (l₁ ++ l₂).map Prod.fst := by
      rw [List.map_append]
      exact List.mem_append_right _ h₂
    have hmem' : i ∈ (l₁ ++ (j, k) :: l₂).map Prod.fst := by
      rw [List.map_append]
      exact List.mem_append_right _ (List.mem_cons_of_mem _ h₂)
    rw [List.cons_append, List.cons_append, upTo, upTo, if_neg (Ne.symm h₁.1),
      if_neg (Ne.symm h₁.1), if_pos hmem, if_pos hmem', ih h₁.2]
    omega

end DecidableEq

end Lib
