/-
  The queue of the semaphore as a line of demands.

  `a.line` lists who waits and for how much.  `a.Serves n l` says that the line
  and the counter are what a supply of `n` permits leaves of the demands `l`;
  then a release adds to the supply, a first poll adds to the demands, and a
  cancelled request takes its demand away, whatever it has received so far.
-/
import LocalSync.Lib.Line
import LocalSync.Semaphore.Sound

namespace LocalSync.Semaphore.Fair

open Lib

variable {W : Type} {a b : Fair W} {i j : Addr} {n m : ℕ} {q : List Addr} {r : Request W}
  {l l₁ l₂ : List (Addr × ℕ)}

/-- The demands that wait, oldest first. -/
def line (a : Fair W) : List (Addr × ℕ) := a.waiting.map fun i => (i, a.need i)

/-- The semaphore after a supply of `n` permits to the demands `l`. -/
structure Serves (a : Fair W) (n : ℕ) (l : List (Addr × ℕ)) : Prop where
  line : a.line = serve n l
  available : a.available = rest n l

theorem line_nil (hq : a.waiting = []) : a.line = [] := by
  rw [line, hq]
  rfl

theorem line_cons (hq : a.waiting = i :: q) :
    a.line = (i, a.need i) :: q.map fun j => (j, a.need j) := by
  rw [line, hq]
  rfl

theorem keys_line (a : Fair W) : a.line.map Prod.fst = a.waiting := by
  rw [line, List.map_map]
  exact List.map_id _

theorem not_mem_keys (hi : i ∉ a.waiting) : i ∉ a.line.map Prod.fst := a.keys_line ▸ hi

/-- A line depends on who waits, and on what they need. -/
theorem line_congr (hw : b.waiting = a.waiting) (hn : ∀ j ∈ a.waiting, b.need j = a.need j) :
    b.line = a.line := by
  rw [line, line, hw]
  exact List.map_congr_left fun j hj => by rw [hn j hj]

/-- Changing the request at `i` changes nobody else's need. -/
theorem need_modify_of_ne {f : Request W → Request W} (hb : b.requests = a.requests.modify i f)
    (hj : j ≠ i) : b.need j = a.need j := by
  rw [need, hb, Store.get?_modify_of_ne _ _ hj]
  rfl

/-- What a queued request needs is what the line owes to it. -/
theorem owed_line (ha : a.Sound) (hopen : a.closed = false) (hr : a.requests.get? i = some r)
    (hq : r.queued = true) : owed a.line i = r.need := by
  by_cases hneed : r.need = 0
  · rw [owed_of_not_mem (not_mem_keys (ha.not_mem_of_served hr hneed)), hneed]
  · have hi : i ∈ a.waiting :=
      (ha.mem_waiting i).mpr ⟨hopen, r, hr, hq, Nat.pos_of_ne_zero hneed⟩
    rw [owed, line, List.lookup_graph _ hi, need_of_get? hr]
    rfl

/-- **The hand-out** serves the line. -/
theorem line_handOut (hq : a.waiting = q) (hnd : q.Nodup) :
    (handOut n q a).line = serve n a.line ∧
      (handOut n q a).available = a.available + rest n a.line := by
  induction q generalizing a n with
  | nil =>
    rw [line_nil hq]
    exact ⟨line_nil hq, rfl⟩
  | cons i q ih =>
    obtain ⟨hi, hnd⟩ := List.nodup_cons.mp hnd
    rw [line_cons hq, handOut, serve, rest]
    by_cases hn : a.need i ≤ n
    · rw [if_pos hn, if_pos hn, if_pos hn]
      have hw : (a.wakeUp i 0).waiting = q := congrArg List.tail hq
      have htail : (a.wakeUp i 0).line = q.map fun j => (j, a.need j) := by
        rw [line, hw]
        refine List.map_congr_left fun j hj => ?_
        rw [need_modify_of_ne (a := a) rfl (ne_of_mem_of_not_mem hj hi)]
      obtain ⟨hserved, hrest⟩ := ih (n := n - a.need i) hw hnd
      rw [htail] at hserved hrest
      exact ⟨hserved, hrest⟩
    · rw [if_neg hn, if_neg hn, if_neg hn]
      refine ⟨?_, rfl⟩
      have hself : (a.topUp i n).need i = a.need i - n := by
        rw [need, need, topUp, Store.get?_modify_self]
        cases a.requests.get? i <;> simp
      have hw : (a.topUp i n).waiting = i :: q := hq
      rw [line, hw, List.map_cons, hself]
      refine congrArg _ (List.map_congr_left fun j hj => ?_)
      rw [need_modify_of_ne (a := a) rfl (ne_of_mem_of_not_mem hj hi)]

/-- Forgetting a request takes it out of the line. -/
theorem line_remove (ha : a.Sound) (i : Addr) : (a.remove i).line = without i a.line := by
  have hw : (a.remove i).waiting = a.waiting.filter (· != i) := ha.nodup.erase_eq_filter i
  rw [line, hw, without, line, List.filter_map]
  refine List.map_congr_left fun j hj => ?_
  have hji : j ≠ i := bne_iff_ne.mp (List.mem_filter.mp hj).2
  rw [need, Fair.remove, Store.get?_erase_of_ne _ hji]
  rfl

namespace Serves

/-- A semaphore is what its counter leaves of its own line. -/
theorem self (ha : a.Sound) : a.Serves a.available a.line := by
  cases hq : a.waiting with
  | nil =>
    rw [line_nil hq]
    exact ⟨line_nil hq, rfl⟩
  | cons i q =>
    have h0 := ha.exhausted (by simp [hq])
    obtain ⟨r, hr, -, hpos⟩ := ha.exists_of_mem (i := i) (by simp [hq])
    rw [← need_of_get? hr] at hpos
    have hn : ¬ a.need i ≤ 0 := by omega
    rw [h0, line_cons hq]
    refine ⟨?_, ?_⟩
    · rw [serve, if_neg hn]
      exact line_cons hq
    · rw [rest, if_neg hn]
      exact h0

/-- **A release** adds to the supply. -/
theorem release (h : a.Serves n l) (ha : a.Sound) (m : ℕ) : (a.release m).Serves (n + m) l := by
  obtain ⟨hline, hrest⟩ := line_handOut (n := m) rfl ha.nodup
  rw [h.line] at hline hrest
  rw [h.available, ← rest_add] at hrest
  rw [← serve_add] at hline
  exact ⟨hline, hrest⟩

/-- A new request makes no demand yet. -/
theorem acquire (h : a.Serves n l) (ha : a.Sound) (hi : a.requests.get? i = none) (m : UInt32) :
    (a.acquire i m).Serves n l := by
  refine ⟨?_, h.available⟩
  rw [← h.line]
  refine line_congr rfl fun j hj => ?_
  obtain ⟨r, hr, -⟩ := ha.exists_of_mem hj
  have hji : j ≠ i := by
    rintro rfl
    rw [hi] at hr
    cases hr
  rw [need, need, Fair.acquire, Store.get?_insert_of_ne _ _ hji]

/-- **A first poll** adds to the demands. -/
theorem poll [Waker W] (h : a.Serves n l) (ha : a.Sound) (hopen : a.closed = false)
    (hr : a.requests.get? i = some r) (hq : r.queued = false) (hneed : r.need = r.size.toNat)
    (hpos : 0 < r.size.toNat) (cx : W) :
    (a.poll i cx).2.Serves n (l ++ [(i, r.size.toNat)]) := by
  have hi : i ∉ a.waiting := ha.not_mem_of_not_queued hr hq
  have hpolled := Fair.polled cx hr
  generalize a.poll i cx = pa at hpolled
  cases hpolled with
  | closed hc =>
    rw [hopen] at hc
    cases hc
  | collected _ hqueued _ =>
    rw [hq] at hqueued
    cases hqueued
  | waiting _ hqueued _ =>
    rw [hq] at hqueued
    cases hqueued
  | taken _ _ hle =>
    rw [h.available] at hle
    refine ⟨?_, ?_⟩
    · rw [serve_snoc hpos, if_pos hle, List.append_nil]
      exact h.line
    · rw [rest_snoc, ← h.available]
      rfl
  | enqueued _ _ hlt =>
    have hself : (a.enqueue i cx).need i = r.size.toNat - a.available := by
      rw [need, Fair.enqueue, Store.get?_modify_self, hr]
      simp [hneed]
    have hline : (a.enqueue i cx).line = a.line ++ [(i, r.size.toNat - a.available)] := by
      have hw : (a.enqueue i cx).waiting = a.waiting ++ [i] := rfl
      rw [Fair.line, Fair.line, hw, List.map_append, List.map_singleton, hself]
      refine congrArg (· ++ _) (List.map_congr_left fun j hj => ?_)
      rw [need_modify_of_ne (a := a) rfl (ne_of_mem_of_not_mem hj hi)]
    rw [h.available] at hlt
    refine ⟨?_, ?_⟩
    · rw [serve_snoc hpos, if_neg (by omega), ← h.line, ← h.available]
      exact hline
    · rw [rest_snoc]
      show 0 = _
      omega

/-- **A cancelled request** takes its demand away, and leaves no trace. -/
theorem cancel (ha : a.Sound) (hopen : a.closed = false) (hr : a.requests.get? i = some r)
    (hq : r.queued = true) (h : a.Serves n (l₁ ++ (i, r.size.toNat) :: l₂))
    (h₁ : i ∉ l₁.map Prod.fst) (h₂ : i ∉ l₂.map Prod.fst) :
    (a.cancel i).Serves n (l₁ ++ l₂) := by
  have howed := owed_line ha hopen hr hq
  have hheld : (a.requests.get? i).elim 0 Request.held = r.size.toNat - owed a.line i := by
    rw [hr, howed, Option.elim_some, Request.held, if_pos hq]
  obtain ⟨hline, hrest⟩ := line_handOut (n := r.size.toNat - owed a.line i) (a := a.remove i) rfl
    (ha.remove i).nodup
  obtain ⟨hserve, hrest'⟩ := serve_withdraw (n := n) (k := r.size.toNat) h₁ h₂
  rw [line_remove ha, h.line] at hline hrest
  rw [Fair.cancel, hheld, h.line]
  refine ⟨hline.trans hserve, hrest.trans ?_⟩
  rw [← hrest']
  exact congrArg (· + _) h.available

end Serves

end LocalSync.Semaphore.Fair
