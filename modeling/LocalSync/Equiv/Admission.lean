/-
  When a send that waits gets its slot.

  Slots come back when values are received, and when sends that came earlier are
  dropped (`Channel.relief`).  A send with `k` others ahead of it in the line gets
  the slot that comes back after `k` others, not earlier and not later, and nobody
  overtakes it in the meantime (`Channel.admitted_iff`).

  The proof follows the send through the machine of the channel: each call moves
  it forward by its relief (`Channel.stands_exec`).
-/
import LocalSync.Equiv.BoundedMachine

namespace LocalSync.Mpsc.Bounded

open Lib
open LocalSync.Semaphore (Inner Slots Turnstile)

variable {P : PointerWidth} {T W : Type}

/-! ### The line -/

/-- Somebody ahead of `i`, or behind it, leaves a line that is in the order of their ranks. -/
theorem erase_line {rank : Addr → ℕ} {u v : List Addr} {i j : Addr} (hne : j ≠ i)
    (horder : (u ++ i :: v).Pairwise fun i j => rank i < rank j) (hj : j ∈ u ++ i :: v) :
    if rank j ≤ rank i then
      ∃ u', (u ++ i :: v).erase j = u' ++ i :: v ∧ u'.length + 1 = u.length ∧ u'.Sublist u
    else ∃ v', (u ++ i :: v).erase j = u ++ i :: v' := by
  obtain ⟨-, htail, hbefore⟩ := List.pairwise_append.mp horder
  obtain ⟨hbehind, -⟩ := List.pairwise_cons.mp htail
  by_cases hu : j ∈ u
  · have hlt := hbefore j hu i (List.mem_cons_self ..)
    rw [if_pos hlt.le]
    refine ⟨u.erase j, List.erase_append_left _ hu, ?_, List.erase_sublist⟩
    have hpos := List.length_pos_of_mem hu
    rw [List.length_erase_of_mem hu]
    omega
  · have hv : j ∈ v := by
      rcases List.mem_append.mp hj with hu' | htail
      · exact absurd hu' hu
      · exact (List.mem_cons.mp htail).resolve_left hne
    rw [if_neg (Nat.not_le.mpr (hbehind j hv))]
    refine ⟨v.erase j, ?_⟩
    rw [List.erase_append_right _ hu, List.erase_cons_tail (by simpa using Ne.symm hne)]

namespace Machine

variable {a b : Machine T} {i j : Addr} {u : List Addr} {n : ℕ}

/-- Where the send at `i` stands when `n` slots have come back since `u` were ahead of it. -/
inductive Place (a : Machine T) (i : Addr) (u : List Addr) (n : ℕ) : Prop
  | inLine (u' v : List Addr) : a.base.gate.line = u' ++ i :: v → u'.length + n = u.length →
      u'.Sublist u → Place a i u n
  /-- It has its slot, or has used it. -/
  | through : u.length < n → i ∉ a.base.gate.line →
      (i ∈ a.base.gate.granted ∨ ∃ tx, a.sends.get? i = some { tx, stage := .returned }) →
      Place a i u n

/-- The channel is open, and the send at `i` has been polled. -/
structure Stands (a : Machine T) (i : Addr) (u : List Addr) (n : ℕ) : Prop where
  isOpen : a.base.gate.isShut = false
  polled : ∃ f, a.sends.get? i = some f ∧ ∀ v, f.stage ≠ .unresumed v
  place : Place a i u n

/-- Others have come, and nobody has left. -/
theorem Place.keep (h : Place a i u n) {w : List Addr}
    (hline : b.base.gate.line = a.base.gate.line ++ w) (hw : i ∉ w)
    (hgranted : i ∈ a.base.gate.granted → i ∈ b.base.gate.granted)
    (hsends : b.sends.get? i = a.sends.get? i) : Place b i u n := by
  cases h with
  | inLine u' v hl hlen hsub =>
    refine .inLine u' (v ++ w) ?_ hlen hsub
    rw [hline, hl, List.append_assoc, List.cons_append]
  | through hlt hnot hslot =>
    refine .through hlt ?_ (hslot.imp hgranted (Exists.imp fun _ => hsends.trans))
    rw [hline, List.mem_append, not_or]
    exact ⟨hnot, hw⟩

/-- A slot comes back. -/
theorem Place.letIn (h : Place a i u n) (hnd : a.base.gate.line.Nodup) {g : Turnstile}
    (hline : g.line = a.base.gate.line) (hgranted : i ∈ a.base.gate.granted → i ∈ g.granted)
    (hgate : b.base.gate = g.letIn) (hsends : b.sends.get? i = a.sends.get? i) :
    Place b i u (n + 1) := by
  have htail : g.letIn.line = a.base.gate.line.tail := by
    rw [← hline, Turnstile.letIn]
    cases hl : g.line with
    | nil => rfl
    | cons j l => rfl
  have hsub : g.granted ⊆ g.letIn.granted := by
    rw [Turnstile.letIn]
    split
    · exact Finset.Subset.refl _
    · exact Finset.subset_insert _ _
  cases h with
  | inLine u' v hl hlen hsublist =>
    rw [hl] at htail hline
    cases u' with
    | nil =>
      -- its turn has come
      rw [List.length_nil, Nat.zero_add] at hlen
      rw [hl] at hnd
      refine .through (by omega) ?_ (Or.inl ?_)
      · rw [hgate, htail]
        exact (List.nodup_cons.mp hnd).1
      · rw [hgate, Turnstile.letIn, hline]
        exact Finset.mem_insert_self _ _
    | cons j u' =>
      rw [List.length_cons] at hlen
      refine .inLine u' v ?_ (by omega) ((List.sublist_cons_self j u').trans hsublist)
      rw [hgate, htail]
      rfl
  | through hlt hnot hslot =>
    refine .through (by omega) ?_ (hslot.imp ?_ (Exists.imp fun _ => hsends.trans))
    · rw [hgate, htail]
      exact fun hmem => hnot (List.mem_of_mem_tail hmem)
    · intro hmem
      rw [hgate]
      exact hsub (hgranted hmem)

/-- A send that has its slot keeps it, whoever else leaves. -/
theorem Place.go_on (hlt : u.length < n) (hnot : i ∉ a.base.gate.line)
    (hslot : i ∈ a.base.gate.granted ∨ ∃ tx, a.sends.get? i = some { tx, stage := .returned })
    (hline : b.base.gate.line.Sublist a.base.gate.line)
    (hgranted : i ∈ a.base.gate.granted → i ∈ b.base.gate.granted)
    (hsends : b.sends.get? i = a.sends.get? i) (k : ℕ) : Place b i u (n + k) :=
  .through (Nat.lt_add_right k hlt) (fun hmem => hnot (hline.subset hmem))
    (hslot.imp hgranted (Exists.imp fun _ => hsends.trans))

/-! ### Polling -/

/-- Who asks for a slot of an open channel joins the line at its end, if at all. -/
theorem line_ask {g : Turnstile} (hopen : g.isShut = false) (j : Addr) (first : Bool) :
    ∃ w, (g.ask j first).2.line = g.line ++ w ∧ ∀ k ∈ w, k = j ∧ first = true := by
  rw [Turnstile.ask, if_neg (Bool.eq_false_iff.mp hopen)]
  split_ifs with hfirst
  · exact ⟨[], (List.append_nil _).symm, fun k hk => absurd hk List.not_mem_nil⟩
  · exact ⟨[j], rfl, fun k hk => ⟨List.mem_singleton.mp hk, hfirst⟩⟩
  · exact ⟨[], (List.append_nil _).symm, fun k hk => absurd hk List.not_mem_nil⟩
  · exact ⟨[], (List.append_nil _).symm, fun k hk => absurd hk List.not_mem_nil⟩

/-- It takes nobody else's slot. -/
theorem granted_ask {g : Turnstile} (hopen : g.isShut = false) {j : Addr} (hne : i ≠ j)
    (first : Bool) (hi : i ∈ g.granted) : i ∈ (g.ask j first).2.granted := by
  rw [Turnstile.ask, if_neg (Bool.eq_false_iff.mp hopen)]
  split_ifs
  · exact hi
  · exact hi
  · exact Finset.mem_erase.mpr ⟨hne, hi⟩
  · exact hi

theorem gate_resume (a : Machine T) (j : Addr) (tx : ℕ) (v : T) (first : Bool) :
    (a.resume j tx v first).2.base.gate = (a.base.gate.ask j first).2 := by
  unfold resume
  split <;> rename_i hask <;> rw [hask] <;> rfl

/-- Only the future that is polled changes its stage. -/
theorem sends_resume (a : Machine T) (j : Addr) (tx : ℕ) (v : T) (first : Bool) :
    ∃ stage, (a.resume j tx v first).2.sends = a.sends.insert j { tx, stage } ∧
      (∀ v, stage ≠ .unresumed v) ∧
      ((a.base.gate.ask j first).1.isPending = false → stage = .returned) := by
  unfold resume
  generalize a.base.gate.ask j first = r
  obtain ⟨(_ | _) | _, g⟩ := r
  · exact ⟨.returned, rfl, (by simp), fun _ => rfl⟩
  · exact ⟨.returned, rfl, (by simp), fun _ => rfl⟩
  · exact ⟨.suspended v, rfl, (by simp), (by simp [Poll.isPending])⟩

/-- Polling another send moves nobody forward. -/
theorem Stands.resume_other (h : Stands a i u n) {f : SendFuture T} (hne : i ≠ j) {first : Bool}
    (v : T) : (a.resume j f.tx v first).2.Stands i u n := by
  obtain ⟨w, hline, hw⟩ := line_ask h.isOpen j first
  obtain ⟨stage, hsends, -⟩ := sends_resume a j f.tx v first
  have hgate := gate_resume a j f.tx v first
  have hself : (a.resume j f.tx v first).2.sends.get? i = a.sends.get? i := by
    rw [hsends, Store.get?_insert_of_ne _ _ hne]
  refine ⟨?_, ?_, ?_⟩
  · rw [hgate, Turnstile.isShut_ask]
    exact h.isOpen
  · rw [hself]
    exact h.polled
  · refine h.place.keep (by rw [hgate, hline]) (fun hmem => hne (hw i hmem).1) (fun hi => ?_) hself
    rw [hgate]
    exact granted_ask h.isOpen hne first hi

/-- A send that has its slot uses it, and one that has none keeps its place. -/
theorem Stands.resume_self (h : Stands a i u n) {f : SendFuture T} (hf : a.sends.get? i = some f)
    (hreturned : f.stage ≠ .returned) (hdisjoint : i ∈ a.base.gate.line → i ∉ a.base.gate.granted)
    (v : T) : (a.resume i f.tx v false).2.Stands i u n := by
  obtain ⟨stage, hsends, hstage, hpending⟩ := sends_resume a i f.tx v false
  have hgate := gate_resume a i f.tx v false
  have hself : (a.resume i f.tx v false).2.sends.get? i = some { tx := f.tx, stage } := by
    rw [hsends, Store.get?_insert_self]
  have hask : a.base.gate.ask i false = if i ∈ a.base.gate.granted then (.ready (.ok ()),
      { a.base.gate with granted := a.base.gate.granted.erase i }) else
        (.pending, a.base.gate) := by
    rw [Turnstile.ask, if_neg (Bool.eq_false_iff.mp h.isOpen), if_neg Bool.false_ne_true]
  refine ⟨?_, ⟨_, hself, hstage⟩, ?_⟩
  · rw [hgate, Turnstile.isShut_ask]
    exact h.isOpen
  · rw [hask] at hgate hpending
    cases h.place with
    | inLine u' v' hl hlen hsub =>
      have hi : i ∈ a.base.gate.line := hl ▸ List.mem_append_right _ (List.mem_cons_self ..)
      rw [if_neg (hdisjoint hi)] at hgate
      exact .inLine u' v' (by rw [hgate, hl]) hlen hsub
    | through hlt hnot hslot =>
      have hi : i ∈ a.base.gate.granted := by
        refine hslot.resolve_right fun hret => ?_
        obtain ⟨tx, hret⟩ := hret
        rw [hf] at hret
        exact hreturned (congrArg SendFuture.stage (Option.some.inj hret))
      rw [if_pos hi] at hgate hpending
      refine .through hlt (by rw [hgate]; exact hnot) (Or.inr ⟨f.tx, ?_⟩)
      rw [hself, hpending rfl]

/-! ### Dropping another send -/

/-- The send at `j` goes away: who is behind it moves up. -/
theorem Stands.leave (h : Stands a i u n) (hnd : a.base.gate.line.Nodup) (hne : j ≠ i)
    {rank : Addr → ℕ} (horder : a.base.gate.line.Pairwise fun i j => rank i < rank j)
    (hcome : j ∈ a.base.gate.granted → i ∈ a.base.gate.line → rank j ≤ rank i)
    (hj : j ∉ a.base.gate.granted → j ∈ a.base.gate.line)
    (hgate : b.base.gate = a.base.gate.leave j) (hsends : b.sends.get? i = a.sends.get? i) :
    Stands b i u (n + if rank j ≤ rank i then 1 else 0) := by
  have hopen : b.base.gate.isShut = false := by
    rw [hgate, Turnstile.leave]
    split_ifs
    · rw [Turnstile.isShut_letIn]
      exact h.isOpen
    · exact h.isOpen
  refine ⟨hopen, hsends ▸ h.polled, ?_⟩
  rw [Turnstile.leave] at hgate
  split_ifs at hgate with hgranted
  · -- its slot goes to whoever is first in the line
    have hadmit := h.place.letIn hnd (g := { a.base.gate with
      granted := a.base.gate.granted.erase j }) rfl
      (fun hi => Finset.mem_erase.mpr ⟨Ne.symm hne, hi⟩) hgate hsends
    cases hplace : h.place with
    | inLine u' v hl hlen hsub =>
      have hi : i ∈ a.base.gate.line := hl ▸ List.mem_append_right _ (List.mem_cons_self ..)
      rw [if_pos (hcome hgranted hi)]
      exact hadmit
    | through hlt hnot hslot =>
      split_ifs
      · exact hadmit
      · cases hadmit with
        | inLine u' v hl hlen hsub => omega
        | through _ hnot' hslot' => exact .through hlt hnot' hslot'
  · have hmem := hj hgranted
    cases h.place with
    | inLine u' v hl hlen hsub =>
      have herase := erase_line hne (hl ▸ horder) (hl ▸ hmem)
      rw [← hl] at herase
      split_ifs at herase ⊢ with hrank
      · obtain ⟨u'', herase, hlen', hsub'⟩ := herase
        refine .inLine u'' v (by rw [hgate, herase]) (by omega) (hsub'.trans hsub)
      · obtain ⟨v', herase⟩ := herase
        exact .inLine u' v' (by rw [hgate, herase]) hlen hsub
    | through hlt hnot hslot =>
      refine Place.go_on hlt hnot hslot ?_ (fun hi => ?_) hsends _
      · rw [hgate]
        exact List.erase_sublist
      · rw [hgate]
        exact hi

/-! ### The other calls -/

theorem Stands.congr (h : Stands a i u n) (hgate : b.base.gate = a.base.gate)
    (hsends : b.sends.get? i = a.sends.get? i) : Stands b i u n where
  isOpen := hgate ▸ h.isOpen
  polled := hsends ▸ h.polled
  place := h.place.keep (w := []) (by rw [hgate, List.append_nil]) List.not_mem_nil
    (fun hi => hgate ▸ hi) hsends

/-- A value is received: its slot comes back. -/
theorem Stands.pop (h : Stands a i u n) (hnd : a.base.gate.line.Nodup) :
    Stands { a with base := a.base.pop } i u (n + 1) where
  isOpen := by
    rw [← h.isOpen]
    exact Turnstile.isShut_letIn a.base.gate
  polled := h.polled
  place := h.place.letIn hnd rfl id rfl rfl

end Machine

namespace Channel

/-- When the send at `i` was polled for the first time. -/
def firstPoll (s : Channel P T W) (i : Addr) : ℕ :=
  (s.handles.chan.semaphore.history.track i).firstPoll

/-- How many slots come back with a call for the send at `i`, given the answer: the one of a value
that is received, and the one that another send had been waiting for since before `i` came. -/
def relief (i : Addr) (s : Channel P T W) : Action T W × Answer T → ℕ
  | (.call _, .received (.ready (some _))) => 1
  | (.call _, .tried (.ok _)) => 1
  | (.drop j, _) => if s.suspended j = true ∧ s.firstPoll j ≤ s.firstPoll i then 1 else 0
  | _ => 0

/-- The call does not drop the send at `i`, and does not shut the channel. -/
def Keeps (i : Addr) : Action T W → Prop
  | .drop j => j ≠ i
  | .call .close => False
  | .call .dropRx => False
  | _ => True

instance (i : Addr) : (c : Action T W) → Decidable (Keeps i c)
  | .drop j => inferInstanceAs (Decidable (j ≠ i))
  | .call .close | .call .dropRx => .isFalse id
  | .call (.clone _ _) | .call (.dropTx _) | .call (.isClosed _) | .call (.recv _)
  | .call .tryRecv | .send _ _ _ | .poll _ _ => .isTrue trivial

variable [Waker W] {b n : ℕ} {s t : Channel P T W} {a : Machine T} {i j : Addr} {u : List Addr}

/-- A step while the send at `i` is kept. -/
def KeepingStep (i : Addr) (s : Channel P T W) (e : Action T W × Answer T)
    (t : Channel P T W) : Prop :=
  s.Step e t ∧ Keeps i e.1

/-! ### The line in the channel -/

theorem Follows.nodup (h : Follows b s a) : a.base.gate.line.Nodup := by
  obtain ⟨c, hs, hg⟩ := h.base.inv.semaphore
  rw [← hg.line]
  exact hs.models.sound.nodup

/-- Whoever waits has no slot. -/
theorem Follows.not_granted (h : Follows b s a) (hi : i ∈ a.base.gate.line) :
    i ∉ a.base.gate.granted := by
  obtain ⟨c, hs, hg⟩ := h.base.inv.semaphore
  rw [← hg.line] at hi
  obtain ⟨-, hone⟩ := Turnstile.one_of_waiting hs hi
  intro hmem
  have hzero := ((hg.granted i).mp hmem).2
  omega

/-- As long as the channel is open, a send that is suspended waits or has a slot. -/
theorem Follows.waits (h : Follows b s a) (hopen : a.base.gate.isShut = false)
    (hj : s.suspended j = true) (hn : j ∉ a.base.gate.granted) : j ∈ a.base.gate.line := by
  obtain ⟨c, hs, hg⟩ := h.base.inv.semaphore
  rw [← hg.line]
  refine hs.mem_waiting (hg.isShut.trans hopen) hj fun hzero => ?_
  exact hn ((hg.granted j).mpr ⟨hj, hzero⟩)

/-- The line is in the order of the first polls. -/
theorem Follows.order (h : Follows b s a) :
    a.base.gate.line.Pairwise fun i j => s.firstPoll i < s.firstPoll j := by
  obtain ⟨c, hs, hg⟩ := h.base.inv.semaphore
  rw [← hg.line]
  exact hs.models.chronicle.order

/-- Who has a slot came before everybody who waits. -/
theorem Follows.first_come (h : Follows b s a) (hj : j ∈ a.base.gate.granted)
    (hi : i ∈ a.base.gate.line) : s.firstPoll j ≤ s.firstPoll i := by
  obtain ⟨c, hs, hg⟩ := h.base.inv.semaphore
  have hnot : j ∉ c.waiting := fun hmem => h.not_granted (hg.line ▸ hmem) hj
  exact hs.first_come ((hg.granted j).mp hj).1 hnot (hg.line ▸ hi)

/-! ### One call -/

theorem stands_call (h : Follows b s a) (hst : a.Stands i u n) {c : Call W}
    (hc : s.Allowed (.call c)) (hkeeps : Keeps i (.call c : Action T W)) :
    Machine.Stands { a with base := (a.base.call c).2 } i u
      (n + s.relief i (.call c, (a.base.call c).1)) := by
  cases c with
  | clone tx new => exact hst.congr rfl rfl
  | isClosed tx => exact hst.congr rfl rfl
  | dropTx tx =>
    -- the send at `i` borrows another sender
    obtain ⟨f, hf, -⟩ := hst.polled
    have hfs : s.sends.get? i = some f := by rw [h.sends, hf]
    have hne : f.tx ≠ tx := ((h.allowed_iff (.call (.dropTx tx))).mp hc).2 i f hf
    have hmem : f.tx ∈ a.base.txs := h.base.txs ▸ h.borrowed i f hfs
    have hlast : a.base.txs ≠ {tx} := fun heq => by
      rw [heq, Finset.mem_singleton] at hmem
      exact hne hmem
    refine hst.congr ?_ rfl
    show (if a.base.txs = {tx} then Gate.shut a.base.gate else a.base.gate) = a.base.gate
    rw [if_neg hlast]
  | recv cx =>
    rw [Mpsc.Machine.call]
    cases hq : a.base.queue with
    | nil =>
      dsimp only
      split_ifs <;> exact hst.congr rfl rfl
    | cons v xs => exact hst.pop h.nodup
  | tryRecv =>
    rw [Mpsc.Machine.call]
    cases hq : a.base.queue with
    | nil => exact hst.congr rfl rfl
    | cons v xs => exact hst.pop h.nodup
  | close => exact hkeeps.elim
  | dropRx => exact hkeeps.elim

theorem stands_poll (h : Follows b s a) (hst : a.Stands i u n) (hu : s.unfinished j = true) :
    (a.poll j).2.Stands i u n := by
  rw [unfinished, h.sends] at hu
  rw [Machine.poll]
  cases hf : a.sends.get? j with
  | none =>
    rw [hf] at hu
    cases hu
  | some f =>
    obtain ⟨f', hf', hpolled⟩ := hst.polled
    obtain ⟨tx, stage⟩ := f
    by_cases hj : i = j
    · subst hj
      obtain rfl := Option.some.inj (hf.symm.trans hf')
      cases stage with
      | unresumed v => exact absurd rfl (hpolled v)
      | suspended v => exact hst.resume_self hf (by simp) h.not_granted v
      | returned =>
        rw [hf] at hu
        cases hu
    · cases stage with
      | unresumed v => exact hst.resume_other (f := ⟨tx, .unresumed v⟩) hj v
      | suspended v => exact hst.resume_other (f := ⟨tx, .suspended v⟩) hj v
      | returned => exact hst

theorem stands_drop (h : Follows b s a) (hst : a.Stands i u n) (hne : j ≠ i) :
    (a.drop j).Stands i u
      (n + if s.suspended j = true ∧ s.firstPoll j ≤ s.firstPoll i then 1 else 0) := by
  have hsends : (a.sends.erase j).get? i = a.sends.get? i :=
    Store.get?_erase_of_ne _ (Ne.symm hne)
  rw [Machine.drop]
  cases hf : a.sends.get? j with
  | none =>
    rw [if_neg (by simp [suspended, h.sends, hf])]
    exact hst.congr rfl hsends
  | some f =>
    obtain ⟨tx, stage⟩ := f
    cases stage with
    | unresumed v | returned =>
      rw [if_neg (by simp [suspended, h.sends, hf])]
      exact hst.congr rfl hsends
    | suspended v =>
      have hj : s.suspended j = true := by simp [suspended, h.sends, hf]
      simp only [hj, true_and]
      exact hst.leave h.nodup hne h.order h.first_come (h.waits hst.isOpen hj) rfl hsends

/-- **One call** moves the send at `i` forward by its relief. -/
theorem stands_exec (h : Follows b s a) (hst : a.Stands i u n) {c : Action T W}
    (hc : s.Allowed c) (hkeeps : Keeps i c) :
    (a.exec c).2.Stands i u (n + s.relief i (c, (a.exec c).1)) := by
  cases c with
  | call c => exact stands_call h hst hc hkeeps
  | send j tx v =>
    obtain ⟨f, hf, -⟩ := hst.polled
    have hne : i ≠ j := fun heq => by
      subst heq
      have hnone := hc.2
      rw [h.sends, hf] at hnone
      cases hnone
    exact hst.congr rfl (Store.get?_insert_of_ne _ _ hne)
  | poll j cx => exact stands_poll h hst hc
  | drop j => exact stands_drop h hst hkeeps

theorem run_follows {es : List (Action T W × Answer T)} (hb : b ≤ Inner.maxPermits P)
    (hrun : Run Step (Channel.new P T W b) es s) : ∃ a, Follows b s a := by
  refine hrun.invariant (I := fun s => ∃ a, Follows b s a) ?_ ⟨_, new_follows hb⟩
  rintro s ⟨c, o⟩ t ⟨a, ha⟩ ⟨hc, hres⟩
  obtain ⟨t', hres', ht⟩ := exec_follows hb ha hc
  obtain ⟨-, rfl⟩ := Prod.mk.inj (Except.ok.inj (hres.symm.trans hres'))
  exact ⟨_, ht⟩

/-- At the start, those ahead of it are all there. -/
theorem Follows.stands (h : Follows b s a) {v : List Addr}
    (hline : a.base.gate.line = u ++ i :: v) : a.Stands i u 0 := by
  obtain ⟨c, hs, hg⟩ := h.base.inv.semaphore
  have hi : i ∈ c.waiting := by
    rw [hg.line, hline]
    exact List.mem_append_right _ (List.mem_cons_self ..)
  refine ⟨hg.isShut.symm.trans (hs.models.sound.open_of_mem hi), ?_,
    .inLine u v hline rfl (List.Sublist.refl u)⟩
  have hp := (Turnstile.one_of_waiting hs hi).1
  rw [suspended, h.sends] at hp
  cases hf : a.sends.get? i with
  | none =>
    rw [hf] at hp
    cases hp
  | some f =>
    refine ⟨f, rfl, fun v hv => ?_⟩
    rw [hf, Option.any_some, hv] at hp
    cases hp

/-- **The send whose turn it is gets the slot.**  From a state in which the send at `i` waits behind
`u`, `n` slots have come back.  While they are no more than there were sends ahead, it waits behind
those of them that are left, whom nobody has overtaken.  With one more it has its slot, or has used
it. -/
theorem admitted_iff {b n : ℕ} {es fs : List (Action T W × Answer T)} {s t : Channel P T W}
    {i : Addr} {u v : List Addr} (hrun : Run Step (Channel.new P T W b) es s)
    (hq : s.handles.chan.semaphore.inner.WaitList (u ++ i :: v))
    (hrun' : Run (metered (KeepingStep i) (relief i)) (s, 0) fs (t, n)) :
    ∃ q, t.handles.chan.semaphore.inner.WaitList q ∧ (i ∈ q ↔ n ≤ u.length) ∧
      (i ∈ q → ∃ u' v', q = u' ++ i :: v' ∧ u'.Sublist u ∧ u'.length + n = u.length) ∧
      (i ∉ q → i ∈ t.assigned ∨ ∃ tx, t.sends.get? i = some { tx, stage := .returned }) := by
  rw [new_mask] at hrun
  have hb : b &&& Inner.maxPermits P ≤ Inner.maxPermits P := Nat.and_le_right
  obtain ⟨a, hfollows⟩ := run_follows hb hrun
  have hstart := hfollows.stands ((hfollows.shows hb).line.unique hq)
  have key : ∃ c, Follows (b &&& Inner.maxPermits P) t c ∧ c.Stands i u n := by
    refine hrun'.invariant (I := fun x => ∃ c, Follows (b &&& Inner.maxPermits P) x.1 c ∧
      c.Stands i u x.2) ?_ ⟨a, hfollows, hstart⟩
    rintro ⟨s, m⟩ ⟨c, o⟩ ⟨t, m'⟩ ⟨a, ha, hst⟩ ⟨⟨⟨hc, hres⟩, hkeeps⟩, hm⟩
    dsimp only at ha hst hc hres hkeeps hm ⊢
    obtain ⟨t', hres', ht⟩ := exec_follows hb ha hc
    obtain ⟨rfl, rfl⟩ := Prod.mk.inj (Except.ok.inj (hres.symm.trans hres'))
    exact ⟨_, ht, hm ▸ stands_exec ha hst hc hkeeps⟩
  obtain ⟨c, hc, hst⟩ := key
  have hshows := hc.shows hb
  refine ⟨c.base.gate.line, hshows.line, ?_, fun hmem => ?_, fun hni => ?_⟩
  · cases hst.place with
    | inLine u' v' hl hlen hsub => simp [hl]; omega
    | through hlt hnot hslot => simp [hnot]; omega
  · cases hst.place with
    | inLine u' v' hl hlen hsub => exact ⟨u', v', hl, hsub, hlen⟩
    | through hlt hnot hslot => exact absurd hmem hnot
  · cases hst.place with
    | inLine u' v' hl hlen hsub =>
      exact absurd (hl ▸ List.mem_append_right _ (List.mem_cons_self ..)) hni
    | through hlt hnot hslot =>
      rw [hshows.granted, hshows.sends]
      exact hslot

/-- Make a call that keeps the send at `i`, and add up its relief. -/
def keepingCall (i : Addr) (x : Channel P T W × ℕ) (c : Action T W) :
    Option (Answer T × (Channel P T W × ℕ)) :=
  if Keeps i c then
    (attempt Allowed exec x.1 c).map fun r => (r.1, r.2, x.2 + x.1.relief i (c, r.1))
  else none

theorem step_of_keepingCall (x : Channel P T W × ℕ) (c : Action T W) (o : Answer T)
    (y : Channel P T W × ℕ) (h : keepingCall i x c = some (o, y)) :
    metered (KeepingStep i) (fun s e => s.relief i e) x (c, o) y := by
  unfold keepingCall at h
  split_ifs at h with hkeeps
  obtain ⟨⟨o', t⟩, hcall, heq⟩ := Option.map_eq_some_iff.mp h
  obtain ⟨rfl, rfl⟩ := Prod.mk.inj heq
  exact ⟨⟨of_attempt hcall, hkeeps⟩, rfl⟩

/-- Three sends at a channel with one slot: the third one gets it with the second value that is
received. -/
theorem admitted_iff_two : ∃ (es fs : List (Action ℕ ℕ × Answer ℕ)) (s t : Channel .w64 ℕ ℕ)
    (u v q : List Addr), Run Step (Channel.new .w64 ℕ ℕ 1) es s ∧
      s.handles.chan.semaphore.inner.WaitList (u ++ 9 :: v) ∧
      Run (metered (KeepingStep 9) (relief 9)) (s, 0) fs (t, 2) ∧ t.assigned = {9} ∧
      t.handles.chan.semaphore.inner.WaitList q ∧ (9 ∈ q ↔ 2 ≤ u.length) ∧
      (9 ∉ q → 9 ∈ t.assigned ∨ ∃ tx, t.sends.get? 9 = some { tx, stage := .returned }) := by
  have hcheck : (replay (attempt Allowed exec) (Channel.new .w64 ℕ ℕ 1) [.send 7 0 10, .poll 7 1,
      .send 8 0 20, .poll 8 2, .send 9 0 30, .poll 9 3]).bind (fun r =>
        (replay (keepingCall 9) (r.2, 0) [.call .tryRecv, .poll 8 2, .call .tryRecv]).map
          fun r' => (r.2.handles.chan.isClosed, r.2.suspended 9, decide (9 ∈ r.2.assigned),
            r'.2.2, r'.2.1.assigned)) = some (false, true, false, 2, {9}) := by decide +kernel
  obtain ⟨⟨es, s⟩, hres, hcheck⟩ := Option.bind_eq_some_iff.mp hcheck
  obtain ⟨⟨fs, t, n⟩, hres', heq⟩ := Option.map_eq_some_iff.mp hcheck
  simp only [Prod.mk.injEq, decide_eq_false_iff_not] at heq
  obtain ⟨hopen, hsuspended, hnot, rfl, hassigned⟩ := heq
  have hrun : Run Step _ es s := run_of_replay (fun _ _ _ _ => of_attempt) hres
  have hrun' := run_of_replay step_of_keepingCall hres'
  obtain ⟨a, ha⟩ := run_follows (by decide) hrun
  have hshows := ha.shows (by decide)
  have hshut : a.base.gate.isShut = false :=
    (ha.base.isClosed (showsSlots_tallies (by decide) _)).symm.trans hopen
  obtain ⟨u, v, hline⟩ := List.append_of_mem (ha.waits hshut hsuspended (hshows.granted ▸ hnot))
  have hq := hshows.line
  rw [hline] at hq
  obtain ⟨q, hq', hiff, -, hslot⟩ := admitted_iff hrun hq hrun'
  exact ⟨es, fs, s, t, u, v, q, hrun, hq, hrun', hassigned, hq', hiff, hslot⟩

end Channel

end LocalSync.Mpsc.Bounded
