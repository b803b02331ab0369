/-
  What a oneshot channel is for, without flags, slots and reference counts.

  A channel awaits its sender, holds a value, or is spent; besides, the receiver
  may have closed it.  `Spec.Accepts` says what a call may return in each state,
  and `Spec.next` what it leaves.  The laws of delivery (`Spec.accepted_eq`,
  `Spec.attempts_of_full`, `Spec.attempts_of_spent`, ...) are theorems about the
  runs of this machine.
-/
import Mathlib.Data.List.ReduceOption
import LocalSync.Oneshot.System

namespace LocalSync.Oneshot

open Lib

variable {T W : Type}

/-! ### Reading a run -/

/-- The receiver closes the channel with this call, or goes away. -/
def Action.hangsUp : Action T W → Bool
  | .close | .dropRx => true
  | _ => false

/-- The call is one of the sender. -/
def Action.ofSender : Action T W → Bool
  | .pollClosed _ | .isClosed | .send _ | .dropTx => true
  | _ => false

/-- The receiver has hung up. -/
def hungUp (es : List (Action T W × Answer T)) : Bool := es.any fun e => e.1.hangsUp

/-- The value that the channel takes over. -/
def acceptedBy : Action T W × Answer T → Option T
  | (.send v, .sent (.ok ())) => some v
  | _ => none

/-- The values that the channel took over. -/
def accepted (es : List (Action T W × Answer T)) : List T := es.filterMap acceptedBy

/-- What a receive attempt gives: the value, if there is one. -/
def attempt? : Action T W × Answer T → Option (Option T)
  | (.poll _, .received (.ready (.ok v))) => some (some v)
  | (.tryRecv, .tried (.ok v)) => some (some v)
  | (.poll _, _) => some none
  | (.tryRecv, _) => some none
  | _ => none

/-- What the receive attempts of a run give. -/
def attempts (es : List (Action T W × Answer T)) : List (Option T) := es.filterMap attempt?

/-- The values that were received. -/
def received (es : List (Action T W × Answer T)) : List T := (attempts es).reduceOption

variable {e : Action T W × Answer T} {es es₁ es₂ : List (Action T W × Answer T)}

@[simp] theorem hungUp_snoc : hungUp (es ++ [e]) = (hungUp es || e.1.hangsUp) := by
  simp [hungUp]

@[simp] theorem accepted_snoc : accepted (es ++ [e]) = accepted es ++ (acceptedBy e).toList := by
  rw [accepted, accepted, List.filterMap_append]
  cases h : acceptedBy e <;> simp [h]

@[simp] theorem attempts_snoc : attempts (es ++ [e]) = attempts es ++ (attempt? e).toList := by
  rw [attempts, attempts, List.filterMap_append]
  cases h : attempt? e <;> simp [h]

theorem received_append : received (es₁ ++ es₂) = received es₁ ++ received es₂ := by
  rw [received, attempts, List.filterMap_append, List.reduceOption_append]
  rfl

@[simp] theorem received_snoc : received (es ++ [e]) = received es ++ (attempt? e).join.toList := by
  rw [received, received, attempts_snoc, List.reduceOption_append]
  cases attempt? e with
  | none => rfl
  | some r => cases r <;> rfl

theorem received_cons : received (e :: es) = (attempt? e).join.toList ++ received es := by
  rw [← List.singleton_append, received_append]
  have hsingle : received ([] ++ [e]) = received [] ++ (attempt? e).join.toList := received_snoc
  rw [← List.nil_append [e], hsingle]
  rfl

/-! ### The machine -/

/-- What a channel holds. -/
inductive Content (T : Type) where
  /-- The sender is there. -/
  | awaited
  /-- A value was sent, and waits for the receiver. -/
  | full (v : T)
  /-- No value will come any more. -/
  | spent

namespace Content

/-- The value that is held. -/
def value : Content T → Option T
  | .full v => some v
  | _ => none

/-- What is left when the value is taken out, if there is one. -/
def taken : Content T → Content T
  | .full _ => .spent
  | c => c

@[simp] theorem value_awaited : (awaited : Content T).value = none := rfl

@[simp] theorem value_full (v : T) : (full v).value = some v := rfl

@[simp] theorem value_spent : (spent : Content T).value = none := rfl

@[simp] theorem value_taken (c : Content T) : c.taken.value = none := by
  cases c <;> rfl

@[simp] theorem taken_eq_awaited {c : Content T} : c.taken = awaited ↔ c = awaited := by
  cases c <;> simp [taken]

theorem taken_of_value {c : Content T} (h : c.value = none) : c.taken = c := by
  cases c with
  | full v => cases h
  | awaited | spent => rfl

end Content

/-- The abstract channel. -/
structure Spec (T : Type) where
  content : Content T
  /-- The receiver has closed the channel, or is gone. -/
  closed : Bool
  /-- The receiver is there. -/
  receiver : Bool
  /-- The values that the channel dropped. -/
  dropped : List T

namespace Spec

/-- A new channel. -/
def new : Spec T := { content := .awaited, closed := false, receiver := true, dropped := [] }

/-- The value is taken out. -/
def take (a : Spec T) : Spec T := { a with content := a.content.taken }

/-- The receiver goes, and what is left is dropped. -/
def leave (a : Spec T) : Spec T where
  content := a.content.taken
  closed := true
  receiver := false
  dropped := a.dropped ++ a.content.value.toList

/-- What a call may return. Polling a receiver that has finished panics. -/
def Accepts (a : Spec T) : Action T W → Answer T → Prop
  | .pollClosed _, o => o = .closed (if a.closed then .ready () else .pending)
  | .isClosed, o => o = .isClosed a.closed
  | .send v, o => o = .sent (if a.closed then .error v else .ok ())
  | .poll _, o =>
    match a.content with
    | .awaited =>
      if a.closed then o = .received (.ready (.error ⟨⟩)) ∨ o = .unwound else o = .received .pending
    | .full v => o = .received (.ready (.ok v))
    | .spent => o = .received (.ready (.error ⟨⟩)) ∨ o = .unwound
  | .tryRecv, o =>
    match a.content with
    | .awaited => o = .tried (.error (if a.closed then .closed else .empty))
    | .full v => o = .tried (.ok v)
    | .spent => o = .tried (.error .closed)
  | _, o => o = .unit

/-- What a call leaves. -/
def next (a : Spec T) : Action T W → Spec T
  | .pollClosed _ | .isClosed => a
  | .send v => { a with content := if a.closed then .spent else .full v }
  | .dropTx => { a with content := .spent }
  | .poll _ | .tryRecv => a.take
  | .close => { a with closed := true }
  | .dropRx => a.leave

/-- The caller is there: the sender, while it is awaited, or the receiver. -/
def Allowed (a : Spec T) (c : Action T W) : Prop :=
  if c.ofSender then a.content = .awaited else a.receiver = true

/-- One call. -/
def Step (a : Spec T) (e : Action T W × Answer T) (b : Spec T) : Prop :=
  a.Allowed e.1 ∧ a.Accepts e.1 e.2 ∧ b = a.next e.1

variable {a b : Spec T} {v : T}

/-! ### What a call can do -/

/-- What a call can do, and what can be read off it. -/
inductive Move (a : Spec T) (e : Action T W × Answer T) : Spec T → Prop
  /-- The sender looks whether the channel is closed. -/
  | looks : attempt? e = none → acceptedBy e = none → e.1.hangsUp = false → Move a e a
  /-- The channel takes over a value. -/
  | accepts (v : T) : attempt? e = none → acceptedBy e = some v → e.1.hangsUp = false →
      a.content = .awaited → a.closed = false → Move a e { a with content := .full v }
  /-- The sender goes without having sent a value. -/
  | ends : attempt? e = none → acceptedBy e = none → e.1.hangsUp = false → a.content = .awaited →
      Move a e { a with content := .spent }
  /-- The receiver gets what there is. -/
  | receives : attempt? e = some a.content.value → acceptedBy e = none → e.1.hangsUp = false →
      a.receiver = true → Move a e a.take
  /-- The receiver closes the channel. -/
  | closes : attempt? e = none → acceptedBy e = none → e.1.hangsUp = true → a.receiver = true →
      Move a e { a with closed := true }
  /-- The receiver goes, and the channel drops what there is. -/
  | leaves : attempt? e = none → acceptedBy e = none → e.1.hangsUp = true → a.receiver = true →
      Move a e a.leave

theorem move_of_step (h : Step a e b) : Move a e b := by
  obtain ⟨c, o⟩ := e
  obtain ⟨hallowed, haccepts, rfl⟩ := h
  cases c with
  | pollClosed | isClosed => exact .looks rfl rfl rfl
  | send v =>
    obtain rfl := haccepts
    unfold next
    split_ifs with hc
    · exact .ends rfl rfl rfl hallowed
    · exact .accepts v rfl rfl rfl hallowed (Bool.eq_false_iff.mpr hc)
  | dropTx => exact .ends rfl rfl rfl hallowed
  | poll cx =>
    refine .receives ?_ rfl rfl hallowed
    unfold Accepts at haccepts
    cases hcontent : a.content with
    | awaited =>
      simp only [hcontent] at haccepts
      split_ifs at haccepts
      · rcases haccepts with rfl | rfl <;> rfl
      · rw [haccepts]
        rfl
    | full v =>
      simp only [hcontent] at haccepts
      rw [haccepts]
      rfl
    | spent =>
      simp only [hcontent] at haccepts
      rcases haccepts with rfl | rfl <;> rfl
  | tryRecv =>
    refine .receives ?_ rfl rfl hallowed
    unfold Accepts at haccepts
    cases hcontent : a.content <;> simp only [hcontent] at haccepts <;> rw [haccepts] <;> rfl
  | close => exact .closes rfl rfl rfl hallowed
  | dropRx => exact .leaves rfl rfl rfl hallowed

/-- The receiver is told to wait only when there is hope. -/
theorem hopeful_of_empty (h : a.Accepts (.tryRecv : Action T W) (.tried (.error .empty))) :
    a.content = .awaited ∧ a.closed = false := by
  cases hc : a.content <;> simp [Accepts, hc] at h ⊢
  by_contra hclosed
  simp [hclosed] at h

theorem hopeful_of_pending {cx : W} (h : a.Accepts (.poll cx) (.received .pending)) :
    a.content = .awaited ∧ a.closed = false := by
  cases hc : a.content <;> simp [Accepts, hc] at h ⊢
  by_contra hclosed
  simp [hclosed] at h

/-! ### The laws of delivery -/

/-- What a run from a new channel has left. -/
structure History (es : List (Action T W × Answer T)) (a : Spec T) : Prop where
  closed : a.closed = hungUp es
  /-- Every value that was taken over was received, was dropped, or is still held. -/
  accepted_eq : accepted es = received es ++ a.dropped ++ a.content.value.toList
  /-- While the receiver is there, nothing is dropped. -/
  kept : a.receiver = true → a.dropped = []
  /-- Before the sender has sent something or has gone, there is nothing to receive. -/
  awaited : a.content = .awaited → received es = []
  unsent : a.content = .awaited → accepted es = []
  once : (accepted es).length ≤ 1

theorem History.new : History ([] : List (Action T W × Answer T)) Spec.new :=
  ⟨rfl, rfl, fun _ => rfl, fun _ => rfl, fun _ => rfl, Nat.zero_le _⟩

theorem History.snoc (h : History es a) (hstep : Step a e b) : History (es ++ [e]) b := by
  have heq := h.accepted_eq
  cases move_of_step hstep with
  | looks hattempt haccepted hhangs =>
    have hes : accepted (es ++ [e]) = accepted es := by simp [haccepted]
    refine ⟨?_, ?_, h.kept, fun ha => ?_, hes ▸ h.unsent, hes ▸ h.once⟩
    · rw [hungUp_snoc, hhangs, Bool.or_false, h.closed]
    · rw [hes, heq]
      simp [hattempt]
    · simpa [hattempt] using h.awaited ha
  | accepts v hattempt haccepted hhangs hcontent hopen =>
    refine ⟨?_, ?_, h.kept, nofun, nofun, ?_⟩
    · rw [hungUp_snoc, hhangs, Bool.or_false, h.closed]
    · rw [hcontent] at heq
      simp [haccepted, hattempt, heq]
    · rw [accepted_snoc, haccepted, h.unsent hcontent]
      exact le_rfl
  | ends hattempt haccepted hhangs hcontent =>
    have hes : accepted (es ++ [e]) = accepted es := by simp [haccepted]
    refine ⟨?_, ?_, h.kept, nofun, nofun, hes ▸ h.once⟩
    · rw [hungUp_snoc, hhangs, Bool.or_false, h.closed]
    · rw [hcontent] at heq
      simpa [haccepted, hattempt] using heq
  | receives hattempt haccepted hhangs hreceiver =>
    have hes : accepted (es ++ [e]) = accepted es := by simp [haccepted]
    rw [h.kept hreceiver] at heq
    refine ⟨?_, ?_, h.kept, fun ha => ?_, fun ha => ?_, hes ▸ h.once⟩
    · rw [hungUp_snoc, hhangs, Bool.or_false]
      exact h.closed
    · simpa [haccepted, hattempt, take, h.kept hreceiver] using heq
    · -- the content has not changed
      have hcontent : a.content = .awaited := Content.taken_eq_awaited.mp ha
      simpa [hattempt, hcontent] using h.awaited hcontent
    · rw [hes, h.unsent (Content.taken_eq_awaited.mp ha)]
  | closes hattempt haccepted hhangs hreceiver =>
    have hes : accepted (es ++ [e]) = accepted es := by simp [haccepted]
    refine ⟨?_, ?_, h.kept, fun ha => ?_, hes ▸ h.unsent, hes ▸ h.once⟩
    · rw [hungUp_snoc, hhangs, Bool.or_true]
    · rw [hes, heq]
      simp [hattempt]
    · simpa [hattempt] using h.awaited ha
  | leaves hattempt haccepted hhangs hreceiver =>
    have hes : accepted (es ++ [e]) = accepted es := by simp [haccepted]
    refine ⟨?_, ?_, fun hr => absurd hr Bool.false_ne_true, fun ha => ?_, fun ha => ?_,
      hes ▸ h.once⟩
    · rw [hungUp_snoc, hhangs, Bool.or_true]
      rfl
    · simpa [haccepted, hattempt, leave] using heq
    · have hcontent : a.content = .awaited := Content.taken_eq_awaited.mp ha
      simpa [hattempt] using h.awaited hcontent
    · rw [hes, h.unsent (Content.taken_eq_awaited.mp ha)]

/-- **Every run from a new channel** has its history. -/
theorem history (h : Run Step Spec.new es a) : History es a := by
  induction h with
  | nil => exact .new
  | snoc _ hstep ih => exact ih.snoc hstep

/-- A spent channel stays spent, and gives nothing. -/
theorem spent_of_step (h : Step a e b) (ha : a.content = .spent) :
    b.content = .spent ∧ (attempt? e).join = none := by
  cases move_of_step h with
  | looks hattempt => exact ⟨ha, by rw [hattempt]; rfl⟩
  | accepts v hattempt haccepted hhangs hcontent =>
    rw [ha] at hcontent
    cases hcontent
  | ends hattempt => exact ⟨rfl, by rw [hattempt]; rfl⟩
  | receives hattempt =>
    rw [ha] at hattempt
    refine ⟨?_, by rw [hattempt]; rfl⟩
    rw [take, ha]
    rfl
  | closes hattempt => exact ⟨ha, by rw [hattempt]; rfl⟩
  | leaves hattempt =>
    refine ⟨?_, by rw [hattempt]; rfl⟩
    rw [leave, ha]
    rfl

theorem received_of_spent (h : Run Step a es b) (ha : a.content = .spent) : received es = [] := by
  suffices b.content = .spent ∧ received es = [] from this.2
  induction h with
  | nil => exact ⟨ha, rfl⟩
  | snoc _ hstep ih =>
    obtain ⟨hspent, hnone⟩ := spent_of_step hstep ih.1
    refine ⟨hspent, ?_⟩
    rw [received_snoc, hnone, ih.2]
    rfl

/-- What has come out of a channel that held `v`. -/
inductive Drained (v : T) (es : List (Action T W × Answer T)) (b : Spec T) : Prop
  /-- It still holds `v`. -/
  | full : attempts es = [] → b.content = .full v → Drained v es b
  /-- The receiver has gone without an attempt. -/
  | unread : attempts es = [] → b.receiver = false → Drained v es b
  /-- The first attempt got `v`, and the others nothing. -/
  | read (rs : List (Option T)) : attempts es = some v :: rs → rs.reduceOption = [] →
      b.content = .spent → Drained v es b

theorem Drained.snoc (h : Drained v es a) (hstep : Step a e b) : Drained v (es ++ [e]) b := by
  cases h with
  | full hes hcontent =>
    cases move_of_step hstep with
    | looks hattempt => exact .full (by simp [hattempt, hes]) hcontent
    | accepts v' hattempt haccepted hhangs hawaited =>
      rw [hcontent] at hawaited
      cases hawaited
    | ends hattempt haccepted hhangs hawaited =>
      rw [hcontent] at hawaited
      cases hawaited
    | receives hattempt =>
      rw [hcontent] at hattempt
      refine .read [] (by simp [hattempt, hes]) rfl ?_
      rw [take, hcontent]
      rfl
    | closes hattempt => exact .full (by simp [hattempt, hes]) hcontent
    | leaves hattempt => exact .unread (by simp [hattempt, hes]) rfl
  | unread hes hreceiver =>
    cases move_of_step hstep with
    | looks hattempt | accepts _ hattempt | ends hattempt | closes hattempt =>
      exact .unread (by simp [hattempt, hes]) hreceiver
    | receives hattempt haccepted hhangs hthere =>
      rw [hreceiver] at hthere
      cases hthere
    | leaves hattempt => exact .unread (by simp [hattempt, hes]) rfl
  | read rs hes hrs hcontent =>
    obtain ⟨hspent, hnone⟩ := spent_of_step hstep hcontent
    refine .read (rs ++ (attempt? e).toList) ?_ ?_ hspent
    · rw [attempts_snoc, hes]
      rfl
    · rw [List.reduceOption_append, hrs]
      cases hattempt : attempt? e with
      | none => rfl
      | some r =>
        rw [hattempt] at hnone
        obtain rfl := hnone
        rfl

/-- **A full channel** gives its value to the first attempt, and nothing to the later ones. -/
theorem drained (h : Run Step a es b) (ha : a.content = .full v) : Drained v es b := by
  induction h with
  | nil => exact .full rfl ha
  | snoc _ hstep ih => exact ih.snoc hstep

end Spec

end LocalSync.Oneshot
