import RefGraph.Proofs.Watch.Steps
import Mathlib.Algebra.Order.BigOperators.Group.List
import Mathlib.Algebra.Order.Ring.Nat

/-!
# Calls after the end of a subscription

A round calls the subscribers that a root had when the round began, so a subscription that ends
during a round may still be called by it. This is all that can happen: an identifier is used for
one subscription only and a root has one round at a time, so at any time at most one round that is
going on still has to call a given subscriber, and no round that begins later will.

* `Watch.State.owed`, `Watch.State.load`: the calls that are left, and a measure that bounds them.
* `Watch.State.IsSound`: what holds of all states that can be reached.
* `Watch.State.calls_of_finishRelease`: the calls after the end of a subscription.
-/

namespace RefGraph.Watch

/-! ## What the watches count -/

namespace RootWatch

/-- How much a watch counts an identifier: once as a subscriber or as a call that is left. -/
def load (w : RootWatch) (id : Nat) : Nat := max (w.subscribers.count id) (w.owed.count id)

/-- A watch without subscribers counts the calls that its round has left. -/
theorem load_of_isEmpty {w : RootWatch} (h : w.subscribers.isEmpty) (id : Nat) :
    w.load id = w.owed.count id := by
  simp [load, List.isEmpty_iff.1 h]

theorem load_append_le (w : RootWatch) (ids : List Nat) (id : Nat) :
    { w with subscribers := w.subscribers ++ ids }.load id ≤ w.load id + ids.count id := by
  show max ((w.subscribers ++ ids).count id) (w.owed.count id) ≤ max _ (w.owed.count id) + _
  rw [List.count_append]
  omega

theorem load_erase_le (w : RootWatch) (left id : Nat) :
    { w with subscribers := w.subscribers.erase left }.load id ≤ w.load id :=
  max_le_max (List.erase_sublist.count_le id) (Nat.le_refl (w.owed.count id))

namespace Turns

variable {w w' : RootWatch} {ids : List Nat}

/-- No turn counts an identifier more than before. -/
theorem load_le (h : Turns w ids w') (id : Nat) : w'.load id ≤ w.load id := by
  cases h with
  | goes same owes => simp only [load, same, owes, List.count_append]; omega
  | begins same before owes => simp only [load, same, owes]; omega

/-- A turn calls just what its round does not have left any more, except to subscribers. -/
theorem count_owed (h : Turns w ids w') {id : Nat} (hid : id ∉ w.subscribers) :
    ids.count id + w'.owed.count id = w.owed.count id := by
  cases h with
  | goes same owes => rw [owes, List.count_append]
  | begins same before owes => simp [before, owes, List.count_eq_zero_of_not_mem hid]

end Turns

end RootWatch

namespace State

variable {s s' : State}

/-! ## What the states count -/

/-- The subscribers that the rounds that are going on have left to call. -/
def owed (s : State) : List Nat := ((s.roots.flatMap fun r => callsLeft r.2) ++ s.orphans).flatten

/-- How much a state counts an identifier, in all watches and in the rounds without a root. -/
def load (s : State) (id : Nat) : Nat :=
  (s.roots.map fun r => r.2.load id).sum + s.orphans.flatten.count id

/-- An identifier that was used and that no subscriber has any more. -/
structure HasLeft (s : State) (id : Nat) : Prop where
  used : id < s.nextId
  absent : ∀ r ∈ s.roots, id ∉ r.2.subscribers

/-- The calls that are left are those that are owed. -/
theorem count_callsLeft (l : List (Path × RootWatch)) (id : Nat) :
    (l.flatMap fun r => callsLeft r.2).flatten.count id =
      (l.map fun r => r.2.owed.count id).sum := by
  induction l with
  | nil => rfl
  | cons r l ih => simp [ih, RootWatch.owed]

/-- What is owed is owed by the roots or by rounds without a root. -/
theorem count_owed (s : State) (id : Nat) : s.owed.count id =
    (s.roots.map fun r => r.2.owed.count id).sum + s.orphans.flatten.count id := by
  rw [owed, List.flatten_append, List.count_append, count_callsLeft]

/-- Every call that is left counts. -/
theorem count_owed_le_load (s : State) (id : Nat) : s.owed.count id ≤ s.load id := by
  rw [count_owed, load]
  exact Nat.add_le_add_right (List.sum_le_sum fun r _ => Nat.le_max_right ..) _

/-- When a root is left its calls become those of a round without a root. So nothing is lost of a
measure that sees in a watch without subscribers the calls that are left, and nothing else. -/
theorem sum_finishRelease (s : State) (sub : Subscription) {id : Nat} {f : RootWatch → Nat}
    (hf : ∀ w, w.subscribers.isEmpty → f w = w.owed.count id) :
    ((s.finishRelease sub).roots.map fun r => f r.2).sum +
        (s.finishRelease sub).orphans.flatten.count id =
      (s.roots.map fun r => f r.2).sum + s.orphans.flatten.count id := by
  -- The roots that are left and those that stay are all roots, in another order.
  let isLeft (r : Path × RootWatch) : Bool := r.1.equals sub.root && r.2.subscribers.isEmpty
  have hroots := ((List.filter_append_perm isLeft s.roots).map fun r => f r.2).sum_eq
  have hleft : (s.roots.filter isLeft).map (fun r => f r.2) =
      (s.roots.filter isLeft).map fun r => r.2.owed.count id := by
    refine List.map_congr_left fun r hr => hf _ ?_
    have hr : isLeft r := (List.mem_filter.1 hr).2
    simp only [isLeft, Bool.and_eq_true] at hr
    exact hr.2
  rw [List.map_append, List.sum_append, hleft, ← count_callsLeft] at hroots
  show ((s.roots.filter fun r => !isLeft r).map fun r => f r.2).sum +
    (s.orphans ++ (s.roots.filter isLeft).flatMap fun r => callsLeft r.2).flatten.count id = _
  rw [List.flatten_append, List.count_append]
  omega

/-! ## What a step preserves -/

namespace Step

/-- Roots stay apart. -/
theorem apart (h : s.Step s') (hs : s.Apart) : s'.Apart := by
  cases h with
  | turns hr _ | joins hr _ | leaves hr _ _ => simpa [Apart, hr] using hs
  | opens hr =>
    have hr : ∀ r ∈ s.roots, r.1.components ≠ _ := fun r h => ne_of_beq_false (hr r h)
    simp only [Apart, List.map_append, List.map_singleton, List.pairwise_append,
      List.forall_mem_map, List.forall_mem_singleton]
    exact ⟨hs, List.pairwise_singleton .., hr⟩
  | closes _ => exact hs.sublist (List.filter_sublist.map _)
  | _ => exact hs

theorem nextId_le (h : s.Step s') : s.nextId ≤ s'.nextId := by
  cases h <;> first | exact Nat.le_refl _ | exact Nat.le_succ _

/-- Only a new identifier is counted more than before, and only once. -/
theorem load_le (h : s.Step s') (id : Nat) : s'.load id ≤ s.load id ∨
    s.nextId < s'.nextId ∧ s'.load id ≤ s.load id + [s.nextId].count id := by
  cases h with
  | passes | refuses | leavesNothing => exact .inl (Nat.le_refl _)
  -- Only one watch changes; the load of the others is a summand on both sides.
  | turns hr hw =>
    have := hw.load_le id
    simp only [load, hr, List.map_append, List.map_cons, List.sum_append, List.sum_cons]
    omega
  | orphan ho => simp [load, ho]
  | orphanEnds ho => simp [load, ho]
  | @joins before after p w root hr hp =>
    have := w.load_append_le [s.nextId] id
    refine .inr ⟨Nat.lt_succ_self _, ?_⟩
    simp only [load, hr, List.map_append, List.map_cons, List.sum_append, List.sum_cons]
    omega
  | opens hr =>
    have : ({ subscribers := [s.nextId] } : RootWatch).load id = [s.nextId].count id :=
      Nat.max_eq_left (Nat.zero_le _)
    refine .inr ⟨Nat.lt_succ_self _, ?_⟩
    simp only [load, List.map_append, List.map_singleton, List.sum_append, List.sum_singleton]
    omega
  | @leaves before after p w sub hr hp hs =>
    have := w.load_erase_le sub.id id
    simp only [load, hr, List.map_append, List.map_cons, List.sum_append, List.sum_cons]
    omega
  | closes => exact .inl (sum_finishRelease s _ fun w hw => w.load_of_isEmpty hw id).le

/-- A subscriber had the same root before, or it has just come to a root that is its own. -/
theorem mem_subscribers (h : s.Step s') {r' : Path × RootWatch} (hr' : r' ∈ s'.roots) {id : Nat}
    (hid : id ∈ r'.2.subscribers) :
    (∃ r ∈ s.roots, r.1 = r'.1 ∧ id ∈ r.2.subscribers) ∨ id = s.nextId ∧
      ∃ root, r'.1.equals root ∧ s'.live = ⟨root, s.nextId⟩ :: s.live := by
  cases h with
  -- One watch is replaced: its subscribers are traced, those of the others are the same.
  | @turns _ _ p w _ _ hr hw =>
    obtain hr' | rfl := mem_of_mem_replaced hr hr'
    · exact .inl ⟨r', hr', rfl, hid⟩
    · exact .inl ⟨(p, w), hr ▸ List.mem_append_cons_self, rfl, hw.subscribers_eq ▸ hid⟩
  | @joins _ _ p w _ hr hp =>
    obtain hr' | rfl := mem_of_mem_replaced hr hr'
    · exact .inl ⟨r', hr', rfl, hid⟩
    · obtain hid | hid := List.mem_append.1 hid
      · exact .inl ⟨(p, w), hr ▸ List.mem_append_cons_self, rfl, hid⟩
      · exact .inr ⟨List.mem_singleton.1 hid, _, hp, rfl⟩
  | opens hr =>
    obtain hr' | hr' := List.mem_append.1 hr'
    · exact .inl ⟨r', hr', rfl, hid⟩
    · obtain rfl := List.mem_singleton.1 hr'
      exact .inr ⟨List.mem_singleton.1 hid, _, beq_self_eq_true _, rfl⟩
  | @leaves _ _ p w _ hr _ _ =>
    obtain hr' | rfl := mem_of_mem_replaced hr hr'
    · exact .inl ⟨r', hr', rfl, hid⟩
    · exact .inl ⟨(p, w), hr ▸ List.mem_append_cons_self, rfl, List.mem_of_mem_erase hid⟩
  | closes => exact .inl ⟨r', (List.mem_filter.1 hr').1, rfl, hid⟩
  | _ => exact .inl ⟨r', hr', rfl, hid⟩

/-- An identifier that has left does not come back. -/
theorem hasLeft (h : s.Step s') {id : Nat} (hid : s.HasLeft id) : s'.HasLeft id := by
  refine ⟨Nat.lt_of_lt_of_le hid.used h.nextId_le, fun r' hr' hmem => ?_⟩
  obtain ⟨r, hr, -, hmem⟩ | ⟨hnew, -⟩ := h.mem_subscribers hr' hmem
  · exact hid.absent r hr hmem
  · exact Nat.ne_of_lt hid.used hnew

/-- A subscription that has not ended is an old one or has a new identifier. -/
theorem mem_live (h : s.Step s') {sub : Subscription} (hsub : sub ∈ s'.live) :
    sub ∈ s.live ∨ sub.id = s.nextId ∧ s.nextId < s'.nextId := by
  cases h with
  | joins | opens =>
    obtain rfl | hsub := List.mem_cons.1 hsub
    · exact .inr ⟨rfl, Nat.lt_succ_self _⟩
    · exact .inl hsub
  | leaves | leavesNothing => exact .inl (List.mem_of_mem_erase hsub)
  | _ => exact .inl hsub

/-- A subscriber that has left is called just when a round that still has to call it does so. -/
theorem count_owed (h : s.Step s') {id : Nat} (hid : s.HasLeft id) :
    ∃ calls, s'.called = calls ++ s.called ∧
      calls.count id + s'.owed.count id = s.owed.count id := by
  have habsent := hid.absent
  simp only [State.count_owed]
  cases h with
  | turns hr hw =>
    simp only [hr, List.forall_mem_append, List.forall_mem_cons] at habsent
    refine ⟨_, rfl, ?_⟩
    have := hw.count_owed habsent.2.1
    simp only [hr, List.map_append, List.map_cons, List.sum_append, List.sum_cons]
    omega
  | orphan ho => refine ⟨_, rfl, ?_⟩; simp [ho]; omega
  | orphanEnds ho => refine ⟨[], rfl, ?_⟩; simp [ho]
  | joins hr hp | leaves hr hp hs => refine ⟨[], rfl, ?_⟩; simp [hr, RootWatch.owed]; rfl
  | opens hr => refine ⟨[], rfl, ?_⟩; simp [RootWatch.owed, callsLeft]
  | closes =>
    refine ⟨[], rfl, ?_⟩
    rw [List.count_nil, Nat.zero_add, sum_finishRelease s _ fun _ _ => rfl]
  | _ => exact ⟨[], rfl, Nat.zero_add _⟩

end Step

/-! ## Reachable states -/

/-- What holds of all states that can be reached: roots are apart, an identifier counts at most
once and not before it is used, a subscriber has its own root, and a subscription that is about to
end has left. -/
structure IsSound (s : State) : Prop where
  apart : s.Apart
  once : ∀ id, s.load id ≤ 1
  unused : ∀ id, s.nextId ≤ id → s.load id = 0
  used : ∀ sub ∈ s.live, sub.id < s.nextId
  atHome : ∀ sub ∈ s.live, ∀ r ∈ s.roots, sub.id ∈ r.2.subscribers → r.1.equals sub.root
  left : ∀ sub ∈ s.leaving, s.HasLeft sub.id

theorem isSound_initial (timing : Timing) : IsSound { timing } := by
  constructor <;> simp [Apart, load]

/-- A subscriber counts. -/
theorem count_subscribers_le_load {r : Path × RootWatch} (hr : r ∈ s.roots) (id : Nat) :
    r.2.subscribers.count id ≤ s.load id :=
  (Nat.le_max_left ..).trans ((List.single_le_sum (fun _ _ => Nat.zero_le _) _
    (List.mem_map_of_mem (f := fun r => r.2.load id) hr)).trans (Nat.le_add_right ..))

namespace IsSound

theorem lt_nextId (hs : s.IsSound) {r : Path × RootWatch} (hr : r ∈ s.roots) {id : Nat}
    (hid : id ∈ r.2.subscribers) : id < s.nextId := by
  by_contra h
  have := hs.unused id (Nat.le_of_not_lt h)
  have := count_subscribers_le_load hr id
  have := List.count_pos_iff.2 hid
  omega

/-- A subscription that begins to end leaves its root, and was in no other. -/
theorem hasLeft_of_mem_leaving (hs : s.IsSound) (h : s.Step s') {sub : Subscription}
    (hsub : sub ∈ s'.leaving) : s'.HasLeft sub.id := by
  have hold {sub : Subscription} (hsub : sub ∈ s.leaving) : s'.HasLeft sub.id :=
    h.hasLeft (hs.left sub hsub)
  cases h with
  | @leaves before after p w sub hr hp hlive =>
    obtain rfl | hsub := List.mem_cons.1 hsub
    · refine ⟨hs.used _ hlive, ?_⟩
      -- It was in no other root, as the roots are apart, and only once in its own.
      have hother : ∀ r ∈ before ++ after, sub.id ∉ r.2.subscribers := by
        intro r h hid
        have hmem : r ∈ s.roots := by
          rw [hr]
          exact List.mem_append.2 ((List.mem_append.1 h).imp_right (List.mem_cons_of_mem _))
        have hhome : r.1.components = sub.root.components :=
          beq_iff_eq.1 (hs.atHome _ hlive r hmem hid)
        exact hs.apart.components_ne hr r h (hhome.trans (beq_iff_eq.1 hp).symm)
      have hcount : (w.subscribers.erase sub.id).count sub.id = 0 := by
        have hmem : (p, w) ∈ s.roots := hr ▸ List.mem_append_cons_self
        have : w.subscribers.count sub.id ≤ s.load sub.id := count_subscribers_le_load hmem sub.id
        have := hs.once sub.id
        rw [List.count_erase_self]
        omega
      simp only [List.forall_mem_append, List.forall_mem_cons] at hother ⊢
      exact ⟨hother.1, List.count_eq_zero.1 hcount, hother.2⟩
    · exact hold hsub
  | leavesNothing hr hlive =>
    obtain rfl | hsub := List.mem_cons.1 hsub
    · exact ⟨hs.used _ hlive, fun r h hid =>
        Bool.false_ne_true ((hr r h).symm.trans (hs.atHome _ hlive r h hid))⟩
    · exact hold hsub
  | closes => exact hold (List.mem_of_mem_erase hsub)
  | _ => exact hold hsub

/-- Every step keeps things sound. -/
theorem step (hs : s.IsSound) (h : s.Step s') : s'.IsSound where
  apart := h.apart hs.apart
  once id := by
    have := hs.once id
    -- A load that grows is that of a new subscriber, whose number was unused.
    obtain h | ⟨-, h⟩ := h.load_le id
    · omega
    · by_cases hid : id = s.nextId
      · have := hs.unused id (Nat.le_of_eq hid.symm)
        rw [← hid, List.count_singleton_self] at h
        omega
      · rw [List.count_eq_zero_of_not_mem (by simpa using hid)] at h
        omega
  unused id hid := by
    have := hs.unused id (h.nextId_le.trans hid)
    obtain h | ⟨hnext, h⟩ := h.load_le id
    · omega
    · rw [List.count_eq_zero_of_not_mem (by simp; omega)] at h
      omega
  used sub hsub := by
    obtain hsub | ⟨hnew, hnext⟩ := h.mem_live hsub
    · exact Nat.lt_of_lt_of_le (hs.used sub hsub) h.nextId_le
    · exact hnew ▸ hnext
  atHome sub hsub r' hr' hid := by
    obtain ⟨r, hr, hpath, hid⟩ | ⟨hnew, root, hroot, hlive⟩ := h.mem_subscribers hr' hid
    · obtain hsub | ⟨hnew, -⟩ := h.mem_live hsub
      · exact hpath ▸ hs.atHome sub hsub r hr hid
      · exact absurd hnew (Nat.ne_of_lt (hs.lt_nextId hr hid))
    · obtain rfl | hsub := List.mem_cons.1 (hlive ▸ hsub)
      · exact hroot
      · exact absurd hnew (Nat.ne_of_lt (hs.used sub hsub))
  left _ hsub := hs.hasLeft_of_mem_leaving h hsub

end IsSound

/-! ## Runs -/

theorem run?_cons (s : State) (a : Action) (actions : List Action) :
    s.run? (a :: actions) = (s.step? a).bind fun s' => s'.run? actions := rfl

/-- A run keeps what holds of all states. -/
theorem IsSound.run {actions : List Action} (hs : s.IsSound) (h : s.run? actions = some s') :
    s'.IsSound := by
  induction actions generalizing s with
  | nil => cases h; exact hs
  | cons a actions ih =>
    obtain ⟨s₁, hstep, hrun⟩ := Option.bind_eq_some_iff.1 (run?_cons s a actions ▸ h)
    exact ih (hs.step (step_of_step? hs.apart hstep)) hrun

/-- In a run a subscriber that has left is called just when a round that still has to call it does
so. -/
theorem IsSound.count_owed_run {actions : List Action} {id : Nat} (hs : s.IsSound)
    (hid : s.HasLeft id) (h : s.run? actions = some s') :
    ∃ calls, s'.called = calls ++ s.called ∧
      calls.count id + s'.owed.count id = s.owed.count id := by
  -- The calls of the first step come before those of the others, which are added in front.
  induction actions generalizing s with
  | nil => cases h; exact ⟨[], rfl, Nat.zero_add _⟩
  | cons a actions ih =>
    obtain ⟨s₁, hstep, hrun⟩ := Option.bind_eq_some_iff.1 (run?_cons s a actions ▸ h)
    have hstep := step_of_step? hs.apart hstep
    obtain ⟨calls₁, hcalled₁, hcount₁⟩ := hstep.count_owed hid
    obtain ⟨calls₂, hcalled₂, hcount₂⟩ := ih (hs.step hstep) (hstep.hasLeft hid) hrun
    refine ⟨calls₂ ++ calls₁, by rw [hcalled₂, hcalled₁, List.append_assoc], ?_⟩
    rw [List.count_append]
    omega

/-- **Calls after the end of a subscription.** Whatever has happened before a subscription ends and
whatever happens afterwards, in any order: its subscriber is called afterwards only by the rounds
that were going on when it ended, each call is one that they had left, and there was at most one. -/
theorem calls_of_finishRelease {timing : Timing} {before after : List Action} {sub : Subscription}
    {s₁ s₂ s₃ : State} (hbefore : ({ timing } : State).run? before = some s₁)
    (hend : s₁.step? (.finishRelease sub) = some s₂) (hafter : s₂.run? after = some s₃) :
    ∃ calls, s₃.called = calls ++ s₂.called ∧
      calls.count sub.id + s₃.owed.count sub.id = s₂.owed.count sub.id ∧
      s₂.owed.count sub.id ≤ 1 := by
  have hs₁ := (isSound_initial timing).run hbefore
  have hstep := step_of_step? hs₁.apart hend
  have hleaving : sub ∈ s₁.leaving := by
    by_contra hnot
    simp [step?, hnot] at hend
  have hs₂ := hs₁.step hstep
  obtain ⟨calls, hcalled, hcount⟩ :=
    hs₂.count_owed_run (hstep.hasLeft (hs₁.left sub hleaving)) hafter
  exact ⟨calls, hcalled, hcount, (count_owed_le_load s₂ sub.id).trans (hs₂.once sub.id)⟩

/-- Two subscribers of a root, a round that has called the first of them, and the second one that
is about to leave. -/
def leavingDuringRound : List Action :=
  [.subscribe ⟨"/r"⟩ true, .subscribe ⟨"/r"⟩ true, .hear ⟨"/r"⟩ ⟨.modify, [⟨"/r/a.ts"⟩]⟩,
    .take ⟨"/r"⟩, .pass 250, .elapse ⟨"/r"⟩, .call ⟨"/r"⟩, .beginRelease ⟨⟨"/r"⟩, 1⟩]

/-- The second subscriber leaves during a round, and is called as often as it was owed. -/
theorem calls_of_finishRelease_leavingDuringRound :
    ∃ s₁ s₂ s₃ : State, ({} : State).run? leavingDuringRound = some s₁ ∧
      s₁.step? (.finishRelease ⟨⟨"/r"⟩, 1⟩) = some s₂ ∧ s₂.run? [.call ⟨"/r"⟩] = some s₃ ∧
      ∃ calls, s₃.called = calls ++ s₂.called ∧
        calls.count 1 + s₃.owed.count 1 = s₂.owed.count 1 ∧ s₂.owed.count 1 ≤ 1 := by
  have hrun : ((({} : State).run? leavingDuringRound).bind fun s₁ =>
      (s₁.step? (.finishRelease ⟨⟨"/r"⟩, 1⟩)).bind fun s₂ => s₂.run? [.call ⟨"/r"⟩]).isSome := by
    decide +kernel
  obtain ⟨s₃, hrun⟩ := Option.isSome_iff_exists.1 hrun
  simp only [Option.bind_eq_some_iff] at hrun
  obtain ⟨s₁, hbefore, s₂, hend, hafter⟩ := hrun
  exact ⟨s₁, s₂, s₃, hbefore, hend, hafter, calls_of_finishRelease hbefore hend hafter⟩

/-- A round goes on to a subscriber whose subscription has ended since the round began. -/
theorem called_leavingDuringRound :
    let ended := (({} : State).run? leavingDuringRound).bind (·.step? (.finishRelease ⟨⟨"/r"⟩, 1⟩))
    ended.map called = some [0] ∧
      (ended.bind (·.run? [.call ⟨"/r"⟩])).map called = some [1, 0] := by
  decide +kernel

end State

end RefGraph.Watch
