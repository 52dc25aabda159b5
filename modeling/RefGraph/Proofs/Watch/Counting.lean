import RefGraph.Proofs.Watch.Rounds
import RefGraph.Watch.Session
import Mathlib.Data.List.Induction
import Mathlib.Data.List.Nodup

/-!
# Counting the subscriptions of a root

A root is watched for as long as somebody holds a subscription to it. A subscription ends in two
steps, and anything may happen between them, so the last one to leave a root may meet somebody who
has just come to it. What is counted is right all the same, in every order of the steps.

* `Watch.State.granted`, `Watch.State.held`: the subscriptions that a run has given, and those that
  have not begun to end.
* `Watch.State.attempt`: a call of subscribe with all that can fail about it.
* `Watch.State.KeepsCount`: the invariant, which every step keeps.
* `Watch.State.Remembers`: what a state still knows of the run that led to it.
* `Watch.State.countsExactly_of_run`: what the questions about roots answer after any run.
-/

namespace RefGraph.Watch

/-- Whether an action is a call of subscribe that has come as far as the watched roots. -/
def Action.isSubscribe : Action → Bool
  | .subscribe .. => true
  | _ => false

/-- The subscription that begins to end with an action. -/
def Action.begins? : Action → Option Subscription
  | .beginRelease sub => some sub
  | _ => none

/-- The subscription that has ended with an action. -/
def Action.finishes? : Action → Option Subscription
  | .finishRelease sub => some sub
  | _ => none

namespace State

variable {s s' : State}

/-! ## The subscriptions of a run -/

/-- The subscription that an action gives to its caller. -/
def granted? (s : State) : Action → Option Subscription
  | .subscribe root starts => (s.subscribe root starts).2
  | _ => none

/-- The subscriptions that a run gives, the first one first. -/
def granted (s : State) : List Action → List Subscription
  | [] => []
  | a :: actions => (s.granted? a).toList ++ ((s.step? a).map fun s' => s'.granted actions).getD []

/-- The subscriptions that a run has given and that have not begun to end. -/
def held (s : State) (actions : List Action) : List Subscription :=
  (s.granted actions).filter fun sub => .beginRelease sub ∉ actions

/-- No subscription is between the two steps of its end. -/
def NoneLeaving (actions : List Action) : Prop :=
  ∀ sub, .beginRelease sub ∈ actions → .finishRelease sub ∈ actions

/-- A call of subscribe: where its path leads, whether something drives the watchers, and whether
the watcher of a new root would start. The answer is no subscription if one of these fails. -/
def attempt (s : State) (target : Except FileError Path) (driven starts : Bool) :
    State × Option Subscription :=
  match target with
  | .error _ => (s, none)
  | .ok root => if driven then s.subscribe root starts else (s, none)

/-- A call fails because of its path, because nothing drives the watchers, or because a watcher that
is needed does not start. -/
theorem attempt_eq_none_iff (s : State) (target : Except FileError Path) (driven starts : Bool) :
    (s.attempt target driven starts).2 = none ↔
      ∀ root, target = .ok root → driven = true → s.isWatching root = false ∧ starts = false := by
  cases target with
  | error e => simp [attempt]
  | ok root =>
    have hwatching : ({ s with nextId := s.nextId + 1 } : State).isWatching root =
        s.isWatching root := rfl
    cases driven <;> cases starts <;> cases hw : s.isWatching root <;>
      simp [attempt, subscribe, hwatching, hw]

/-- A call that fails changes nothing but the next identifier. -/
theorem attempt_of_eq_none {target : Except FileError Path} {driven starts : Bool}
    (h : (s.attempt target driven starts).2 = none) :
    (s.attempt target driven starts).1 =
      { s with nextId := (s.attempt target driven starts).1.nextId } := by
  cases target with
  | error e => rfl
  | ok root =>
    cases driven with
    | false => rfl
    | true =>
      obtain ⟨hw, rfl⟩ := (attempt_eq_none_iff s _ _ _).1 h root rfl rfl
      have hwatching : ({ s with nextId := s.nextId + 1 } : State).isWatching root = false := hw
      simp [attempt, subscribe, hwatching]

end State

/-- On a disk where watchers start, a subscription is such a call. -/
theorem Session.subscribe_eq_attempt (s : Session) (p : Path) :
    (s.subscribe p).toOption =
      (s.state.attempt (s.disk.canonical p) s.driven true).2.map fun sub =>
        ({ s with state := (s.state.attempt (s.disk.canonical p) s.driven true).1 }, sub) := by
  unfold Session.subscribe State.attempt
  cases s.disk.canonical p with
  | error e => rfl
  | ok root =>
    cases s.driven with
    | false => rfl
    | true =>
      dsimp only
      rw [if_pos rfl, if_pos rfl]
      split
      · rename_i h
        rw [h]
        rfl
      · rename_i h
        rw [h]
        rfl

namespace State

variable {s s' : State}

/-! ## The count is kept -/

/-- Those of several subscriptions that are to a root. -/
def subscriptionsTo (subs : List Subscription) (root : Path) : List Subscription :=
  subs.filter fun sub => root.equals sub.root

theorem subscriptionsTo_cons_of_equals {root q : Path} (h : root.equals q = true) (id : Nat)
    (subs : List Subscription) :
    subscriptionsTo (⟨q, id⟩ :: subs) root = ⟨q, id⟩ :: subscriptionsTo subs root := by
  simp only [subscriptionsTo, List.filter_cons, h, if_true]

theorem subscriptionsTo_cons_of_not_equals {root q : Path} (h : root.equals q = false) (id : Nat)
    (subs : List Subscription) :
    subscriptionsTo (⟨q, id⟩ :: subs) root = subscriptionsTo subs root := by
  simp only [subscriptionsTo, List.filter_cons, h, Bool.false_eq_true, if_false]

/-- Erasing a subscription erases it from those of its root. -/
theorem subscriptionsTo_erase (subs : List Subscription) (sub : Subscription) (root : Path) :
    subscriptionsTo (subs.erase sub) root = (subscriptionsTo subs root).erase sub :=
  List.erase_filter.symm

theorem mem_subscriptionsTo {subs : List Subscription} {sub : Subscription} {root : Path} :
    sub ∈ subscriptionsTo subs root ↔ sub ∈ subs ∧ root.equals sub.root = true :=
  List.mem_filter

/-- Who leaves a list is one less on it. -/
theorem perm_map_erase {ids : List Nat} {subs : List Subscription} {sub : Subscription}
    (h : ids.Perm (subs.map Subscription.id)) (hsub : sub ∈ subs) :
    (ids.erase sub.id).Perm ((subs.erase sub).map Subscription.id) := by
  have := (h.trans ((List.perm_cons_erase hsub).map Subscription.id)).erase sub.id
  rwa [List.map_cons, List.erase_cons_head] at this

/-- A root that is apart from another one is not meant by what means the other one. -/
theorem equals_eq_false {p q root : Path} (hne : q.components ≠ p.components)
    (hp : p.equals root = true) : q.equals root = false :=
  beq_false_of_ne (beq_iff_eq.1 hp ▸ hne)

/-- The subscribers of a root are those of the subscriptions to it that have not begun to end. Each
of these has its root, and a root without any is about to be left by somebody. -/
structure KeepsCount (s : State) : Prop where
  subscribers : ∀ r ∈ s.roots,
    r.2.subscribers.Perm ((subscriptionsTo s.live r.1).map Subscription.id)
  home : ∀ sub ∈ s.live, ∃ r ∈ s.roots, r.1.equals sub.root = true
  closing : ∀ r ∈ s.roots, r.2.subscribers = [] → ∃ sub ∈ s.leaving, r.1.equals sub.root = true

theorem keepsCount_initial (timing : Timing) : KeepsCount { timing } := by
  constructor <;> simp

namespace KeepsCount

/-- If the watch of one root changes, it is enough to look at this root. -/
theorem replace {before after : List (Path × RootWatch)} {p : Path} {w w' : RootWatch}
    (hs : s.KeepsCount) (hr : s.roots = before ++ (p, w) :: after)
    (hr' : s'.roots = before ++ (p, w') :: after)
    (hother : ∀ r ∈ before ++ after, subscriptionsTo s'.live r.1 = subscriptionsTo s.live r.1)
    (hleaving : s.leaving ⊆ s'.leaving)
    (hhere : w'.subscribers.Perm ((subscriptionsTo s'.live p).map Subscription.id))
    (hhome : ∀ sub ∈ s'.live, sub ∈ s.live ∨ p.equals sub.root = true)
    (hclosing : w'.subscribers = [] →
      w.subscribers = [] ∨ ∃ sub ∈ s'.leaving, p.equals sub.root = true) : s'.KeepsCount where
  subscribers := by
    have hold := hs.subscribers
    simp only [hr, hr', List.forall_mem_append, List.forall_mem_cons] at hold hother ⊢
    exact ⟨fun r h => hother.1 r h ▸ hold.1 r h, hhere, fun r h => hother.2 r h ▸ hold.2.2 r h⟩
  home sub hsub := by
    obtain hsub | hp := hhome sub hsub
    · obtain ⟨r, hmem, hequals⟩ := hs.home sub hsub
      simp only [hr, List.mem_append, List.mem_cons] at hmem
      simp only [hr', List.mem_append, List.mem_cons]
      obtain hmem | rfl | hmem := hmem
      · exact ⟨r, .inl hmem, hequals⟩
      · exact ⟨(p, w'), .inr (.inl rfl), hequals⟩
      · exact ⟨r, .inr (.inr hmem), hequals⟩
    · exact ⟨(p, w'), hr' ▸ List.mem_append_cons_self, hp⟩
  closing := by
    have hold : ∀ r ∈ s.roots, r.2.subscribers = [] →
        ∃ sub ∈ s'.leaving, r.1.equals sub.root = true :=
      fun r h hempty => (hs.closing r h hempty).imp fun _ h => ⟨hleaving h.1, h.2⟩
    simp only [hr, hr', List.forall_mem_append, List.forall_mem_cons] at hold ⊢
    exact ⟨hold.1, fun hempty => (hclosing hempty).elim hold.2.1 id, hold.2.2⟩

/-- Nobody has a subscription to a root that is not watched. -/
theorem subscriptionsTo_eq_nil (hs : s.KeepsCount) {root : Path}
    (hr : ∀ r ∈ s.roots, r.1.equals root = false) : subscriptionsTo s.live root = [] := by
  refine List.filter_eq_nil_iff.2 fun sub hsub hequals => ?_
  obtain ⟨r, hmem, hhome⟩ := hs.home sub hsub
  exact ne_of_beq_false (hr r hmem) ((beq_iff_eq.1 hhome).trans (beq_iff_eq.1 hequals).symm)

/-- Leaving a root that still has subscribers closes nothing. One that is left has no subscription
any more. -/
theorem finishRelease (hs : s.KeepsCount) (sub : Subscription) :
    (s.finishRelease sub).KeepsCount where
  subscribers r hr := hs.subscribers r (List.mem_filter.1 hr).1
  home sub' hsub' := by
    obtain ⟨r, hr, hhome⟩ := hs.home sub' hsub'
    refine ⟨r, List.mem_filter.2 ⟨hr, ?_⟩, hhome⟩
    have hmem := List.mem_map_of_mem (f := Subscription.id) (mem_subscriptionsTo.2 ⟨hsub', hhome⟩)
    have hne : r.2.subscribers ≠ [] := List.ne_nil_of_mem ((hs.subscribers r hr).mem_iff.2 hmem)
    simp [hne]
  closing r hr hempty := by
    obtain ⟨hr, hstays⟩ := List.mem_filter.1 hr
    obtain ⟨sub', hsub', hequals⟩ := hs.closing r hr hempty
    refine ⟨sub', (List.mem_erase_of_ne ?_).2 hsub', hequals⟩
    rintro rfl
    simp [hempty, hequals] at hstays

section

variable {before after : List (Path × RootWatch)} {p : Path} {w : RootWatch}
  (hr : s.roots = before ++ (p, w) :: after)

include hr

/-- A watcher that does something by itself changes nothing of the count. -/
theorem turns (hs : s.KeepsCount) {w' : RootWatch} {ids called : List Nat} (hw : w.Turns ids w') :
    KeepsCount { s with roots := before ++ (p, w') :: after, called := called } := by
  have hhere := hs.subscribers (p, w) (hr ▸ List.mem_append_cons_self)
  exact hs.replace hr rfl (fun _ _ => rfl) (List.Subset.refl _) (hw.subscribers_eq ▸ hhere)
    (fun _ hsub => .inl hsub) (fun hempty => .inl (hw.subscribers_eq ▸ hempty))

/-- Who joins a root that is watched counts for this root and for no other. -/
theorem joins (hs : s.KeepsCount) (hapart : s.Apart) {root : Path} (hp : p.equals root = true) :
    KeepsCount { s with
      nextId := s.nextId + 1
      roots := before ++ (p, { w with subscribers := w.subscribers ++ [s.nextId] }) :: after
      live := ⟨root, s.nextId⟩ :: s.live } := by
  have hhere := hs.subscribers (p, w) (hr ▸ List.mem_append_cons_self)
  refine hs.replace hr rfl (fun r h => ?_) (List.Subset.refl _) ?_ ?_ fun hempty => ?_
  · exact subscriptionsTo_cons_of_not_equals
      (equals_eq_false (hapart.components_ne hr r h) hp) s.nextId s.live
  · show (w.subscribers ++ [s.nextId]).Perm
      ((subscriptionsTo (⟨root, s.nextId⟩ :: s.live) p).map Subscription.id)
    rw [subscriptionsTo_cons_of_equals hp, List.map_cons]
    exact (List.perm_append_singleton s.nextId w.subscribers).trans (hhere.cons s.nextId)
  · intro sub hsub
    obtain rfl | hsub := List.mem_cons.1 hsub
    · exact .inr hp
    · exact .inl hsub
  · simp at hempty

/-- Who leaves a root is counted no longer, and is about to end. -/
theorem leaves (hs : s.KeepsCount) (hapart : s.Apart) {sub : Subscription}
    (hp : p.equals sub.root = true) (hsub : sub ∈ s.live) :
    KeepsCount { s with
      roots := before ++ (p, { w with subscribers := w.subscribers.erase sub.id }) :: after
      live := s.live.erase sub
      leaving := sub :: s.leaving } := by
  have hhere := hs.subscribers (p, w) (hr ▸ List.mem_append_cons_self)
  refine hs.replace hr rfl (fun r h => ?_) (List.subset_cons_self _ _) ?_
    (fun sub' hsub' => .inl (List.mem_of_mem_erase hsub'))
    (fun _ => .inr ⟨sub, List.mem_cons_self, hp⟩)
  · -- The subscription is not one to another root.
    have hother := equals_eq_false (hapart.components_ne hr r h) hp
    show subscriptionsTo (s.live.erase sub) r.1 = _
    rw [subscriptionsTo_erase, List.erase_of_not_mem]
    simp [mem_subscriptionsTo, hother]
  · show (w.subscribers.erase sub.id).Perm
      ((subscriptionsTo (s.live.erase sub) p).map Subscription.id)
    rw [subscriptionsTo_erase]
    exact perm_map_erase hhere (mem_subscriptionsTo.2 ⟨hsub, hp⟩)

end

/-- The first subscriber of a root is its only one. -/
theorem opens (hs : s.KeepsCount) {root : Path} (hr : ∀ r ∈ s.roots, r.1.equals root = false) :
    KeepsCount { s with
      nextId := s.nextId + 1
      roots := s.roots ++ [(root, { subscribers := [s.nextId] })]
      live := ⟨root, s.nextId⟩ :: s.live } := by
  have hroot : root.equals root = true := beq_self_eq_true _
  refine ⟨?_, ?_, ?_⟩
  · rw [List.forall_mem_append, List.forall_mem_singleton]
    refine ⟨fun r h => ?_, ?_⟩
    · show r.2.subscribers.Perm
        ((subscriptionsTo (⟨root, s.nextId⟩ :: s.live) r.1).map Subscription.id)
      rw [subscriptionsTo_cons_of_not_equals (hr r h)]
      exact hs.subscribers r h
    · show [s.nextId].Perm
        ((subscriptionsTo (⟨root, s.nextId⟩ :: s.live) root).map Subscription.id)
      rw [subscriptionsTo_cons_of_equals hroot, hs.subscriptionsTo_eq_nil hr, List.map_cons,
        List.map_nil]
  · intro sub hsub
    obtain rfl | hsub := List.mem_cons.1 hsub
    · exact ⟨_, List.mem_append_right _ (List.mem_singleton_self _), hroot⟩
    · exact (hs.home sub hsub).imp fun _ h => ⟨List.mem_append_left _ h.1, h.2⟩
  · rw [List.forall_mem_append, List.forall_mem_singleton]
    exact ⟨hs.closing, fun hempty => absurd hempty (List.cons_ne_nil _ _)⟩

/-- Every step keeps the count. -/
theorem step (hs : s.KeepsCount) (hapart : s.Apart) (h : s.Step s') : s'.KeepsCount := by
  cases h with
  | passes | orphan | orphanEnds | refuses => exact ⟨hs.subscribers, hs.home, hs.closing⟩
  | turns hr hw => exact hs.turns hr hw
  | joins hr hp => exact hs.joins hr hapart hp
  | opens hr => exact hs.opens hr
  | leaves hr hp hsub => exact hs.leaves hr hapart hp hsub
  | leavesNothing hr hsub =>
    obtain ⟨r, hmem, hhome⟩ := hs.home _ hsub
    exact absurd hhome (by simp [hr r hmem])
  | closes hsub => exact hs.finishRelease _

end KeepsCount

/-! ## What a state remembers of its run -/

theorem run?_concat (s : State) (actions : List Action) (a : Action) :
    s.run? (actions ++ [a]) = (s.run? actions).bind fun s' => s'.step? a := by
  simp [run?]

theorem granted_concat {actions : List Action} (h : s.run? actions = some s') (a : Action) :
    s.granted (actions ++ [a]) = s.granted actions ++ (s'.granted? a).toList := by
  induction actions generalizing s with
  | nil =>
    obtain rfl : s = s' := Option.some.inj h
    cases hstep : s.step? a <;> simp [granted, hstep]
  | cons b actions ih =>
    obtain ⟨s₁, hstep, hrun⟩ := Option.bind_eq_some_iff.1 (run?_cons s b actions ▸ h)
    simp only [List.cons_append, granted, hstep, Option.map_some, Option.getD_some, ih hrun,
      List.append_assoc]

/-- What subscribing does to the books. -/
theorem subscribe_books (s : State) (root : Path) (starts : Bool) :
    (s.subscribe root starts).1.nextId = s.nextId + 1 ∧
      (s.subscribe root starts).1.live = (s.subscribe root starts).2.toList ++ s.live ∧
      (s.subscribe root starts).1.leaving = s.leaving ∧
      ∀ sub, (s.subscribe root starts).2 = some sub → sub.id = s.nextId := by
  by_cases hw : isWatching { s with nextId := s.nextId + 1 } root = true
  · simp [subscribe, hw, modify]
  · cases starts <;> simp [subscribe, hw]

/-- All that an action does to the books: it gives a new subscription, or one begins to end or has
ended. -/
inductive Books (s s' : State) : Action → Prop
  | subscribes {root : Path} {starts : Bool} (hnext : s'.nextId = s.nextId + 1)
      (hlive : s'.live = (s.granted? (.subscribe root starts)).toList ++ s.live)
      (hleaving : s'.leaving = s.leaving)
      (hid : ∀ sub, s.granted? (.subscribe root starts) = some sub → sub.id = s.nextId) :
      Books s s' (.subscribe root starts)
  | begins {sub : Subscription} (hsub : sub ∈ s.live) (hnext : s'.nextId = s.nextId)
      (hlive : s'.live = s.live.erase sub) (hleaving : s'.leaving = sub :: s.leaving) :
      Books s s' (.beginRelease sub)
  | finishes {sub : Subscription} (hsub : sub ∈ s.leaving) (hnext : s'.nextId = s.nextId)
      (hlive : s'.live = s.live) (hleaving : s'.leaving = s.leaving.erase sub) :
      Books s s' (.finishRelease sub)
  | keeps {a : Action} (hsubscribe : a.isSubscribe = false) (hgranted : s.granted? a = none)
      (hbegins : a.begins? = none) (hfinishes : a.finishes? = none)
      (hnext : s'.nextId = s.nextId) (hlive : s'.live = s.live)
      (hleaving : s'.leaving = s.leaving) : Books s s' a

/-- Every step keeps the books. -/
theorem books_of_step? {a : Action} (h : s.step? a = some s') : Books s s' a := by
  cases a with
  | subscribe root starts =>
    cases h
    obtain ⟨hnext, hlive, hleaving, hid⟩ := s.subscribe_books root starts
    exact .subscribes hnext hlive hleaving hid
  | beginRelease sub =>
    simp only [step?, Option.ite_none_right_eq_some, Option.some.injEq] at h
    obtain ⟨hsub, rfl⟩ := h
    exact .begins hsub rfl rfl rfl
  | finishRelease sub =>
    simp only [step?, Option.ite_none_right_eq_some, Option.some.injEq] at h
    obtain ⟨hsub, rfl⟩ := h
    exact .finishes hsub rfl rfl rfl
  | hear root e =>
    cases h
    unfold hear
    split <;> exact .keeps rfl rfl rfl rfl rfl rfl rfl
  -- Nothing that follows subscribes or releases, so the books stay as they are.
  | fail root => cases h; exact .keeps rfl rfl rfl rfl rfl rfl rfl
  | take root =>
    simp only [step?, Option.bind_eq_some_iff, Option.map_eq_some_iff] at h
    obtain ⟨w, -, w', -, rfl⟩ := h
    exact .keeps rfl rfl rfl rfl rfl rfl rfl
  | elapse root =>
    simp only [step?, Option.bind_eq_some_iff, Option.map_eq_some_iff] at h
    obtain ⟨w, -, w', -, rfl⟩ := h
    exact .keeps rfl rfl rfl rfl rfl rfl rfl
  | call root =>
    simp only [step?, Option.bind_eq_some_iff, Option.map_eq_some_iff] at h
    obtain ⟨w, -, ⟨w', id?⟩, -, rfl⟩ := h
    exact .keeps rfl rfl rfl rfl rfl rfl rfl
  | callOrphan index =>
    simp only [step?] at h
    split at h <;> cases h <;> exact .keeps rfl rfl rfl rfl rfl rfl rfl
  | pass time => cases h; exact .keeps rfl rfl rfl rfl rfl rfl rfl

/-- What a state knows of the run that led to it: how often subscribe was called, and which of the
subscriptions that were given have begun to end and have ended. -/
structure Remembers (given : List Subscription) (actions : List Action) (s : State) : Prop where
  nextId_eq : s.nextId = actions.countP Action.isSubscribe
  id_lt : ∀ sub ∈ given, sub.id < s.nextId
  nodup_ids : (given.map Subscription.id).Nodup
  perm_given : given.Perm (s.live ++ actions.filterMap Action.begins?)
  perm_begun : (actions.filterMap Action.begins?).Perm
    (s.leaving ++ actions.filterMap Action.finishes?)

theorem filterMap_concat {α β : Type} (f : α → Option β) (l : List α) (a : α) :
    (l ++ [a]).filterMap f = l.filterMap f ++ (f a).toList := by
  rw [List.filterMap_append]
  cases h : f a <;> simp [h]

namespace Remembers

variable {given : List Subscription} {actions : List Action} {a : Action}

/-- A subscription that is given is a new one. -/
theorem subscribes (hs : s.Remembers given actions) {root : Path} {starts : Bool}
    {new : Option Subscription} (hnext : s'.nextId = s.nextId + 1)
    (hlive : s'.live = new.toList ++ s.live) (hleaving : s'.leaving = s.leaving)
    (hid : ∀ sub, new = some sub → sub.id = s.nextId) :
    s'.Remembers (given ++ new.toList) (actions ++ [.subscribe root starts]) := by
  refine ⟨?_, ?_, ?_, ?_, ?_⟩
  · rw [hnext, hs.nextId_eq, List.countP_append]
    rfl
  · rw [hnext, List.forall_mem_append]
    refine ⟨fun sub hsub => Nat.lt_succ_of_lt (hs.id_lt sub hsub), fun sub hsub => ?_⟩
    rw [hid sub (Option.mem_toList.1 hsub)]
    exact Nat.lt_succ_self _
  · rw [List.map_append, List.nodup_append]
    refine ⟨hs.nodup_ids, by cases new <;> simp, ?_⟩
    simp only [List.forall_mem_map]
    intro sub hsub sub' hsub'
    exact Nat.ne_of_lt (hid sub' (Option.mem_toList.1 hsub') ▸ hs.id_lt sub hsub)
  · rw [hlive, filterMap_concat]
    show (given ++ new.toList).Perm (new.toList ++ s.live ++
      (actions.filterMap Action.begins? ++ []))
    rw [List.append_nil, List.append_assoc]
    exact List.perm_append_comm.trans (hs.perm_given.append_left new.toList)
  · rw [hleaving, filterMap_concat, filterMap_concat]
    simpa only [Action.begins?, Action.finishes?, Option.toList_none, List.append_nil] using
      hs.perm_begun

/-- A subscription that begins to end moves from the live ones to those that have begun to. -/
theorem begins (hs : s.Remembers given actions) {sub : Subscription} (hsub : sub ∈ s.live)
    (hnext : s'.nextId = s.nextId) (hlive : s'.live = s.live.erase sub)
    (hleaving : s'.leaving = sub :: s.leaving) :
    s'.Remembers given (actions ++ [.beginRelease sub]) := by
  have hbegins : (Action.beginRelease sub).begins? = some sub := rfl
  have hfinishes : (Action.beginRelease sub).finishes? = none := rfl
  refine ⟨?_, hnext ▸ hs.id_lt, hs.nodup_ids, ?_, ?_⟩
  · simp [hnext, hs.nextId_eq, Action.isSubscribe]
  · have hmoved := hs.perm_given.trans ((List.perm_cons_erase hsub).append_right _)
    rw [hlive, filterMap_concat, hbegins, Option.toList_some, ← List.append_assoc]
    exact hmoved.trans (List.perm_append_singleton _ _).symm
  · rw [hleaving, filterMap_concat, filterMap_concat, hbegins, hfinishes,
      Option.toList_some, Option.toList_none, List.append_nil]
    exact (List.perm_append_singleton _ _).trans (hs.perm_begun.cons _)

/-- One that has ended moves on to those that have. -/
theorem finishes (hs : s.Remembers given actions) {sub : Subscription} (hsub : sub ∈ s.leaving)
    (hnext : s'.nextId = s.nextId) (hlive : s'.live = s.live)
    (hleaving : s'.leaving = s.leaving.erase sub) :
    s'.Remembers given (actions ++ [.finishRelease sub]) := by
  have hbegins : (Action.finishRelease sub).begins? = none := rfl
  have hfinishes : (Action.finishRelease sub).finishes? = some sub := rfl
  refine ⟨?_, hnext ▸ hs.id_lt, hs.nodup_ids, ?_, ?_⟩
  · simp [hnext, hs.nextId_eq, Action.isSubscribe]
  · rw [hlive, filterMap_concat, hbegins, Option.toList_none, List.append_nil]
    exact hs.perm_given
  · have hmoved := hs.perm_begun.trans ((List.perm_cons_erase hsub).append_right _)
    rw [hleaving, filterMap_concat, filterMap_concat, hbegins, hfinishes,
      Option.toList_some, Option.toList_none, List.append_nil, ← List.append_assoc]
    exact hmoved.trans (List.perm_append_singleton _ _).symm

/-- Whatever an action does to the books, the state knows of it. -/
theorem step (hs : s.Remembers given actions) (h : Books s s' a) :
    s'.Remembers (given ++ (s.granted? a).toList) (actions ++ [a]) := by
  cases h with
  | subscribes hnext hlive hleaving hid => exact hs.subscribes hnext hlive hleaving hid
  | @begins sub hsub hnext hlive hleaving =>
    have hgiven : given ++ (s.granted? (.beginRelease sub)).toList = given := List.append_nil _
    rw [hgiven]
    exact hs.begins hsub hnext hlive hleaving
  | @finishes sub hsub hnext hlive hleaving =>
    have hgiven : given ++ (s.granted? (.finishRelease sub)).toList = given := List.append_nil _
    rw [hgiven]
    exact hs.finishes hsub hnext hlive hleaving
  | keeps hsubscribe hgranted hbegins hfinishes hnext hlive hleaving =>
    rw [hgranted, Option.toList_none, List.append_nil]
    refine ⟨?_, hnext ▸ hs.id_lt, hs.nodup_ids, ?_, ?_⟩
    · simp [hnext, hs.nextId_eq, hsubscribe]
    · rw [hlive, filterMap_concat, hbegins, Option.toList_none, List.append_nil]
      exact hs.perm_given
    · rw [hleaving, filterMap_concat, filterMap_concat, hbegins, hfinishes, Option.toList_none,
        List.append_nil, List.append_nil]
      exact hs.perm_begun

theorem mem_filterMap_begins? {sub : Subscription} :
    sub ∈ actions.filterMap Action.begins? ↔ .beginRelease sub ∈ actions := by
  rw [List.mem_filterMap]
  constructor
  · rintro ⟨a, ha, hsub⟩
    cases a <;> simp_all [Action.begins?]
  · exact fun h => ⟨_, h, rfl⟩

theorem mem_filterMap_finishes? {sub : Subscription} :
    sub ∈ actions.filterMap Action.finishes? ↔ .finishRelease sub ∈ actions := by
  rw [List.mem_filterMap]
  constructor
  · rintro ⟨a, ha, hsub⟩
    cases a <;> simp_all [Action.finishes?]
  · exact fun h => ⟨_, h, rfl⟩

/-- Identifiers fit into 64 bits if there were few enough calls. -/
theorem nodup_ids64 (hs : s.Remembers given actions)
    (hcalls : actions.countP Action.isSubscribe < 2 ^ 64) :
    (given.map fun sub => UInt64.ofNat sub.id).Nodup := by
  refine List.Nodup.map_on (fun x hx y hy hxy => ?_) hs.nodup_ids.of_map
  refine List.inj_on_of_nodup_map hs.nodup_ids hx hy ?_
  have hlt : ∀ sub ∈ given, sub.id < 2 ^ 64 := fun sub hsub =>
    Nat.lt_trans (hs.id_lt sub hsub) (hs.nextId_eq ▸ hcalls)
  have hnat := congrArg UInt64.toNat hxy
  rwa [UInt64.toNat_ofNat_of_lt' (hlt x hx), UInt64.toNat_ofNat_of_lt' (hlt y hy)] at hnat

/-- The subscriptions that have not begun to end are those that the state counts as such. -/
theorem perm_live (hs : s.Remembers given actions) :
    (given.filter fun sub => .beginRelease sub ∉ actions).Perm s.live := by
  have hnodup := hs.perm_given.nodup_iff.1 hs.nodup_ids.of_map
  refine (hs.perm_given.filter _).trans ?_
  rw [List.filter_append, List.filter_eq_self.2, List.filter_eq_nil_iff.2, List.append_nil]
  · intro sub hsub
    simpa using mem_filterMap_begins?.1 hsub
  · intro sub hsub
    have hnot : sub ∉ actions.filterMap Action.begins? := fun hbegun =>
      (List.nodup_append.1 hnodup).2.2 sub hsub sub hbegun rfl
    rw [mem_filterMap_begins?] at hnot
    exact decide_eq_true hnot

/-- If all that has begun to end has ended, none is about to end. -/
theorem leaving_eq_nil (hs : s.Remembers given actions) (h : NoneLeaving actions) :
    s.leaving = [] := by
  refine List.eq_nil_iff_forall_not_mem.2 fun sub hsub => ?_
  have hbegun := hs.perm_begun.mem_iff.2 (List.mem_append_left _ hsub)
  have hfinished := mem_filterMap_finishes?.2 (h sub (mem_filterMap_begins?.1 hbegun))
  have hnodup := hs.perm_given.nodup_iff.1 hs.nodup_ids.of_map
  exact (List.nodup_append.1 (hs.perm_begun.nodup_iff.1 (List.nodup_append.1 hnodup).2.1)).2.2
    sub hsub sub hfinished rfl

end Remembers

/-! ## After a run -/

/-- What a run leaves behind: the count is kept, and the run is remembered. -/
theorem keepsCount_remembers_of_run {timing : Timing} {actions : List Action}
    (h : ({ timing } : State).run? actions = some s) :
    s.KeepsCount ∧ s.Remembers (granted { timing } actions) actions := by
  -- One action more, as it is offered to the state after those before it.
  induction actions using List.reverseRecOn generalizing s with
  | nil =>
    cases h
    exact ⟨keepsCount_initial timing, ⟨rfl, nofun, List.nodup_nil, List.Perm.refl _,
      List.Perm.refl _⟩⟩
  | append_singleton actions a ih =>
    obtain ⟨s₁, hrun, hstep⟩ := Option.bind_eq_some_iff.1 (run?_concat _ actions a ▸ h)
    obtain ⟨hcount, hremembers⟩ := ih hrun
    have hapart := ((isSound_initial timing).run hrun).apart
    refine ⟨hcount.step hapart (step_of_step? hapart hstep), ?_⟩
    rw [granted_concat hrun]
    exact hremembers.step (books_of_step? hstep)

/-- The same subscriptions are to a root however its path is written. -/
theorem subscriptionsTo_congr {p root : Path} (h : p.equals root = true)
    (subs : List Subscription) : subscriptionsTo subs p = subscriptionsTo subs root := by
  have hsame : ∀ q : Path, p.equals q = root.equals q := fun q => by
    rw [Path.equals, Path.equals, beq_iff_eq.1 h]
  simp only [subscriptionsTo, hsame]

theorem exists_mem_roots_of_watch? {root : Path} {w : RootWatch} (h : s.watch? root = some w) :
    ∃ p, (p, w) ∈ s.roots ∧ p.equals root = true := by
  simp only [watch?, Option.map_eq_some_iff] at h
  obtain ⟨⟨p, _⟩, hfind, rfl⟩ := h
  exact ⟨p, List.mem_of_find?_eq_some hfind,
    List.find?_some (p := fun r : Path × RootWatch => r.1.equals root) hfind⟩

/-- A root that somebody has a subscription to is watched. -/
theorem KeepsCount.exists_watch? (hs : s.KeepsCount) {sub : Subscription} {root : Path}
    (hsub : sub ∈ subscriptionsTo s.live root) :
    ∃ w, s.watch? root = some w ∧ sub.id ∈ w.subscribers := by
  obtain ⟨hlive, hroot⟩ := mem_subscriptionsTo.1 hsub
  cases h : s.watch? root with
  | none =>
    rw [hs.subscriptionsTo_eq_nil (not_equals_of_watch?_eq_none h)] at hsub
    exact absurd hsub List.not_mem_nil
  | some w =>
    obtain ⟨p, hmem, hp⟩ := exists_mem_roots_of_watch? h
    rw [← subscriptionsTo_congr hp] at hsub
    exact ⟨w, rfl, (hs.subscribers _ hmem).mem_iff.2 (List.mem_map_of_mem hsub)⟩

/-- A root has as many subscribers as there are subscriptions to it. -/
theorem KeepsCount.subscriberCount_eq (hs : s.KeepsCount) (root : Path) :
    s.subscriberCount root = (subscriptionsTo s.live root).length := by
  unfold subscriberCount
  cases h : s.watch? root with
  | none =>
    rw [hs.subscriptionsTo_eq_nil (not_equals_of_watch?_eq_none h)]
    rfl
  | some w =>
    obtain ⟨p, hmem, hp⟩ := exists_mem_roots_of_watch? h
    rw [← subscriptionsTo_congr hp, ← List.length_map Subscription.id]
    exact (hs.subscribers _ hmem).length_eq

/-- If nobody is about to leave, a root is watched only for those who have a subscription to it. -/
theorem KeepsCount.subscriptionsTo_ne_nil (hs : s.KeepsCount) (hleaving : s.leaving = [])
    {root : Path} (h : s.isWatching root = true) : subscriptionsTo s.live root ≠ [] := by
  obtain ⟨w, hw⟩ := Option.isSome_iff_exists.1 h
  obtain ⟨p, hmem, hp⟩ := exists_mem_roots_of_watch? hw
  intro hnil
  have hempty := hs.subscribers _ hmem
  rw [subscriptionsTo_congr hp, hnil, List.map_nil, List.perm_nil] at hempty
  obtain ⟨sub, hsub, -⟩ := hs.closing _ hmem hempty
  rw [hleaving] at hsub
  exact absurd hsub List.not_mem_nil

/-- The count is right in a state to which a run has led. -/
structure CountsExactly (timing : Timing) (actions : List Action) (s : State) : Prop where
  /-- Whoever holds a subscription is among the subscribers of its root. -/
  registered : ∀ sub ∈ held { timing } actions,
    ∃ w, s.watch? sub.root = some w ∧ sub.id ∈ w.subscribers
  /-- No two subscriptions that were given have the same identifier, even if it has 64 bits and
  subscribe was not called too often for them. -/
  nodup_ids : ((granted { timing } actions).map Subscription.id).Nodup
  nodup_ids64 : actions.countP Action.isSubscribe < 2 ^ 64 →
    ((granted { timing } actions).map fun sub => UInt64.ofNat sub.id).Nodup
  /-- A call of subscribe that fails for whatever reason leaves all roots and subscribers alone. -/
  failed : ∀ (target : Except FileError Path) (driven starts : Bool),
    (s.attempt target driven starts).2 = none → (s.attempt target driven starts).1 =
      { s with nextId := (s.attempt target driven starts).1.nextId }
  /-- If nobody is about to leave, a root is watched exactly if somebody holds a subscription. -/
  isWatching_iff : NoneLeaving actions → ∀ root, s.isWatching root = true ↔
    ∃ sub ∈ held { timing } actions, root.equals sub.root = true
  /-- A root has as many subscribers as subscriptions to it are held. -/
  subscriberCount_eq : ∀ root, s.subscriberCount root =
    (subscriptionsTo (held { timing } actions) root).length

/-- **The subscriptions of a root are counted exactly.** Whatever calls of subscribe, steps of
ending subscriptions, events and rounds follow one another, on whatever roots. -/
theorem countsExactly_of_run {timing : Timing} {actions : List Action}
    (h : ({ timing } : State).run? actions = some s) : CountsExactly timing actions s := by
  obtain ⟨hcount, hremembers⟩ := keepsCount_remembers_of_run h
  have hheld : (held { timing } actions).Perm s.live := hremembers.perm_live
  have hto (root : Path) : (subscriptionsTo (held { timing } actions) root).Perm
      (subscriptionsTo s.live root) := hheld.filter _
  refine ⟨fun sub hsub => ?_, hremembers.nodup_ids, fun hcalls => ?_,
    fun _ _ _ => attempt_of_eq_none, fun hnone root => ⟨fun hwatching => ?_, ?_⟩, fun root => ?_⟩
  · exact hcount.exists_watch? (mem_subscriptionsTo.2 ⟨hheld.mem_iff.1 hsub, beq_self_eq_true _⟩)
  · exact hremembers.nodup_ids64 hcalls
  · have hne := hcount.subscriptionsTo_ne_nil (hremembers.leaving_eq_nil hnone) hwatching
    obtain ⟨sub, hsub⟩ := List.exists_mem_of_ne_nil _ hne
    exact ⟨sub, mem_subscriptionsTo.1 ((hto root).mem_iff.2 hsub)⟩
  · rintro ⟨sub, hsub, hroot⟩
    obtain ⟨w, hw, -⟩ :=
      hcount.exists_watch? ((hto root).mem_iff.1 (mem_subscriptionsTo.2 ⟨hsub, hroot⟩))
    exact Option.isSome_iff_exists.2 ⟨w, hw⟩
  · rw [hcount.subscriberCount_eq, (hto root).length_eq]

/-- Two subscribers of a root begin to leave, and both are gone from it when a third one comes. Only
then do they look whether they were the last ones. -/
def comingBetween : List Action :=
  [.subscribe ⟨"/r"⟩ true, .subscribe ⟨"/r/"⟩ true, .beginRelease ⟨⟨"/r"⟩, 0⟩,
    .beginRelease ⟨⟨"/r/"⟩, 1⟩, .subscribe ⟨"/r"⟩ false, .finishRelease ⟨⟨"/r/"⟩, 1⟩,
    .finishRelease ⟨⟨"/r"⟩, 0⟩]

/-- Counting stays exact in that run. -/
theorem countsExactly_comingBetween :
    ∃ s : State, ({} : State).run? comingBetween = some s ∧ CountsExactly {} comingBetween s := by
  have hrun : (({} : State).run? comingBetween).isSome := by decide +kernel
  obtain ⟨s, hrun⟩ := Option.isSome_iff_exists.1 hrun
  exact ⟨s, hrun, countsExactly_of_run hrun⟩

/-- The third one keeps the root. -/
example : (({} : State).run? comingBetween).map (fun s => (s.isWatching ⟨"/r"⟩,
    s.subscriberCount ⟨"/r"⟩)) = some (true, 1) := by
  decide +kernel

end State

end RefGraph.Watch
