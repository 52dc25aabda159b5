import RefGraph.Watch.State

/-!
# The steps of watched roots

Whatever happens to watched roots changes the watch of one root, or opens or closes one, or goes on
with a round that has lost its root.

* `Watch.RootWatch.owed`, `Watch.RootWatch.Turns`: the calls that a round has left, and what the
  watcher of a root does by itself.
* `Watch.State.Apart`: no root is watched twice, so that a change of one watch changes no other.
* `Watch.State.Step`: all that one step can do, and `Watch.State.step_of_step?`.
-/

namespace RefGraph.Watch

/-! ## The turns of a watcher -/

namespace RootWatch

/-- The subscribers that the round of a watch has left to call. -/
def owed (w : RootWatch) : List Nat := (State.callsLeft w).flatten

/-- What the watcher of a root does by itself: it calls some subscribers that its round has left, or
it begins a round. -/
inductive Turns : RootWatch → List Nat → RootWatch → Prop
  | goes {w w' : RootWatch} {ids : List Nat} (same : w'.subscribers = w.subscribers)
      (owes : w.owed = ids ++ w'.owed) : Turns w ids w'
  | begins {w w' : RootWatch} (same : w'.subscribers = w.subscribers) (before : w.owed = [])
      (owes : w'.owed = w.subscribers) : Turns w [] w'

theorem Turns.subscribers_eq {w w' : RootWatch} {ids : List Nat} (h : Turns w ids w') :
    w'.subscribers = w.subscribers := by
  cases h <;> assumption

end RootWatch

namespace State

variable {s s' : State}

theorem turns_of_taken? {w w' : RootWatch} (h : s.taken? w = some w') : w.Turns [] w' := by
  have turn (deadline n : Nat) (hw : w.owed = []) :
      w.Turns [] { w with pending := n, phase := s.settleOrCall deadline w } := by
    by_cases hd : deadline ≤ s.now
    · exact .begins rfl hw (by simp [RootWatch.owed, callsLeft, settleOrCall, hd])
    · exact .goes rfl (hw.trans (by simp [RootWatch.owed, callsLeft, settleOrCall, hd]))
  unfold taken? at h
  split at h
  · cases h
  · split at h
    case h_1 hp => cases h; exact turn _ _ (by simp [RootWatch.owed, callsLeft, hp])
    case h_2 hp => cases h; exact turn _ _ (by simp [RootWatch.owed, callsLeft, hp])
    case h_3 => cases h

/-- The passing of time is a turn without calls. -/
theorem turns_of_elapsed? {w w' : RootWatch} (h : s.elapsed? w = some w') : w.Turns [] w' := by
  unfold elapsed? at h
  split at h
  case h_1 hp =>
    split at h
    · cases h
      exact .begins rfl (by simp [RootWatch.owed, callsLeft, hp])
        (by simp [RootWatch.owed, callsLeft])
    · cases h
  case h_2 => cases h

/-- Calling a subscriber is a turn with that call. -/
theorem turns_of_calledOne? {w w' : RootWatch} {id? : Option Nat}
    (h : calledOne? w = some (w', id?)) : w.Turns id?.toList w' := by
  unfold calledOne? at h
  split at h
  case h_1 hp => cases h; exact .goes rfl (by simp [RootWatch.owed, callsLeft, hp])
  case h_2 hp => cases h; exact .goes rfl (by simp [RootWatch.owed, callsLeft, hp])
  case h_3 => cases h

/-! ## Watched roots -/

/-- No root is watched twice. -/
def Apart (s : State) : Prop :=
  (s.roots.map Prod.fst).Pairwise fun p q => p.components ≠ q.components

/-- No other root has the same components. -/
theorem Apart.components_ne (hs : s.Apart) {before after : List (Path × RootWatch)} {p : Path}
    {w : RootWatch} (hr : s.roots = before ++ (p, w) :: after) :
    ∀ r ∈ before ++ after, r.1.components ≠ p.components := by
  simp only [Apart, hr, List.map_append, List.map_cons, List.pairwise_append, List.pairwise_cons,
    List.forall_mem_map, List.forall_mem_cons] at hs
  exact List.forall_mem_append.2 ⟨fun r h => (hs.2.2 r h).1, fun r h => (hs.2.1.1 r h).symm⟩

theorem modify_of_watch?_eq_none {root : Path} (h : s.watch? root = none)
    (change : RootWatch → RootWatch) : s.modify root change = s := by
  simp only [watch?, Option.map_eq_none_iff, List.find?_eq_none] at h
  have : (s.roots.map fun r => if r.1.equals root then (r.1, change r.2) else r) = s.roots :=
    (List.map_congr_left fun r hr => by simp [h r hr]).trans s.roots.map_id
  rw [modify, this]

/-- A change of the watch of a root changes nothing else. -/
theorem exists_modify_eq (hs : s.Apart) {root : Path} {w : RootWatch}
    (h : s.watch? root = some w) : ∃ before p after, s.roots = before ++ (p, w) :: after ∧
      p.equals root ∧ ∀ change,
        s.modify root change = { s with roots := before ++ (p, change w) :: after } := by
  simp only [watch?, Option.map_eq_some_iff, List.find?_eq_some_iff_append] at h
  obtain ⟨⟨p, _⟩, ⟨hp, before, after, hr, -⟩, rfl⟩ := h
  refine ⟨before, p, after, hr, hp, fun change => ?_⟩
  have hother : ∀ r ∈ before ++ after, r.1.equals root = false := fun r h =>
    beq_false_of_ne (beq_iff_eq.1 hp ▸ hs.components_ne hr r h)
  have hsame (l : List (Path × RootWatch)) (hl : ∀ r ∈ l, r.1.equals root = false) :
      (l.map fun r => if r.1.equals root then (r.1, change r.2) else r) = l :=
    (List.map_congr_left fun r hr => by simp [hl r hr]).trans l.map_id
  rw [List.forall_mem_append] at hother
  simp [modify, hr, hp, hsame before hother.1, hsame after hother.2]

/-! ## Steps -/

/-- All that one step can do. -/
inductive Step (s : State) : State → Prop
  | passes (time : Nat) : Step s { s with now := time }
  | turns {before after p w w' ids} (hr : s.roots = before ++ (p, w) :: after)
      (hw : w.Turns ids w') :
      Step s { s with roots := before ++ (p, w') :: after, called := ids ++ s.called }
  | orphan {before after ids left} (ho : s.orphans = before ++ (ids ++ left) :: after) :
      Step s { s with orphans := before ++ left :: after, called := ids ++ s.called }
  | orphanEnds {before after} (ho : s.orphans = before ++ [] :: after) :
      Step s { s with orphans := before ++ after }
  | refuses : Step s { s with nextId := s.nextId + 1 }
  | joins {before after p w root} (hr : s.roots = before ++ (p, w) :: after) (hp : p.equals root) :
      Step s { s with
        nextId := s.nextId + 1
        roots := before ++ (p, { w with subscribers := w.subscribers ++ [s.nextId] }) :: after
        live := ⟨root, s.nextId⟩ :: s.live }
  | opens {root} (hr : ∀ r ∈ s.roots, r.1.equals root = false) :
      Step s { s with
        nextId := s.nextId + 1
        roots := s.roots ++ [(root, { subscribers := [s.nextId] })]
        live := ⟨root, s.nextId⟩ :: s.live }
  | leaves {before after p w sub} (hr : s.roots = before ++ (p, w) :: after)
      (hp : p.equals sub.root) (hs : sub ∈ s.live) :
      Step s { s with
        roots := before ++ (p, { w with subscribers := w.subscribers.erase sub.id }) :: after
        live := s.live.erase sub
        leaving := sub :: s.leaving }
  | leavesNothing {sub} (hr : ∀ r ∈ s.roots, r.1.equals sub.root = false) (hs : sub ∈ s.live) :
      Step s { s with live := s.live.erase sub, leaving := sub :: s.leaving }
  | closes {sub} (hs : sub ∈ s.leaving) : Step s (s.finishRelease sub)

theorem not_equals_of_watch?_eq_none {root : Path} (h : s.watch? root = none) :
    ∀ r ∈ s.roots, r.1.equals root = false := by
  simpa [watch?] using h

/-- A change of a watch that leaves its subscribers and its round as they are is a step. -/
theorem step_modify (hs : s.Apart) (root : Path) {change : RootWatch → RootWatch}
    (hsame : ∀ w, (change w).subscribers = w.subscribers)
    (howed : ∀ w, (change w).owed = w.owed) : s.Step (s.modify root change) := by
  cases h : s.watch? root with
  | none => rw [modify_of_watch?_eq_none h]; exact .passes s.now
  | some w =>
    obtain ⟨before, p, after, hr, -, hmodify⟩ := exists_modify_eq hs h
    rw [hmodify]
    have howes : w.owed = [] ++ (change w).owed := (howed w).symm
    exact .turns hr (.goes (hsame w) howes)

/-- Subscribing is a step. -/
theorem step_subscribe (hs : s.Apart) (root : Path) (starts : Bool) :
    s.Step (s.subscribe root starts).1 := by
  cases h : s.watch? root with
  | none =>
    have hw : isWatching { s with nextId := s.nextId + 1 } root = false := by
      simpa [isWatching, watch?] using h
    cases starts with
    | false => simpa [subscribe, hw] using Step.refuses
    | true => simpa [subscribe, hw] using Step.opens (not_equals_of_watch?_eq_none h)
  | some w =>
    have hw : isWatching { s with nextId := s.nextId + 1 } root = true := by
      simp [isWatching, show watch? { s with nextId := s.nextId + 1 } root = some w from h]
    obtain ⟨before, p, after, hr, hp, hmodify⟩ :=
      exists_modify_eq (s := { s with nextId := s.nextId + 1 }) hs h
    simpa [subscribe, hw, hmodify] using Step.joins (s := s) hr hp

/-- Beginning a release is a step. -/
theorem step_beginRelease (hs : s.Apart) {sub : Subscription} (hsub : sub ∈ s.live) :
    s.Step (s.beginRelease sub) := by
  cases h : s.watch? sub.root with
  | none =>
    simpa [beginRelease, modify_of_watch?_eq_none h] using
      Step.leavesNothing (not_equals_of_watch?_eq_none h) hsub
  | some w =>
    obtain ⟨before, p, after, hr, hp, hmodify⟩ := exists_modify_eq hs h
    simpa [beginRelease, hmodify] using Step.leaves hr hp hsub

/-- A round without a root calls the next of its subscribers, or ends. -/
theorem step_callOrphan {index : Nat} (h : s.step? (.callOrphan index) = some s') :
    s.Step s' := by
  have split {o : List Nat} (ho : s.orphans[index]? = some o) :
      s.orphans = s.orphans.take index ++ o :: s.orphans.drop (index + 1) := by
    obtain ⟨hi, rfl⟩ := List.getElem?_eq_some_iff.1 ho
    rw [List.getElem_cons_drop, List.take_append_drop]
  simp only [step?] at h
  split at h
  case h_1 => cases h
  case h_2 ho =>
    cases h
    rw [List.eraseIdx_eq_take_drop_succ]
    exact .orphanEnds (split ho)
  case h_3 id left ho =>
    cases h
    rw [List.set_eq_take_append_cons_drop, if_pos (List.getElem?_eq_some_iff.1 ho).1]
    have horphans : s.orphans = s.orphans.take index ++ ([id] ++ left) ::
        s.orphans.drop (index + 1) := split ho
    exact .orphan horphans

/-- Nothing but the steps of `Step` can happen. -/
theorem step_of_step? (hs : s.Apart) {a : Action} (h : s.step? a = some s') : s.Step s' := by
  -- Each action is one step of `Step`; what a root does by itself turns its watch.
  cases a with
  | subscribe root starts => cases h; exact step_subscribe hs root starts
  | beginRelease sub =>
    simp only [step?, Option.ite_none_right_eq_some, Option.some.injEq] at h
    obtain ⟨hsub, rfl⟩ := h
    exact step_beginRelease hs hsub
  | finishRelease sub =>
    simp only [step?, Option.ite_none_right_eq_some, Option.some.injEq] at h
    obtain ⟨hsub, rfl⟩ := h
    exact .closes hsub
  | hear root e =>
    cases h
    unfold hear
    split
    · exact step_modify hs root (fun _ => rfl) fun _ => rfl
    · exact .passes s.now
  | fail root => cases h; exact step_modify hs root (fun _ => rfl) fun _ => rfl
  | take root =>
    simp only [step?, Option.bind_eq_some_iff, Option.map_eq_some_iff] at h
    obtain ⟨w, hw, w', hw', rfl⟩ := h
    obtain ⟨before, p, after, hr, -, hmodify⟩ := exists_modify_eq hs hw
    rw [hmodify]
    exact .turns hr (turns_of_taken? hw')
  | elapse root =>
    simp only [step?, Option.bind_eq_some_iff, Option.map_eq_some_iff] at h
    obtain ⟨w, hw, w', hw', rfl⟩ := h
    obtain ⟨before, p, after, hr, -, hmodify⟩ := exists_modify_eq hs hw
    rw [hmodify]
    exact .turns hr (turns_of_elapsed? hw')
  | call root =>
    simp only [step?, Option.bind_eq_some_iff, Option.map_eq_some_iff] at h
    obtain ⟨w, hw, ⟨w', id?⟩, hw', rfl⟩ := h
    obtain ⟨before, p, after, hr, -, hmodify⟩ := exists_modify_eq hs hw
    rw [hmodify]
    exact .turns hr (turns_of_calledOne? hw')
  | callOrphan index => exact step_callOrphan h
  | pass time => cases h; exact .passes _

/-- The watches of a state in which the watch of one root was replaced. -/
theorem mem_of_mem_replaced {before after : List (Path × RootWatch)} {p : Path} {w w' : RootWatch}
    {r : Path × RootWatch} (hr : s.roots = before ++ (p, w) :: after)
    (h : r ∈ before ++ (p, w') :: after) : r ∈ s.roots ∨ r = (p, w') := by
  simp only [hr, List.mem_append, List.mem_cons] at h ⊢
  obtain h | h | h := h
  · exact .inl (.inl h)
  · exact .inr h
  · exact .inl (.inr (.inr h))

end State

end RefGraph.Watch
