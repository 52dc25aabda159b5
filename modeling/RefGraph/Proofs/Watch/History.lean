import RefGraph.Proofs.Watch.Counting

/-!
# What is seen of a watcher

The watcher of a root is seen from outside by what reaches it and by what it does: a change is
forwarded to it, it receives one, it begins a round for those who are registered then, it calls
somebody, and its round ends. All this is read off the states before and after a step.

* `Watch.Mark`, `Watch.State.marks`: what can be seen, and what is seen of a root with one action.
* `Watch.State.history`: what is seen of a root in a run, since it is watched.
* `Watch.Matters`: the events that are to be forwarded, and `Watch.Event.isChange_iff`.
* `Watch.RootWatch.Moves`: all that is seen of a watch in one step, and
  `Watch.State.moves_of_step?`.
-/

namespace RefGraph.Watch

/-! ## Events that matter -/

/-- A path leads through a directory whose contents never matter. Below the root only what follows
the root counts; a path elsewhere counts with all its components. -/
def LeadsThroughNoise (root p : Path) : Prop :=
  ∃ before name after, p.components = before ++ .name name :: after ∧
    (name = ".git" ∨ name = "node_modules") ∧
    (root.components <+: p.components → root.components <+: before)

/-- Something was created, modified or removed, and not only in such directories. -/
def Matters (root : Path) (e : Event) : Prop :=
  (e.kind = .create ∨ e.kind = .modify ∨ e.kind = .remove) ∧
    ∃ p ∈ e.paths, ¬ LeadsThroughNoise root p

/-- The changes are creations, modifications and removals. -/
theorem EventKind.isChange_iff (kind : EventKind) :
    kind.isChange = true ↔ kind = .create ∨ kind = .modify ∨ kind = .remove := by
  cases kind <;> decide

/-- Only a name can be one of a directory that never matters. -/
theorem mem_noiseNames_text_iff {c : Component} : c.text ∈ noiseNames ↔
    ∃ name, c = .name name ∧ (name = ".git" ∨ name = "node_modules") := by
  cases c with
  | name s => simp [noiseNames, Component.text]
  | _ => simp [noiseNames, Component.text]

/-- Noise is what leads through one of the noisy directories. -/
theorem isNoise_iff (root p : Path) : isNoise root p = true ↔ LeadsThroughNoise root p := by
  have hany : ∀ cs : List Component, cs.any (fun c => noiseNames.contains c.text) = true ↔
      ∃ before name after, cs = before ++ .name name :: after ∧
        (name = ".git" ∨ name = "node_modules") := by
    intro cs
    simp only [List.any_eq_true, List.contains_iff_mem, mem_noiseNames_text_iff]
    constructor
    · rintro ⟨c, hc, name, rfl, hname⟩
      obtain ⟨before, after, hcs⟩ := List.append_of_mem hc
      exact ⟨before, name, after, hcs, hname⟩
    · rintro ⟨before, name, after, rfl, hname⟩
      exact ⟨_, List.mem_append_cons_self, name, rfl, hname⟩
  rw [isNoise, hany, LeadsThroughNoise, Path.below?]
  -- Below the root only the components behind it count, elsewhere all of them.
  by_cases hbelow : root.components <+: p.components
  · rw [if_pos (List.isPrefixOf_iff_prefix.2 hbelow), Option.getD_some]
    obtain ⟨behind, hbehind⟩ := hbelow
    rw [← hbehind, List.drop_left]
    constructor
    · rintro ⟨before, name, after, rfl, hname⟩
      exact ⟨root.components ++ before, name, after, (List.append_assoc ..).symm, hname,
        fun _ => List.prefix_append ..⟩
    · rintro ⟨before, name, after, hcs, hname, hroot⟩
      obtain ⟨before, rfl⟩ := hroot (List.prefix_append ..)
      rw [List.append_assoc, List.append_cancel_left_eq] at hcs
      exact ⟨before, name, after, hcs, hname⟩
  · rw [if_neg (mt List.isPrefixOf_iff_prefix.1 hbelow), Option.getD_none]
    exact exists_congr fun before => exists_congr fun name => exists_congr fun after =>
      and_congr_right fun _ => (and_iff_left fun h => absurd h hbelow).symm

/-- **The events that are forwarded are those that matter.** -/
theorem Event.isChange_iff (root : Path) (e : Event) : e.isChange root = true ↔ Matters root e := by
  simp only [Event.isChange, Bool.and_eq_true, EventKind.isChange_iff, List.any_eq_true,
    Bool.not_eq_true', ← Bool.not_eq_true, isNoise_iff, Matters]

/-- A root means the same events however it is written. -/
theorem matters_congr {root root' : Path} (h : root.equals root' = true) (e : Event) :
    Matters root e ↔ Matters root' e := by
  simp only [Matters, LeadsThroughNoise, beq_iff_eq.1 h]

/-! ## Marks -/

/-- What is seen of the watcher of a root: a change is forwarded to it, it receives one, it begins a
round while some are registered, it calls somebody, and its round ends. -/
inductive Mark where
  | forwarded
  | received
  | began (registered : List Nat)
  | called (id : Nat)
  | ended
deriving DecidableEq, Repr

namespace RootWatch

/-- Whether a round is going on. -/
def isCalling (w : RootWatch) : Bool :=
  match w.phase with
  | .calling _ => true
  | _ => false

/-- What is seen when a watch becomes another one while its round calls some subscribers. -/
def marks (w w' : RootWatch) (calls : List Nat) : List Mark :=
  List.replicate (w'.pending - w.pending) Mark.forwarded ++
    List.replicate (w.pending - w'.pending) Mark.received ++
    (if !w.isCalling && w'.isCalling then [Mark.began w.subscribers] else []) ++
    calls.map Mark.called ++
    (if w.isCalling && !w'.isCalling then [Mark.ended] else [])

end RootWatch

/-- An action is an event that matters to the watcher of a root. -/
def Action.Tells (root : Path) : Action → Prop
  | .hear root' e => root'.equals root = true ∧ Matters root e
  | _ => False

namespace State

variable {s s' : State} {root : Path}

/-- Those who are called by the round of a root with an action, the first one first. -/
def callsOf (s : State) (root : Path) (a : Action) (s' : State) : List Nat :=
  match a with
  | .call root' =>
    if root'.equals root then (s'.called.take (s'.called.length - s.called.length)).reverse else []
  | _ => []

/-- What is seen of a root with an action that leads from one state to another one. -/
def marks (s : State) (root : Path) (a : Action) (s' : State) : List Mark :=
  match s.watch? root, s'.watch? root with
  | some w, some w' => w.marks w' (s.callsOf root a s')
  | _, _ => []

/-- What is seen of a root in a run, behind what was seen before. With its last subscriber all is
forgotten, since another watcher is started for the next one. -/
def history (root : Path) : State → List Mark → List Action → List Mark
  | _, seen, [] => seen
  | s, seen, a :: actions =>
    match s.step? a with
    | none => seen
    | some s' =>
      history root s'
        (if s.isWatching root && s'.isWatching root then seen ++ s.marks root a s' else []) actions

/-! ## The watch of a root after a change -/

theorem equals_trans_iff {p q r : Path} (h : q.equals r = true) :
    p.equals q = true ↔ p.equals r = true := by
  rw [Path.equals, Path.equals, beq_iff_eq, beq_iff_eq, beq_iff_eq.1 h]

/-- The same watch is found however the root is written. -/
theorem watch?_congr {p : Path} (h : p.equals root = true) : s.watch? p = s.watch? root := by
  have hsame : (fun r : Path × RootWatch => r.1.equals p) = fun r => r.1.equals root :=
    funext fun r => Bool.eq_iff_iff.2 (equals_trans_iff h)
  rw [watch?, watch?, hsame]

/-- A change of the watch of a root changes this watch and no other. -/
theorem watch?_modify (s : State) (p root : Path) (change : RootWatch → RootWatch) :
    (s.modify p change).watch? root =
      if p.equals root then (s.watch? root).map change else s.watch? root := by
  have hfirst : ((fun r : Path × RootWatch => r.1.equals root) ∘
      fun r : Path × RootWatch => if r.1.equals p then (r.1, change r.2) else r) =
        fun r => r.1.equals root := by
    funext r
    rw [Function.comp_apply]
    split <;> rfl
  rw [watch?, watch?, modify, List.find?_map, hfirst]
  cases hfind : s.roots.find? fun r => r.1.equals root with
  | none => simp
  | some r =>
    -- The root that is found is the one that is changed, or it is another one.
    have hr : r.1.equals root = true :=
      List.find?_some (p := fun r : Path × RootWatch => r.1.equals root) hfind
    have hiff : r.1.equals p = p.equals root := by
      rw [Path.equals, Path.equals, beq_iff_eq.1 hr, BEq.comm]
    by_cases hp : p.equals root = true
    · simp [hiff, hp]
    · simp [hiff, hp]

/-- In roots that are apart a watch is found under its root. -/
theorem watch?_eq_some_of_mem (hs : s.Apart) {p : Path} {w : RootWatch} (hmem : (p, w) ∈ s.roots)
    (hp : p.equals root = true) : s.watch? root = some w := by
  cases h : s.watch? root with
  | none => exact absurd hp (by simp [not_equals_of_watch?_eq_none h _ hmem])
  | some w' =>
    obtain ⟨before, p', after, hr, hp', -⟩ := exists_modify_eq hs h
    have hother := hs.components_ne hr (p, w)
    simp only [hr, List.mem_append, List.mem_cons] at hmem hother
    have hsame : p.components = p'.components := (beq_iff_eq.1 hp).trans (beq_iff_eq.1 hp').symm
    rcases hmem with hmem | hmem | hmem
    · exact absurd hsame (hother (.inl hmem))
    · rw [(Prod.mk.inj hmem).2]
    · exact absurd hsame (hother (.inr hmem))

/-- A root that is still watched when somebody has left has the watch that it had. -/
theorem watch?_of_finishRelease (hs : s.Apart) {sub : Subscription} {w : RootWatch}
    (h : (s.finishRelease sub).watch? root = some w) : s.watch? root = some w := by
  obtain ⟨p, hmem, hp⟩ := exists_mem_roots_of_watch? h
  exact watch?_eq_some_of_mem hs (List.mem_filter.1 hmem).1 hp

/-- A root that is subscribed to keeps its watch with one more subscriber, or gets a new one. -/
theorem watch?_subscribe (s : State) (p root : Path) (starts : Bool) :
    (s.subscribe p starts).1.watch? root = s.watch? root ∨
      (∃ w, s.watch? root = some w ∧ (s.subscribe p starts).1.watch? root =
        some { w with subscribers := w.subscribers ++ [s.nextId] }) ∨
      (s.watch? root = none ∧
        (s.subscribe p starts).1.watch? root = some { subscribers := [s.nextId] }) := by
  unfold subscribe
  dsimp only
  split
  · -- The root of the subscription is watched: every spelling of it gets the new subscriber.
    rename_i hw
    have hmodify := watch?_modify { s with nextId := s.nextId + 1 } p root
      fun w => { w with subscribers := w.subscribers ++ [s.nextId] }
    by_cases hp : p.equals root = true
    · rw [if_pos hp] at hmodify
      rw [isWatching, watch?_congr hp] at hw
      obtain ⟨w, hw⟩ := Option.isSome_iff_exists.1 hw
      rw [hw] at hmodify
      exact .inr (.inl ⟨w, hw, hmodify⟩)
    · rw [if_neg hp] at hmodify
      exact .inl hmodify
  split
  · -- A watcher could be started, so the root is put behind the others.
    rename_i hw _
    by_cases hp : p.equals root = true
    · rw [isWatching, watch?_congr hp, Option.not_isSome_iff_eq_none] at hw
      have hnone : s.roots.find? (fun r => r.1.equals root) = none := by
        simpa [watch?] using hw
      exact .inr (.inr ⟨hw, by simp [watch?, List.find?_append, hnone, hp]⟩)
    · exact .inl (by simp [watch?, List.find?_append, hp])
  · exact .inl rfl

end State

/-! ## What is seen in one step -/

/-- All that is seen of a watch in one step. Only what matters is forwarded. -/
inductive RootWatch.Moves (told : Prop) : RootWatch → List Mark → RootWatch → Prop
  | stays {w w' : RootWatch} (hnot : ¬ told) (hpending : w'.pending = w.pending)
      (hphase : w'.phase = w.phase) : Moves told w [] w'
  | hears {w w' : RootWatch} (htold : told) (hpending : w'.pending = w.pending + 1)
      (hphase : w'.phase = w.phase) : Moves told w [.forwarded] w'
  | receives {w w' : RootWatch} (hnot : ¬ told) (hpending : w.pending = w'.pending + 1)
      (hbefore : w.isCalling = false) {deadline wake : Nat}
      (hphase : w'.phase = .settling deadline wake) : Moves told w [.received] w'
  | receivesLast {w w' : RootWatch} (hnot : ¬ told) (hpending : w.pending = w'.pending + 1)
      (hbefore : w.isCalling = false) (hphase : w'.phase = .calling w.subscribers) :
      Moves told w [.received, .began w.subscribers] w'
  | settles {w w' : RootWatch} (hnot : ¬ told) (hpending : w'.pending = w.pending)
      {deadline wake : Nat} (hbefore : w.phase = .settling deadline wake)
      (hphase : w'.phase = .calling w.subscribers) : Moves told w [.began w.subscribers] w'
  | calls {w w' : RootWatch} (hnot : ¬ told) (hpending : w'.pending = w.pending) {id : Nat}
      {left : List Nat} (hbefore : w.phase = .calling (id :: left))
      (hphase : w'.phase = .calling left) : Moves told w [.called id] w'
  | ends {w w' : RootWatch} (hnot : ¬ told) (hpending : w'.pending = w.pending)
      (hbefore : w.phase = .calling []) (hphase : w'.phase = .idle) : Moves told w [.ended] w'

namespace RootWatch

theorem isCalling_congr {w w' : RootWatch} (h : w'.phase = w.phase) :
    w'.isCalling = w.isCalling := by
  rw [isCalling, isCalling, h]

/-- A watch that neither gets nor takes a change and stays in its phase is not seen. -/
theorem marks_of_same {w w' : RootWatch} (hpending : w'.pending = w.pending)
    (hphase : w'.phase = w.phase) : w.marks w' [] = [] := by
  simp [marks, hpending, isCalling_congr hphase]

/-- What leaves the changes and the phase of a watch alone is not seen. -/
theorem moves_of_same {told : Prop} {w w' : RootWatch} (hnot : ¬ told)
    (hpending : w'.pending = w.pending) (hphase : w'.phase = w.phase) :
    w.Moves told (w.marks w' []) w' := by
  rw [marks_of_same hpending hphase]
  exact .stays hnot hpending hphase

/-- A watch that stays as it is is not seen. -/
theorem moves_of_eq {told : Prop} {w w' : RootWatch} (hnot : ¬ told) (hsame : w' = w) :
    w.Moves told (w.marks w' []) w' := by
  rw [hsame]
  exact moves_of_same hnot rfl rfl

/-- One more change that waits is one that is forwarded. -/
theorem moves_of_told {told : Prop} (htold : told) (w : RootWatch) :
    w.Moves told (w.marks { w with pending := w.pending + 1 } [])
      { w with pending := w.pending + 1 } := by
  have hone : w.pending + 1 - w.pending = 1 := by omega
  have hnone : w.pending - (w.pending + 1) = 0 := by omega
  have hcalling : ({ w with pending := w.pending + 1 } : RootWatch).isCalling = w.isCalling :=
    isCalling_congr rfl
  have hmarks : w.marks { w with pending := w.pending + 1 } [] = [.forwarded] := by
    simp [marks, hone, hnone, hcalling]
  rw [hmarks]
  exact .hears htold rfl rfl

/-- A change that is taken begins a round if the deadline has passed. -/
theorem moves_of_settleOrCall {told : Prop} {s : State} {w : RootWatch} {n : Nat} (hnot : ¬ told)
    (hpending : w.pending = n + 1) (hbefore : w.isCalling = false) (deadline : Nat) :
    let w' := { w with pending := n, phase := s.settleOrCall deadline w }
    w.Moves told (w.marks w' []) w' := by
  intro w'
  have hnone : w'.pending - w.pending = 0 := by simp only [w', hpending]; omega
  have hone : w.pending - w'.pending = 1 := by simp only [w', hpending]; omega
  by_cases hd : deadline ≤ s.now
  · have hphase : w'.phase = .calling w.subscribers := by simp [w', State.settleOrCall, hd]
    have hcalling : w'.isCalling = true := by simp [isCalling, hphase]
    have hmarks : w.marks w' [] = [.received, .began w.subscribers] := by
      simp [marks, hnone, hone, hbefore, hcalling]
    rw [hmarks]
    exact .receivesLast hnot hpending hbefore hphase
  · have hphase : w'.phase =
        .settling deadline (s.now + min s.timing.quiet (deadline - s.now)) := by
      simp [w', State.settleOrCall, hd]
    have hcalling : w'.isCalling = false := by simp [isCalling, hphase]
    have hmarks : w.marks w' [] = [.received] := by
      simp [marks, hnone, hone, hbefore, hcalling]
    rw [hmarks]
    exact .receives hnot hpending hbefore hphase

theorem moves_of_taken? {told : Prop} {s : State} {w w' : RootWatch} (hnot : ¬ told)
    (h : s.taken? w = some w') : w.Moves told (w.marks w' []) w' := by
  unfold State.taken? at h
  split at h
  · cases h
  · rename_i n hpending
    split at h
    case h_1 hp => cases h; exact moves_of_settleOrCall hnot hpending (by simp [isCalling, hp]) _
    case h_2 hp => cases h; exact moves_of_settleOrCall hnot hpending (by simp [isCalling, hp]) _
    case h_3 => cases h

theorem moves_of_elapsed? {told : Prop} {s : State} {w w' : RootWatch} (hnot : ¬ told)
    (h : s.elapsed? w = some w') : w.Moves told (w.marks w' []) w' := by
  unfold State.elapsed? at h
  split at h
  case h_1 hp =>
    split at h
    · cases h
      have hmarks : w.marks { w with phase := .calling w.subscribers } [] =
          [.began w.subscribers] := by simp [marks, isCalling, hp]
      rw [hmarks]
      exact .settles hnot rfl hp rfl
    · cases h
  case h_2 => cases h

/-- Calling a subscriber moves a watch along its marks. -/
theorem moves_of_calledOne? {told : Prop} {w w' : RootWatch} {id? : Option Nat} (hnot : ¬ told)
    (h : State.calledOne? w = some (w', id?)) : w.Moves told (w.marks w' id?.toList) w' := by
  unfold State.calledOne? at h
  split at h
  case h_1 hp =>
    cases h
    have hmarks : w.marks { w with phase := .idle } [] = [.ended] := by simp [marks, isCalling, hp]
    rw [Option.toList_none, hmarks]
    exact .ends hnot rfl hp rfl
  case h_2 id left hp =>
    cases h
    have hmarks : w.marks { w with phase := .calling left } [id] = [.called id] := by
      simp [marks, isCalling, hp]
    rw [Option.toList_some, hmarks]
    refine .calls hnot ?_ hp ?_
    · rfl
    · rfl
  case h_3 => cases h

end RootWatch

namespace State

variable {s s' : State} {root : Path}

/-- If one watch changes, that of a root changes so or stays as it is. -/
theorem watch?_of_modify {p : Path} {change : RootWatch → RootWatch} {w w' : RootWatch}
    (hw : s.watch? root = some w) (hw' : (s.modify p change).watch? root = some w') :
    (p.equals root = true ∧ w' = change w) ∨ (p.equals root = false ∧ w' = w) := by
  rw [watch?_modify, hw] at hw'
  cases hp : p.equals root with
  | true =>
    rw [hp, if_pos rfl] at hw'
    exact .inl ⟨rfl, (Option.some.inj hw').symm⟩
  | false =>
    rw [hp, if_neg Bool.false_ne_true] at hw'
    exact .inr ⟨rfl, (Option.some.inj hw').symm⟩

/-- The same for a watch that is replaced by what its watcher makes of it. -/
theorem watch?_of_replace {p : Path} {w w₀ w₁ w' : RootWatch} (hp : s.watch? p = some w₀)
    (hw : s.watch? root = some w) (hw' : (s.modify p fun _ => w₁).watch? root = some w') :
    (p.equals root = true ∧ w = w₀ ∧ w' = w₁) ∨ (p.equals root = false ∧ w' = w) := by
  refine (watch?_of_modify hw hw').imp_left fun ⟨hequals, hnew⟩ => ⟨hequals, ?_, hnew⟩
  rw [watch?_congr hequals, hw] at hp
  exact Option.some.inj hp

/-! ### The actions

Each is followed in the watch of one root, which is the one that it changes or another one. -/

section

variable {told : Prop} {p : Path} {w w' : RootWatch} (hw : s.watch? root = some w)

include hw

/-- A change that leaves the changes and the phase of a watch alone is not seen. -/
theorem moves_of_modify (hnot : ¬ told) {change : RootWatch → RootWatch}
    (hpending : (change w).pending = w.pending) (hphase : (change w).phase = w.phase)
    (hw' : (s.modify p change).watch? root = some w') : w.Moves told (w.marks w' []) w' := by
  rcases watch?_of_modify hw hw' with ⟨-, rfl⟩ | ⟨-, hsame⟩
  · exact RootWatch.moves_of_same hnot hpending hphase
  · exact RootWatch.moves_of_eq hnot hsame

/-- A watcher is not seen when somebody joins. -/
theorem moves_of_subscribe (hnot : ¬ told) {starts : Bool}
    (hw' : (s.subscribe p starts).1.watch? root = some w') : w.Moves told (w.marks w' []) w' := by
  rcases s.watch?_subscribe p root starts with hsame | ⟨w₀, hw₀, hjoined⟩ | ⟨hnone, -⟩
  · exact RootWatch.moves_of_eq hnot (Option.some.inj (hw'.symm.trans (hsame.trans hw)))
  · obtain rfl := Option.some.inj (hw.symm.trans hw₀)
    obtain rfl := Option.some.inj (hw'.symm.trans hjoined)
    exact RootWatch.moves_of_same hnot rfl rfl
  · rw [hnone] at hw
    cases hw

/-- A watcher is told of the events that matter to its root, and of no others. -/
theorem moves_of_hear {e : Event} (hw' : (s.hear p e).watch? root = some w') :
    w.Moves (p.equals root = true ∧ Matters root e) (w.marks w' []) w' := by
  unfold hear at hw'
  by_cases hchange : e.isChange p = true
  · rw [if_pos hchange] at hw'
    rcases watch?_of_modify hw hw' with ⟨hp, rfl⟩ | ⟨hp, hsame⟩
    · have hmatters := (matters_congr hp e).1 ((e.isChange_iff p).1 hchange)
      exact RootWatch.moves_of_told ⟨hp, hmatters⟩ w
    · have hnot : ¬ (p.equals root = true ∧ Matters root e) := fun htold => by
        simp [hp] at htold
      exact RootWatch.moves_of_eq hnot hsame
  · rw [if_neg hchange] at hw'
    have hnot : ¬ (p.equals root = true ∧ Matters root e) := fun ⟨hp, hmatters⟩ =>
      hchange ((e.isChange_iff p).2 ((matters_congr hp e).2 hmatters))
    exact RootWatch.moves_of_eq hnot (Option.some.inj (hw'.symm.trans hw))

/-- What a watcher makes of its watch by itself is what is seen of it. -/
theorem moves_of_replace (hnot : ¬ told) {w₀ w₁ : RootWatch} (hp : s.watch? p = some w₀)
    (hmoves : w₀.Moves told (w₀.marks w₁ []) w₁)
    (hw' : (s.modify p fun _ => w₁).watch? root = some w') : w.Moves told (w.marks w' []) w' := by
  rcases watch?_of_replace hp hw hw' with ⟨-, rfl, rfl⟩ | ⟨-, hsame⟩
  · exact hmoves
  · exact RootWatch.moves_of_eq hnot hsame

/-- A call is seen of the watcher whose round it belongs to. -/
theorem moves_of_call (hnot : ¬ told) (h : s.step? (.call p) = some s')
    (hw' : s'.watch? root = some w') :
    w.Moves told (w.marks w' (s.callsOf root (.call p) s')) w' := by
  simp only [step?, Option.bind_eq_some_iff, Option.map_eq_some_iff] at h
  obtain ⟨w₀, hp, ⟨w₁, id?⟩, hcalled, rfl⟩ := h
  rcases watch?_of_replace hp hw hw' with ⟨hequals, rfl, rfl⟩ | ⟨hequals, hsame⟩
  · have hcalls : (s.callsOf root (.call p)
        { s.modify p fun _ => w' with called := id?.toList ++ s.called }) = id?.toList := by
      cases id? <;> simp [callsOf, hequals]
    rw [hcalls]
    exact RootWatch.moves_of_calledOne? hnot hcalled
  · have hcalls : (s.callsOf root (.call p)
        { s.modify p fun _ => w₁ with called := id?.toList ++ s.called }) = [] := by
      simp [callsOf, hequals]
    rw [hcalls]
    exact RootWatch.moves_of_eq hnot hsame

end

/-- A round that has lost its root goes on beside all watches. -/
theorem watch?_of_callOrphan {index : Nat} (h : s.step? (.callOrphan index) = some s') :
    s'.watch? root = s.watch? root := by
  have hroots : s'.roots = s.roots := by
    simp only [step?] at h
    split at h <;> cases h <;> rfl
  rw [watch?, watch?, hroots]

/-- **Nothing else is seen of a watch in one step.** -/
theorem moves_of_step? (hs : s.Apart) {a : Action} (h : s.step? a = some s') {w w' : RootWatch}
    (hw : s.watch? root = some w) (hw' : s'.watch? root = some w') :
    w.Moves (a.Tells root) (s.marks root a s') w' := by
  have hmarks : s.marks root a s' = w.marks w' (s.callsOf root a s') := by simp [marks, hw, hw']
  rw [hmarks]
  -- Only `hear` tells the watch of a change; every other action leaves that part as it is.
  cases a with
  | subscribe p starts => cases h; exact moves_of_subscribe hw id hw'
  | beginRelease sub =>
    simp only [step?, Option.ite_none_right_eq_some, Option.some.injEq] at h
    obtain ⟨-, rfl⟩ := h
    have hleft : (s.modify sub.root fun w =>
        { w with subscribers := w.subscribers.erase sub.id }).watch? root = some w' := hw'
    exact moves_of_modify hw id rfl rfl hleft
  | finishRelease sub =>
    simp only [step?, Option.ite_none_right_eq_some, Option.some.injEq] at h
    obtain ⟨-, rfl⟩ := h
    have hstays := watch?_of_finishRelease hs hw'
    exact RootWatch.moves_of_eq id (Option.some.inj (hstays.symm.trans hw))
  | hear p e => cases h; exact moves_of_hear hw hw'
  | fail p =>
    cases h
    have hfailed : (s.modify p fun w => { w with degraded := true }).watch? root = some w' := hw'
    exact moves_of_modify hw id rfl rfl hfailed
  | take p =>
    simp only [step?, Option.bind_eq_some_iff, Option.map_eq_some_iff] at h
    obtain ⟨w₀, hp, w₁, htaken, rfl⟩ := h
    exact moves_of_replace hw id hp (RootWatch.moves_of_taken? id htaken) hw'
  | elapse p =>
    simp only [step?, Option.bind_eq_some_iff, Option.map_eq_some_iff] at h
    obtain ⟨w₀, hp, w₁, helapsed, rfl⟩ := h
    exact moves_of_replace hw id hp (RootWatch.moves_of_elapsed? id helapsed) hw'
  | call p => exact moves_of_call hw id h hw'
  | callOrphan index =>
    have hsame : w' = w :=
      Option.some.inj (hw'.symm.trans ((watch?_of_callOrphan h).trans hw))
    exact RootWatch.moves_of_eq id hsame
  | pass time =>
    cases h
    exact RootWatch.moves_of_eq id (Option.some.inj (hw'.symm.trans hw))

end State

end RefGraph.Watch
