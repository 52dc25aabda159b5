import RefGraph.Proofs.Watch.History

/-!
# Every change is answered by a round

Whenever the watcher of a root waits and nothing is left for it to take, each change that was
forwarded to it has been followed by a round that called all who were registered when it began. And
it begins no round unless it has received a change since the last one. Both hold for every timing
and for every order in which changes arrive.

* `Watch.Stage.Goes`: the order in which marks can follow one another.
* `Watch.IsRound`: a round that calls all who were registered.
* `Watch.RootWatch.Sees`: the invariant of a watch and what was seen of it, which each move keeps.
* `Watch.State.signals_of_run`: what is seen of a root in any run.
-/

namespace RefGraph.Watch

/-! ## Stages -/

/-- How far the answer to changes has come: since the last round nothing was received, or something
was, or a round has some left to call. -/
inductive Stage where
  | quiet
  | stirred
  | calling (left : List Nat)

namespace Stage

/-- The order in which marks can follow one another. Changes can be forwarded at any time. -/
inductive Goes : Stage → List Mark → Stage → Prop
  | nil (st : Stage) : Goes st [] st
  | forwarded {st st' : Stage} {ms : List Mark} (h : Goes st ms st') :
      Goes st (.forwarded :: ms) st'
  | received {st st' : Stage} {ms : List Mark} (hst : st = .quiet ∨ st = .stirred)
      (h : Goes .stirred ms st') : Goes st (.received :: ms) st'
  | began {registered : List Nat} {st' : Stage} {ms : List Mark}
      (h : Goes (.calling registered) ms st') : Goes .stirred (.began registered :: ms) st'
  | called {id : Nat} {left : List Nat} {st' : Stage} {ms : List Mark}
      (h : Goes (.calling left) ms st') : Goes (.calling (id :: left)) (.called id :: ms) st'
  | ended {st' : Stage} {ms : List Mark} (h : Goes .quiet ms st') :
      Goes (.calling []) (.ended :: ms) st'

theorem Goes.append {a b c : Stage} {ms ms' : List Mark} (h : Goes a ms b) (h' : Goes b ms' c) :
    Goes a (ms ++ ms') c := by
  induction h with
  | nil => exact h'
  | forwarded _ ih => exact .forwarded (ih h')
  | received hst _ ih => exact .received hst (ih h')
  | began _ ih => exact .began (ih h')
  | called _ ih => exact .called (ih h')
  | ended _ ih => exact .ended (ih h')

theorem Goes.exists_between {a c : Stage} {ms ms' : List Mark} (h : Goes a (ms ++ ms') c) :
    ∃ b, Goes a ms b ∧ Goes b ms' c := by
  induction ms generalizing a with
  | nil => exact ⟨a, .nil a, h⟩
  | cons m ms ih =>
    cases h with
    | forwarded h => exact (ih h).imp fun _ hb => ⟨.forwarded hb.1, hb.2⟩
    | received hst h => exact (ih h).imp fun _ hb => ⟨.received hst hb.1, hb.2⟩
    | began h => exact (ih h).imp fun _ hb => ⟨.began hb.1, hb.2⟩
    | called h => exact (ih h).imp fun _ hb => ⟨.called hb.1, hb.2⟩
    | ended h => exact (ih h).imp fun _ hb => ⟨.ended hb.1, hb.2⟩

/-- The stage of a watcher. -/
def ofPhase : Phase → Stage
  | .idle => .quiet
  | .settling _ _ => .stirred
  | .calling left => .calling left

/-- Something was received before a round can begin. -/
theorem Goes.received_mem {st : Stage} {ms : List Mark} (h : Goes st ms .stirred)
    (hst : st ≠ .stirred) : .received ∈ ms := by
  induction ms generalizing st with
  | nil =>
    cases h
    exact absurd rfl hst
  | cons m ms ih =>
    cases h with
    | forwarded h => exact List.mem_cons_of_mem _ (ih h hst)
    | received => exact List.mem_cons_self
    | began => exact absurd rfl hst
    | called h => exact List.mem_cons_of_mem _ (ih h (by simp))
    | ended h => exact List.mem_cons_of_mem _ (ih h (by simp))

end Stage

/-! ## Rounds -/

/-- Who is called with a mark. -/
def Mark.called? : Mark → Option Nat
  | .called id => some id
  | _ => none

/-- A round: it begins while some are registered, calls all of these, and ends. Changes may be
forwarded meanwhile. -/
def IsRound (registered : List Nat) (ms : List Mark) : Prop :=
  ∃ during, ms = Mark.began registered :: (during ++ [Mark.ended]) ∧
    during.filterMap Mark.called? = registered ∧
    ∀ m ∈ during, m = .forwarded ∨ ∃ id ∈ registered, m = .called id

namespace Stage

/-- A round goes on until it has called all that it has left. -/
theorem Goes.exists_ended {left : List Nat} {ms : List Mark} (h : Goes (.calling left) ms .quiet) :
    ∃ during rest, ms = during ++ Mark.ended :: rest ∧ during.filterMap Mark.called? = left ∧
      ∀ m ∈ during, m = .forwarded ∨ ∃ id ∈ left, m = .called id := by
  induction ms generalizing left with
  | nil => cases h
  | cons m ms ih =>
    cases h with
    | forwarded h =>
      obtain ⟨during, rest, rfl, hcalled, honly⟩ := ih h
      exact ⟨.forwarded :: during, rest, rfl, hcalled, List.forall_mem_cons.2 ⟨.inl rfl, honly⟩⟩
    | received hst => simp at hst
    | @called id left _ _ h =>
      obtain ⟨during, rest, rfl, hcalled, honly⟩ := ih h
      refine ⟨.called id :: during, rest, rfl, congrArg (id :: ·) hcalled, ?_⟩
      refine List.forall_mem_cons.2 ⟨.inr ⟨id, List.mem_cons_self, rfl⟩, fun m hm => ?_⟩
      exact (honly m hm).imp_right fun ⟨id', hid', hm⟩ => ⟨id', List.mem_cons_of_mem _ hid', hm⟩
    | ended => exact ⟨[], ms, rfl, rfl, fun _ hm => absurd hm List.not_mem_nil⟩

/-- When nothing is left to be answered, what was received has been followed by a round. -/
theorem Goes.exists_round {ms : List Mark} (h : Goes .stirred ms .quiet) :
    ∃ waiting registered round rest, ms = waiting ++ round ++ rest ∧ IsRound registered round := by
  induction ms with
  | nil => cases h
  | cons m ms ih =>
    have hlater (h : Goes .stirred ms .quiet) : ∃ waiting registered round rest,
        m :: ms = waiting ++ round ++ rest ∧ IsRound registered round := by
      obtain ⟨waiting, registered, round, rest, rfl, hround⟩ := ih h
      exact ⟨m :: waiting, registered, round, rest, rfl, hround⟩
    cases h with
    | forwarded h => exact hlater h
    | received _ h => exact hlater h
    | @began registered _ _ h =>
      obtain ⟨during, rest, rfl, hcalled, honly⟩ := h.exists_ended
      refine ⟨[], registered, _, rest, ?_, during, rfl, hcalled, honly⟩
      simp

end Stage

/-! ## What a watch owes to what was seen -/

namespace RootWatch

variable {w w' : RootWatch} {told : Prop} {seen ms : List Mark}

/-- What was seen of a watch so far has led to its phase, all that was forwarded has been received
or is still there to be taken, and nothing was received before it was forwarded. -/
structure Sees (w : RootWatch) (seen : List Mark) : Prop where
  goes : Stage.Goes .quiet seen (.ofPhase w.phase)
  balance : seen.count .forwarded = seen.count .received + w.pending
  ahead : ∀ before, before <+: seen → before.count .received ≤ before.count .forwarded

theorem sees_new (id : Nat) : ({ subscribers := [id] } : RootWatch).Sees [] where
  goes := .nil _
  balance := rfl
  ahead before h := by
    rw [List.prefix_nil.1 h]
    exact Nat.le_refl 0

namespace Moves

/-- A watch goes from stage to stage. -/
theorem goes (h : w.Moves told ms w') : Stage.Goes (.ofPhase w.phase) ms (.ofPhase w'.phase) := by
  have hopen (hbefore : w.isCalling = false) :
      Stage.ofPhase w.phase = .quiet ∨ Stage.ofPhase w.phase = .stirred := by
    rw [isCalling] at hbefore
    cases hphase : w.phase with
    | idle => exact .inl rfl
    | settling => exact .inr rfl
    | calling => simp [hphase] at hbefore
  -- Each move goes along its own marks, from a stage that its phase allows.
  cases h with
  | stays _ _ hphase =>
    rw [hphase]
    exact .nil _
  | hears _ _ hphase =>
    rw [hphase]
    exact .forwarded (.nil _)
  | receives _ _ hbefore hphase =>
    rw [hphase]
    exact .received (hopen hbefore) (.nil _)
  | receivesLast _ _ hbefore hphase =>
    rw [hphase]
    exact .received (hopen hbefore) (.began (.nil _))
  | settles _ _ hbefore hphase =>
    rw [hbefore, hphase]
    exact .began (.nil _)
  | calls _ _ hbefore hphase =>
    rw [hbefore, hphase]
    exact .called (.nil _)
  | ends _ _ hbefore hphase =>
    rw [hbefore, hphase]
    exact .ended (.nil _)

/-- A watch receives only what it has not taken yet. -/
theorem count_le (h : w.Moves told ms w') : ms.count .received ≤ w.pending ∧
    w.pending + ms.count .forwarded = ms.count .received + w'.pending := by
  cases h with
  | hears _ hpending => simp [hpending]
  | receives _ hpending => simp [hpending]; omega
  | receivesLast _ hpending => simp [hpending]; omega
  | stays _ hpending | settles _ hpending | calls _ hpending | ends _ hpending => simp [hpending]

/-- A change is marked as forwarded just if the watch is told of it. -/
theorem forwarded_mem_iff (h : w.Moves told ms w') : .forwarded ∈ ms ↔ told := by
  cases h with
  | hears htold => simp [htold]
  | stays hnot | receives hnot | receivesLast hnot | settles hnot | calls hnot | ends hnot =>
    simp [hnot]

/-- A step forwards at most one change. -/
theorem count_forwarded_le (h : w.Moves told ms w') : ms.count .forwarded ≤ 1 := by
  cases h <;> simp

end Moves

/-- **Every move keeps what a watch owes to what was seen.** -/
theorem Sees.moves (hs : w.Sees seen) (h : w.Moves told ms w') : w'.Sees (seen ++ ms) := by
  obtain ⟨hle, hsum⟩ := h.count_le
  have hbalance := hs.balance
  refine ⟨hs.goes.append h.goes, ?_, fun before hbefore => ?_⟩
  · rw [List.count_append, List.count_append]
    omega
  · rcases List.prefix_or_prefix_of_prefix hbefore (List.prefix_append seen ms) with hold | hnew
    · exact hs.ahead before hold
    · -- What is received now was there to be taken before.
      obtain ⟨more, rfl⟩ := hnew
      have hmore : more <+: ms := (List.prefix_append_right_inj seen).1 hbefore
      have hreceived := hmore.sublist.count_le Mark.received
      rw [List.count_append, List.count_append]
      omega

end RootWatch

namespace State

variable {s s' : State} {root : Path} {seen : List Mark}

/-- A root that was not watched before has a new watch. -/
theorem Step.eq_new (h : s.Step s') (hnone : s.watch? root = none) {w : RootWatch}
    (hw : s'.watch? root = some w) : w = { subscribers := [s.nextId] } := by
  obtain ⟨p, hmem, hp⟩ := exists_mem_roots_of_watch? hw
  have hnot := not_equals_of_watch?_eq_none hnone
  have hold : (p, w) ∉ s.roots := fun hmem => by simp [hnot _ hmem] at hp
  have hreplaced {before after : List (Path × RootWatch)} {q : Path} {u u' : RootWatch}
      (hr : s.roots = before ++ (q, u) :: after) (hmem : (p, w) ∈ before ++ (q, u') :: after) :
      w = { subscribers := [s.nextId] } := by
    rcases mem_of_mem_replaced hr hmem with hmem | hsame
    · exact absurd hmem hold
    · obtain ⟨rfl, -⟩ := Prod.mk.inj hsame
      have hq := hnot (p, u) (hr ▸ List.mem_append_cons_self)
      exact absurd hp (by simp [hq])
  cases h with
  | turns hr _ => exact hreplaced hr hmem
  | joins hr _ => exact hreplaced hr hmem
  | leaves hr _ _ => exact hreplaced hr hmem
  | opens hr =>
    rcases List.mem_append.1 hmem with hmem | hmem
    · exact absurd hmem hold
    · exact (Prod.mk.inj (List.mem_singleton.1 hmem)).2
  | closes _ => exact absurd (List.mem_filter.1 hmem).1 hold
  | _ => exact absurd hmem hold

/-- What was seen of a root is what its watch owes, and nothing if it is not watched. -/
structure Tracks (s : State) (root : Path) (seen : List Mark) : Prop where
  sees : ∀ w, s.watch? root = some w → w.Sees seen
  nothing : s.watch? root = none → seen = []

theorem tracks_initial (timing : Timing) (root : Path) : Tracks { timing } root [] where
  sees _ h := by cases h
  nothing _ := rfl

/-- Every step keeps track of what a watch has seen. -/
theorem Tracks.step (hs : s.Apart) (ht : s.Tracks root seen) {a : Action}
    (h : s.step? a = some s') : s'.Tracks root
      (if s.isWatching root && s'.isWatching root then seen ++ s.marks root a s' else []) := by
  cases hw' : s'.watch? root with
  | none => exact ⟨fun w hw => by simp [hw'] at hw, fun _ => by simp [isWatching, hw']⟩
  | some w' =>
    refine ⟨fun w hw => ?_, fun hnone => by simp [hw'] at hnone⟩
    obtain rfl := Option.some.inj (hw.symm.trans hw')
    cases hold : s.watch? root with
    | none =>
      rw [(step_of_step? hs h).eq_new hold hw]
      simpa [isWatching, hold] using RootWatch.sees_new s.nextId
    | some w₀ =>
      simpa [isWatching, hold, hw] using (ht.sees w₀ hold).moves (moves_of_step? hs h hold hw)

/-- What a run shows of a root is what its watch owes. -/
theorem Tracks.run {actions : List Action} (hs : s.Apart) (ht : s.Tracks root seen)
    (h : s.run? actions = some s') : s'.Tracks root (history root s seen actions) := by
  induction actions generalizing s seen with
  | nil =>
    cases h
    exact ht
  | cons a actions ih =>
    obtain ⟨s₁, hstep, hrun⟩ := Option.bind_eq_some_iff.1 (run?_cons s a actions ▸ h)
    rw [history, hstep]
    exact ih ((step_of_step? hs hstep).apart hs) (ht.step hs hstep) hrun

/-! ## The main result -/

/-- What is seen of a root: nothing but changes that matter is forwarded, and no such change is lost
or invented. -/
structure Signals (root : Path) (s : State) (seen : List Mark) : Prop where
  /-- With one action at most one change is forwarded, and exactly if it is an event that
  matters. -/
  forwarded_iff : s.isWatching root = true → ∀ a s', s.step? a = some s' →
    (.forwarded ∈ s.marks root a s' ↔ a.Tells root) ∧ (s.marks root a s').count .forwarded ≤ 1
  /-- If the watcher waits and nothing is there to be taken, then all that was forwarded has been
  followed by a round. -/
  answered : ∀ w, s.watch? root = some w → w.phase = .idle → w.pending = 0 →
    ∀ before after, seen = before ++ Mark.forwarded :: after →
      ∃ waiting registered round rest, after = waiting ++ round ++ rest ∧ IsRound registered round
  /-- Between two rounds something is received, and before the first one. -/
  between : ∀ before registered mid registered' after,
    seen = before ++ Mark.began registered :: (mid ++ Mark.began registered' :: after) →
      .received ∈ mid
  first : ∀ before registered after, seen = before ++ Mark.began registered :: after →
    .received ∈ before
  /-- What is received was forwarded before. -/
  ahead : ∀ before, before <+: seen → before.count .received ≤ before.count .forwarded

end State

namespace RootWatch.Sees

variable {w : RootWatch} {seen : List Mark}

/-- If all is taken, something is received behind each change that was forwarded. -/
theorem received_mem (hs : w.Sees seen) (hpending : w.pending = 0) {before after : List Mark}
    (hseen : seen = before ++ Mark.forwarded :: after) : .received ∈ after := by
  have hbalance := hs.balance
  have hahead := hs.ahead before (hseen ▸ List.prefix_append ..)
  simp only [hseen, hpending, List.count_append, List.count_cons_self, ne_eq, reduceCtorEq,
    not_false_eq_true, List.count_cons_of_ne] at hbalance
  exact List.count_pos_iff.1 (by omega)

/-- If the watcher waits as well, a round follows. -/
theorem exists_round (hs : w.Sees seen) (hphase : w.phase = .idle) (hpending : w.pending = 0)
    {before after : List Mark} (hseen : seen = before ++ Mark.forwarded :: after) :
    ∃ waiting registered round rest, after = waiting ++ round ++ rest ∧
      IsRound registered round := by
  obtain ⟨waiting, answers, rfl⟩ := List.append_of_mem (hs.received_mem hpending hseen)
  have hgoes := hs.goes
  rw [hphase, hseen, ← List.cons_append, ← List.append_assoc] at hgoes
  obtain ⟨st, -, hreceived⟩ := hgoes.exists_between
  cases hreceived with
  | received _ h =>
    obtain ⟨before', registered, round, rest, rfl, hround⟩ := h.exists_round
    exact ⟨waiting ++ .received :: before', registered, round, rest, by simp, hround⟩

/-- Before a round something is received, from the beginning or from the last round on. -/
theorem received_mem_of_began (hs : w.Sees seen) {before after : List Mark} {registered : List Nat}
    (hseen : seen = before ++ Mark.began registered :: after) : .received ∈ before := by
  obtain ⟨st, hbefore, hbegan⟩ := (hseen ▸ hs.goes).exists_between
  cases hbegan
  exact hbefore.received_mem (by simp)

/-- Between the beginnings of two rounds, something was received. -/
theorem received_mem_between (hs : w.Sees seen) {before mid after : List Mark}
    {registered registered' : List Nat}
    (hseen : seen = before ++ Mark.began registered :: (mid ++ Mark.began registered' :: after)) :
    .received ∈ mid := by
  obtain ⟨st, -, hbegan⟩ := (hseen ▸ hs.goes).exists_between
  cases hbegan with
  | began hround =>
    obtain ⟨st', hmid, hbegan⟩ := hround.exists_between
    cases hbegan
    exact hmid.received_mem (by simp)

end RootWatch.Sees

namespace State

variable {s s' : State} {root : Path}

/-- An event that matters is forwarded, and nothing else is. -/
theorem forwarded_mem_iff (hs : s.Apart) (hwatching : s.isWatching root = true) {a : Action}
    (h : s.step? a = some s') :
    (.forwarded ∈ s.marks root a s' ↔ a.Tells root) ∧
      (s.marks root a s').count .forwarded ≤ 1 := by
  obtain ⟨w, hw⟩ := Option.isSome_iff_exists.1 hwatching
  cases hw' : s'.watch? root with
  | some w' =>
    have hmoves := moves_of_step? hs h hw hw'
    exact ⟨hmoves.forwarded_mem_iff, hmoves.count_forwarded_le⟩
  | none =>
    have hmarks : s.marks root a s' = [] := by simp [marks, hw']
    have hnot : ¬ a.Tells root := by
      cases a with
      | hear p e =>
        -- An event does not end the watch of a root.
        cases h
        unfold hear at hw'
        split at hw'
        · rw [watch?_modify, hw] at hw'
          split at hw' <;> simp at hw'
        · simp [hw] at hw'
      | _ => exact id
    simp [hmarks, hnot]

/-- **No change is lost and no round begins without one**, whatever the timing is and in whatever
order changes arrive, time passes, and subscribers come, are called and leave. -/
theorem signals_of_run {timing : Timing} {actions : List Action}
    (h : ({ timing } : State).run? actions = some s) (root : Path) :
    Signals root s (history root { timing } [] actions) := by
  have hinitial := isSound_initial timing
  have hs := (hinitial.run h).apart
  have ht := (tracks_initial timing root).run hinitial.apart h
  generalize history root { timing } [] actions = seen at ht ⊢
  -- A root that is not watched has nothing to show, as if its watch were new.
  obtain ⟨w₀, hsees⟩ : ∃ w : RootWatch, w.Sees seen := by
    cases hw : s.watch? root with
    | none => exact ⟨_, ht.nothing hw ▸ RootWatch.sees_new 0⟩
    | some w => exact ⟨w, ht.sees w hw⟩
  refine ⟨fun hwatching a s' hstep => forwarded_mem_iff hs hwatching hstep, ?_, ?_, ?_, ?_⟩
  · exact fun w hw hphase hpending _ _ => (ht.sees w hw).exists_round hphase hpending
  · exact fun _ _ _ _ _ => hsees.received_mem_between
  · exact fun _ _ _ => hsees.received_mem_of_began
  · exact hsees.ahead

/-- A change for two subscribers, one in a directory that never matters, one that comes when the
quiet time is over, and one that comes while the subscribers are called. -/
def changesMeanwhile : List Action :=
  [.subscribe ⟨"/r"⟩ true, .subscribe ⟨"/r"⟩ true, .hear ⟨"/r"⟩ ⟨.modify, [⟨"/r/a.ts"⟩]⟩,
    .hear ⟨"/r"⟩ ⟨.create, [⟨"/r/.git/HEAD"⟩]⟩, .take ⟨"/r"⟩, .pass 250,
    .hear ⟨"/r"⟩ ⟨.remove, [⟨"/r/.git/index"⟩, ⟨"/r/b.ts"⟩]⟩, .elapse ⟨"/r"⟩, .call ⟨"/r"⟩,
    .hear ⟨"/r"⟩ ⟨.create, [⟨"/r/c.ts"⟩]⟩, .call ⟨"/r"⟩, .call ⟨"/r"⟩, .take ⟨"/r"⟩, .take ⟨"/r"⟩,
    .pass 250, .elapse ⟨"/r"⟩, .call ⟨"/r"⟩, .call ⟨"/r"⟩, .call ⟨"/r"⟩]

/-- A change during a round is answered by a further round. -/
theorem signals_changesMeanwhile :
    ∃ s : State, ({} : State).run? changesMeanwhile = some s ∧
      (s.watch? ⟨"/r"⟩).map (fun w => (w.phase, w.pending)) = some (.idle, 0) ∧
      Signals ⟨"/r"⟩ s (history ⟨"/r"⟩ {} [] changesMeanwhile) := by
  have hrun : (({} : State).run? changesMeanwhile).map
      (fun s => (s.watch? ⟨"/r"⟩).map fun w => (w.phase, w.pending)) = some (some (.idle, 0)) := by
    decide +kernel
  obtain ⟨s, hrun, hidle⟩ := Option.map_eq_some_iff.1 hrun
  exact ⟨s, hrun, hidle, signals_of_run hrun ⟨"/r"⟩⟩

/-- What is seen of it. -/
example : history ⟨"/r"⟩ {} [] changesMeanwhile =
    [.forwarded, .received, .forwarded, .began [0, 1], .called 0, .forwarded, .called 1, .ended,
      .received, .received, .began [0, 1], .called 0, .called 1, .ended] := by
  decide +kernel

end State

end RefGraph.Watch
