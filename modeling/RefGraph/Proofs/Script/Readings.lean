import RefGraph.Script.Parser
import RefGraph.Proofs.Script.States

/-!
# Readings that cannot come to the end

A reading that finds no token at some place, or none but tokens without any text, stays there. It
never comes to the end of the text, and so it is never complete.

* `Reader.StaysAt`: a place that no token leaves behind.
* `Reader.StaysAt.parse?_eq_none`: a text that begins at such a place is malformed.
-/

namespace RefGraph.Script

namespace Reader

variable {r : Reader} {P : List Char → Prop}

/-- The next token of a text with a property is not the end, and leaves a text with that
property. -/
structure StaysAt (r : Reader) (P : List Char → Prop) : Prop where
  table : r.table.IsSound
  start : r.table.IsSoundState r.start
  identifier : r.classNumber .identifier ≠ 0
  next : ∀ s cs place lexed, P cs → r.next? s cs place = some lexed →
    lexed.token ≠ 0 ∧ P lexed.rest

/-- A reading in sound states whose rest has a property. -/
structure IsBefore (r : Reader) (P : List Char → Prop) (reading : Reading) : Prop where
  rest : P reading.rest
  states : ∀ frame ∈ reading.frames, r.table.IsSoundState frame.state

/-! ## Trees -/

/-- The state of a reading is sound. -/
theorem StaysAt.stateOf (h : r.StaysAt P) {reading : Reading} (hreading : r.IsBefore P reading) :
    r.table.IsSoundState (r.stateOf reading) := by
  rw [Reader.stateOf]
  split
  · exact h.start
  · rename_i frame frames hframes
    exact hreading.states frame (hframes ▸ List.mem_cons_self)

/-- A tree may be added with a sound state behind it. -/
theorem IsBefore.push {reading : Reading} (h : r.IsBefore P reading) {state : State}
    (hstate : r.table.IsSoundState state) (tree : Tree) :
    r.IsBefore P (Reader.push state tree reading) :=
  ⟨h.rest, List.forall_mem_cons.2 ⟨hstate, h.states⟩⟩

/-- Frames that are left were there before. -/
theorem mem_of_mem_takeTrees {frame : Frame} : ∀ (count : Nat) (frames : List Frame)
    (taken : List Tree), frame ∈ (takeTrees count frames taken).2 → frame ∈ frames
  | 0, _, _, h => by rwa [takeTrees] at h
  | _ + 1, [], _, h => absurd h List.not_mem_nil
  | count + 1, first :: frames, taken, h => by
    rw [takeTrees] at h
    split at h
    · exact List.mem_cons_of_mem _ (mem_of_mem_takeTrees (count + 1) frames _ h)
    · exact List.mem_cons_of_mem _ (mem_of_mem_takeTrees count frames _ h)

/-- Completing a production keeps to sound states. -/
theorem StaysAt.complete (h : r.StaysAt P) {reading new : Reading}
    (hreading : r.IsBefore P reading) {item : Nat} (hnew : r.complete item reading = some new) :
    r.IsBefore P new := by
  rw [Reader.complete] at hnew
  obtain ⟨state, hmove, rfl⟩ := Option.map_eq_some_iff.1 hnew
  -- The production takes frames away, and its own one is put on those that are left.
  have hbelow : ∀ weight, r.IsBefore P
      { reading with
        frames := (takeTrees (r.table.entry item).item.labels.length
          (reading.frames.dropWhile (·.tree.isExtra)) []).2
        weight } := fun _ =>
    ⟨hreading.rest, fun frame hframe => hreading.states frame
      ((List.dropWhile_sublist _).subset (mem_of_mem_takeTrees _ _ _ hframe))⟩
  have hstate := h.table.move? (h.stateOf (hbelow _)) hmove
  exact List.foldlRecOn (motive := r.IsBefore P) _ _ ((hbelow _).push hstate _)
    fun a ha frame _ => ha.push hstate _

/-! ## Merged readings -/

/-- Of two readings one is chosen. -/
theorem choose_eq (a b : Reading) : choose a b = a ∨ choose a b = b := by
  rw [choose]
  split
  · exact .inr rfl
  split
  · exact .inl rfl
  split
  · exact .inr rfl
  · exact .inl rfl

theorem IsBefore.choose {a b : Reading} (ha : r.IsBefore P a) (hb : r.IsBefore P b) :
    r.IsBefore P (Reader.choose a b) := by
  rcases choose_eq a b with h | h <;> rw [h] <;> assumption

/-- Merging a reading into others leaves readings before the place. -/
theorem forall_merge? {new : Reading} (hnew : r.IsBefore P new) {old merged : List Reading}
    (hold : ∀ a ∈ old, r.IsBefore P a) (h : merge? new old = some merged) :
    ∀ a ∈ merged, r.IsBefore P a := by
  induction old generalizing merged with
  | nil => cases h
  | cons first others ih =>
    obtain ⟨hfirst, hothers⟩ := List.forall_mem_cons.1 hold
    rw [merge?] at h
    split at h
    · rw [← Option.some.inj h]
      exact List.forall_mem_cons.2 ⟨hfirst.choose hnew, hothers⟩
    · obtain ⟨rest, hrest, rfl⟩ := Option.map_eq_some_iff.1 h
      exact List.forall_mem_cons.2 ⟨hfirst, ih hothers hrest⟩

/-- Putting it among them by its weight does so as well. -/
theorem forall_insertReading {new : Reading} (hnew : r.IsBefore P new) {old : List Reading}
    (hold : ∀ a ∈ old, r.IsBefore P a) : ∀ a ∈ insertReading new old, r.IsBefore P a := by
  induction old generalizing new with
  | nil => exact List.forall_mem_singleton.2 hnew
  | cons first others ih =>
    obtain ⟨hfirst, hothers⟩ := List.forall_mem_cons.1 hold
    rw [insertReading]
    split
    · exact List.forall_mem_cons.2 ⟨hfirst.choose hnew, hothers⟩
    split
    · exact List.forall_mem_cons.2 ⟨hnew, ih hfirst hothers⟩
    · exact List.forall_mem_cons.2 ⟨hfirst, ih hnew hothers⟩

/-! ## Rounds -/

/-- All readings of a round are before a place, and none is complete. -/
structure IsBeforeRound (r : Reader) (P : List Char → Prop) (round : Round) : Prop where
  advanced : ∀ a ∈ round.advanced, r.IsBefore P a
  waiting : ∀ a ∈ round.waiting, r.IsBefore P a
  complete : round.complete = none

/-- A new reading is offered to the others and to the other new ones. -/
theorem IsBeforeRound.offer {round : Round} (h : r.IsBeforeRound P round) {fresh : List Reading}
    (hfresh : ∀ a ∈ fresh, r.IsBefore P a) {new : Reading} (hnew : r.IsBefore P new) :
    r.IsBeforeRound P (round.offer fresh new).1 ∧
      ∀ a ∈ (round.offer fresh new).2, r.IsBefore P a := by
  rw [Round.offer]
  split
  · rename_i advanced hadvanced
    exact ⟨⟨forall_merge? hnew h.advanced hadvanced, h.waiting, h.complete⟩, hfresh⟩
  split
  · rename_i waiting hwaiting
    exact ⟨⟨h.advanced, forall_merge? hnew h.waiting hwaiting, h.complete⟩, hfresh⟩
  split
  · rename_i fresh' hfresh'
    exact ⟨h, forall_merge? hnew hfresh hfresh'⟩
  · exact ⟨h, List.forall_mem_append.2 ⟨hfresh, List.forall_mem_singleton.2 hnew⟩⟩

/-- What has come of a reading before a place. -/
structure IsBeforeOutcome (r : Reader) (P : List Char → Prop) (o : Outcome) : Prop where
  round : r.IsBeforeRound P o.round
  fresh : ∀ a ∈ o.fresh, r.IsBefore P a
  shifted : ∀ a ∈ o.shifted, r.IsBefore P a

theorem IsBefore.readToken {reading : Reading} (h : r.IsBefore P reading) {lexed : Lexed}
    (hrest : P lexed.rest) {state : State} (hstate : r.table.IsSoundState state) (extra : Bool) :
    r.IsBefore P (Reader.readToken lexed reading state extra) :=
  ⟨hrest, (h.push hstate _).states⟩

/-- **One action keeps a reading where it is**: it does not complete the whole text. -/
theorem StaysAt.act (h : r.StaysAt P) {lexed : Lexed} (hlexed : lexed.token ≠ 0 ∧ P lexed.rest)
    {reading : Reading} (hreading : r.IsBefore P reading) {o : Outcome}
    (ho : r.IsBeforeOutcome P o) {a : Table.Action}
    (ha : a ∈ r.table.actions (r.stateOf reading) lexed.token) :
    r.IsBeforeOutcome P (r.act lexed reading o a) := by
  have hstate := h.stateOf hreading
  cases a with
  | shift target =>
    refine ⟨ho.round, ho.fresh, fun a ha' => ?_⟩
    rw [← Option.some.inj ha']
    exact hreading.readToken hlexed.2 (h.table.of_shift hstate ha) false
  | complete item =>
    rw [Reader.act]
    split
    · rename_i hwhole
      exact absurd (hstate.eq_zero_of_complete ha (beq_iff_eq.1 hwhole)) hlexed.1
    split
    · exact ho
    · rename_i new hnew
      obtain ⟨hround, hfresh⟩ := ho.round.offer ho.fresh (h.complete hreading hnew)
      exact ⟨hround, hfresh, ho.shifted⟩

/-- **Advancing a reading keeps a round where it is.** -/
theorem StaysAt.advance (h : r.StaysAt P) : ∀ (fuel : Nat) {ahead : Option Lexed}
    {reading : Reading} {round : Round},
    (∀ lexed ∈ ahead, lexed.token ≠ 0 ∧ P lexed.rest) → r.IsBefore P reading →
      r.IsBeforeRound P round → r.IsBeforeRound P (r.advance fuel ahead reading round)
  | 0, _, _, _, _, _, hround => hround
  | fuel + 1, ahead, reading, round, hahead, hreading, hround => by
    have hstate := h.stateOf hreading
    have hnext : ∀ lexed ∈
        (ahead.orElse fun _ => r.next? (r.stateOf reading) reading.rest reading.place),
        lexed.token ≠ 0 ∧ P lexed.rest := by
      cases ahead with
      | none => exact fun lexed hlexed => h.next _ _ _ lexed hreading.rest hlexed
      | some lexed => exact hahead
    rw [Reader.advance]
    dsimp only
    split
    · exact hround
    rename_i lexed hlexed
    have hstays := hnext lexed hlexed
    split
    · exact ⟨List.forall_mem_append.2 ⟨hround.advanced, List.forall_mem_singleton.2
        (hreading.readToken hstays.2 hstate true)⟩, hround.waiting, hround.complete⟩
    split
    · split
      · refine h.advance fuel (fun lexed' hlexed' => ?_) hreading hround
        rw [← Option.some.inj hlexed']
        exact ⟨h.identifier, hstays.2⟩
      · exact hround
    · have houtcome : r.IsBeforeOutcome P ((r.table.actions (r.stateOf reading) lexed.token).foldl
          (r.act lexed reading) { round }) :=
        List.foldlRecOn (motive := r.IsBeforeOutcome P) _ _
          ⟨hround, List.forall_mem_nil _, fun _ h => nomatch h⟩
          fun o ho a ha => h.act hstays hreading ho ha
      split
      · rename_i shifted hshifted
        exact ⟨List.forall_mem_append.2 ⟨houtcome.round.advanced,
          List.forall_mem_singleton.2 (houtcome.shifted shifted hshifted)⟩,
          List.forall_mem_append.2 ⟨houtcome.round.waiting, houtcome.fresh⟩,
          houtcome.round.complete⟩
      · split
        · exact houtcome.round
        · rename_i last others hfresh
          -- The last reading goes on at once, and the others wait.
          have hreverse : ∀ a ∈ last :: others, r.IsBefore P a := fun a ha =>
            houtcome.fresh a (List.mem_reverse.1 (hfresh ▸ ha))
          obtain ⟨hlast, hothers⟩ := List.forall_mem_cons.1 hreverse
          refine h.advance fuel (fun lexed' hlexed' => ?_) hlast
            ⟨houtcome.round.advanced, List.forall_mem_append.2 ⟨houtcome.round.waiting, ?_⟩,
              houtcome.round.complete⟩
          · rw [← Option.some.inj hlexed']
            exact hstays
          · exact fun a ha => hothers a (List.mem_reverse.1 ha)

/-- So does advancing all readings that wait. -/
theorem StaysAt.advanceAll (h : r.StaysAt P) (steps : Nat) : ∀ (fuel : Nat) {round : Round},
    r.IsBeforeRound P round → r.IsBeforeRound P (r.advanceAll steps fuel round)
  | 0, _, hround => hround
  | fuel + 1, round, hround => by
    rw [Reader.advanceAll]
    split
    · exact hround
    · rename_i reading waiting hwaiting
      have hall := hround.waiting
      rw [hwaiting] at hall
      obtain ⟨hreading, hrest⟩ := List.forall_mem_cons.1 hall
      exact h.advanceAll steps fuel (h.advance steps (fun _ hnone => nomatch hnone) hreading
        ⟨hround.advanced, hrest, hround.complete⟩)

/-- **Round after round, no reading is complete.** -/
theorem StaysAt.rounds (h : r.StaysAt P) (steps : Nat) : ∀ (fuel : Nat) {readings : List Reading},
    (∀ a ∈ readings, r.IsBefore P a) → r.rounds steps fuel readings none = none
  | 0, readings, _ => by cases readings <;> rfl
  | fuel + 1, [], _ => rfl
  | fuel + 1, first :: others, hreadings => by
    have hround : r.IsBeforeRound P
        (r.advanceAll steps steps { waiting := first :: others }) :=
      h.advanceAll steps steps ⟨List.forall_mem_nil _, hreadings, rfl⟩
    rw [Reader.rounds, hround.complete]
    · refine h.rounds steps fuel fun a ha => ?_
      refine List.foldlRecOn (motive := fun sorted : List Reading => ∀ a ∈ sorted, r.IsBefore P a)
        _ _ (List.forall_mem_nil _) (fun sorted hsorted new hnew => ?_) a (List.mem_of_mem_take ha)
      exact forall_insertReading (hround.advanced new hnew) hsorted
    · exact List.cons_ne_nil first others

/-- **A text before such a place is malformed.** -/
theorem StaysAt.parse?_eq_none (h : r.StaysAt P) {source : List Char} (hsource : P source) :
    r.parse? source = none := by
  rw [Reader.parse?, h.rounds _ _ (List.forall_mem_singleton.2 ⟨hsource, List.forall_mem_nil _⟩)]
  rfl

end Reader

end RefGraph.Script
