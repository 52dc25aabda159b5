import RefGraph.Proofs.Glob.Confined

/-!
# Reading a pattern behind another one

What was read before has no say in how the rest of a pattern is read: the tokens that come of the
rest are put behind those that were there. Only `**` looks back, and only at its start: the first
`**` of a pattern stands for any directories, one behind a slash stands for that slash as well, and
one behind another `**` stands for nothing.

* `Glob.readStep`: one step of a reader.
* `Glob.ReadState.onto`: a state of a reader, put onto tokens that were there before.
* `Glob.readFrom_onto`: a run onto tokens is the run without them, put onto them.
* `Glob.readFrom_start`: so is a run from the start, unless the text begins with `**`.
* `Glob.exists_readFrom_dropDirs`: what stands behind `**/` is read past further `**/`.
* `Glob.readFrom_congr_fuel`: a run ends with the text, whatever fuel is left.
* `Glob.readFrom_escape`: an escape before a character that means nothing else.
-/

namespace RefGraph.Glob

/-! ## Steps -/

/-- Reads one part of a pattern: the state behind it, and what is left to be read. -/
def readStep (lenient : Bool) (s : ReadState) (c : Char) (cs : List Char) :
    Except PatternError (ReadState × List Char) :=
  if c = '?' then .ok ((s.push .any).after c, cs)
  else if c = '*' then
    match cs with
    | '*' :: rest => .ok ((readStars s rest).1, rest.drop (readStars s rest).2)
    | _ => .ok ((s.push .star).after c, cs)
  else if c = '[' ∧ !s.openBracket then
    match readWholeClass cs with
    | .error e => .error e
    | .ok (some (t, rest)) => .ok ((s.push t).after ']', rest)
    | .ok none =>
      if lenient then .ok ({ (s.push (.literal c)).after c with openBracket := true }, cs)
      else .error .unclosedClass
  else if c = '{' then .ok ({ s.after c with branches := {} :: s.branches }, cs)
  else if c = '}' then
    match s.branches with
    | [] => .error .unopenedAlternatives
    | b :: bs =>
      .ok (({ s with branches := bs }.push
        (.alternatives (b.tokens.reverse :: b.finished).reverse)).after c, cs)
  else if c = ',' then
    match s.branches with
    | [] => .ok ((s.push (.literal c)).after c, cs)
    | b :: bs =>
      .ok ({ s.after c with branches := { finished := b.tokens.reverse :: b.finished } :: bs }, cs)
  else if c = '\\' then
    match cs with
    | [] => .error .danglingEscape
    | d :: rest => .ok ((s.push (.literal d)).after d, rest)
  else .ok ((s.push (.literal c)).after c, cs)

/-- A run is a step and the run behind it. -/
theorem readFrom_succ (lenient : Bool) (fuel : Nat) (s : ReadState) (c : Char) (cs : List Char) :
    readFrom lenient (fuel + 1) s (c :: cs) =
      (readStep lenient s c cs).bind fun next => readFrom lenient fuel next.1 next.2 := by
  fun_cases readStep lenient s c cs <;> simp_all [readFrom, Except.bind]

/-- A run that succeeds begins with a step that does. -/
theorem exists_readStep_eq_ok {lenient : Bool} {fuel : Nat} {s s' : ReadState} {c : Char}
    {cs : List Char} (h : readFrom lenient (fuel + 1) s (c :: cs) = .ok s') :
    ∃ next, readStep lenient s c cs = .ok next ∧ readFrom lenient fuel next.1 next.2 = .ok s' := by
  rw [readFrom_succ] at h
  cases hstep : readStep lenient s c cs with
  | error e =>
    rw [hstep] at h
    cases h
  | ok next =>
    rw [hstep] at h
    exact ⟨next, rfl, h⟩

/-! ## More tokens before a state -/

namespace ReadState

/-- A state that is put onto tokens that were there before, given last first like its own. -/
def onto (s : ReadState) (before : List Token) : ReadState :=
  { s with outer := s.outer ++ before }

/-- A state that does not look at what was before: something was read outside of all choices, or a
choice is open. No directories stand at its start. -/
structure Settled (s : ReadState) : Prop where
  outer_ne_nil : s.branches = [] → s.outer ≠ []
  leadingDirs_notMem : .leadingDirs ∉ s.outer

variable (s : ReadState) (before : List Token)

@[simp] theorem onto_branches : (s.onto before).branches = s.branches := rfl

@[simp] theorem onto_previous : (s.onto before).previous = s.previous := rfl

@[simp] theorem onto_openBracket : (s.onto before).openBracket = s.openBracket := rfl

@[simp] theorem onto_outer : (s.onto before).outer = s.outer ++ before := rfl

@[simp] theorem mk_append (outer : List Token) (branches : List Branch) (previous : Option Char)
    (openBracket : Bool) : (⟨outer ++ before, branches, previous, openBracket⟩ : ReadState) =
      onto ⟨outer, branches, previous, openBracket⟩ before := rfl

@[simp] theorem onto_after (c : Char) : (s.onto before).after c = (s.after c).onto before := rfl

@[simp] theorem onto_push (t : Token) : (s.onto before).push t = (s.push t).onto before := by
  unfold push setCurrent current onto
  cases s.branches with
  | nil => rfl
  | cons b bs => rfl

variable {s}

theorem Settled.onto_current_isEmpty (h : s.Settled) :
    (s.onto before).current.isEmpty = s.current.isEmpty := by
  obtain ⟨outer, branches, previous, openBracket⟩ := s
  cases branches with
  | nil =>
    obtain ⟨x, xs, rfl⟩ := List.exists_cons_of_ne_nil (h.outer_ne_nil rfl)
    rfl
  | cons b bs => rfl

theorem Settled.onto_pushDirs (h : s.Settled) (t : Token) :
    (s.onto before).pushDirs t = (s.pushDirs t).onto before := by
  obtain ⟨outer, branches, previous, openBracket⟩ := s
  cases branches with
  | nil =>
    obtain ⟨x, xs, rfl⟩ := List.exists_cons_of_ne_nil (h.outer_ne_nil rfl)
    cases x <;> rfl
  | cons b bs =>
    obtain ⟨_ | ⟨x, xs⟩, finished⟩ := b
    · rfl
    · cases x <;> rfl

/-- Two stars behind a settled state do not depend on what was before. -/
theorem Settled.onto_readStars (h : s.Settled) (cs : List Char) :
    readStars (s.onto before) cs = ((readStars s cs).1.onto before, (readStars s cs).2) := by
  unfold readStars
  simp only [h.onto_current_isEmpty, h.onto_pushDirs, onto_push, onto_after, onto_branches,
    onto_previous]
  cases cs with
  | nil => split_ifs <;> rfl
  | cons c cs =>
    dsimp only
    split_ifs <;> rfl

variable (s) in
/-- A step looks at what was before only where it reads two stars. -/
theorem onto_readStep (lenient : Bool) {c : Char} {cs : List Char}
    (hstars : ∀ rest, c :: cs = '*' :: '*' :: rest →
      readStars (s.onto before) rest = ((readStars s rest).1.onto before, (readStars s rest).2)) :
    readStep lenient (s.onto before) c cs =
      (readStep lenient s c cs).map fun next => (next.1.onto before, next.2) := by
  fun_cases readStep lenient s c cs <;> simp_all [readStep, Except.map]

/-! ## Settled states -/

theorem settled_push (h : .leadingDirs ∉ s.outer) {t : Token} (ht : t ≠ .leadingDirs) :
    (s.push t).Settled := by
  obtain ⟨outer, branches, previous, openBracket⟩ := s
  cases branches with
  | nil => exact ⟨fun _ => List.cons_ne_nil t outer, List.not_mem_cons_of_ne_of_not_mem ht.symm h⟩
  | cons b bs => exact ⟨nofun, h⟩

theorem Settled.after (h : s.Settled) (c : Char) : (s.after c).Settled := ⟨h.1, h.2⟩

theorem Settled.pushDirs (h : s.Settled) {t : Token} (ht : t ≠ .leadingDirs) :
    (s.pushDirs t).Settled := by
  unfold ReadState.pushDirs
  split
  · exact h
  · exact h
  · rename_i x rest _ _ hcurrent
    obtain ⟨outer, branches, previous, openBracket⟩ := s
    cases branches with
    | nil =>
      change outer = x :: rest at hcurrent
      subst hcurrent
      exact ⟨fun _ => List.cons_ne_nil t rest,
        List.not_mem_cons_of_ne_of_not_mem ht.symm (List.not_mem_of_not_mem_cons h.2)⟩
    | cons b bs => exact ⟨nofun, h.2⟩
  · exact h

/-- Two stars at the start of a choice stay in that choice. -/
theorem Settled.readStars (h : s.Settled) (cs : List Char) : (readStars s cs).1.Settled := by
  have hleading (hempty : s.current.isEmpty = true) : (s.push .leadingDirs).Settled := by
    obtain ⟨outer, branches, previous, openBracket⟩ := s
    cases branches with
    | nil => exact absurd (List.isEmpty_iff.1 hempty) (h.outer_ne_nil rfl)
    | cons b bs => exact ⟨nofun, h.2⟩
  have hplain : ((s.push .star).push .star).Settled :=
    settled_push (settled_push h.2 Token.noConfusion).2 Token.noConfusion
  fun_cases Glob.readStars s cs with
  | case1 | case2 => exact (hleading ‹_›).after _
  | case3 | case4 | case8 => exact hplain.after _
  | case5 | case6 | case7 => exact (h.pushDirs Token.noConfusion).after _

theorem ne_leadingDirs_of_readWholeClass {cs rest : List Char} {t : Token}
    (h : readWholeClass cs = .ok (some (t, rest))) : t ≠ .leadingDirs := by
  rintro rfl
  unfold readWholeClass at h
  dsimp only [Except.map] at h
  split at h
  · cases h
  · rw [Except.ok.injEq, Option.map_eq_some_iff] at h
    obtain ⟨found, -, hfound⟩ := h
    cases hfound

/-- A step from a state without directories at its start leads to a settled one, if two stars do. -/
theorem settled_of_readStep {lenient : Bool} {c : Char} {cs : List Char}
    {next : ReadState × List Char} (h : .leadingDirs ∉ s.outer)
    (hstars : ∀ rest, c :: cs = '*' :: '*' :: rest → (Glob.readStars s rest).1.Settled)
    (hstep : readStep lenient s c cs = .ok next) : next.1.Settled := by
  have hliteral (d : Char) : ((s.push (.literal d)).after d).Settled :=
    (settled_push h Token.noConfusion).after d
  revert hstep
  -- A step pushes a token, opens or closes a choice, or fails; only two stars need `hstars`.
  fun_cases readStep lenient s c cs with
  | case1 | case3 =>
    rintro ⟨⟩
    exact (settled_push h Token.noConfusion).after _
  | case2 =>
    rename_i hstar _
    rintro ⟨⟩
    exact hstars _ (by rw [hstar])
  | case4 | case7 | case9 | case13 => rintro ⟨⟩
  | case5 =>
    rename_i hclass
    rintro ⟨⟩
    exact (settled_push h (ne_leadingDirs_of_readWholeClass hclass)).after _
  | case6 =>
    rintro ⟨⟩
    exact ⟨(hliteral c).1, (hliteral c).2⟩
  | case8 =>
    rintro ⟨⟩
    exact ⟨nofun, h⟩
  | case10 =>
    rintro ⟨⟩
    refine (settled_push ?_ Token.noConfusion).after _
    exact h
  | case11 | case14 | case15 =>
    rintro ⟨⟩
    exact hliteral _
  | case12 =>
    rintro ⟨⟩
    exact ⟨nofun, h⟩

end ReadState

/-! ## Runs -/

variable {lenient : Bool} {fuel : Nat} {s s' : ReadState} {cs : List Char}

/-- **A run from a settled state does not look at what was before.** The induction is on the steps:
each of them commutes with what was before and leads to a settled state again. -/
theorem readFrom_onto (h : s.Settled) (before : List Token) :
    readFrom lenient fuel (s.onto before) cs =
      (readFrom lenient fuel s cs).map fun s' => s'.onto before := by
  induction fuel generalizing s cs with
  | zero => rfl
  | succ fuel ih =>
    cases cs with
    | nil => rfl
    | cons c cs =>
      rw [readFrom_succ, readFrom_succ,
        ReadState.onto_readStep s before lenient fun rest _ => h.onto_readStars before rest]
      cases hstep : readStep lenient s c cs with
      | error e => rfl
      | ok next =>
        exact ih (ReadState.settled_of_readStep h.2 (fun rest _ => h.readStars rest) hstep)

/-- A run from a settled state ends in one. -/
theorem settled_of_readFrom (h : s.Settled) (hread : readFrom lenient fuel s cs = .ok s') :
    s'.Settled := by
  induction fuel generalizing s cs with
  | zero => exact Except.ok.inj hread ▸ h
  | succ fuel ih =>
    cases cs with
    | nil => exact Except.ok.inj hread ▸ h
    | cons c cs =>
      obtain ⟨next, hstep, hrest⟩ := exists_readStep_eq_ok hread
      exact ih (ReadState.settled_of_readStep h.2 (fun rest _ => h.readStars rest) hstep) hrest

/-! ## The start of a pattern -/

/-- A text that does not begin with directories: neither with `**` and a slash nor with `**` at the
end of the text. -/
def StartsPlain (cs : List Char) : Prop := ¬ ['*', '*', '/'] <+: cs ∧ cs ≠ ['*', '*']

/-- Two stars at the start of such a text are two stars. -/
theorem StartsPlain.readStars {rest : List Char} (h : StartsPlain ('*' :: '*' :: rest))
    (before : List Token) (previous : Option Char) :
    readStars ⟨before, [], previous, false⟩ rest =
      (⟨.star :: .star :: before, [], some '*', false⟩, 0) := by
  cases rest with
  | nil => exact absurd rfl h.2
  | cons c rest =>
    have hc : c ≠ '/' := by
      rintro rfl
      exact h.1 ⟨rest, rfl⟩
    simp [Glob.readStars, hc, ReadState.push, ReadState.setCurrent, ReadState.current,
      ReadState.after]

/-- The first step does not look at what was before. -/
theorem readStep_start {c : Char} (h : StartsPlain (c :: cs)) (before : List Token)
    (previous : Option Char) :
    readStep lenient ⟨before, [], previous, false⟩ c cs =
      (readStep lenient {} c cs).map fun next => (next.1.onto before, next.2) := by
  have hstars : ∀ rest, c :: cs = '*' :: '*' :: rest →
      readStars (ReadState.onto ⟨[], [], previous, false⟩ before) rest =
        ((readStars ⟨[], [], previous, false⟩ rest).1.onto before,
          (readStars ⟨[], [], previous, false⟩ rest).2) := by
    intro rest hrest
    rw [hrest] at h
    rw [ReadState.onto, h.readStars, h.readStars]
    rfl
  -- The character before is looked at only behind tokens, and there are none yet.
  exact ReadState.onto_readStep ⟨[], [], previous, false⟩ before lenient hstars

/-- The first step leads to a settled state. -/
theorem settled_of_readStep_start {c : Char} {next : ReadState × List Char}
    (h : StartsPlain (c :: cs)) (hstep : readStep lenient {} c cs = .ok next) : next.1.Settled := by
  refine ReadState.settled_of_readStep List.not_mem_nil (fun rest hrest => ?_) hstep
  rw [hrest] at h
  rw [h.readStars [] none]
  exact ⟨fun _ => List.cons_ne_nil Token.star [Token.star], by simp⟩

/-- A run over a text that does not begin with directories does not look at what was before. -/
theorem readFrom_start {c : Char} (h : StartsPlain (c :: cs)) (before : List Token)
    (previous : Option Char) :
    readFrom lenient (fuel + 1) ⟨before, [], previous, false⟩ (c :: cs) =
      (readFrom lenient (fuel + 1) {} (c :: cs)).map fun s' => s'.onto before := by
  rw [readFrom_succ, readFrom_succ, readStep_start h]
  cases hstep : readStep lenient {} c cs with
  | error e => rfl
  | ok next => exact readFrom_onto (settled_of_readStep_start h hstep) before

/-- Such a run ends in a settled state. -/
theorem settled_of_readFrom_start {c : Char} (h : StartsPlain (c :: cs))
    (hread : readFrom lenient (fuel + 1) {} (c :: cs) = .ok s') : s'.Settled := by
  obtain ⟨next, hstep, hrest⟩ := exists_readStep_eq_ok hread
  exact settled_of_readFrom (settled_of_readStep_start h hstep) hrest

/-! ## Directories at the start of a pattern -/

/-- A text without the directories at its beginning. -/
def dropDirs : List Char → List Char
  | '*' :: '*' :: '/' :: cs => dropDirs cs
  | cs => cs

/-- A text of nothing but directories, one at least. -/
def IsBareDirs (cs : List Char) : Prop := cs ≠ [] ∧ dropDirs cs = []

instance (cs : List Char) : Decidable (IsBareDirs cs) :=
  inferInstanceAs (Decidable (_ ∧ _))

/-- No directories are left at the beginning. -/
theorem not_isPrefix_dropDirs (cs : List Char) : ¬ ['*', '*', '/'] <+: dropDirs cs := by
  fun_induction dropDirs cs with
  | case1 cs ih => exact ih
  | case2 cs h =>
    rintro ⟨rest, hrest⟩
    exact h rest hrest.symm

/-- A text of nothing but directories ends with a slash. -/
theorem IsBareDirs.getLast?_eq {cs : List Char} (h : IsBareDirs cs) : cs.getLast? = some '/' := by
  obtain ⟨hne, hdrop⟩ := h
  fun_induction dropDirs cs with
  | case1 cs ih =>
    cases cs with
    | nil => rfl
    | cons c cs => exact (ih (List.cons_ne_nil c cs) hdrop).symm ▸ rfl
  | case2 cs _ => exact absurd hdrop hne

/-- A state right behind directories outside of all choices. -/
def ReadState.BehindDirs (s : ReadState) : Prop :=
  ∃ t before, (t = .leadingDirs ∨ t = .innerDirs) ∧ s = ⟨t :: before, [], some '/', false⟩

/-- More directories add nothing to directories. -/
theorem ReadState.BehindDirs.readStep_eq (h : s.BehindDirs) (lenient : Bool) (rest : List Char) :
    readStep lenient s '*' ('*' :: '/' :: rest) = .ok (s, rest) := by
  obtain ⟨t, before, ht | ht, rfl⟩ := h
  · rw [ht]
    rfl
  · rw [ht]
    rfl

/-- What is read behind directories is what stands behind all of them. -/
theorem exists_readFrom_dropDirs (lenient : Bool) {fuel : Nat} (h : cs.length ≤ fuel) :
    ∃ fuel', (dropDirs cs).length ≤ fuel' ∧ ∀ s : ReadState, s.BehindDirs →
      readFrom lenient fuel s cs = readFrom lenient fuel' s (dropDirs cs) := by
  fun_induction dropDirs cs generalizing fuel with
  | case1 cs ih =>
    simp only [List.length_cons] at h
    obtain ⟨fuel, rfl⟩ : ∃ n, fuel = n + 1 := ⟨fuel - 1, by omega⟩
    obtain ⟨fuel', hlength, hread⟩ := ih (show cs.length ≤ fuel by omega)
    refine ⟨fuel', hlength, fun s hs => ?_⟩
    rw [readFrom_succ, hs.readStep_eq]
    exact hread s hs
  | case2 cs _ => exact ⟨fuel, h, fun _ _ => rfl⟩

/-! ## Literal texts -/

/-- A character that means nothing but itself becomes a token. -/
theorem readStep_literal {c : Char} (hc : c ∉ marks) (hclose : c ≠ '}') (outer : List Token)
    (previous : Option Char) :
    readStep lenient ⟨outer, [], previous, false⟩ c cs =
      .ok (⟨.literal c :: outer, [], some c, false⟩, cs) := by
  simp only [marks, List.mem_cons, List.not_mem_nil, or_false, not_or] at hc
  obtain ⟨hquestion, hstar, hbracket, hbrace, hbackslash⟩ := hc
  rw [readStep.eq_def, if_neg hquestion, if_neg hstar, if_neg (fun he => hbracket he.1),
    if_neg hbrace, if_neg hclose, if_neg hbackslash]
  exact ite_self _

/-- A literal text and a slash become their tokens. -/
theorem readFrom_literal_slash {dir rest : List Char} (hdir : IsLiteral dir) (hclose : '}' ∉ dir)
    (outer : List Token) (previous : Option Char) :
    readFrom lenient ((dir ++ '/' :: rest).length) ⟨outer, [], previous, false⟩
        (dir ++ '/' :: rest) =
      readFrom lenient rest.length
        ⟨.literal '/' :: ((literals dir).reverse ++ outer), [], some '/', false⟩ rest := by
  induction dir generalizing outer previous with
  | nil =>
    rw [List.nil_append, List.length_cons, readFrom_succ, readStep_literal (by decide) (by decide)]
    rfl
  | cons c dir ih =>
    rw [List.cons_append, List.length_cons, readFrom_succ,
      readStep_literal (hdir c List.mem_cons_self) (List.ne_of_not_mem_cons hclose).symm]
    refine (ih (fun x hx => hdir x (List.mem_cons_of_mem _ hx))
      (List.not_mem_of_not_mem_cons hclose) _ _).trans ?_
    simp [literals]

/-! ## Fuel -/

theorem length_le_of_readClass {first : Bool} {s : ClassState} {cs rest : List Char}
    {ranges : List (Char × Char)} (h : readClass first s cs = .ok (some (ranges, rest))) :
    rest.length ≤ cs.length := by
  fun_induction readClass first s cs with
  | case1 => cases h
  | case2 =>
    cases h
    exact Nat.le_succ _
  | case3 first s c cs _ _ ih => exact Nat.le_succ_of_le (ih h)
  | case4 => cases h
  | case5 first s c cs _ _ _ ranges _ ih => exact Nat.le_succ_of_le (ih h)
  | case6 first s c cs _ _ _ ih => exact Nat.le_succ_of_le (ih h)

theorem length_le_of_readWholeClass {cs rest : List Char} {t : Token}
    (h : readWholeClass cs = .ok (some (t, rest))) : rest.length ≤ cs.length := by
  have hbody : ∀ (negated : Bool) (body : List Char),
      ((readClass true {} body).map fun found => found.map fun read =>
        (Token.charClass negated read.1.reverse, read.2)) = .ok (some (t, rest)) →
      rest.length ≤ body.length := by
    intro negated body hread
    cases hclass : readClass true {} body with
    | error e =>
      rw [hclass] at hread
      cases hread
    | ok found =>
      rw [hclass, Except.map, Except.ok.injEq, Option.map_eq_some_iff] at hread
      obtain ⟨read, rfl, hfound⟩ := hread
      cases hfound
      exact length_le_of_readClass hclass
  -- A mark of negation at the front is one character more that was read.
  rw [readWholeClass.eq_def] at h
  split at h
  rename_i negated body hmatch
  split at hmatch
  · cases hmatch
    exact Nat.le_succ_of_le (hbody _ _ h)
  · cases hmatch
    exact Nat.le_succ_of_le (hbody _ _ h)
  · cases hmatch
    exact hbody _ _ h

/-- A step takes characters away. -/
theorem length_le_of_readStep {c : Char} {next : ReadState × List Char}
    (h : readStep lenient s c cs = .ok next) : next.2.length ≤ cs.length := by
  revert h
  fun_cases readStep lenient s c cs with
  | case2 s rest =>
    rintro ⟨⟩
    simp only [List.length_cons, List.length_drop]
    omega
  | case5 =>
    rename_i hclass
    rintro ⟨⟩
    exact length_le_of_readWholeClass hclass
  | case14 =>
    rintro ⟨⟩
    exact Nat.le_succ _
  | case4 | case7 | case9 | case13 => rintro ⟨⟩
  | case1 | case3 | case6 | case8 | case10 | case11 | case12 | case15 =>
    rintro ⟨⟩
    exact Nat.le_refl _

/-- **No more characters are read than there are**, so that further fuel makes no difference. -/
theorem readFrom_congr_fuel {fuel' : Nat} (h : cs.length ≤ fuel) (h' : cs.length ≤ fuel') :
    readFrom lenient fuel s cs = readFrom lenient fuel' s cs := by
  induction fuel generalizing fuel' s cs with
  | zero =>
    obtain rfl := List.length_eq_zero_iff.1 (Nat.le_zero.1 h)
    cases fuel' <;> rfl
  | succ fuel ih =>
    cases cs with
    | nil => cases fuel' <;> rfl
    | cons c cs =>
      obtain ⟨fuel', rfl⟩ : ∃ n, fuel' = n + 1 := Nat.exists_eq_succ_of_ne_zero fun he => by
        rw [he] at h'
        cases h'
      rw [readFrom_succ, readFrom_succ]
      cases hstep : readStep lenient s c cs with
      | error e => rfl
      | ok next =>
        have hlength := length_le_of_readStep hstep
        exact ih (Nat.le_trans hlength (Nat.le_of_succ_le_succ h))
          (Nat.le_trans hlength (Nat.le_of_succ_le_succ h'))

/-! ## Escapes -/

/-- An escape before a character that means nothing else makes no difference. -/
theorem readFrom_escape {c : Char} (hc : c ∉ marks) (hclose : c ≠ '}') (outer : List Token)
    (previous : Option Char) (cs : List Char) :
    readFrom lenient (('\\' :: c :: cs).length) ⟨outer, [], previous, false⟩ ('\\' :: c :: cs) =
      readFrom lenient ((c :: cs).length) ⟨outer, [], previous, false⟩ (c :: cs) := by
  have hescape : readStep lenient ⟨outer, [], previous, false⟩ '\\' (c :: cs) =
      .ok (⟨.literal c :: outer, [], some c, false⟩, cs) := rfl
  rw [List.length_cons, List.length_cons, readFrom_succ, readFrom_succ, hescape,
    readStep_literal hc hclose]
  exact readFrom_congr_fuel (Nat.le_succ _) (Nat.le_refl _)

end RefGraph.Glob
