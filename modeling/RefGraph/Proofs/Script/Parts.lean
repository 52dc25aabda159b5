import RefGraph.Script.Production
import Mathlib.Data.List.Basic

/-!
# Parts of a text

No part of a script is a whole script again, and no token contains a NUL character. Both can be seen
from the rules of a grammar as they are written, and hold for the tokens and productions that
are computed from them.

* `Rule.isPart`: what is asked of a rule.
* `Grammar.IsGraded`: what is asked of a grammar.
* `Grammar.IsGraded.isNulFree`, `Grammar.IsGraded.productions`: what follows for tokens and
  productions.
* `isGraded_grammar`: the grammars of all dialects are graded.
-/

namespace RefGraph.Script

open Std (HashMap)

/-! ## Rules as they are written -/

/-- Whether there is no NUL character in a spelling. -/
def isNulFree (spelling : String) : Bool := spelling.toList.all (· != '\x00')

mutual

/-- Whether a rule describes a part of a text: there is no NUL character in its spellings, and
it does not refer to the whole text. -/
def Rule.isPart (whole : String) : Rule → Bool
  | .blank | .lex _ => true
  | .text spelling => isNulFree spelling
  | .ref name => name != whole
  | .seq parts => arePart whole parts
  | .alt choices => arePart whole choices
  | .many1 part | .binding _ _ part | .weighed _ part | .field _ part | .shown _ part =>
    part.isPart whole

/-- `Rule.isPart` for all rules of a list. -/
def arePart (whole : String) : List Rule → Bool
  | [] => true
  | rule :: rules => rule.isPart whole && arePart whole rules

end

variable {whole : String}

theorem arePart_iff {rules : List Rule} :
    arePart whole rules = true ↔ ∀ rule ∈ rules, rule.isPart whole = true := by
  induction rules with
  | nil => exact iff_of_true rfl (List.forall_mem_nil _)
  | cons rule rules ih => rw [arePart, Bool.and_eq_true, List.forall_mem_cons, ih]

mutual

/-- The spellings of a rule are those of its tokens. -/
theorem Rule.isNulFree_of_mem_tokens {spelling : String} : ∀ rule : Rule,
    rule.isPart whole = true → .text spelling ∈ rule.tokens → isNulFree spelling = true
  | .blank, _, hmem | .ref _, _, hmem => absurd hmem List.not_mem_nil
  | .lex _, _, hmem => Token.noConfusion (List.mem_singleton.1 hmem)
  | .text _, hpart, hmem => Token.text.inj (List.mem_singleton.1 hmem) ▸ hpart
  | .seq parts, hpart, hmem => isNulFree_of_mem_tokensOfList parts hpart hmem
  | .alt choices, hpart, hmem => isNulFree_of_mem_tokensOfList choices hpart hmem
  | .many1 part, hpart, hmem | .binding _ _ part, hpart, hmem | .weighed _ part, hpart, hmem
  | .field _ part, hpart, hmem | .shown _ part, hpart, hmem =>
    part.isNulFree_of_mem_tokens hpart hmem

theorem isNulFree_of_mem_tokensOfList {spelling : String} : ∀ rules : List Rule,
    arePart whole rules = true → .text spelling ∈ tokensOfList rules →
      isNulFree spelling = true
  | [], _, hmem => absurd hmem List.not_mem_nil
  | rule :: rules, hpart, hmem => by
    rw [arePart, Bool.and_eq_true] at hpart
    rcases List.mem_append.1 hmem with hmem | hmem
    · exact rule.isNulFree_of_mem_tokens hpart.1 hmem
    · exact isNulFree_of_mem_tokensOfList rules hpart.2 hmem

end

/-! ## Repetitions -/

/-- A named rule describes a part of a text and has another name than the whole. -/
def IsNamedPart (whole : String) (r : String × Rule) : Prop :=
  r.1 ≠ whole ∧ r.2.isPart whole = true

/-- The outcome of naming repetitions: what is left, and what was collected, are parts. -/
def LeavesParts (whole : String) (isPart : α → Bool) (run : StateM Rules α) : Prop :=
  ∀ met, (∀ r ∈ met, IsNamedPart whole r) →
    isPart (run met).1 = true ∧ ∀ r ∈ (run met).2, IsNamedPart whole r

/-- A rule without repetitions is left as it is, and nothing is collected. -/
theorem LeavesParts.pure {isPart : α → Bool} {a : α} (h : isPart a = true) :
    LeavesParts whole isPart (pure a) := fun _ hmet => ⟨h, hmet⟩

theorem LeavesParts.map {isPart : α → Bool} {isPart' : β → Bool} {run : StateM Rules α}
    {f : α → β} (h : LeavesParts whole isPart run) (hf : ∀ a, isPart' (f a) = isPart a) :
    LeavesParts whole isPart' (do return f (← run)) := fun met hmet =>
  ⟨(hf _).trans (h met hmet).1, (h met hmet).2⟩

/-- A name with a plus in it is not that of the whole text. -/
theorem append_plus_ne (hplus : '+' ∉ whole.toList) (owner suffix : String) :
    owner ++ "+" ++ suffix ≠ whole := by
  rintro rfl
  exact hplus (by simp)

mutual

/-- A repetition is named once, and under a name that is not that of the whole text. -/
theorem Rule.leavesParts_nameRepetitions (hplus : '+' ∉ whole.toList) (owner : String) :
    ∀ rule : Rule, rule.isPart whole = true →
      LeavesParts whole (Rule.isPart whole) (rule.nameRepetitions owner)
  | .blank, hpart | .text _, hpart | .lex _, hpart | .ref _, hpart => .pure hpart
  | .seq parts, hpart =>
    (leavesParts_nameRepetitionsList hplus owner parts hpart).map fun _ => rfl
  | .alt choices, hpart =>
    (leavesParts_nameRepetitionsList hplus owner choices hpart).map fun _ => rfl
  | .binding _ _ part, hpart | .weighed _ part, hpart | .field _ part, hpart
  | .shown _ part, hpart =>
    (part.leavesParts_nameRepetitions hplus owner hpart).map fun _ => rfl
  | .many1 part, hpart => by
    intro met hmet
    obtain ⟨hleft, hmet'⟩ := part.leavesParts_nameRepetitions hplus owner hpart met hmet
    rw [Rule.nameRepetitions]
    simp only [bind, StateT.bind, get, getThe, MonadStateOf.get, StateT.get, pure]
    generalize Rule.nameRepetitions owner part met = named at hleft hmet'
    obtain ⟨left, met'⟩ := named
    dsimp only
    cases hfind : met'.find? fun known => known.2 == left with
    | some known =>
      exact ⟨bne_iff_ne.2 (hmet' known (List.mem_of_find?_eq_some hfind)).1, hmet'⟩
    | none =>
      have hname := append_plus_ne hplus owner (toString met'.length)
      refine ⟨bne_iff_ne.2 hname, List.forall_mem_append.2 ⟨hmet', ?_⟩⟩
      exact List.forall_mem_singleton.2 ⟨hname, hleft⟩

theorem leavesParts_nameRepetitionsList (hplus : '+' ∉ whole.toList) (owner : String) :
    ∀ rules : List Rule, arePart whole rules = true →
      LeavesParts whole (arePart whole) (nameRepetitionsList owner rules)
  | [], _ => .pure rfl
  | rule :: rules, hpart => by
    intro met hmet
    rw [arePart, Bool.and_eq_true] at hpart
    obtain ⟨hrule, hmet'⟩ := rule.leavesParts_nameRepetitions hplus owner hpart.1 met hmet
    obtain ⟨hrules, hmet''⟩ := leavesParts_nameRepetitionsList hplus owner rules hpart.2 _ hmet'
    refine ⟨?_, hmet''⟩
    exact Bool.and_eq_true_iff.2 ⟨hrule, hrules⟩

end

/-- The names of the rules stay, and so does what they describe. -/
theorem Rules.leavesParts_nameRepetitions (hplus : '+' ∉ whole.toList) : ∀ rules : Rules,
    (∀ r ∈ rules, r.2.isPart whole = true) → ∀ met : Rules, (∀ r ∈ met, IsNamedPart whole r) →
      (rules.nameRepetitions met).1.map Prod.fst = rules.map Prod.fst ∧
        (∀ r ∈ (rules.nameRepetitions met).1, r.2.isPart whole = true) ∧
        ∀ r ∈ (rules.nameRepetitions met).2, IsNamedPart whole r
  | [], _, _, hmet => ⟨rfl, fun _ hr => absurd hr List.not_mem_nil, hmet⟩
  | (name, rule) :: rules, hrules, met, hmet => by
    obtain ⟨hrule, hrules⟩ := List.forall_mem_cons.1 hrules
    obtain ⟨hleft, hmet'⟩ := rule.leavesParts_nameRepetitions hplus name hrule met hmet
    obtain ⟨hnames, hparts, hmet''⟩ := leavesParts_nameRepetitions hplus rules hrules _ hmet'
    exact ⟨congrArg (name :: ·) hnames, List.forall_mem_cons.2 ⟨hleft, hparts⟩, hmet''⟩

/-! ## Grammars -/

/-- The first rule of a grammar is the whole text, and all rules describe parts of it. -/
structure Grammar.IsGraded (g : Grammar) (whole : String) : Prop where
  first : (g.rules.map Prod.fst).head? = some whole
  plus : '+' ∉ whole.toList
  rules : ∀ r ∈ g.rules, r.2.isPart whole = true
  words : ∀ w ∈ g.words, isNulFree w.2 = true

namespace Grammar.IsGraded

variable {g : Grammar}

/-- The rules without repetitions are graded like the ones that are written. -/
theorem plainRules (h : g.IsGraded whole) :
    (g.plainRules.map Prod.fst).head? = some whole ∧
      ∀ r ∈ g.plainRules, r.2.isPart whole = true := by
  obtain ⟨hnames, hown, hmet⟩ :=
    g.rules.leavesParts_nameRepetitions h.plus h.rules [] fun _ hr => absurd hr List.not_mem_nil
  have hplain : g.plainRules =
      (g.rules.nameRepetitions []).1 ++ (g.rules.nameRepetitions []).2 := rfl
  constructor
  · rw [hplain, List.map_append, hnames]
    rw [List.head?_append, h.first, Option.some_or]
  · rw [hplain]
    exact List.forall_mem_append.2 ⟨hown, fun r hr => (hmet r hr).2⟩

end Grammar.IsGraded

/-! ## Numbers -/

/-- What is numbered is in the list. -/
theorem mem_of_mem_numberTokens {tokens : List Token} {token : Token}
    (h : token ∈ (numberTokens tokens).1) : token ∈ tokens := by
  have hall : ∀ token ∈ (numberTokens tokens).1, token ∈ tokens := by
    refine List.foldlRecOn tokens NumberedTokens.add
      (motive := fun found : NumberedTokens => ∀ token ∈ found.1, token ∈ tokens)
      (fun _ hmem => absurd hmem (Array.not_mem_empty _)) fun found hfound new hnew => ?_
    rw [NumberedTokens.add]
    split
    · exact hfound
    · intro token hmem
      rcases Array.mem_push.1 hmem with hmem | rfl
      · exact hfound token hmem
      · exact hnew
  exact hall token h

/-- The first token of a list is token 0. -/
theorem getElem?_numberTokens (first : Token) (tokens : List Token) :
    (numberTokens (first :: tokens)).1[0]? = some first := by
  refine List.foldlRecOn tokens NumberedTokens.add
    (motive := fun found : NumberedTokens => found.1[0]? = some first) ?_ ?_
  · rw [NumberedTokens.add, HashMap.contains_empty]
    rfl
  · intro found hfound new _
    rw [NumberedTokens.add]
    split
    · exact hfound
    · rw [Array.getElem?_push, if_neg, hfound]
      intro hsize
      rw [Array.getElem?_eq_none (Nat.le_of_eq hsize.symm)] at hfound
      cases hfound

/-- Only the first name of a list has the number 0. -/
theorem getElem?_numberNames {first name : String} (hname : name ≠ first) (names : List String) :
    (numberNames (first :: names))[name]? ≠ some 0 := by
  rw [numberNames, List.zipIdx_cons, List.foldl_cons]
  refine List.foldlRecOn (names.zipIdx (0 + 1)) _
    (motive := fun numbers : HashMap String Nat => numbers[name]? ≠ some 0) ?_ ?_
  · rw [HashMap.getElem?_insert, if_neg (by simpa using hname.symm)]
    simp
  · intro numbers hnumbers new hnew
    dsimp only
    rw [HashMap.getElem?_insert]
    split
    · have hle := (List.mem_zipIdx hnew).1
      intro hzero
      rw [Option.some.inj hzero] at hle
      cases hle
    · exact hnumbers

namespace Grammar.IsGraded

variable {g : Grammar}

/-- The first token is the end of the text. -/
theorem getElem?_tokens (rules : Rules) :
    (Numbering.ofRules g rules).tokens[0]? = some .endOfInput :=
  getElem?_numberTokens _ _

/-- **There is no NUL character in any token.** -/
theorem isNulFree (h : g.IsGraded whole) {spelling : String}
    (hmem : .text spelling ∈ (Numbering.ofRules g g.plainRules).tokens) :
    Script.isNulFree spelling = true := by
  have hlisted := mem_of_mem_numberTokens hmem
  simp only [Grammar.tokens, List.cons_append, List.nil_append, List.mem_cons, List.mem_append,
    reduceCtorEq, false_or, or_false, List.not_mem_nil, List.mem_flatMap, List.mem_map] at hlisted
  rcases hlisted with ⟨r, hr, htoken⟩ | ⟨w, hw, htext⟩
  · exact r.2.isNulFree_of_mem_tokens (h.plainRules.2 r hr) htoken
  · exact Token.text.inj htext ▸ h.words w hw

/-- No name but its own refers to the whole text. -/
theorem symbolOf_ne (h : g.IsGraded whole) {name : String} (hname : name ≠ whole) :
    (Numbering.ofRules g g.plainRules).symbolOf name ≠ .rule 0 := by
  obtain ⟨rest, hrest⟩ := List.head?_eq_some_iff.1 h.plainRules.1
  rw [Numbering.symbolOf]
  split
  · exact Symbol.noConfusion
  · rw [HashMap.getD_eq_getD_getElem?, Numbering.ofRules, hrest]
    intro hzero
    cases hnumber : (numberNames (whole :: rest))[name]? with
    | none =>
      rw [hnumber] at hzero
      have hcount : g.plainRules.length = 0 := Symbol.rule.inj hzero
      rw [List.eq_nil_of_length_eq_zero hcount] at hrest
      cases hrest
    | some i =>
      rw [hnumber] at hzero
      obtain rfl : i = 0 := Symbol.rule.inj hzero
      exact getElem?_numberNames hname rest hnumber

end Grammar.IsGraded

/-! ## Productions -/

/-- No part of a production is the whole text. -/
def Production.HasParts (p : Production) : Prop := ∀ step ∈ p.steps, step.symbol ≠ .rule 0

/-- None of some productions has the whole text as a part. -/
def HaveParts (ps : List Production) : Prop := ∀ p ∈ ps, p.HasParts

/-- Changing the level, side or label of the last part leaves the parts as they are. -/
theorem Production.HasParts.mapLast {p : Production} (h : p.HasParts) {f : Step → Step}
    (hf : ∀ step, (f step).symbol = step.symbol) : (p.mapLast f).HasParts := by
  rw [Production.mapLast]
  split
  · exact h
  · rename_i last before hreverse
    have hsteps : p.steps = before.reverse ++ [last] := by
      rw [← List.reverse_reverse p.steps, hreverse, List.reverse_cons]
    rw [HasParts, hsteps] at h
    intro step hstep
    rw [List.reverse_cons] at hstep
    rcases List.mem_append.1 hstep with hstep | hstep
    · exact h step (List.mem_append_left _ hstep)
    · rw [List.mem_singleton.1 hstep, hf]
      exact h last (List.mem_append_right _ (List.mem_singleton_self _))

namespace HaveParts

theorem append {ps qs : List Production} (h : HaveParts ps) (h' : HaveParts qs) :
    HaveParts (ps ++ qs) := List.forall_mem_append.2 ⟨h, h'⟩

/-- One production behind another has the parts of both. -/
theorem join {ps qs : List Production} (h : HaveParts ps) (h' : HaveParts qs) :
    HaveParts (joinProductions ps qs) := by
  intro r hr
  obtain ⟨p, hp, hr⟩ := List.mem_flatMap.1 hr
  obtain ⟨q, hq, rfl⟩ := List.mem_map.1 hr
  exact List.forall_mem_append.2 ⟨h p hp, h' q hq⟩

theorem map {ps : List Production} (h : HaveParts ps) {f : Production → Production}
    (hf : ∀ p : Production, p.HasParts → (f p).HasParts) : HaveParts (ps.map f) :=
  List.forall_mem_map.2 fun p hp => hf p (h p hp)

/-- Leaving out equal productions adds none. -/
theorem distinct {ps : List Production} (h : HaveParts ps) :
    HaveParts (distinctProductions ps) := by
  intro p hp
  refine List.foldlRecOn (motive := fun acc : Array Production × Std.HashSet Production =>
    ∀ p ∈ acc.1, p.HasParts) ps _ (fun _ hmem => absurd hmem (Array.not_mem_empty _)) ?_ p
      (Array.mem_toList_iff.1 hp)
  intro acc hacc new hnew
  split
  · exact hacc
  · intro p hmem
    rcases Array.mem_push.1 hmem with hmem | rfl
    · exact hacc p hmem
    · exact h p hnew

theorem single {symbol : Symbol} (h : symbol ≠ .rule 0) (level : Option Level) (side : Option Side)
    (label : Label) : HaveParts [⟨0, [⟨symbol, level, side, label⟩]⟩] :=
  List.forall_mem_singleton.2 (List.forall_mem_singleton.2 h)

theorem empty : HaveParts [⟨0, []⟩] := List.forall_mem_singleton.2 (List.forall_mem_nil _)

theorem getD {ofRule : Array (List Production)} (h : ∀ ps ∈ ofRule, HaveParts ps) (i : Nat) :
    HaveParts (ofRule.getD i []) := by
  rw [Array.getD_eq_getD_getElem?]
  cases hget : ofRule[i]? with
  | none => exact List.forall_mem_nil _
  | some ps => exact h ps (Array.mem_of_getElem? hget)

end HaveParts

variable {n : Numbering}

mutual

/-- The productions of a rule have no parts that the rule does not describe. -/
theorem Rule.haveParts_productions (hn : ∀ name, name ≠ whole → n.symbolOf name ≠ .rule 0) :
    ∀ (rule : Rule), rule.isPart whole = true → ∀ around atEnd,
      HaveParts (rule.productions n around atEnd)
  | .blank, _, _, _ => .empty
  | .text _, _, _, _ | .lex _, _, _, _ => .single Symbol.noConfusion _ _ _
  | .ref name, hpart, _, _ => .single (hn name (bne_iff_ne.1 hpart)) _ _ _
  | .seq parts, hpart, around, atEnd => haveParts_sequenceProductions hn parts hpart around atEnd
  | .alt choices, hpart, around, atEnd => haveParts_choiceProductions hn choices hpart around atEnd
  | .many1 part, hpart, around, atEnd => part.haveParts_productions hn hpart around atEnd
  | .binding level side part, hpart, around, atEnd => by
    have hinner := part.haveParts_productions hn hpart
    rw [Rule.productions]
    split
    · exact hinner _ _
    · exact (hinner _ _).map fun p hp => hp.mapLast fun _ => rfl
  | .weighed _ part, hpart, around, atEnd =>
    (part.haveParts_productions hn hpart around atEnd).map fun _ hp => hp
  | .field _ part, hpart, _, atEnd => part.haveParts_productions hn hpart _ atEnd
  | .shown _ part, hpart, _, atEnd => part.haveParts_productions hn hpart _ atEnd

theorem haveParts_sequenceProductions
    (hn : ∀ name, name ≠ whole → n.symbolOf name ≠ .rule 0) :
    ∀ (rules : List Rule), arePart whole rules = true → ∀ around atEnd,
      HaveParts (sequenceProductions n around atEnd rules)
  | [], _, _, _ => .empty
  | rule :: rules, hpart, around, atEnd => by
    rw [arePart, Bool.and_eq_true] at hpart
    exact (rule.haveParts_productions hn hpart.1 _ _).join
      (haveParts_sequenceProductions hn rules hpart.2 _ _)

theorem haveParts_choiceProductions
    (hn : ∀ name, name ≠ whole → n.symbolOf name ≠ .rule 0) :
    ∀ (rules : List Rule), arePart whole rules = true → ∀ around atEnd,
      HaveParts (choiceProductions n around atEnd rules)
  | [], _, _, _ => List.forall_mem_nil _
  | rule :: rules, hpart, around, atEnd => by
    rw [arePart, Bool.and_eq_true] at hpart
    exact (rule.haveParts_productions hn hpart.1 _ _).append
      (haveParts_choiceProductions hn rules hpart.2 _ _)

end

/-! ## Inlined rules -/

/-- A step is replaced by the parts of a production. -/
theorem Step.replaceBy_hasParts (step : Step) {p : Production} (h : p.HasParts) :
    (step.replaceBy p).HasParts := by
  rw [Step.replaceBy]
  refine Production.HasParts.mapLast ?_ fun _ => rfl
  exact List.forall_mem_map.2 h

/-- All productions in a table have parts only. -/
def InlinesParts (inlined : HashMap Nat (List Production)) : Prop :=
  ∀ (i : Nat) (ps : List Production), inlined[i]? = some ps → HaveParts ps

theorem inlinesParts_empty : InlinesParts {} := fun i ps hps => by
  rw [HashMap.getElem?_empty] at hps
  cases hps

/-- What replaces an inlined rule are parts, if those of its own productions are. -/
theorem haveParts_inlineSteps {inlined : HashMap Nat (List Production)}
    (h : InlinesParts inlined) {steps : List Step}
    (hsteps : ∀ step ∈ steps, step.symbol ≠ .rule 0) : HaveParts (inlineSteps inlined steps) := by
  induction steps with
  | nil => exact .empty
  | cons step steps ih =>
    obtain ⟨hstep, hsteps⟩ := List.forall_mem_cons.1 hsteps
    have hsingle : HaveParts [⟨0, [step]⟩] :=
      List.forall_mem_singleton.2 (List.forall_mem_singleton.2 hstep)
    rw [inlineSteps]
    refine HaveParts.join ?_ (ih hsteps)
    split
    · exact hsingle
    · split
      · exact hsingle
      · rename_i ps hps
        exact (h _ ps hps).map fun _ hp => step.replaceBy_hasParts hp

/-- Productions with inlined rules in them have parts only. -/
theorem haveParts_inlineProductions {inlined : HashMap Nat (List Production)}
    (h : InlinesParts inlined) {ps : List Production} (hps : HaveParts ps) :
    HaveParts (inlineProductions inlined ps) := by
  refine HaveParts.distinct fun r hr => ?_
  obtain ⟨p, hp, hr⟩ := List.mem_flatMap.1 hr
  obtain ⟨q, hq, rfl⟩ := List.mem_map.1 hr
  exact haveParts_inlineSteps h (hps p hp) q hq

/-- Passing over the inlined rules again keeps to the parts. -/
theorem inlinesParts_settleInlined {numbers : List Nat} {written : Array (List Production)}
    (hwritten : ∀ i, HaveParts (written.getD i [])) : ∀ (passes : Nat)
    {settled : HashMap Nat (List Production)}, InlinesParts settled →
      InlinesParts (settleInlined numbers written passes settled)
  | 0, _, h => h
  | passes + 1, settled, h => by
    refine inlinesParts_settleInlined hwritten passes ?_
    refine List.foldlRecOn (motive := InlinesParts) numbers _ inlinesParts_empty ?_
    intro m hm i _ j ps hps
    rw [HashMap.getElem?_insert] at hps
    split at hps
    · rw [← Option.some.inj hps]
      exact haveParts_inlineProductions h (hwritten i)
    · exact hm j ps hps

/-- So do all productions once the inlined rules are settled. -/
theorem haveParts_settledProductions {numbers : List Nat} {written : Array (List Production)}
    (h : ∀ ps ∈ written, HaveParts ps) :
    ∀ ps ∈ settledProductions numbers written, HaveParts ps := by
  intro ps hps
  rw [settledProductions, List.mem_toArray] at hps
  obtain ⟨⟨qs, i⟩, hqs, rfl⟩ := List.mem_map.1 hps
  dsimp only
  split
  · exact List.forall_mem_nil _
  · exact haveParts_inlineProductions
      (inlinesParts_settleInlined (HaveParts.getD h) numbers.length inlinesParts_empty)
      (h qs (Array.mem_toList_iff.1 (List.fst_mem_of_mem_zipIdx hqs)))

namespace Grammar.IsGraded

variable {g : Grammar}

/-- Repeating a part leads to parts, since the rule that repeats it is not the first one. -/
theorem writtenProductions (h : g.IsGraded whole) :
    ∀ ps ∈ Script.writtenProductions (.ofRules g g.plainRules) g.rules.length g.plainRules,
      HaveParts ps := by
  have hown : g.rules.length ≠ 0 := by
    intro hzero
    have hfirst := h.first
    rw [List.eq_nil_of_length_eq_zero hzero] at hfirst
    cases hfirst
  intro ps hps
  rw [Script.writtenProductions, List.mem_toArray] at hps
  obtain ⟨⟨r, j⟩, hr, rfl⟩ := List.mem_map.1 hps
  have hpart := h.plainRules.2 r (List.fst_mem_of_mem_zipIdx hr)
  have hplain := (r.2.haveParts_productions (fun _ => h.symbolOf_ne) hpart {} true).distinct
  dsimp only
  split
  · rename_i hle
    refine hplain.append (hplain.map fun p hp => List.forall_mem_cons.2 ⟨?_, hp⟩)
    intro heq
    obtain rfl := Symbol.rule.inj heq
    exact hown (Nat.le_zero.1 hle)
  · exact hplain

/-- **No part of a production is the whole text.** -/
theorem productions (h : g.IsGraded whole) (i : Nat) :
    HaveParts ((Productions.ofGrammar g).ofRule.getD i []) :=
  HaveParts.getD (haveParts_settledProductions h.writtenProductions) i

end Grammar.IsGraded

/-! ## The dialects -/

/-- Amended rules are graded if the old and the new ones are. -/
theorem Rules.forall_amend {P : Rule → Prop} {base changes : Rules} (h : ∀ r ∈ base, P r.2)
    (h' : ∀ r ∈ changes, P r.2) : ∀ r ∈ base.amend changes, P r.2 := by
  intro r hr
  rcases List.mem_append.1 hr with hr | hr
  · obtain ⟨⟨name, rule⟩, hmem, rfl⟩ := List.mem_map.1 hr
    dsimp only
    cases hlookup : changes.lookup name with
    | none => exact h _ hmem
    | some changed =>
      obtain ⟨before, after, hchanges, -⟩ := List.lookup_eq_some_iff.1 hlookup
      exact h' (name, changed) (hchanges ▸ List.mem_append_right _ List.mem_cons_self)
  · exact h' r (List.mem_of_mem_filter hr)

/-- All rules of the untyped dialect describe parts of a program. -/
theorem isPart_untypedRules : ∀ r ∈ Grammar.untypedRules, r.2.isPart "program" = true := by
  decide +kernel

/-- So do the rules that types add to them. -/
theorem isPart_typedRules :
    ∀ r ∈ Grammar.typedRules ++ Grammar.typedMarkupRules, r.2.isPart "program" = true := by
  decide +kernel

theorem isPart_typedMarkupExpressionForms :
    arePart "program" Grammar.typedMarkupExpressionForms = true := by
  decide +kernel

/-- Without markup there is one more form of expression, and one less. -/
theorem isPart_typedExpressionForms : arePart "program" Grammar.typedExpressionForms = true := by
  have hforms := arePart_iff.1 isPart_typedMarkupExpressionForms
  refine arePart_iff.2 (List.forall_mem_cons.2 ⟨by decide +kernel, ?_⟩)
  exact fun rule hrule => hforms rule (List.mem_of_mem_filter hrule)

/-- The grammars with types differ in their forms of expressions only. -/
theorem isGraded_typed {forms : List Rule} (hforms : arePart "program" forms = true) :
    (Grammar.typed forms).IsGraded "program" where
  first := rfl
  plus := by decide +kernel
  rules := by
    refine Rules.forall_amend (P := fun rule => rule.isPart "program" = true) isPart_untypedRules ?_
    exact List.forall_mem_append.2 ⟨isPart_typedRules, List.forall_mem_singleton.2 hforms⟩
  words := by
    show ∀ w ∈ Grammar.sharedWords, isNulFree w.2 = true
    decide +kernel

/-- **The grammars of all dialects are graded.** -/
theorem isGraded_grammar : ∀ d : Dialect, d.grammar.IsGraded "program"
  | .javaScript => ⟨rfl, by decide +kernel, isPart_untypedRules, by decide +kernel⟩
  | .typeScript => isGraded_typed isPart_typedExpressionForms
  | .tsx => isGraded_typed isPart_typedMarkupExpressionForms

end RefGraph.Script
