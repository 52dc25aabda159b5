import RefGraph.Script.Automaton
import RefGraph.Proofs.Script.Parts
import Mathlib.Data.Nat.Bitwise

/-!
# States of the automaton

In a state that the automaton of a graded grammar can reach, a production of the whole text is
completed at the end of the text only.

* `Table.IsSound`: what is known of a table, whose items and openings stand for what they should.
* `Table.IsSoundState`: what is known of a state.
* `Grammar.IsGraded.table`, `Table.IsSound.start`, `Table.IsSound.move?`: tables are sound, and all
  their states.
-/

namespace RefGraph.Script

open Std (HashMap)

/-! ## Items -/

/-- An entry stands for an item of a rule. -/
def IsItemOf (entries : Array ItemEntry) (rule i : Nat) : Prop :=
  ∃ e, entries[i]? = some e ∧ e.item.rule = rule

/-- The next part of an item is not the whole text, and the item behind it belongs to the same
rule. -/
structure ItemEntry.IsSound (entries : Array ItemEntry) (e : ItemEntry) : Prop where
  symbol_ne : e.symbol ≠ some (.rule 0)
  after : e.symbol ≠ none → IsItemOf entries e.item.rule e.after

/-- Entries that stay where they are when others are added. -/
def Extends (old new : Array ItemEntry) : Prop :=
  ∀ (i : Nat) (e : ItemEntry), old[i]? = some e → new[i]? = some e

namespace Extends

variable {old new newer : Array ItemEntry}

theorem refl (old : Array ItemEntry) : Extends old old := fun _ _ h => h

theorem trans (h : Extends old new) (h' : Extends new newer) : Extends old newer :=
  fun i e he => h' i e (h i e he)

/-- A new entry goes behind the others. -/
theorem push (old : Array ItemEntry) (e : ItemEntry) : Extends old (old.push e) := by
  intro i e' he
  rw [Array.getElem?_push, if_neg, he]
  rintro rfl
  rw [Array.getElem?_eq_none (Nat.le_refl _)] at he
  cases he

theorem isItemOf (h : Extends old new) {rule i : Nat} (hi : IsItemOf old rule i) :
    IsItemOf new rule i :=
  hi.imp fun e he => ⟨h i e he.1, he.2⟩

/-- An entry that was sound stays so. -/
theorem isSound (h : Extends old new) {e : ItemEntry} (he : e.IsSound old) : e.IsSound new :=
  ⟨he.symbol_ne, fun hsymbol => h.isItemOf (he.after hsymbol)⟩

end Extends

namespace ItemNumbers

/-- Numbers lead to the items that have them, and all entries are sound. -/
structure IsSound (numbers : ItemNumbers) : Prop where
  number : ∀ (item : Item) (i : Nat), numbers.number[item]? = some i →
    IsItemOf numbers.entries item.rule i
  entries : ∀ e ∈ numbers.entries, e.IsSound numbers.entries

/-- An item of a rule was added to others. -/
structure Adds (rule : Nat) (numbers : ItemNumbers) (added : Nat × ItemNumbers) : Prop where
  isSound : added.2.IsSound
  extends_ : Extends numbers.entries added.2.entries
  isItemOf : IsItemOf added.2.entries rule added.1

theorem Adds.trans {rule rule' : Nat} {numbers : ItemNumbers} {added added' : Nat × ItemNumbers}
    (h : Adds rule' numbers added) (h' : Adds rule added.2 added') : Adds rule numbers added' :=
  ⟨h'.isSound, h.extends_.trans h'.extends_, h'.isItemOf⟩

/-- A sound entry may be added under its number. -/
theorem IsSound.push {rule : Nat} {numbers : ItemNumbers} (h : numbers.IsSound) {e : ItemEntry}
    (hrule : e.item.rule = rule) (he : e.IsSound numbers.entries) :
    Adds rule numbers (numbers.push e) := by
  subst hrule
  have hextends := Extends.push numbers.entries e
  have hnew : IsItemOf (numbers.push e).2.entries e.item.rule numbers.entries.size :=
    ⟨e, Array.getElem?_push_size, rfl⟩
  refine ⟨⟨fun item i hi => ?_, fun e' he' => ?_⟩, hextends, hnew⟩
  · rw [ItemNumbers.push, HashMap.getElem?_insert] at hi
    split at hi
    · rename_i heq
      rw [← Option.some.inj hi, ← beq_iff_eq.1 heq]
      exact hnew
    · exact hextends.isItemOf (h.number item i hi)
  · rcases Array.mem_push.1 he' with he' | rfl
    · exact hextends.isSound (h.entries e' he')
    · exact hextends.isSound he

theorem isSound_empty : IsSound {} where
  number item i hi := by
    rw [HashMap.getElem?_empty] at hi
    cases hi
  entries e he := absurd he (Array.not_mem_empty e)

/-- Adding an item of a production adds the ones behind it first. -/
theorem IsSound.add (first : Array TokenSet) (rule : Nat) (weight : Int) {rest : List Step}
    (hrest : ∀ step ∈ rest, step.symbol ≠ .rule 0) (labels : List Label) (level : Option Level)
    (side : Option Side) {numbers : ItemNumbers} (h : numbers.IsSound) :
    Adds rule numbers (ItemNumbers.add first rule weight labels level side rest numbers) := by
  induction rest generalizing labels level side numbers with
  | nil =>
    rw [ItemNumbers.add]
    split
    · rename_i i hi
      exact ⟨h, .refl _, h.number _ i hi⟩
    · exact h.push rfl ⟨by simp, fun hnone => absurd rfl hnone⟩
  | cons step steps ih =>
    rw [ItemNumbers.add]
    split
    · rename_i i hi
      exact ⟨h, .refl _, h.number _ i hi⟩
    · obtain ⟨hstep, hsteps⟩ := List.forall_mem_cons.1 hrest
      have hadded := ih hsteps (step.label :: labels) step.level step.side h
      refine hadded.trans (hadded.isSound.push rfl ⟨?_, fun _ => hadded.isItemOf⟩)
      exact fun heq => hstep (Option.some.inj heq)

end ItemNumbers

/-! ## Beginnings -/

/-- What begins with a symbol are items of the rules that are told with them. -/
def AreItems (entries : Array ItemEntry) (begun : Array (Array (Nat × Nat))) : Prop :=
  ∀ n, ∀ q ∈ begun.getD n #[], IsItemOf entries q.1 q.2

theorem AreItems.extends_ {old new : Array ItemEntry} {begun : Array (Array (Nat × Nat))}
    (h : AreItems old begun) (hextends : Extends old new) : AreItems new begun :=
  fun n q hq => hextends.isItemOf (h n q hq)

theorem AreItems.replicate (entries : Array ItemEntry) (count : Nat) :
    AreItems entries (Array.replicate count #[]) := by
  intro n q hq
  rw [Array.getD_eq_getD_getElem?, Array.getElem?_replicate] at hq
  split at hq <;> exact absurd hq (Array.not_mem_empty q)

/-- An item may be told under another symbol with which it begins. -/
theorem AreItems.add {entries : Array ItemEntry} {begun : Array (Array (Nat × Nat))}
    (h : AreItems entries begun) {rule i : Nat} (hi : IsItemOf entries rule i) (symbol : Nat) :
    AreItems entries (addBeginning begun symbol (rule, i)) := by
  intro n q hq
  have hold := h n q
  rw [Array.getD_eq_getD_getElem?] at hq hold
  rw [addBeginning, Array.getElem?_modify] at hq
  split at hq
  · cases hfound : begun[n]? with
    | none =>
      rw [hfound] at hq
      exact absurd hq (Array.not_mem_empty _)
    | some found =>
      rw [hfound, Option.getD_some] at hold
      rw [hfound, Option.map_some, Option.getD_some] at hq
      split at hq
      · exact hold hq
      · rcases Array.mem_push.1 hq with hq | rfl
        · exact hold hq
        · exact hi
  · exact hold hq

namespace Beginnings

/-- The items that were numbered are sound, and those that begin with a symbol are told with their
rules. -/
structure IsSound (b : Beginnings) : Prop where
  numbers : b.numbers.IsSound
  withToken : AreItems b.numbers.entries b.withToken
  withRule : AreItems b.numbers.entries b.withRule

/-- The items of a production are added from the second part on. -/
theorem IsSound.add {b : Beginnings} (h : b.IsSound) (first : Array TokenSet) (rule : Nat)
    {p : Production} (hp : p.HasParts) : (b.add first rule p).IsSound := by
  rw [Beginnings.add]
  split
  · exact h
  · rename_i step rest hsteps
    have hrest : ∀ step ∈ rest, step.symbol ≠ .rule 0 :=
      fun step hstep => hp step (hsteps ▸ List.mem_cons_of_mem _ hstep)
    have hadded := h.numbers.add first rule p.weight hrest [step.label] step.level step.side
    have htoken := h.withToken.extends_ hadded.extends_
    have hrule := h.withRule.extends_ hadded.extends_
    dsimp only
    split
    · exact ⟨hadded.isSound, htoken.add hadded.isItemOf _, hrule⟩
    · exact ⟨hadded.isSound, htoken, hrule.add hadded.isItemOf _⟩

theorem isSound_ofProductions (first : Array TokenSet) (tokenCount : Nat)
    {ofRule : Array (List Production)} (h : ∀ i, HaveParts (ofRule.getD i [])) :
    (ofProductions first tokenCount ofRule).IsSound := by
  refine List.foldlRecOn (motive := IsSound) _ _ ?_ fun b hb i _ => ?_
  · exact ⟨ItemNumbers.isSound_empty, .replicate _ _, .replicate _ _⟩
  · exact List.foldlRecOn (motive := IsSound) _ _ hb fun b hb p hp => hb.add first i (h i p hp)

end Beginnings

/-- The items of the whole text are added to the others. -/
theorem ItemNumbers.IsSound.initialItems (first : Array TokenSet) {ps : List Production}
    (h : HaveParts ps) {numbers : ItemNumbers} (hnumbers : numbers.IsSound) :
    (Script.initialItems first ps numbers).2.IsSound ∧
      Extends numbers.entries (Script.initialItems first ps numbers).2.entries := by
  refine List.foldlRecOn (motive := fun acc : List Nat × ItemNumbers =>
    acc.2.IsSound ∧ Extends numbers.entries acc.2.entries) _ _ ⟨hnumbers, .refl _⟩ ?_
  intro acc hacc p hp
  have hadded := hacc.1.add first 0 p.weight (h p hp) [] none none
  exact ⟨hadded.isSound, hacc.2.trans hadded.extends_⟩

/-! ## Openings -/

/-- The rules of openings are parts. -/
def OpenParts (found : List Opening) : Prop := ∀ o ∈ found, o.rule ≠ 0

/-- Openings with the same rule are joined into one with that rule. -/
theorem OpenParts.join {found : List Opening} (h : OpenParts found) {o : Opening}
    (ho : o.rule ≠ 0) : OpenParts (joinOpening found o) := by
  rw [joinOpening]
  split
  · exact List.forall_mem_cons.2 ⟨ho, h⟩
  · refine List.forall_mem_map.2 fun a ha => ?_
    split
    · exact h a ha
    · exact h a ha

/-- The rule with which a production begins is a part of it. -/
theorem Production.HasParts.opening? {p : Production} (h : p.HasParts) {first : Array TokenSet}
    {o : Opening} (ho : p.opening? first = some o) : o.rule ≠ 0 := by
  have hhead : ∃ step ∈ p.steps, step.symbol = .rule o.rule := by
    rw [Production.opening?] at ho
    split at ho
    case h_3 => cases ho
    all_goals
      rename_i hsteps
      cases ho
      exact ⟨_, hsteps ▸ List.mem_cons_self, rfl⟩
  obtain ⟨step, hstep, hsymbol⟩ := hhead
  exact fun hzero => h step hstep (hsymbol.trans (congrArg Symbol.rule hzero))

/-- So the rules with which the productions of a rule begin are parts. -/
theorem openParts_directOpenings (first : Array TokenSet) {ps : List Production}
    (h : HaveParts ps) : OpenParts (directOpenings first ps) := by
  refine List.foldlRecOn (motive := OpenParts) _ _ (List.forall_mem_nil _) ?_
  intro found hfound o ho
  obtain ⟨p, hp, ho⟩ := List.mem_filterMap.1 ho
  exact hfound.join ((h p hp).opening? ho)

/-- The rules of the openings that were found in a search are parts. -/
def FindsParts (found : HashMap Nat Opening) : Prop :=
  ∀ (i : Nat) (o : Opening), found[i]? = some o → o.rule ≠ 0

theorem FindsParts.insert {found : HashMap Nat Opening} (h : FindsParts found) {o : Opening}
    (ho : o.rule ≠ 0) (i : Nat) : FindsParts (found.insert i o) := by
  intro j o' hj
  rw [HashMap.getElem?_insert] at hj
  split at hj
  · rw [← Option.some.inj hj]
    exact ho
  · exact h j o' hj

theorem FindsParts.add {search : OpeningSearch} (h : FindsParts search.2) {o : Opening}
    (ho : o.rule ≠ 0) : FindsParts (search.add o).2 := by
  rw [OpeningSearch.add]
  split
  · exact h.insert ho _
  · rename_i old hold
    dsimp only
    split
    · exact h
    · exact h.insert (o := o.or old) ho _

/-- Following the direct openings from rule to rule finds no others. -/
theorem findsParts_growOpenings {direct : Array (List Opening)}
    (h : ∀ i, OpenParts (direct.getD i [])) : ∀ (fuel : Nat) (work : List Nat)
      {found : HashMap Nat Opening}, FindsParts found →
      FindsParts (growOpenings direct fuel work found)
  | 0, _, _, hfound => hfound
  | _ + 1, [], _, hfound => hfound
  | fuel + 1, i :: work, found, hfound => by
    refine findsParts_growOpenings h fuel _ ?_
    exact List.foldlRecOn (motive := fun search : OpeningSearch => FindsParts search.2) _ _ hfound
      fun search hsearch o ho => hsearch.add (h i o ho)

/-- Whatever a rule that is a part begins with, it is a part. -/
theorem rule_ne_of_mem_openingsOf {first : Array TokenSet} {tokenCount : Nat}
    {ofRule : Array (List Production)} (h : ∀ i, HaveParts (ofRule.getD i [])) {r : Nat}
    (hr : r ≠ 0) {o : Opening} (ho : o ∈ (openingsOf first tokenCount ofRule).getD r #[]) :
    o.rule ≠ 0 := by
  have hdirect : ∀ i, OpenParts ((ofRule.map (directOpenings first)).getD i []) := by
    intro i o ho
    rw [Array.getD_eq_getD_getElem?, Array.getElem?_map] at ho
    have hi := h i
    rw [Array.getD_eq_getD_getElem?] at hi
    cases hps : ofRule[i]? with
    | none =>
      rw [hps] at ho
      exact absurd ho List.not_mem_nil
    | some ps =>
      rw [hps] at ho hi
      exact openParts_directOpenings first hi o ho
  have hstart : FindsParts (HashMap.ofList [(r, ⟨r, 0, true⟩)]) := by
    rw [HashMap.ofList_singleton]
    exact FindsParts.insert (fun i o hi => by simp at hi) hr r
  rw [openingsOf, Array.getD_eq_getD_getElem?, Array.getElem?_map] at ho
  cases hrange : (Array.range ofRule.size)[r]? with
  | none =>
    rw [hrange] at ho
    exact absurd ho (Array.not_mem_empty o)
  | some r' =>
    have hsame : r' = r := by
      obtain ⟨_, hget⟩ := Array.getElem?_eq_some_iff.1 hrange
      rw [← hget, Array.getElem_range]
    rw [hrange, hsame] at ho
    obtain ⟨⟨i, o'⟩, hmem, rfl⟩ := Array.mem_map.1 ho
    exact findsParts_growOpenings hdirect _ _ hstart i o'
      (HashMap.mem_toArray_iff_getElem?_eq_some.1 hmem)

/-! ## Tables -/

/-- What is known of a table: its entries are sound, items are told with their rules, and no rule
begins with the whole text. -/
structure Table.IsSound (t : Table) : Prop where
  entries : ∀ e ∈ t.entries, e.IsSound t.entries
  beginWithToken : AreItems t.entries t.beginWithToken
  beginWithRule : AreItems t.entries t.beginWithRule
  openings : ∀ r ≠ 0, ∀ o ∈ t.openings.getD r #[], o.rule ≠ 0

/-- **The table of a graded grammar is sound.** -/
theorem Grammar.IsGraded.table {g : Grammar} {whole : String} (h : g.IsGraded whole) :
    (Table.ofGrammar g).IsSound := by
  have hbegun := Beginnings.isSound_ofProductions (Table.ofGrammar g).first
    (Productions.ofGrammar g).tokens.size h.productions
  obtain ⟨hnumbers, hextends⟩ :=
    hbegun.numbers.initialItems (Table.ofGrammar g).first (h.productions 0)
  exact ⟨hnumbers.entries, hbegun.withToken.extends_ hextends, hbegun.withRule.extends_ hextends,
    fun r hr o ho => rule_ne_of_mem_openingsOf h.productions hr ho⟩

/-! ## States -/

/-- Adding an item to a list keeps what holds of its items, if it holds of sets that are joined. -/
theorem forall_insertItem {P : Nat → TokenSet → Prop}
    (hor : ∀ i a b, P i a → P i b → P i (a ||| b)) {i : Nat} {follow : TokenSet}
    (hi : P i follow) {kernel : List (Nat × TokenSet)} (h : ∀ x ∈ kernel, P x.1 x.2) :
    ∀ x ∈ insertItem i follow kernel, P x.1 x.2 := by
  induction kernel with
  | nil => exact List.forall_mem_singleton.2 hi
  | cons x rest ih =>
    obtain ⟨hx, hrest⟩ := List.forall_mem_cons.1 h
    rw [insertItem]
    split
    · exact List.forall_mem_cons.2 ⟨hi, h⟩
    · split
      · rename_i heq
        rw [beq_iff_eq] at heq
        exact List.forall_mem_cons.2 ⟨hor _ _ _ hx (heq ▸ hi), hrest⟩
      · exact List.forall_mem_cons.2 ⟨hx, ih hrest⟩

namespace Table

variable {t : Table}

/-- An item of the whole text may be followed by the end of the text only. -/
def FollowsWhole (t : Table) (i : Nat) (follow : TokenSet) : Prop :=
  (t.entry i).item.rule = 0 → ∀ token, follow.testBit token = true → token = 0

/-- What may follow by one of two sets may follow by their union. -/
theorem FollowsWhole.or (i : Nat) (a b : TokenSet) (ha : t.FollowsWhole i a)
    (hb : t.FollowsWhole i b) : t.FollowsWhole i (a ||| b) := by
  intro hi token htoken
  rw [Nat.testBit_lor, Bool.or_eq_true] at htoken
  exact htoken.elim (ha hi token) (hb hi token)

/-- What is known of a state: the whole text ends where the text ends, and nothing that begins in
the state is the whole text. -/
structure IsSoundState (t : Table) (s : State) : Prop where
  kernel : ∀ x ∈ s.kernel, t.FollowsWhole x.1 x.2
  ahead : s.ahead.getD 0 0 = 0

/-- No item goes on with the whole text. -/
theorem IsSound.symbol_ne (h : t.IsSound) (i : Nat) : (t.entry i).symbol ≠ some (.rule 0) := by
  rw [entry, Array.getD_eq_getD_getElem?]
  cases he : t.entries[i]? with
  | none =>
    have hdefault : (default : ItemEntry).symbol = none := rfl
    rw [Option.getD_none, hdefault]
    simp
  | some e => exact (h.entries e (Array.mem_of_getElem? he)).symbol_ne

/-- An item is found where it is. -/
theorem rule_entry {rule i : Nat} (h : IsItemOf t.entries rule i) :
    (t.entry i).item.rule = rule := by
  obtain ⟨e, he, hrule⟩ := h
  rw [entry, Array.getD_eq_getD_getElem?, he]
  exact hrule

/-- The item behind the next part belongs to the same rule. -/
theorem IsSound.rule_after (h : t.IsSound) {i : Nat} (hi : (t.entry i).symbol ≠ none) :
    (t.entry (t.entry i).after).item.rule = (t.entry i).item.rule := by
  refine rule_entry ?_
  rw [entry, Array.getD_eq_getD_getElem?] at hi ⊢
  cases he : t.entries[i]? with
  | none =>
    rw [he] at hi
    exact absurd rfl hi
  | some e =>
    rw [he] at hi
    exact (h.entries e (Array.mem_of_getElem? he)).after hi

/-- The rules that come next are parts. -/
theorem IsSound.rulesNext_ne (h : t.IsSound) (kernel : List (Nat × TokenSet)) :
    ∀ x ∈ t.rulesNext kernel, x.1 ≠ 0 := by
  refine List.foldlRecOn (motive := fun found : List (Nat × TokenSet) => ∀ x ∈ found, x.1 ≠ 0)
    _ _ (List.forall_mem_nil _) fun found hfound x _ => ?_
  dsimp only
  split
  · rename_i r hr
    refine forall_insertItem (P := fun r _ => r ≠ 0) (fun _ _ _ hr _ => hr) ?_ hfound
    rintro rfl
    exact h.symbol_ne _ hr
  · exact hfound

/-- Rules that are parts open none but parts, so nothing may follow the whole text inside. -/
theorem IsSound.tokensAhead (h : t.IsSound) {next : List (Nat × TokenSet)}
    (hnext : ∀ x ∈ next, x.1 ≠ 0) : (t.tokensAhead next).getD 0 0 = 0 := by
  refine List.foldlRecOn (motive := fun ahead : Array TokenSet => ahead.getD 0 0 = 0) _ _ ?_
    fun ahead hahead x hx => ?_
  · rw [Array.getD_eq_getD_getElem?, Array.getElem?_replicate]
    split <;> rfl
  · dsimp only
    rw [← Array.foldl_toList]
    refine List.foldlRecOn (motive := fun ahead : Array TokenSet => ahead.getD 0 0 = 0) _ _ hahead
      fun ahead hahead o ho => ?_
    have hrule := h.openings x.1 (hnext x hx) o (Array.mem_toList_iff.1 ho)
    rw [Array.getD_eq_getD_getElem?] at hahead ⊢
    rwa [addAhead, Array.getElem?_modify, if_neg hrule]

/-- A set of items makes a sound state if the items of the whole text among them are followed by its
end only. -/
theorem IsSound.stateOf (h : t.IsSound) {kernel : List (Nat × TokenSet)}
    (hkernel : ∀ x ∈ kernel, t.FollowsWhole x.1 x.2) : t.IsSoundState (t.stateOf kernel) :=
  ⟨hkernel, h.tokensAhead (h.rulesNext_ne kernel)⟩

/-- The first state is sound. -/
theorem IsSound.start (h : t.IsSound) : t.IsSoundState t.start := by
  refine h.stateOf ?_
  refine List.foldlRecOn (motive := fun kernel : List (Nat × TokenSet) =>
    ∀ x ∈ kernel, t.FollowsWhole x.1 x.2) _ _ (List.forall_mem_nil _) fun kernel hkernel i _ => ?_
  refine forall_insertItem FollowsWhole.or (fun _ token htoken => ?_) hkernel
  exact (Nat.testBit_one_eq_true_iff_self_eq_zero).1 htoken

/-- Items behind a symbol belong to the rules they belonged to before it. -/
theorem IsSound.moved (h : t.IsSound) {s : State} (hs : t.IsSoundState s) (symbol : Symbol) :
    ∀ x ∈ t.moved s symbol, t.FollowsWhole x.1 x.2 := by
  refine List.foldlRecOn (motive := fun kernel : List (Nat × TokenSet) =>
    ∀ x ∈ kernel, t.FollowsWhole x.1 x.2) _ _ (List.forall_mem_nil _) fun kernel hkernel x hx => ?_
  dsimp only
  split
  · rename_i hsymbol
    have hne : (t.entry x.1).symbol ≠ none := by
      rw [beq_iff_eq.1 hsymbol]
      exact Option.some_ne_none symbol
    refine forall_insertItem FollowsWhole.or (fun hwhole => ?_) hkernel
    exact hs.kernel x hx ((h.rule_after hne).symm.trans hwhole)
  · exact hkernel

/-- Items that begin with a symbol belong to parts, unless the whole text could begin here. -/
theorem IsSound.addBegun (h : t.IsSound) {s : State} (hs : t.IsSoundState s) {symbol : Symbol}
    {q : Nat × Nat} (hq : q ∈ t.beginWith symbol) {kernel : List (Nat × TokenSet)}
    (hkernel : ∀ x ∈ kernel, t.FollowsWhole x.1 x.2) :
    ∀ x ∈ Table.addBegun s kernel q, t.FollowsWhole x.1 x.2 := by
  have hitem : IsItemOf t.entries q.1 q.2 := by
    cases symbol with
    | token n => exact h.beginWithToken n q hq
    | rule n => exact h.beginWithRule n q hq
  rw [Table.addBegun]
  split
  · exact hkernel
  · rename_i hfollow
    refine forall_insertItem FollowsWhole.or (fun hwhole => ?_) hkernel
    -- Nothing may follow the whole text in this state.
    have hrule : q.1 = 0 := (rule_entry hitem).symm.trans hwhole
    rw [hrule, hs.ahead] at hfollow
    exact absurd rfl hfollow

/-- **Reading on leads from sound states to sound ones.** -/
theorem IsSound.move? (h : t.IsSound) {s s' : State} (hs : t.IsSoundState s) {symbol : Symbol}
    (hmove : t.move? s symbol = some s') : t.IsSoundState s' := by
  rw [Table.move?] at hmove
  split at hmove
  · cases hmove
  · obtain rfl := Option.some.inj hmove
    refine h.stateOf ?_
    rw [← Array.foldl_toList]
    refine List.foldlRecOn (motive := fun kernel : List (Nat × TokenSet) =>
      ∀ x ∈ kernel, t.FollowsWhole x.1 x.2) _ _ (h.moved hs symbol) fun kernel hkernel q hq => ?_
    exact h.addBegun hs (Array.mem_toList_iff.1 hq) hkernel

/-! ## Actions -/

/-- Adding an item that may be completed adds no other one. -/
theorem mem_of_mem_add {c : Completions} {i j : Nat} {item : Item}
    (h : j ∈ (c.add t i item).items) : j ∈ c.items ∨ j = i := by
  rw [Completions.add] at h
  split at h
  · exact .inr (List.mem_singleton.1 h)
  · split at h
    · exact .inr (List.mem_singleton.1 h)
    · exact .inl h
    · exact (List.mem_append.1 h).imp_right List.mem_singleton.1

/-- What may be completed is the production of an item of the state, with the token behind it. -/
theorem exists_of_mem_completions {s : State} {token i : Nat}
    (h : i ∈ (t.completions s token).items) :
    ∃ follow, (i, follow) ∈ s.kernel ∧ follow.testBit token = true := by
  refine List.foldlRecOn (motive := fun c : Completions => ∀ i ∈ c.items,
    ∃ follow, (i, follow) ∈ s.kernel ∧ follow.testBit token = true) s.kernel _
      (List.forall_mem_nil _) (fun c hc x hx => ?_) i h
  dsimp only
  split
  · rename_i hdone
    rw [Bool.and_eq_true] at hdone
    intro j hj
    rcases mem_of_mem_add hj with hj | rfl
    · exact hc j hj
    · exact ⟨x.2, hx, hdone.2⟩
  · exact hc

/-- Whichever of two lists is taken. -/
theorem of_mem_ite {a : Action} {as bs : List Action} {c : Prop} [Decidable c] {P : Prop}
    (h : a ∈ if c then as else bs) (has : a ∈ as → P) (hbs : a ∈ bs → P) : P := by
  split at h
  · exact has h
  · exact hbs h

/-- What is done is to complete something or to read on. -/
theorem mem_actions {s : State} {token : Nat} {a : Action} (h : a ∈ t.actions s token) :
    (∃ i ∈ (t.completions s token).items, a = .complete i) ∨
      ∃ target, t.move? s (.token token) = some target ∧ a = .shift target := by
  have hdone (ha : a ∈ (t.completions s token).items.map Action.complete) :
      ∃ i ∈ (t.completions s token).items, a = .complete i := by
    obtain ⟨i, hi, rfl⟩ := List.mem_map.1 ha
    exact ⟨i, hi, rfl⟩
  rw [actions] at h
  dsimp only at h
  split at h
  · exact .inl (hdone h)
  · rename_i target htarget
    have hread (ha : a ∈ [Action.shift target]) :
        ∃ target, t.move? s (.token token) = some target ∧ a = .shift target :=
      ⟨target, htarget, List.mem_singleton.1 ha⟩
    -- However the one is weighed against the other, what is left is some of both.
    refine of_mem_ite h (.inr ∘ hread) fun h => of_mem_ite h (.inl ∘ hdone) fun h => ?_
    refine of_mem_ite h (.inr ∘ hread) fun h => of_mem_ite h (.inl ∘ hdone) fun h => ?_
    refine of_mem_ite h (fun h => (List.mem_append.1 h).imp hdone hread) fun h => ?_
    refine of_mem_ite h (.inl ∘ hdone) fun h => of_mem_ite h (.inr ∘ hread) fun h => ?_
    exact (List.mem_append.1 h).imp hdone hread

/-- **The whole text is completed at its end only.** -/
theorem IsSoundState.eq_zero_of_complete {s : State} (hs : t.IsSoundState s) {token i : Nat}
    (h : .complete i ∈ t.actions s token) (hi : (t.entry i).item.rule = 0) : token = 0 := by
  rcases mem_actions h with ⟨j, hj, heq⟩ | ⟨_, _, heq⟩
  · obtain rfl := Action.complete.inj heq
    obtain ⟨follow, hmem, htoken⟩ := exists_of_mem_completions hj
    exact hs.kernel _ hmem hi token htoken
  · cases heq

/-- Reading a token leads to a sound state. -/
theorem IsSound.of_shift (h : t.IsSound) {s target : State} (hs : t.IsSoundState s) {token : Nat}
    (hshift : .shift target ∈ t.actions s token) : t.IsSoundState target := by
  rcases mem_actions hshift with ⟨_, _, heq⟩ | ⟨_, hmove, heq⟩
  · cases heq
  · obtain rfl := Action.shift.inj heq
    exact h.move? hs hmove

end Table

end RefGraph.Script
