import RefGraph.Extraction
import RefGraph.Proofs.Script.Contextual
import RefGraph.Proofs.Script.Readings

/-!
# Scripts with a NUL character

A NUL character ends a script for all tokens, though not for the grammar: no token goes beyond it,
and the end of the text is not there. So no reading of such a script comes to the end.

* `Reader.HasOwnEnd.next?`: the next token leaves the character in the text.
* `Reader.staysAt_ofDialect`: so do all readings, in every dialect.
* `parse?_eq_none_of_nul`, `analyse?_of_nul`: a script with a NUL character is malformed.
-/

namespace RefGraph.Script

open Std (HashMap)

variable {cs : List Char} {n : Nat}

/-! ## Texts with a NUL character -/

/-- What was read before a NUL character does not take it away. -/
theorem nul_mem_drop (h : n ≤ beforeNul cs) (hcs : '\x00' ∈ cs) : '\x00' ∈ cs.drop n := by
  induction n generalizing cs with
  | zero => exact hcs
  | succ n ih =>
    cases cs with
    | nil => exact absurd hcs List.not_mem_nil
    | cons c cs =>
      rw [beforeNul_cons] at h
      split at h
      · exact absurd h (Nat.not_succ_le_zero n)
      · rename_i hc
        refine ih (Nat.le_of_succ_le_succ h) ?_
        exact (List.mem_cons.1 hcs).resolve_left (Ne.symm hc)

/-- A spelling without NUL characters ends before one. -/
theorem length_le_of_isPrefixOf {spelling : List Char} (hspelling : '\x00' ∉ spelling)
    (h : spelling.isPrefixOf cs = true) : spelling.length ≤ beforeNul cs := by
  obtain ⟨rest, rfl⟩ := List.isPrefixOf_iff_prefix.1 h
  clear h
  induction spelling with
  | nil => exact Nat.zero_le _
  | cons c spelling ih =>
    rw [List.mem_cons, not_or] at hspelling
    rw [List.cons_append, beforeNul_cons, if_neg (Ne.symm hspelling.1)]
    exact Nat.succ_le_succ (ih hspelling.2)

/-! ## Numbers of tokens -/

/-- What is found in a table is one of the pairs that were put into it, or was there before. -/
theorem mem_of_getElem?_insertMany {κ ν : Type} [BEq κ] [Hashable κ] [LawfulBEq κ] {k : κ} {v : ν}
    {pairs : List (κ × ν)} {m : HashMap κ ν} (h : (m.insertMany pairs)[k]? = some v) :
    (k, v) ∈ pairs ∨ m[k]? = some v := by
  induction pairs generalizing m with
  | nil => exact .inr (by rwa [HashMap.insertMany_nil] at h)
  | cons pair pairs ih =>
    rw [HashMap.insertMany_cons] at h
    rcases ih h with hmem | hm
    · exact .inl (List.mem_cons_of_mem _ hmem)
    · rw [HashMap.getElem?_insert] at hm
      split at hm
      · rename_i heq
        rw [← Option.some.inj hm, ← beq_iff_eq.1 heq]
        exact .inl List.mem_cons_self
      · exact .inr hm

theorem mem_of_getElem?_ofList {κ ν : Type} [BEq κ] [Hashable κ] [LawfulBEq κ] {k : κ} {v : ν}
    {pairs : List (κ × ν)} (h : (HashMap.ofList pairs)[k]? = some v) : (k, v) ∈ pairs := by
  rw [HashMap.ofList_eq_insertMany_empty] at h
  refine (mem_of_getElem?_insertMany h).resolve_right ?_
  rw [HashMap.getElem?_empty]
  exact nofun

namespace Reader

/-- The tokens of a dialect. -/
abbrev tokensOf (d : Dialect) : Array Token :=
  (Numbering.ofRules d.grammar d.grammar.plainRules).tokens

/-- A number of a token other than the end of the text. -/
theorem ne_zero_of_getElem?_tokens {d : Dialect} {token : Token} {i : Nat}
    (h : (tokensOf d)[i]? = some token) (htoken : token ≠ .endOfInput) : i ≠ 0 := by
  rintro rfl
  rw [Grammar.IsGraded.getElem?_tokens] at h
  exact htoken (Option.some.inj h).symm

variable {d : Dialect}

/-- Numbered tokens are those of the dialect. -/
theorem getElem?_of_mem_zipIdx {token : Token} {i : Nat}
    (h : (token, i) ∈ (tokensOf d).toList.zipIdx) : (tokensOf d)[i]? = some token := by
  rw [← Array.getElem?_toList]
  exact List.mem_zipIdx_iff_getElem?.1 h

/-- No lexical class has the number of the end of the text. -/
theorem classNumber_ne (c : LexClass) : (ofDialect d).classNumber c ≠ 0 := by
  rw [classNumber, HashMap.getD_eq_getD_getElem?]
  cases hclass : (ofDialect d).classes[c]? with
  | none =>
    have hend := Grammar.IsGraded.getElem?_tokens (g := d.grammar) d.grammar.plainRules
    intro hsize
    have hmap : (ofDialect d).spellings.size = (tokensOf d).size := Array.size_map
    rw [Option.getD_none, hmap] at hsize
    rw [Array.getElem?_eq_none (Nat.le_of_eq hsize)] at hend
    cases hend
  | some i =>
    obtain ⟨⟨token, j⟩, hmem, hpair⟩ := List.mem_filterMap.1 (mem_of_getElem?_ofList hclass)
    split at hpair
    · rename_i heq
      obtain ⟨rfl, rfl⟩ := Prod.mk.inj heq
      cases hpair
      exact ne_zero_of_getElem?_tokens (getElem?_of_mem_zipIdx hmem) Token.noConfusion
    · cases hpair

/-- No word has it. -/
theorem words_ne {w : String} {i : Nat} (h : (ofDialect d).words[w]? = some i) : i ≠ 0 := by
  obtain ⟨⟨token, j⟩, hmem, hpair⟩ := List.mem_filterMap.1 (mem_of_getElem?_ofList h)
  dsimp only at hpair
  split at hpair
  · rename_i heq
    obtain ⟨rfl, rfl⟩ := Prod.mk.inj heq
    split at hpair
    · cases hpair
      exact ne_zero_of_getElem?_tokens (getElem?_of_mem_zipIdx hmem) Token.noConfusion
    · cases hpair
  · cases hpair

/-- No spelling has it, and there is no NUL character in any spelling. -/
theorem spellings_ne {spelling : List Char} {i : Nat}
    (h : (ofDialect d).spellings.getD i none = some spelling) : i ≠ 0 ∧ '\x00' ∉ spelling := by
  have hspellings : (ofDialect d).spellings = (tokensOf d).map _ := rfl
  rw [hspellings, Array.getD_eq_getD_getElem?, Array.getElem?_map] at h
  cases htoken : (tokensOf d)[i]? with
  | none =>
    rw [htoken] at h
    cases h
  | some token =>
    rw [htoken] at h
    cases token with
    | endOfInput | lex c => cases h
    | text text =>
      cases h
      refine ⟨ne_zero_of_getElem?_tokens htoken Token.noConfusion, fun hmem => ?_⟩
      have hfree := (isGraded_grammar d).isNulFree (Array.mem_of_getElem? htoken)
      rw [isNulFree, List.all_eq_true] at hfree
      exact bne_iff_ne.1 (hfree _ hmem) rfl

/-- The end of the text has a number of its own, and a NUL character is in no spelling. -/
structure HasOwnEnd (r : Reader) : Prop where
  classNumber (c : LexClass) : r.classNumber c ≠ 0
  words {w : String} {i : Nat} : r.words[w]? = some i → i ≠ 0
  spellings {spelling : List Char} {i : Nat} : r.spellings.getD i none = some spelling →
    i ≠ 0 ∧ '\x00' ∉ spelling

/-- The numbers of all dialects are of this kind. -/
theorem hasOwnEnd_ofDialect (d : Dialect) : (ofDialect d).HasOwnEnd where
  classNumber := classNumber_ne
  words := words_ne
  spellings := spellings_ne

variable {r : Reader}

/-! ## The next token -/

/-- A candidate that is not the end of the text and does not go beyond a NUL character. -/
structure IsWithin (cs : List Char) (c : Candidate) : Prop where
  token : c.token ≠ 0
  length : c.length ≤ beforeNul cs

/-- The best candidate is one of them. -/
theorem mem_of_bestCandidate {candidates : List Candidate} {c : Candidate}
    (h : bestCandidate candidates = some c) : c ∈ candidates := by
  have hbest : ∀ best ∈ bestCandidate candidates, best ∈ candidates := by
    refine List.foldlRecOn (motive := fun best : Option Candidate => ∀ c ∈ best, c ∈ candidates)
      _ _ nofun fun best hbest c hc c' hc' => ?_
    split at hc'
    · exact Option.some.inj hc' ▸ hc
    · split at hc'
      · exact Option.some.inj hc' ▸ hc
      · exact hbest c' hc'
  exact hbest c h

/-- Tokens that attach to the one before do not go beyond a NUL character. -/
theorem HasOwnEnd.isWithin_of_mem_attached (hr : r.HasOwnEnd) {set : TokenSet} {c : Candidate}
    (h : c ∈ r.attached set cs) : IsWithin cs c := by
  obtain ⟨lex, -, hc⟩ := List.mem_filterMap.1 h
  dsimp only at hc
  split at hc
  · split at hc
    · rename_i hlength _
      cases hc
      exact ⟨hr.classNumber lex, lex.lexeme?_le hlength⟩
    · cases hc
  · cases hc

/-- Neither do the other ones, be they spelled, described or named. -/
theorem HasOwnEnd.isWithin_of_mem_detached (hr : r.HasOwnEnd) {set : TokenSet} {c : Candidate}
    (h : c ∈ r.detached set cs) : IsWithin cs c := by
  rw [detached] at h
  dsimp only at h
  rw [List.mem_append, List.mem_append] at h
  rcases h with (hspelled | hdescribed) | hnamed
  · obtain ⟨i, -, hc⟩ := List.mem_filterMap.1 hspelled
    split at hc
    · split at hc
      · rename_i spelling hspelling
        obtain ⟨hi, hfree⟩ := hr.spellings hspelling
        split at hc
        · rename_i hprefix
          cases hc
          exact ⟨hi, length_le_of_isPrefixOf hfree hprefix⟩
        · cases hc
      · cases hc
    · cases hc
  · obtain ⟨lex, -, hc⟩ := List.mem_filterMap.1 hdescribed
    split at hc
    · obtain ⟨n, hlength, rfl⟩ := Option.map_eq_some_iff.1 hc
      exact ⟨hr.classNumber lex, lex.lexeme?_le hlength⟩
    · cases hc
  · split at hnamed
    · obtain ⟨n, hlength, rfl⟩ := Option.map_eq_some_iff.1 (Option.mem_toList.1 hnamed)
      exact ⟨hr.classNumber .identifier, identifier_le hlength⟩
    · exact absurd hnamed List.not_mem_nil

/-- A token of such a candidate is followed by what has the NUL character. -/
theorem HasOwnEnd.lexedAt (hr : r.HasOwnEnd) {set : TokenSet} {skipped place : Nat}
    {c : Candidate} (hcs : '\x00' ∈ cs) (hskipped : skipped ≤ beforeNul cs)
    (hc : IsWithin (cs.drop skipped) c) : (r.lexedAt set cs place skipped c).token ≠ 0 ∧
    '\x00' ∈ (r.lexedAt set cs place skipped c).rest := by
  have hrest : '\x00' ∈ (cs.drop skipped).drop c.length :=
    nul_mem_drop hc.length (nul_mem_drop hskipped hcs)
  rw [Reader.lexedAt]
  dsimp only
  split
  · split
    · rename_i i hi
      split
      · exact ⟨hr.words hi, hrest⟩
      · exact ⟨hc.token, hrest⟩
    · exact ⟨hc.token, hrest⟩
  · exact ⟨hc.token, hrest⟩

/-- **The next token of a text with a NUL character leaves that character in the text.** -/
theorem HasOwnEnd.next? (hr : r.HasOwnEnd) {s : State} {place : Nat} {lexed : Lexed}
    (hcs : '\x00' ∈ cs)
    (h : r.next? s cs place = some lexed) : lexed.token ≠ 0 ∧ '\x00' ∈ lexed.rest := by
  have hblanks : Lexeme.run Lexeme.isBlank cs ≤ beforeNul cs := run_le (by decide)
  have hhere := nul_mem_drop hblanks hcs
  rw [Reader.next?] at h
  dsimp only at h
  split at h
  · rename_i found hfound
    cases h
    exact ⟨hr.classNumber _, nul_mem_drop (Contextual.scan?_le hfound) hcs⟩
  split at h
  · rename_i close hclose
    have hwithin := hr.isWithin_of_mem_attached (mem_of_bestCandidate hclose)
    split at h
    · cases h
      exact hr.lexedAt hcs (Nat.zero_le _) hwithin
    · rename_i hnear
      -- Nothing is skipped here, so all candidates are at the beginning of the text.
      have hnone : Lexeme.run Lexeme.isBlank cs = 0 := by
        rw [Bool.or_eq_true, decide_eq_true_iff, decide_eq_true_iff, not_or, Nat.not_lt] at hnear
        exact Nat.le_zero.1 hnear.2
      rw [hnone] at h
      obtain ⟨c, hc, rfl⟩ := Option.map_eq_some_iff.1 h
      refine hr.lexedAt hcs (Nat.zero_le _) ?_
      rcases List.mem_cons.1 (mem_of_bestCandidate hc) with rfl | hc
      · exact hwithin
      · exact hr.isWithin_of_mem_detached hc
  · split at h
    · rename_i hempty
      rw [List.isEmpty_iff.1 hempty] at hhere
      exact absurd hhere List.not_mem_nil
    · obtain ⟨c, hc, rfl⟩ := Option.map_eq_some_iff.1 h
      exact hr.lexedAt hcs hblanks (hr.isWithin_of_mem_detached (mem_of_bestCandidate hc))

/-- **In every dialect a NUL character stays in the text.** -/
theorem staysAt_ofDialect (d : Dialect) : (ofDialect d).StaysAt ('\x00' ∈ ·) where
  table := (isGraded_grammar d).table
  start := (isGraded_grammar d).table.start
  identifier := (hasOwnEnd_ofDialect d).classNumber .identifier
  next _ _ _ _ hcs h := (hasOwnEnd_ofDialect d).next? hcs h

end Reader

/-- **A script with a NUL character is malformed in every dialect.** -/
theorem parse?_eq_none_of_nul (d : Dialect) (h : '\x00' ∈ cs) : parse? d cs = none := by
  have hreader : d.reader = .ofDialect d := by cases d <;> rfl
  rw [parse?, hreader, (Reader.staysAt_ofDialect d).parse?_eq_none h]
  cases cs with
  | nil => exact absurd h List.not_mem_nil
  | cons c cs => rfl

end RefGraph.Script

namespace RefGraph

variable {text : List Char}

/-- Such a script has no tree, also if it is read once more with types. -/
theorem scriptTree?_eq_none_of_nul (d : Script.Dialect) (h : '\x00' ∈ text) :
    scriptTree? d text = none := by
  rw [scriptTree?, Script.parse?_eq_none_of_nul d h]
  by_cases hd : d = .javaScript
  · rw [if_pos hd]
    exact Script.parse?_eq_none_of_nul .tsx h
  · rw [if_neg hd]
    rfl

/-- **A script with a NUL character is not analysed.** -/
theorem analyse?_of_nul {p : Path} (hkind : SourceKind.ofPath? p = some .script) {text : String}
    (h : '\x00' ∈ text.toList) (withSymbols : Bool) :
    analyse? p text withSymbols = .error (.malformed p) := by
  rw [analyse?, hkind]
  dsimp only
  cases hd : Script.Dialect.ofPath? p with
  | none => rfl
  | some d => rw [Option.bind_some, scriptTree?_eq_none_of_nul d h]

end RefGraph
