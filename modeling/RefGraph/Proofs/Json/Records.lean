import RefGraph.Json.Record
import RefGraph.Proofs.Json.Values

/-!
# Reading records that were written

A record that was written as an object reads back: its members are fields of the record, none comes
twice, and together they fill in the draft that the record is made from.

* `Json.Fills`: what the members of an object make of a draft.
* `Json.Fills.reads`: an object whose members fill in a draft is read as the record made from it.
* `Json.RecordShape.yields`: what holds of every record that is read, from an object or an array.
-/

namespace RefGraph.Json

variable {σ α β : Type}

/-! ## Members and drafts -/

/-- The members of an object turn a draft into another one: each is read as a field that has not
been read before. -/
inductive Fills (fields : List (Field σ)) : σ → List (String × Json) → σ → Prop where
  | nil (s : σ) : Fills fields s [] s
  | cons {s s' s'' : σ} {name : String} {j : Json} {ms : List (String × Json)} {f : Field σ}
      (hfind : (fields.find? fun f => f.name = name) = some f) (hgiven : f.isGiven s = false)
      (hread : Reads (f.read s) j s') (hms : Fills fields s' ms s'') :
      Fills fields s ((name, j) :: ms) s''

/-- Members may be read in two portions. -/
theorem Fills.append {fields : List (Field σ)} {s s' s'' : σ} {ms ms' : List (String × Json)}
    (h : Fills fields s ms s') (h' : Fills fields s' ms' s'') :
    Fills fields s (ms ++ ms') s'' := by
  induction h with
  | nil => exact h'
  | cons hfind hgiven hread _ ih => exact .cons hfind hgiven hread (ih h')

/-- A field whose value is put into a draft reads it if its reader reads the value. -/
theorem Reads.field {name : String} {needed : Bool} {get : σ → Option β} {set : σ → β → σ}
    {read : Reader β} {j : Json} {x : β} (h : Reads read j x) (s : σ) :
    Reads ((Field.of name needed get set read).read s) j (set s x) := by
  intro indent before rest hbefore hrest
  show (read (before ++ j.render indent ++ rest)).map _ = _
  rw [h indent before rest hbefore hrest]
  rfl

/-! ## Objects -/

namespace RecordShape

/-- The first member stands behind white space only. -/
theorem readNextMember_first {before : List Char} (cs : List Char)
    (hbefore : ∀ b ∈ before, isBlank b = true) :
    readNextMember true (before ++ '"' :: cs) = .ok (true, cs) := by
  rw [readNextMember, skipBlank_append hbefore (by decide)]
  rfl

/-- Every other member stands behind a comma. -/
theorem readNextMember_comma {before : List Char} (cs : List Char)
    (hbefore : ∀ b ∈ before, isBlank b = true) :
    readNextMember false (',' :: (before ++ '"' :: cs)) = .ok (true, cs) := by
  rw [readNextMember, skipBlank_cons (by decide)]
  split
  case h_1 heq => cases heq
  case h_2 heq => cases heq
  case h_3 heq =>
    cases heq
    rw [if_neg Bool.false_ne_true, if_pos rfl, skipBlank_append hbefore (by decide)]
    rfl

theorem readNextMember_close {before : List Char} (first : Bool) (rest : List Char)
    (hbefore : ∀ b ∈ before, isBlank b = true) :
    readNextMember first (before ++ '}' :: rest) = .ok (false, rest) := by
  rw [readNextMember, skipBlank_append hbefore (by decide)]
  rfl

/-- The value of a member is read as that of its field. -/
theorem readMember_field {fields : List (Field σ)} {f : Field σ} {name : String} {s s' : σ}
    {j : Json} (hfind : (fields.find? fun f => f.name = name) = some f)
    (hgiven : f.isGiven s = false) (hread : Reads (f.read s) j s') (indent : Nat)
    {rest : List Char} (hrest : Stops rest) :
    readMember fields name s (':' :: ' ' :: (j.render indent ++ rest)) = .ok (s', rest) := by
  have hvalue := hread indent [' '] rest (List.forall_mem_singleton.2 rfl) hrest
  simp only [readMember, hfind, hgiven, Bool.false_eq_true, if_false]
  exact hvalue

/-- Behind a number come the other members of an object or a line break, which do not go on with
it. -/
theorem stops_renderMembers (indent outer : Nat) (ms : List (String × Json)) (rest : List Char) :
    Stops (renderMembers indent ms ++ (lineBreak outer ++ rest)) := by
  cases ms with
  | nil =>
    rw [renderMembers]
    exact stops_lineBreak outer rest
  | cons m ms =>
    rw [renderMembers]
    exact stops_cons (by decide)

/-- An object has no more members than characters, so that the fuel of its reader is enough. -/
theorem length_le_length_renderMembers (indent : Nat) (ms : List (String × Json)) :
    ms.length ≤ (renderMembers indent ms).length := by
  induction ms with
  | nil => exact Nat.zero_le _
  | cons m ms ih =>
    rw [renderMembers]
    simp only [List.length_cons, List.length_append]
    omega

/-- The members of an object that was written fill in the draft, from the second one on. -/
theorem readMembers_renderMembers {fields : List (Field σ)} {s s' : σ}
    {ms : List (String × Json)} (h : Fills fields s ms s') (indent outer fuel : Nat)
    (rest : List Char) (hfuel : ms.length < fuel) :
    readMembers fields fuel false s
      (renderMembers indent ms ++ (lineBreak outer ++ '}' :: rest)) = .ok (s', rest) := by
  induction h generalizing fuel with
  | nil =>
    obtain ⟨fuel, rfl⟩ := Nat.exists_eq_succ_of_ne_zero (Nat.ne_zero_of_lt hfuel)
    rw [renderMembers, List.nil_append, readMembers,
      readNextMember_close false rest fun c => isBlank_of_mem_lineBreak]
  | @cons s s' s'' name j ms f hfind hgiven hread hms ih =>
    obtain ⟨fuel, rfl⟩ := Nat.exists_eq_succ_of_ne_zero (Nat.ne_zero_of_lt hfuel)
    rw [renderMembers, quotedText]
    simp only [List.cons_append, List.append_assoc, List.nil_append]
    rw [readMembers, readNextMember_comma _ fun c => isBlank_of_mem_lineBreak]
    simp only [readTextFrom_quoted,
      readMember_field hfind hgiven hread indent (stops_renderMembers indent outer ms _)]
    exact ih fuel (Nat.lt_of_succ_lt_succ hfuel)

/-- A record is read if its members are. -/
theorem read_of_readMembers {r : RecordShape σ α} {cs members rest : List Char} {s : σ} {x : α}
    (hcs : skipBlank cs = '{' :: members)
    (h : readMembers r.fields (members.length + 1) true r.start members = .ok (s, rest))
    (hx : r.finish s = some x) : r.read cs = .ok (x, rest) := by
  rw [read, hcs]
  split
  case h_1 heq => cases heq
  case h_2 heq =>
    cases heq
    rw [h]
    simp only [finished, hx]
    rfl
  case h_3 heq => cases heq
  case h_4 hne _ => exact absurd rfl (hne members)

end RecordShape

open RecordShape in
/-- **An object whose members fill in the draft of a record is read as that record.** -/
theorem Fills.reads {r : RecordShape σ α} {ms : List (String × Json)} {s : σ} {x : α}
    (h : Fills r.fields r.start ms s) (hx : r.finish s = some x) :
    Reads r.read (.object ms) x := by
  intro indent before rest hbefore _
  rw [List.append_assoc]
  cases h with
  | nil =>
    rw [render, List.cons_append, List.singleton_append]
    refine read_of_readMembers (skipBlank_append hbefore (by decide)) ?_ hx
    rw [readMembers, ← List.nil_append ('}' :: rest), readNextMember_close true rest (by simp)]
  | @cons _ s' _ name j ms f hfind hgiven hread hms =>
    rw [render, quotedText]
    simp only [List.cons_append, List.append_assoc, List.nil_append]
    refine read_of_readMembers (skipBlank_append hbefore (by decide)) ?_ hx
    rw [readMembers, readNextMember_first _ fun c => isBlank_of_mem_lineBreak]
    simp only [readTextFrom_quoted,
      readMember_field hfind hgiven hread (indent + 1)
        (stops_renderMembers (indent + 1) indent ms _)]
    -- The length of the text, which bounds the reading, is more than the number of members.
    have hlength := length_le_length_renderMembers (indent + 1) ms
    refine readMembers_renderMembers hms _ _ _ _ ?_
    simp only [List.length_append, List.length_cons]
    omega

/-! ## What is read -/

/-- Putting a value that was read into a draft keeps what holds of the draft. -/
theorem Yields.field {name : String} {needed : Bool} {get : σ → Option β} {set : σ → β → σ}
    {read : Reader β} {p : β → Prop} {inv : σ → Prop} {s : σ} (h : Yields read p)
    (hset : ∀ x, p x → inv (set s x)) :
    Yields ((Field.of name needed get set read).read s) inv := by
  intro cs s' rest hread
  obtain ⟨value, hvalue, heq⟩ := exists_of_map_eq_ok hread
  obtain ⟨rfl, -⟩ := Prod.mk.inj heq
  exact hset _ (h _ _ _ hvalue)

namespace RecordShape

variable {fields : List (Field σ)} {inv : σ → Prop}

theorem inv_of_readMember {name : String} {s s' : σ} {cs rest : List Char}
    (hfields : ∀ f ∈ fields, ∀ s, inv s → Yields (f.read s) inv) (hs : inv s)
    (h : readMember fields name s cs = .ok (s', rest)) : inv s' := by
  rw [readMember] at h
  split at h
  · cases hcolon : readColon cs with
    | error e =>
      rw [hcolon] at h
      cases h
    | ok value =>
      rw [hcolon] at h
      obtain ⟨_, -, heq⟩ := exists_of_map_eq_ok h
      obtain ⟨rfl, -⟩ := Prod.mk.inj heq
      exact hs
  -- A member that is a field keeps the invariant, and one that is none leaves the draft.
  · rename_i f hfind
    split at h
    · cases h
    · cases hcolon : readColon cs with
      | error e =>
        rw [hcolon] at h
        cases h
      | ok value =>
        rw [hcolon] at h
        exact hfields f (List.mem_of_find?_eq_some hfind) s hs _ _ _ h

/-- Reading the members of an object preserves what all its fields preserve. -/
theorem inv_of_readMembers {fuel : Nat} {first : Bool} {s s' : σ} {cs rest : List Char}
    (hfields : ∀ f ∈ fields, ∀ s, inv s → Yields (f.read s) inv) (hs : inv s)
    (h : readMembers fields fuel first s cs = .ok (s', rest)) : inv s' := by
  induction fuel generalizing first s cs with
  | zero => cases h
  | succ fuel ih =>
    rw [readMembers] at h
    split at h
    · cases h
    · obtain ⟨rfl, -⟩ := Prod.mk.inj (Except.ok.inj h)
      exact hs
    · split at h
      · cases h
      · split at h
        · cases h
        · rename_i hmember
          exact ih (inv_of_readMember hfields hs hmember) h

/-- Reading an array by position preserves what all its fields preserve. -/
theorem inv_of_readPositions {first : Bool} {s s' : σ} {cs rest : List Char} {n : Nat}
    (hfields : ∀ f ∈ fields, ∀ s, inv s → Yields (f.read s) inv) (hs : inv s)
    (h : readPositions fields first s cs = .ok (s', n, rest)) : inv s' := by
  induction fields generalizing first s cs rest n with
  | nil =>
    obtain ⟨rfl, -⟩ := Prod.mk.inj (Except.ok.inj h)
    exact hs
  | cons f fs ih =>
    rw [readPositions] at h
    split at h
    · cases h
    · obtain ⟨rfl, -⟩ := Prod.mk.inj (Except.ok.inj h)
      exact hs
    · split at h
      · cases h
      · rename_i hread
        obtain ⟨position, hposition, heq⟩ := exists_of_map_eq_ok h
        obtain ⟨rfl, -⟩ := Prod.mk.inj heq
        exact ih (fun g hg => hfields g (List.mem_cons_of_mem _ hg))
          (hfields f (by simp) s hs _ _ _ hread) hposition

theorem finish_of_finished {r : RecordShape σ α} {s : σ} {x : α} {m : Mismatch}
    (h : r.finished s m = .ok x) : r.finish s = some x := by
  rw [finished] at h
  split at h
  · rename_i hx
    rw [hx, Except.ok.inj h]
  · cases h

/-- **What each field keeps of a draft holds of every record that is read.** -/
theorem yields {r : RecordShape σ α} {p : α → Prop} (hstart : inv r.start)
    (hfields : ∀ f ∈ r.fields, ∀ s, inv s → Yields (f.read s) inv)
    (hfinish : ∀ s x, inv s → r.finish s = some x → p x) : Yields r.read p := by
  intro cs x rest h
  rw [read] at h
  split at h
  · cases h
  · split at h
    · cases h
    · rename_i hmembers
      obtain ⟨y, hy, heq⟩ := exists_of_map_eq_ok h
      obtain ⟨rfl, -⟩ := Prod.mk.inj heq
      exact hfinish _ _ (inv_of_readMembers hfields hstart hmembers) (finish_of_finished hy)
  · split at h
    · cases h
    · rename_i hpositions
      split at h
      · cases h
      · rename_i hfinished
        obtain ⟨_, -, heq⟩ := exists_of_map_eq_ok h
        obtain ⟨rfl, -⟩ := Prod.mk.inj heq
        exact hfinish _ _ (inv_of_readPositions hfields hstart hpositions)
          (finish_of_finished hfinished)
  · cases h

end RecordShape

end RefGraph.Json
