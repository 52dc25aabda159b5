import RefGraph.Disk.Changes
import Mathlib.Data.List.Basic

/-!
# Reading what was written to a disk

A file that was written is found again under the same path, with its bytes. Writing puts one file
into the tree, where there was nothing or a file before, so that all directories and links on the
way stay what they are and lead to the same place.

* `DiskNode.at?_put`, `DiskNode.alike_at?_put`: what names lead to after a file was put into a tree.
* `Disk.enter`, `Disk.advance_cons`: one name of a path, in terms of the tree.
* `Disk.follow_put`: where a path leads after a file was put there.
* `Disk.bytes_of_write`: a file that was written has the bytes that were written.
-/

namespace RefGraph

/-! ## Trees -/

namespace DiskNode

/-- Names lead on from where the first of them led. -/
theorem at?_append (names more : List String) (n : DiskNode) :
    n.at? (names ++ more) = (n.at? names).bind (at? more) := by
  induction names generalizing n with
  | nil => rfl
  | cons name names ih =>
    rw [List.cons_append, at?, at?, Option.bind_assoc]
    exact congrArg _ (funext ih)

theorem at?_concat (names : List String) (name : String) (n : DiskNode) :
    n.at? (names ++ [name]) = (n.at? names).bind fun m => m.child? name := by
  rw [at?_append]
  refine congrArg _ (funext fun m => ?_)
  rw [at?]
  cases m.child? name <;> rfl

/-- Only a directory has nodes for names. -/
theorem exists_eq_directory {n m : DiskNode} {name : String} (h : n.child? name = some m) :
    ∃ entries, n = directory entries := by
  cases n with
  | directory entries => exact ⟨entries, rfl⟩
  | file bytes => cases h
  | link target => cases h

/-- A replaced entry is found under its name, and all others as before. -/
theorem find?_map_replace (entries : List (String × DiskNode)) (name other : String)
    (x : DiskNode) :
    ((entries.map fun e => if e.1 = name then (name, x) else e).find? fun e => e.1 = other) =
      if other = name then (entries.find? fun e => e.1 = name).map fun _ => (name, x)
      else entries.find? fun e => e.1 = other := by
  induction entries with
  | nil => split <;> rfl
  | cons e es ih =>
    rw [List.map_cons, List.find?_cons, ih]
    by_cases he : e.1 = name
    · by_cases hother : other = name
      · simp [he, hother]
      · simp [he, hother, Ne.symm hother]
    · by_cases hother : other = name
      · simp [he, hother]
      · simp only [he, hother, if_false, List.find?_cons]

/-- The names of a directory after one was given a node. -/
theorem child?_withChild (entries : List (String × DiskNode)) (name other : String)
    (x : DiskNode) :
    ((directory entries).withChild name (some x)).child? other =
      if other = name then some x else (directory entries).child? other := by
  simp only [withChild]
  split
  · rename_i hany
    obtain ⟨e, he⟩ := Option.isSome_iff_exists.1 (List.find?_isSome.2 (List.any_eq_true.1 hany))
    simp only [child?, find?_map_replace]
    split
    · rw [he]
      rfl
    · rfl
  · rename_i hany
    simp only [child?, List.find?_append]
    split
    · rename_i hother
      have hnone : (entries.find? fun e => e.1 = other) = none := by
        rw [List.find?_eq_none, hother]
        intro e he hname
        exact hany (List.any_eq_true.2 ⟨e, he, hname⟩)
      rw [hnone, hother]
      simp
    · rename_i hother
      simp [Ne.symm hother]

/-- What names lead to before and after a change somewhere else: the same, or a directory that may
have changed inside. -/
inductive Alike : Option DiskNode → Option DiskNode → Prop where
  | same (n? : Option DiskNode) : Alike n? n?
  | directories (entries entries' : List (String × DiskNode)) :
      Alike (some (directory entries)) (some (directory entries'))

theorem Alike.exists_directory {entries : List (String × DiskNode)} {n? : Option DiskNode}
    (h : Alike (some (directory entries)) n?) : ∃ entries', n? = some (directory entries') := by
  cases h with
  | same => exact ⟨entries, rfl⟩
  | directories _ entries' => exact ⟨entries', rfl⟩

/-- A place in a tree that may take a file: a directory is there, with no such name or with a file
of that name. -/
structure MayTake (n : DiskNode) (names : List String) (name : String) : Prop where
  holder : ∃ entries, n.at? names = some (directory entries)
  old : ∀ m ∈ n.at? (names ++ [name]), ∃ bytes, m = file bytes

/-- A node can be put below the first name only if that is a directory. -/
theorem MayTake.exists_child? {n : DiskNode} {d name : String} {ds : List String}
    (h : MayTake n (d :: ds) name) :
    ∃ entries inner, n = directory entries ∧ n.child? d = some inner ∧ MayTake inner ds name := by
  obtain ⟨es, hes⟩ := h.holder
  obtain ⟨inner, hinner, hds⟩ := Option.bind_eq_some_iff.1 hes
  obtain ⟨entries, rfl⟩ := exists_eq_directory hinner
  refine ⟨entries, inner, rfl, hinner, ⟨es, hds⟩, fun m hm => h.old m ?_⟩
  rw [List.cons_append, at?, hinner]
  exact hm

theorem put_cons {n inner : DiskNode} {d : String} (h : n.child? d = some inner)
    (ds : List String) (name : String) (x : Option DiskNode) :
    put (d :: ds) name x n = n.withChild d (some (put ds name x inner)) := by
  rw [put, h]

/-- The names of a file lead to it once it is put into a tree. -/
theorem at?_put {n : DiskNode} {names : List String} {name : String} (h : MayTake n names name)
    (bytes : List UInt8) :
    (put names name (some (file bytes)) n).at? (names ++ [name]) = some (file bytes) := by
  induction names generalizing n with
  | nil =>
    obtain ⟨entries, hn⟩ := h.holder
    obtain rfl := Option.some.inj hn
    rw [List.nil_append, put, at?, child?_withChild, if_pos rfl]
    rfl
  | cons d ds ih =>
    obtain ⟨entries, inner, rfl, hinner, htake⟩ := h.exists_child?
    rw [put_cons hinner, List.cons_append, at?, child?_withChild, if_pos rfl]
    exact ih htake

/-- All other names lead to what they did. -/
theorem alike_at?_put {n : DiskNode} {names here : List String} {name : String}
    (h : MayTake n names name) (bytes : List UInt8) (hne : here ≠ names ++ [name]) :
    Alike (n.at? here) ((put names name (some (file bytes)) n).at? here) := by
  induction names generalizing n here with
  | nil =>
    obtain ⟨entries, hn⟩ := h.holder
    obtain rfl := Option.some.inj hn
    cases here with
    | nil =>
      simp only [put, withChild]
      split <;> exact .directories ..
    | cons other more =>
      rw [put, at?, at?, child?_withChild]
      split
      · rename_i hother
        obtain ⟨next, rest, rfl⟩ : ∃ next rest, more = next :: rest :=
          List.exists_cons_of_ne_nil fun hnil => hne (by rw [hother, hnil]; rfl)
        -- Below the name there was a file at most, so nothing is there before or after.
        have hold : ((directory entries).child? other).bind (at? (next :: rest)) = none := by
          cases hchild : (directory entries).child? other with
          | none => rfl
          | some m =>
            obtain ⟨old, rfl⟩ := h.old m (by rw [List.nil_append, at?, ← hother, hchild]; rfl)
            rfl
        rw [hold]
        exact .same none
      · exact .same _
  | cons d ds ih =>
    obtain ⟨entries, inner, rfl, hinner, htake⟩ := h.exists_child?
    -- The first name leads on to the directory that changes, every other one past it.
    rw [put_cons hinner]
    cases here with
    | nil =>
      simp only [withChild]
      split <;> exact .directories ..
    | cons other more =>
      rw [at?, at?, child?_withChild]
      split
      · rename_i hother
        rw [hother, hinner]
        exact ih htake fun hmore => hne (by rw [hother, hmore]; rfl)
      · exact .same _

end DiskNode

namespace Disk

open DiskNode

/-! ## Paths -/

/-- Where a name leads that may be one of a directory, and the names behind it. -/
def enter (root : DiskNode) (here : List String) (name : String) (rest : List String) :
    Except FileError Reached :=
  match root.at? (here ++ [name]) with
  | none => .ok (.place (.absent here name rest))
  | some (.link target) => .ok (.link here target rest)
  | some _ => advance root (here ++ [name]) rest

/-- In a directory a name stays there, leads above it, or may be one of its names. -/
theorem advance_cons {root : DiskNode} {here : List String} {entries : List (String × DiskNode)}
    (hat : root.at? here = some (directory entries)) (name : String) (names : List String) :
    advance root here (name :: names) =
      if name = "" ∨ name = "." then advance root here names
      else if name = ".." then advance root here.dropLast names
      else enter root here name names := by
  have hchild : root.at? (here ++ [name]) = (directory entries).child? name := by
    rw [at?_concat, hat]
    rfl
  rw [advance, hat]
  unfold enter
  exact hchild ▸ rfl

/-- Names are followed in directories only. -/
theorem exists_directory_of_advance_cons {root : DiskNode} {here names : List String}
    {name : String} {r : Reached} (h : advance root here (name :: names) = .ok r) :
    ∃ entries, root.at? here = some (directory entries) := by
  rw [advance] at h
  split at h
  · exact ⟨_, ‹_›⟩
  · cases h

/-- A name that a directory does not have. -/
theorem mayTake_of_advance {root : DiskNode} {here names directory rest : List String}
    {name : String} (h : advance root here names = .ok (.place (.absent directory name rest))) :
    MayTake root directory name := by
  induction names generalizing here with
  | nil => cases h
  | cons next names ih =>
    obtain ⟨entries, hat⟩ := exists_directory_of_advance_cons h
    rw [advance_cons hat, enter] at h
    split at h
    · exact ih h
    split at h
    · exact ih h
    split at h
    · rename_i hnone
      cases h
      refine ⟨⟨entries, hat⟩, fun m hm => ?_⟩
      rw [hnone] at hm
      cases hm
    · cases h
    · exact ih h

/-- What a place where a file can be put becomes once a file is there. -/
inductive Becomes (target : List String) : Reached → Reached → Prop where
  | link (directory : List String) (t : String) (rest : List String) :
      Becomes target (.link directory t rest) (.link directory t rest)
  | node : Becomes target (.place (.node target)) (.place (.node target))
  | absent {directory : List String} {name : String} (h : directory ++ [name] = target) :
      Becomes target (.place (.absent directory name [])) (.place (.node target))

/-- A directory is still one after a file was put into the tree, though its entries may differ. -/
theorem exists_directory_put {root : DiskNode} {names here : List String} {name : String}
    (htake : MayTake root names name) (bytes : List UInt8) {entries : List (String × DiskNode)}
    (hat : root.at? here = some (directory entries)) :
    ∃ entries', (root.put names name (some (.file bytes))).at? here =
      some (directory entries') := by
  have hhere : here ≠ names ++ [name] := by
    rintro rfl
    obtain ⟨old, hold⟩ := htake.old _ hat
    cases hold
  have halike := alike_at?_put htake bytes hhere
  rw [hat] at halike
  exact halike.exists_directory

/-- A name leads to the file that was put there, or to what it led to before. -/
theorem enter_put {root : DiskNode} {names : List String} {name : String}
    (htake : MayTake root names name) (bytes : List UInt8) {here path : List String}
    {next : String} {r r' : Reached} (hr : Becomes (names ++ [name]) r r')
    (hbehind : advance root (here ++ [next]) path = .ok r →
      advance (root.put names name (some (.file bytes))) (here ++ [next]) path = .ok r')
    (h : enter root here next path = .ok r) :
    enter (root.put names name (some (.file bytes))) here next path = .ok r' := by
  rw [enter] at h ⊢
  by_cases htarget : here ++ [next] = names ++ [name]
  · -- The name is the one that was written: it was free or held a file.
    rw [htarget, at?_put htake bytes]
    cases hold : root.at? (here ++ [next]) with
    | none =>
      rw [hold] at h
      cases h
      cases hr
      rfl
    | some m =>
      obtain ⟨old, rfl⟩ := htake.old m (by rw [← htarget, hold]; rfl)
      rw [hold] at h
      rw [htarget] at hbehind h
      exact hbehind h
  · -- Another name leads to a node like before, so that the way goes on in the same manner.
    have halike := alike_at?_put htake bytes htarget
    generalize root.at? (here ++ [next]) = old? at h halike
    generalize (root.put names name (some (.file bytes))).at? (here ++ [next]) = new? at halike ⊢
    cases halike with
    | directories => exact hbehind h
    | same =>
      match old? with
      | none =>
        cases h
        cases hr with
        | absent heq => exact absurd heq htarget
      | some (.link target) =>
        cases h
        cases hr
        rfl
      | some (.file old) => exact hbehind h
      | some (.directory old) => exact hbehind h

/-- Names lead to the file that was put at their end, and to the same links before it. -/
theorem advance_put {root : DiskNode} {names : List String} {name : String}
    (htake : MayTake root names name) (bytes : List UInt8) {here path : List String}
    {r r' : Reached} (hr : Becomes (names ++ [name]) r r') (h : advance root here path = .ok r) :
    advance (root.put names name (some (.file bytes))) here path = .ok r' := by
  induction path generalizing here with
  | nil =>
    rw [advance] at h ⊢
    cases h
    cases hr
    rfl
  | cons next path ih =>
    obtain ⟨entries, hat⟩ := exists_directory_of_advance_cons h
    obtain ⟨entries', hat'⟩ := exists_directory_put htake bytes hat
    rw [advance_cons hat] at h
    rw [advance_cons hat']
    split at h
    · rename_i hstay
      rw [if_pos hstay]
      exact ih h
    rename_i hstay
    rw [if_neg hstay]
    split at h
    · rename_i hup
      rw [if_pos hup]
      exact ih h
    · rename_i hup
      rw [if_neg hup]
      exact enter_put htake bytes hr ih h

/-- A path leads to the file that was put where it led before. -/
theorem follow_put {root : DiskNode} {names : List String} {name : String}
    (htake : MayTake root names name) (bytes : List UInt8) {fuel : Nat} {here path : List String}
    {p : Place} (hp : Becomes (names ++ [name]) (.place p) (.place (.node (names ++ [name]))))
    (h : follow root fuel here path = .ok p) :
    follow (root.put names name (some (.file bytes))) fuel here path =
      .ok (.node (names ++ [name])) := by
  induction fuel generalizing here path with
  | zero =>
    rw [follow] at h ⊢
    split at h
    · cases h
    · rename_i hplace
      cases h
      rw [advance_put htake bytes hp hplace]
    · cases h
  | succ fuel ih =>
    rw [follow] at h ⊢
    split at h
    · cases h
    · rename_i hplace
      cases h
      rw [advance_put htake bytes hp hplace]
    · rename_i hlink
      rw [advance_put htake bytes (.link ..) hlink]
      exact ih h

/-- The place where a path ends, if it is a name that a directory does not have. -/
theorem mayTake_of_follow {root : DiskNode} {fuel : Nat} {here path directory rest : List String}
    {name : String} (h : follow root fuel here path = .ok (.absent directory name rest)) :
    MayTake root directory name := by
  induction fuel generalizing here path with
  | zero =>
    rw [follow] at h
    split at h
    · cases h
    · rename_i hplace
      cases h
      exact mayTake_of_advance hplace
    · cases h
  | succ fuel ih =>
    rw [follow] at h
    split at h
    · cases h
    · rename_i hplace
      cases h
      exact mayTake_of_advance hplace
    · exact ih h

/-! ## Files -/

/-- Where a path leads to a name, the bytes that are put there can be read. -/
theorem bytes_put {d : Disk} {p : Path} {found : Place} {names : List String} {name : String}
    (htake : MayTake d.root names name) (bytes : List UInt8) (hplace : d.place p = .ok found)
    (hbecomes : Becomes (names ++ [name]) (.place found) (.place (.node (names ++ [name])))) :
    (d.put names name (some (.file bytes))).bytes p = .ok bytes := by
  have hnew : (d.put names name (some (.file bytes))).place p = .ok (.node (names ++ [name])) := by
    rw [place] at hplace ⊢
    split at hplace
    · cases hplace
    · rename_i hp
      rw [if_neg hp]
      exact follow_put htake bytes hbecomes hplace
  have hnode : (d.put names name (some (.file bytes))).node p = .ok (.file bytes) := by
    rw [node, locate, hnew]
    simp only [Disk.put, at?_put htake bytes]
    rfl
  rw [Disk.bytes, hnode]

/-- **A file that was written has the bytes that were written.** -/
theorem bytes_of_write {d d' : Disk} {p : Path} {bytes : List UInt8}
    (h : d.write p bytes = .ok d') : d'.bytes p = .ok bytes := by
  rw [write] at h
  split at h
  · cases h
  · rename_i directory name hplace
    cases h
    have hplace' := hplace
    rw [place] at hplace'
    split at hplace'
    · cases hplace'
    · -- The name was free, at a directory that was reached.
      exact bytes_put (mayTake_of_follow hplace') bytes hplace (.absent rfl)
  · split at h <;> cases h
  · rename_i names hplace
    split at h
    · rename_i old name hold hname
      cases h
      obtain ⟨ds, rfl⟩ := List.getLast?_eq_some_iff.1 hname
      rw [List.dropLast_concat]
      -- The place held a file, perhaps behind links: its bytes are replaced where it lies.
      refine bytes_put ⟨?_, ?_⟩ bytes hplace .node
      · rw [at?_concat] at hold
        obtain ⟨n, hn, hchild⟩ := Option.bind_eq_some_iff.1 hold
        obtain ⟨entries, rfl⟩ := exists_eq_directory hchild
        exact ⟨entries, hn⟩
      · intro m hm
        rw [hold] at hm
        exact ⟨old, (Option.some.inj hm).symm⟩
    · cases h

/-- Whether a file can be written does not depend on its bytes. -/
theorem exists_write_eq_ok {d d' : Disk} {p : Path} {bytes : List UInt8}
    (h : d.write p bytes = .ok d') (bytes' : List UInt8) : ∃ d'', d.write p bytes' = .ok d'' := by
  rw [write] at h ⊢
  split at h
  · cases h
  · exact ⟨_, rfl⟩
  · split at h <;> cases h
  · split at h
    · exact ⟨_, rfl⟩
    · cases h

end Disk

end RefGraph
