import RefGraph.Proofs.FileSystem.Contents
import Mathlib.Data.List.Sort

/-!
# Listings in order

A listing is sorted by names before it is used. Where a directory and a file share a name, the
directory is listed first, and sorting does not change that. So it does not matter in which order
else something was listed: listings of the same names and kinds are the same when they are sorted.

* `Orderly`: a listing without repetition that has directories before files of their names.
* `filter_sortEntries`: sorting leaves entries of one name in their order.
* `forall₂_sortEntries`: listings of the same names and kinds are the same when they are sorted.
* `Memory.Distinct.orderly_entries`: trees in memory have such listings.
-/

namespace RefGraph

/-- Entries of one name are a directory and, behind it, a file. -/
def Orderly (es : List Entry) : Prop :=
  es.Pairwise fun a b => a.name = b.name → a.isDir = true ∧ b.isDir = false

theorem orderly_of_nodup {es : List Entry} (h : (es.map Entry.name).Nodup) : Orderly es :=
  (List.pairwise_map.1 h).imp fun hne heq => absurd heq hne

/-- Sorting leaves entries of one name in their order. -/
theorem filter_sortEntries (es : List Entry) (name : String) :
    (sortEntries es).filter (fun e => e.name = name) = es.filter fun e => e.name = name := by
  have hsame : (es.filter fun e => e.name = name).Pairwise
      fun a b => (!decide (b.name < a.name)) = true := by
    rw [List.pairwise_filter]
    refine List.pairwise_of_forall fun a b ha hb => ?_
    rw [of_decide_eq_true ha, of_decide_eq_true hb]
    simp
  have hsub : (es.filter fun e => e.name = name).Sublist (sortEntries es) :=
    List.sublist_mergeSort entryOrder_trans entryOrder_total hsame List.filter_sublist
  have hfilter := hsub.filter fun e => e.name = name
  rw [List.filter_filter] at hfilter
  simp only [Bool.and_self] at hfilter
  refine (hfilter.eq_of_length ?_).symm
  exact ((List.mergeSort_perm es _).filter _).length_eq.symm

/-- The order of names and kinds in a sorted listing. -/
def KeyBefore (k k' : String × Bool) : Prop :=
  k.1 < k'.1 ∨ (k.1 = k'.1 ∧ k.2 = true ∧ k'.2 = false)

instance : Std.Irrefl KeyBefore where
  irrefl k h := by
    rcases h with h | ⟨-, htrue, hfalse⟩
    · exact lt_irrefl _ h
    · rw [htrue] at hfalse
      cases hfalse

instance : Std.Antisymm KeyBefore where
  antisymm k k' h h' := by
    rcases h with h | ⟨heq, htrue, -⟩
    · rcases h' with h' | ⟨heq', -, -⟩
      · exact absurd h' (lt_asymm h)
      · exact absurd heq' (ne_of_gt h)
    · rcases h' with h' | ⟨-, -, hfalse⟩
      · exact absurd heq (ne_of_gt h')
      · rw [htrue] at hfalse
        cases hfalse

/-- Orderly entries are sorted by name, directories before files. -/
theorem Orderly.pairwise_sortEntries {es : List Entry} (h : Orderly es) :
    ((sortEntries es).map Entry.key).Pairwise KeyBefore := by
  rw [List.pairwise_map]
  have hsame : (sortEntries es).Pairwise
      fun a b => a.name = b.name → a.isDir = true ∧ b.isDir = false := by
    rw [List.pairwise_iff_forall_sublist]
    intro a b hab hname
    -- Entries of one name stand in the sorted listing as they stood before.
    have hfilter := hab.filter fun e => e.name = a.name
    rw [filter_sortEntries] at hfilter
    have hpair : [a, b].filter (fun e => e.name = a.name) = [a, b] := by simp [hname]
    rw [hpair] at hfilter
    exact List.pairwise_iff_forall_sublist.1 h (hfilter.trans List.filter_sublist) hname
  refine ((pairwise_le_sortEntries es).and hsame).imp fun {a b} hab => ?_
  rcases lt_or_eq_of_le hab.1 with hlt | heq
  · exact .inl hlt
  · exact .inr ⟨heq, hab.2 heq⟩

/-- Lists that are mapped to the same list belong together, item by item. -/
theorem forall₂_of_map_eq {α β γ : Type} {R : α → β → Prop} {f : α → γ} {g : β → γ} {xs : List α}
    {ys : List β} (h : xs.map f = ys.map g)
    (hR : ∀ x ∈ xs, ∀ y ∈ ys, f x = g y → R x y) : List.Forall₂ R xs ys := by
  induction xs generalizing ys with
  | nil =>
    rw [List.map_nil, eq_comm, List.map_eq_nil_iff] at h
    rw [h]
    exact .nil
  | cons x xs ih =>
    cases ys with
    | nil => cases h
    | cons y ys =>
      obtain ⟨hxy, hrest⟩ := List.cons.inj h
      refine .cons (hR x List.mem_cons_self y List.mem_cons_self hxy) (ih hrest ?_)
      exact fun x hx y hy => hR x (List.mem_cons_of_mem _ hx) y (List.mem_cons_of_mem _ hy)

/-- **Listings of the same names and kinds are the same when they are sorted.** -/
theorem forall₂_sortEntries {es es' : List Entry} (h : Orderly es) (h' : Orderly es')
    (hkeys : ∀ name isDir, (name, isDir) ∈ es.map Entry.key ↔ (name, isDir) ∈ es'.map Entry.key)
    {R : Entry → Entry → Prop} (hR : ∀ e ∈ es, ∀ e' ∈ es', e.key = e'.key → R e e') :
    List.Forall₂ R (sortEntries es) (sortEntries es') := by
  have hsorted : (sortEntries es).map Entry.key = (sortEntries es').map Entry.key := by
    apply List.Pairwise.eq_of_mem_iff h.pairwise_sortEntries h'.pairwise_sortEntries
    intro k
    have hmem : ∀ es : List Entry, k ∈ (sortEntries es).map Entry.key ↔ k ∈ es.map Entry.key :=
      fun es => ((List.mergeSort_perm es _).map Entry.key).mem_iff
    rw [hmem, hmem]
    exact hkeys k.1 k.2
  apply forall₂_of_map_eq hsorted
  intro e he e' he'
  exact hR e (mem_sortEntries.1 he) e' (mem_sortEntries.1 he')

namespace Memory

/-- Directories are listed before files, and each of both has a name of its own. -/
theorem Distinct.orderly_entries {m : Memory} (h : m.Distinct) (dir : Path) :
    Orderly (m.fileSystem.entries dir) := by
  have hnodup := h.listsOnce dir
  rw [entries_eq] at hnodup ⊢
  split
  · rename_i hdir
    rw [if_pos hdir, List.Nodup, List.pairwise_map, List.pairwise_append] at hnodup
    obtain ⟨hdirs, hfiles, -⟩ := hnodup
    have hisDir : ∀ e ∈ m.dirs.filterMap (entryIn? dir true), e.isDir = true :=
      fun e he => isDir_of_mem_filterMap_entryIn? id he
    have hisFile : ∀ e ∈ m.files.filterMap (fun f => entryIn? dir false f.1), e.isDir = false :=
      fun e he => isDir_of_mem_filterMap_entryIn? Prod.fst he
    refine List.pairwise_append.2 ⟨?_, ?_, fun a ha b hb _ => ⟨hisDir a ha, hisFile b hb⟩⟩
    · refine hdirs.imp_of_mem fun {a b} ha hb hne hname => absurd ?_ hne
      rw [Entry.key, Entry.key, hname, hisDir a ha, hisDir b hb]
    · refine hfiles.imp_of_mem fun {a b} ha hb hne hname => absurd ?_ hne
      rw [Entry.key, Entry.key, hname, hisFile a ha, hisFile b hb]
  · exact List.Pairwise.nil

end Memory

end RefGraph
