import Mathlib.Data.List.Basic
import Mathlib.Data.List.Induction

/-!
# The first element of each key

Things that are offered one after the other, and kept unless something of the same key is there,
make the list of the first elements of each key.

* `firstsBy`: the elements of a list whose key no earlier element has.
* `firstsBy_concat`: one more element is kept if its key is new.
* `firstsBy_append_left`: a part at the beginning may be thinned out before the rest is offered.
* `firstsBy_filter`: it makes no difference whether keys are dropped before or afterwards.
* `KeepsFirst`, `keepsFirst_firstsBy`: what these elements are, and in which order.
-/

namespace RefGraph

variable {α κ : Type} [DecidableEq κ]

/-- The elements of a list whose key no earlier element has. -/
def firstsBy (key : α → κ) (as : List α) : List α :=
  as.eraseDupsBy fun a b => decide (key a = key b)

@[simp] theorem firstsBy_nil (key : α → κ) : firstsBy key [] = [] := rfl

/-- The first element is kept, and of the rest all that has another key is looked at. -/
theorem firstsBy_cons (key : α → κ) (a : α) (as : List α) :
    firstsBy key (a :: as) = a :: firstsBy key (as.filter fun b => decide (key b ≠ key a)) := by
  rw [firstsBy, List.eraseDupsBy_cons, firstsBy]
  simp only [decide_eq_false_iff_not, ne_eq]

/-- One more element is kept if its key is new. -/
theorem firstsBy_concat (key : α → κ) (as : List α) (a : α) :
    firstsBy key (as ++ [a]) =
      if key a ∈ as.map key then firstsBy key as else firstsBy key as ++ [a] := by
  -- What is looked at behind the first element is a part of the rest: induction on the length.
  induction h : as.length using Nat.strongRecOn generalizing as with
  | _ n ih =>
    cases as with
    | nil => simp [firstsBy_cons]
    | cons b bs =>
      have hlen : (bs.filter fun c => decide (key c ≠ key b)).length < n := by
        have := List.length_filter_le (fun c => decide (key c ≠ key b)) bs
        simp only [List.length_cons] at h
        omega
      rw [List.cons_append, firstsBy_cons, firstsBy_cons, List.filter_append]
      by_cases hab : key a = key b
      · simp [hab]
      · have ha : [a].filter (fun c => decide (key c ≠ key b)) = [a] := by simp [hab]
        rw [ha, ih _ hlen _ rfl]
        -- An element of the key of `a` is not among those that `b` drops.
        have hmem : key a ∈ (bs.filter fun c => decide (key c ≠ key b)).map key ↔
            key a ∈ bs.map key := by
          simp only [List.mem_map, List.mem_filter, decide_eq_true_eq]
          constructor
          · rintro ⟨c, ⟨hc, -⟩, he⟩
            exact ⟨c, hc, he⟩
          · rintro ⟨c, hc, he⟩
            exact ⟨c, ⟨hc, by rwa [he]⟩, he⟩
        simp only [hmem, List.map_cons, List.mem_cons, hab, false_or]
        split <;> rfl

/-- The same keys are left. -/
@[simp] theorem mem_map_firstsBy (key : α → κ) (as : List α) (k : κ) :
    k ∈ (firstsBy key as).map key ↔ k ∈ as.map key := by
  induction as using List.reverseRecOn with
  | nil => rfl
  | append_singleton as a ih =>
    rw [firstsBy_concat, List.map_append, List.mem_append]
    split
    · rename_i h
      rw [ih]
      constructor
      · exact Or.inl
      · rintro (hk | hk)
        · exact hk
        · rw [List.mem_singleton.1 hk]
          exact h
    · rw [List.map_append, List.mem_append, ih]

/-- What is left was there. -/
theorem mem_of_mem_firstsBy {key : α → κ} {as : List α} {a : α} (h : a ∈ firstsBy key as) :
    a ∈ as := by
  induction as using List.reverseRecOn with
  | nil => exact h
  | append_singleton as b ih =>
    rw [firstsBy_concat] at h
    split at h
    · exact List.mem_append_left _ (ih h)
    · rcases List.mem_append.1 h with h | h
      · exact List.mem_append_left _ (ih h)
      · exact List.mem_append_right _ h

/-- No key is left twice. -/
theorem nodup_map_firstsBy (key : α → κ) (as : List α) : ((firstsBy key as).map key).Nodup := by
  induction as using List.reverseRecOn with
  | nil => exact List.nodup_nil
  | append_singleton as a ih =>
    rw [firstsBy_concat]
    split
    · exact ih
    · rename_i h
      rw [List.map_append, List.nodup_append]
      refine ⟨ih, List.pairwise_singleton _ _, ?_⟩
      intro k hk l hl hkl
      rw [List.map_singleton, List.mem_singleton] at hl
      exact h ((mem_map_firstsBy key as _).1 (hl ▸ hkl ▸ hk))

/-- A list in which no key occurs twice stays as it is. -/
theorem firstsBy_eq_self {key : α → κ} {as : List α} (h : (as.map key).Nodup) :
    firstsBy key as = as := by
  induction as using List.reverseRecOn with
  | nil => rfl
  | append_singleton as a ih =>
    rw [List.map_append, List.nodup_append] at h
    have ha : key a ∉ as.map key := fun hm => h.2.2 _ hm (key a) (by simp) rfl
    rw [firstsBy_concat, if_neg ha, ih h.1]

/-- A part at the beginning may be thinned out before the rest is offered. -/
theorem firstsBy_append_left (key : α → κ) (as bs : List α) :
    firstsBy key (firstsBy key as ++ bs) = firstsBy key (as ++ bs) := by
  induction bs using List.reverseRecOn with
  | nil => rw [List.append_nil, List.append_nil, firstsBy_eq_self (nodup_map_firstsBy key as)]
  | append_singleton bs b ih =>
    rw [← List.append_assoc, ← List.append_assoc, firstsBy_concat, firstsBy_concat, ih]
    simp only [List.map_append, List.mem_append, mem_map_firstsBy]

/-- What has no new key is not kept. -/
theorem firstsBy_append_of_subset {key : α → κ} {as bs : List α}
    (h : ∀ b ∈ bs, key b ∈ as.map key) : firstsBy key (as ++ bs) = firstsBy key as := by
  induction bs using List.reverseRecOn with
  | nil => rw [List.append_nil]
  | append_singleton bs b ih =>
    have hb : key b ∈ (as ++ bs).map key := by
      rw [List.map_append]
      exact List.mem_append_left _ (h b (by simp))
    rw [← List.append_assoc, firstsBy_concat, if_pos hb]
    exact ih fun b' hb' => h b' (List.mem_append_left _ hb')

/-- It makes no difference whether elements of some keys are dropped before or afterwards. -/
theorem firstsBy_filter {key : α → κ} {p : α → Bool} (hp : ∀ a b, key a = key b → p a = p b)
    (as : List α) : firstsBy key (as.filter p) = (firstsBy key as).filter p := by
  induction as using List.reverseRecOn with
  | nil => rfl
  | append_singleton as a ih =>
    rw [List.filter_append, firstsBy_concat]
    cases ha : p a with
    | false =>
      have hlast : [a].filter p = [] := by simp [ha]
      rw [hlast, List.append_nil, ih]
      split
      · rfl
      · rw [List.filter_append, hlast, List.append_nil]
    | true =>
      have hlast : [a].filter p = [a] := by simp [ha]
      -- What has the key of the last element is kept with it.
      have hmem : key a ∈ (as.filter p).map key ↔ key a ∈ as.map key := by
        simp only [List.mem_map, List.mem_filter]
        constructor
        · rintro ⟨b, ⟨hb, -⟩, hkey⟩
          exact ⟨b, hb, hkey⟩
        · rintro ⟨b, hb, hkey⟩
          exact ⟨b, ⟨hb, (hp b a hkey).trans ha⟩, hkey⟩
      rw [hlast, firstsBy_concat, if_congr hmem rfl rfl, ih]
      split
      · rfl
      · rw [List.filter_append, hlast]

/-- Of the keys at the beginning the first elements are kept, whatever follows. -/
theorem filter_firstsBy_append (key : α → κ) (as bs : List α) :
    ((firstsBy key (as ++ bs)).filter fun b => decide (key b ∈ as.map key)) = firstsBy key as := by
  have hall : (as.filter fun b => decide (key b ∈ as.map key)) = as :=
    List.filter_eq_self.2 fun a ha => decide_eq_true (List.mem_map_of_mem ha)
  rw [← firstsBy_filter fun a b hab => by rw [hab], List.filter_append, hall]
  exact firstsBy_append_of_subset fun b hb => of_decide_eq_true (List.mem_filter.1 hb).2

/-- What is kept under a key of the beginning was at the beginning. -/
theorem mem_of_mem_firstsBy_append {key : α → κ} {as bs : List α} {a : α}
    (h : a ∈ firstsBy key (as ++ bs)) (hkey : key a ∈ as.map key) : a ∈ as := by
  have hkept : a ∈ firstsBy key as := by
    rw [← filter_firstsBy_append key as bs]
    exact List.mem_filter.2 ⟨h, decide_eq_true hkey⟩
  exact mem_of_mem_firstsBy hkept

/-- What does not change keys changes the elements that are kept. -/
theorem firstsBy_map {key : α → κ} {f : α → α} (hf : ∀ a, key (f a) = key a) (as : List α) :
    firstsBy key (as.map f) = (firstsBy key as).map f := by
  have hkeys : (as.map f).map key = as.map key := by
    rw [List.map_map]
    exact List.map_congr_left fun a _ => hf a
  induction as using List.reverseRecOn with
  | nil => rfl
  | append_singleton as a ih =>
    rw [List.map_append, List.map_append, List.map_append] at hkeys
    have hbefore := List.append_inj_left' hkeys rfl
    rw [List.map_append, List.map_singleton, firstsBy_concat, firstsBy_concat, hf, hbefore,
      ih hbefore]
    split
    · rfl
    · rw [List.map_append, List.map_singleton]

/-- An element is kept if no other one has its key. -/
theorem mem_firstsBy {key : α → κ} {as : List α} {a : α} (ha : a ∈ as)
    (h : ∀ b ∈ as, key b = key a → b = a) : a ∈ firstsBy key as := by
  obtain ⟨b, hb, hkey⟩ := List.mem_map.1 ((mem_map_firstsBy key as (key a)).2
    (List.mem_map_of_mem ha))
  rwa [← h b (mem_of_mem_firstsBy hb) hkey]

/-! ## First elements in their order -/

/-- Of some elements the first one of each key is kept, and they stay in the order in which their
keys come up. -/
structure KeepsFirst (key : α → κ) (offered kept : List α) : Prop where
  mem_iff : ∀ a, a ∈ kept ↔ ∃ before after, offered = before ++ a :: after ∧ key a ∉ before.map key
  order : kept.Pairwise fun a b => (offered.map key).idxOf (key a) < (offered.map key).idxOf (key b)

/-- No two elements that are kept have the same key. -/
theorem KeepsFirst.nodup {key : α → κ} {offered kept : List α} (h : KeepsFirst key offered kept) :
    (kept.map key).Nodup := by
  apply List.pairwise_map.2
  apply h.order.imp
  intro a b hlt hkey
  rw [hkey] at hlt
  exact Nat.lt_irrefl _ hlt

/-- The first element is kept, and all that is kept of the rest but has another key. -/
theorem firstsBy_cons_eq_filter (key : α → κ) (a : α) (as : List α) :
    firstsBy key (a :: as) = a :: (firstsBy key as).filter fun b => decide (key b ≠ key a) := by
  rw [firstsBy_cons, firstsBy_filter fun b c hbc => by rw [hbc]]

/-- The first item of a key is one before which no other has that key. -/
theorem mem_firstsBy_iff {key : α → κ} {offered : List α} {a : α} : a ∈ firstsBy key offered ↔
    ∃ before after, offered = before ++ a :: after ∧ key a ∉ before.map key := by
  induction offered with
  | nil => simp
  | cons b offered ih =>
    rw [firstsBy_cons_eq_filter, List.mem_cons, List.mem_filter, ih]
    constructor
    · rintro (rfl | ⟨⟨before, after, rfl, hnew⟩, hne⟩)
      · exact ⟨[], offered, rfl, List.not_mem_nil⟩
      · refine ⟨b :: before, after, rfl, ?_⟩
        rw [List.map_cons, List.mem_cons, not_or]
        exact ⟨of_decide_eq_true hne, hnew⟩
    · rintro ⟨before, after, hoffered, hnew⟩
      cases before with
      | nil => exact .inl (List.cons.inj hoffered).1.symm
      | cons c before =>
        obtain ⟨rfl, rfl⟩ := List.cons.inj hoffered
        rw [List.map_cons, List.mem_cons, not_or] at hnew
        exact .inr ⟨⟨before, after, rfl, hnew.2⟩, decide_eq_true hnew.1⟩

/-- The first elements of all keys are kept in their order. -/
theorem keepsFirst_firstsBy (key : α → κ) (offered : List α) :
    KeepsFirst key offered (firstsBy key offered) := by
  refine ⟨fun a => mem_firstsBy_iff, ?_⟩
  induction offered with
  | nil => exact .nil
  | cons b offered ih =>
    rw [firstsBy_cons_eq_filter, List.pairwise_cons]
    -- a key that comes up behind `b` comes up one place later than without it
    have hlater : ∀ a ∈ (firstsBy key offered).filter (fun a => decide (key a ≠ key b)),
        ((b :: offered).map key).idxOf (key a) = (offered.map key).idxOf (key a) + 1 := by
      intro a ha
      have hne : key a ≠ key b := of_decide_eq_true (List.mem_filter.1 ha).2
      rw [List.map_cons, List.idxOf_cons_ne _ (Ne.symm hne)]
    constructor
    · intro a ha
      rw [hlater a ha, List.map_cons, List.idxOf_cons_self]
      exact Nat.succ_pos _
    · apply (ih.filter _).imp_of_mem
      intro a c ha hc hlt
      rw [hlater a ha, hlater c hc]
      exact Nat.succ_lt_succ hlt

end RefGraph
