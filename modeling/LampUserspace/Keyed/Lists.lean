import Mathlib.Data.List.Nodup

/-! # Lists of entries with keys

A list of entries with distinct keys is a finite map. Replacing an entry by one
with its key, adding an entry with a new key and removing an entry change the
map at that key alone.
-/

namespace LampUserspace.Keyed

universe u v

variable {α : Type u} {κ : Type v} {key : α → κ} {es xs ys : List α} {e e' : α} {k : κ}

/-! ## Distinct keys -/

theorem not_mem_before (h : ((xs ++ e :: ys).map key).Nodup) : key e ∉ xs.map key := by
  rw [List.map_append, List.map_cons] at h
  exact fun hmem => (List.nodup_append.mp h).2.2 _ hmem _ List.mem_cons_self rfl

theorem not_mem_after (h : ((xs ++ e :: ys).map key).Nodup) : key e ∉ ys.map key := by
  rw [List.map_append, List.map_cons] at h
  exact (List.nodup_cons.mp (List.nodup_append.mp h).2.1).1

theorem nodup_replace (hnodup : ((xs ++ e :: ys).map key).Nodup) (hkey : key e' = key e) :
    ((xs ++ e' :: ys).map key).Nodup := by
  rw [List.map_append, List.map_cons] at hnodup ⊢
  rw [hkey]
  exact hnodup

theorem nodup_add (hnodup : (es.map key).Nodup) (hnew : key e ∉ es.map key) :
    ((es ++ [e]).map key).Nodup := by
  rw [List.map_append]
  exact List.nodup_append.mpr ⟨hnodup, List.nodup_singleton _, fun a ha b hb => by
    rintro rfl
    exact hnew (List.mem_singleton.mp hb ▸ ha)⟩

theorem nodup_remove (hnodup : ((xs ++ e :: ys).map key).Nodup) : ((xs ++ ys).map key).Nodup :=
  hnodup.sublist ((List.Sublist.refl xs).append (List.sublist_cons_self e ys) |>.map key)

/-! ## Lookup -/

variable [DecidableEq κ]

def lookup (key : α → κ) (es : List α) (k : κ) : Option α := es.find? fun e => decide (key e = k)

theorem lookup_cons : lookup key (e :: es) k = if key e = k then some e else lookup key es k := by
  unfold lookup
  by_cases h : key e = k
  · rw [List.find?_cons_of_pos (by simpa using h), if_pos h]
  · rw [List.find?_cons_of_neg (by simpa using h), if_neg h]

theorem lookup_eq_none : lookup key es k = none ↔ k ∉ es.map key := by
  simp [lookup]

theorem lookup_append_of_not_mem (h : k ∉ xs.map key) :
    lookup key (xs ++ ys) k = lookup key ys k := by
  have hxs : xs.find? (fun e => decide (key e = k)) = none := lookup_eq_none.mpr h
  unfold lookup
  rw [List.find?_append, hxs, Option.none_or]

theorem lookup_seam (h : key e ∉ xs.map key) : lookup key (xs ++ e :: ys) (key e) = some e := by
  rw [lookup_append_of_not_mem h, lookup_cons, if_pos rfl]

/-- The entries with another key do not depend on the one at the seam. -/
theorem lookup_seam_ne (h : key e ≠ k) :
    lookup key (xs ++ e :: ys) k = lookup key (xs ++ ys) k := by
  induction xs with
  | nil => rw [List.nil_append, lookup_cons, if_neg h, List.nil_append]
  | cons x xs ih => rw [List.cons_append, List.cons_append, lookup_cons, lookup_cons, ih]

theorem lookup_replace (hnodup : ((xs ++ e :: ys).map key).Nodup) (hkey : key e' = key e) :
    lookup key (xs ++ e' :: ys) k =
      if k = key e then some e' else lookup key (xs ++ e :: ys) k := by
  split
  · rename_i h
    rw [h, ← hkey, lookup_seam (hkey ▸ not_mem_before hnodup)]
  · rename_i h
    rw [lookup_seam_ne (fun heq => h (by rw [← heq, hkey])), lookup_seam_ne (Ne.symm h)]

theorem lookup_add (hnew : key e ∉ es.map key) :
    lookup key (es ++ [e]) k = if k = key e then some e else lookup key es k := by
  split
  · rename_i h
    rw [h, lookup_seam hnew]
  · rename_i h
    rw [lookup_seam_ne (Ne.symm h), List.append_nil]

theorem lookup_remove (hnodup : ((xs ++ e :: ys).map key).Nodup) :
    lookup key (xs ++ ys) k = if k = key e then none else lookup key (xs ++ e :: ys) k := by
  split
  · rename_i h
    rw [h, lookup_eq_none, List.map_append, List.mem_append, not_or]
    exact ⟨not_mem_before hnodup, not_mem_after hnodup⟩
  · rename_i h
    rw [lookup_seam_ne (Ne.symm h)]

end LampUserspace.Keyed
