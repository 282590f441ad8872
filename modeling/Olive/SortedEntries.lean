import Mathlib.Data.List.Perm.Basic
import Mathlib.Data.List.Sort
import Mathlib.Order.Basic

/-! Maps as lists of entries with the keys in order. -/

namespace SortedEntries

variable {K V : Type} [LinearOrder K]

/-- A key that is there has its value replaced. -/
def insert (key : K) (value : V) : List (K × V) → List (K × V)
  | [] => [(key, value)]
  | e :: rest =>
    if key < e.1 then (key, value) :: e :: rest
    else if key = e.1 then (key, value) :: rest
    else e :: insert key value rest

def Sorted (entries : List (K × V)) : Prop :=
  entries.Pairwise fun a b => a.1 < b.1

variable {key : K} {value : V} {entries other : List (K × V)}

theorem insert_perm (h : ∀ e ∈ entries, e.1 ≠ key) :
    (insert key value entries).Perm ((key, value) :: entries) := by
  induction entries with
  | nil => exact List.Perm.refl _
  | cons e rest ih =>
    have hrest := ih fun e he => h e (List.mem_cons_of_mem _ he)
    unfold insert
    split
    · exact List.Perm.refl _
    · rw [if_neg (h e List.mem_cons_self).symm]
      exact (hrest.cons e).trans (List.Perm.swap _ _ _)

theorem sorted_insert (hs : Sorted entries) (h : ∀ e ∈ entries, e.1 ≠ key) :
    Sorted (insert key value entries) := by
  induction entries with
  | nil => exact List.pairwise_singleton _ _
  | cons e rest ih =>
    obtain ⟨hfirst, hrest⟩ := List.pairwise_cons.mp hs
    have hne := h e List.mem_cons_self
    have hne' : ∀ e ∈ rest, e.1 ≠ key := fun e he => h e (List.mem_cons_of_mem _ he)
    unfold insert
    split
    next hlt =>
      refine List.pairwise_cons.mpr ⟨?_, hs⟩
      intro b hb
      rcases List.mem_cons.mp hb with rfl | hb
      · exact hlt
      · exact hlt.trans (hfirst b hb)
    next hge =>
      rw [if_neg hne.symm]
      refine List.pairwise_cons.mpr ⟨?_, ih hrest hne'⟩
      intro b hb
      rcases List.mem_cons.mp ((insert_perm hne').subset hb) with rfl | hb
      · exact lt_of_le_of_ne (not_lt.mp hge) hne
      · exact hfirst b hb

theorem Sorted.keys_nodup (h : Sorted entries) : (entries.map Prod.fst).Nodup :=
  List.pairwise_map.mpr (h.imp fun hlt => hlt.ne)

/-- The order decides the list. -/
theorem Sorted.eq_of_perm (h : Sorted entries) (h' : Sorted other) (hp : entries.Perm other) :
    entries = other :=
  hp.eq_of_pairwise (fun _ _ _ _ hab hba => absurd hba hab.not_gt) h h'

/-- Entries of different keys are put in order whatever the order they come in. -/
theorem foldl_insert (hs : Sorted entries) (h : other.Perm entries) :
    other.foldl (fun map e => insert e.1 e.2 map) [] = entries := by
  have hrun : ∀ (rest map : List (K × V)), Sorted map → ((map ++ rest).map Prod.fst).Nodup →
      Sorted (rest.foldl (fun map e => insert e.1 e.2 map) map) ∧
        (rest.foldl (fun map e => insert e.1 e.2 map) map).Perm (map ++ rest) := by
    intro rest
    induction rest with
    | nil =>
      intro map hmap _
      rw [List.append_nil]
      exact ⟨hmap, List.Perm.refl _⟩
    | cons e rest ih =>
      intro map hmap hnodup
      have hkeys : ∀ b ∈ map, b.1 ≠ e.1 := by
        intro b hb heq
        rw [List.map_append, List.map_cons] at hnodup
        have hdisjoint := (List.nodup_append.mp hnodup).2.2 b.1 (List.mem_map_of_mem hb) e.1
          List.mem_cons_self
        exact hdisjoint heq
      have hperm : (insert e.1 e.2 map).Perm ((e.1, e.2) :: map) := insert_perm hkeys
      have hmiddle : (insert e.1 e.2 map ++ rest).Perm (map ++ e :: rest) :=
        (hperm.append_right rest).trans List.perm_middle.symm
      obtain ⟨hsorted, hp⟩ := ih (insert e.1 e.2 map) (sorted_insert hmap hkeys)
        ((hmiddle.map Prod.fst).nodup_iff.mpr hnodup)
      exact ⟨hsorted, hp.trans hmiddle⟩
  obtain ⟨hsorted, hp⟩ := hrun other [] List.Pairwise.nil
    ((h.map Prod.fst).nodup_iff.mpr hs.keys_nodup)
  exact hsorted.eq_of_perm hs (hp.trans h)

end SortedEntries
