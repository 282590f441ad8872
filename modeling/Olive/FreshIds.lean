import Mathlib.Data.List.Intervals
import Mathlib.Data.List.Perm.Lattice

/-! Lists of ids that a counter renews in part: some ids stay, every other one is drawn from the
counter. -/

namespace Olive

/-- From `c` to `c'` the counter gave every id of `new` that is not one of `kept`. -/
structure Renumbered (kept new : List Nat) (c c' : Nat) : Prop where
  mono : c ≤ c'
  perm : new.Perm (kept ++ List.Ico c c')

namespace Renumbered

variable {kept kept' new new' : List Nat} {c c' c'' : Nat}

theorem rest (ids : List Nat) (c : Nat) : Renumbered ids ids c c where
  mono := Nat.le_refl c
  perm := by rw [List.Ico.self_empty, List.append_nil]

/-- The id that is drawn first stands before the others. -/
theorem fresh (h : Renumbered kept new (c + 1) c') : Renumbered kept (c :: new) c c' where
  mono := Nat.le_of_succ_le h.mono
  perm := by
    have hhead : List.Ico c c' = c :: List.Ico (c + 1) c' := List.Ico.eq_cons h.mono
    rw [hhead]
    exact (h.perm.cons c).trans List.perm_middle.symm

theorem append (h : Renumbered kept new c c') (h' : Renumbered kept' new' c' c'') :
    Renumbered (kept ++ kept') (new ++ new') c c'' where
  mono := h.mono.trans h'.mono
  perm := by
    rw [← List.Ico.append_consecutive h.mono h'.mono]
    calc (new ++ new').Perm ((kept ++ List.Ico c c') ++ (kept' ++ List.Ico c' c'')) :=
          h.perm.append h'.perm
      _ = kept ++ ((List.Ico c c' ++ kept') ++ List.Ico c' c'') := by
          simp only [List.append_assoc]
      List.Perm _ (kept ++ ((kept' ++ List.Ico c c') ++ List.Ico c' c'')) :=
          (List.perm_append_comm.append_right _).append_left _
      _ = (kept ++ kept') ++ (List.Ico c c' ++ List.Ico c' c'') := by
          simp only [List.append_assoc]

/-- With the kept ids below the counter, a repeated id is one that was kept. -/
theorem nodup_iff (h : Renumbered kept new c c') (hkept : ∀ i ∈ kept, i < c) :
    new.Nodup ↔ kept.Nodup := by
  rw [h.perm.nodup_iff, List.nodup_append]
  constructor
  · exact fun hnew => hnew.1
  · intro hnodup
    refine ⟨hnodup, List.Ico.nodup c c', ?_⟩
    intro i hi j hj hij
    have hlow : i < c := hkept i hi
    have hhigh : c ≤ j := (List.Ico.mem.mp hj).1
    omega

end Renumbered

end Olive
