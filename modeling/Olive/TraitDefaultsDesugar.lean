import Mathlib.Data.List.Perm.Basic
import Olive.TraitDefaultsSound

/-! The program after the default methods are copied into it. -/

namespace Olive

namespace TraitDefaults

open Ast

/-- What `traitMethods` makes of one more statement. -/
def withTrait (found : List (String × List Stmt)) : Stmt → List (String × List Stmt)
  | .traitDef name _ methods => (name, methods) :: found
  | _ => found

theorem traitMethods_lookup (name : String) (stmts : List Stmt) :
    (traitMethods stmts).lookup name = traitNamed name stmts := by
  have hfold : ∀ found : List (String × List Stmt),
      (stmts.foldl withTrait found).lookup name =
        (traitNamed name stmts).or (found.lookup name) := by
    induction stmts with
    | nil => intro found; rfl
    | cons s ss ih =>
      intro found
      rw [List.foldl_cons, ih, traitNamed, Option.or_assoc]
      congr 1
      cases s with
      | traitDef declared typeParams methods =>
        by_cases hname : name = declared
        · subst hname
          simp only [withTrait, List.lookup_cons, beq_self_eq_true, declaredMethods, ↓reduceIte, Option.some_or]
        · simp only [withTrait, List.lookup_cons, beq_false_of_ne hname, declaredMethods,
            if_neg (Ne.symm hname), Option.none_or]
      | _ => rfl
  exact (hfold []).trans (Option.or_none)

theorem traitNamed_mem {name : String} {stmts methods : List Stmt}
    (h : traitNamed name stmts = some methods) :
    ∃ typeParams, Stmt.traitDef name typeParams methods ∈ stmts := by
  induction stmts with
  | nil => cases h
  | cons s ss ih =>
    rw [traitNamed] at h
    rcases Option.or_eq_some_iff.mp h with hlater | ⟨-, hhere⟩
    · obtain ⟨typeParams, hmem⟩ := ih hlater
      exact ⟨typeParams, List.mem_cons_of_mem s hmem⟩
    · cases s with
      | traitDef declared typeParams own =>
        rw [declaredMethods, Option.ite_none_right_eq_some] at hhere
        obtain ⟨rfl, hown⟩ := hhere
        cases hown
        exact ⟨typeParams, List.mem_cons_self⟩
      | _ => cases hhere

theorem copyDefaults_eq (body defaults : List Stmt) :
    copyDefaults body defaults = refreshBlock (defaults.filter (isMissing body)) := by
  induction defaults with
  | nil => rfl
  | cons method defaults ih =>
    rw [copyDefaults, ih, List.filter_cons]
    split
    · rfl
    · rfl

/-- The ids of a statement, and again those that the copies of its default methods share with their
trait. -/
def keptIds (program : Program) (s : Stmt) : List Nat :=
  stmtIds s ++ unreachedBlock (inherited program s)

theorem keptIds_of_nil {program : Program} {s : Stmt} (h : inherited program s = []) :
    keptIds program s = stmtIds s := by
  rw [keptIds, h]
  exact List.append_nil _

theorem desugarStmt_impl (program : Program) (typeParams : List String) (traitExpr typeName : TypeExpr)
    (body : List Stmt) (c : Nat) :
    desugarStmt (traitMethods program.stmts) (.impl typeParams (some traitExpr) typeName body) c =
      (.impl typeParams (some traitExpr) typeName (body ++ (refreshBlock
          (inherited program (.impl typeParams (some traitExpr) typeName body)) c).1),
        (refreshBlock (inherited program (.impl typeParams (some traitExpr) typeName body)) c).2) := by
  simp only [desugarStmt, inherited, traitMethods_lookup]
  cases traitNamed (typeExprName traitExpr) program.stmts with
  | some defaults =>
    simp only [copyDefaults_eq, Option.getD_some]
    rfl
  | none =>
    simp only [Option.getD_none, List.filter_nil]
    exact congrArg (fun body => (Stmt.impl typeParams (some traitExpr) typeName body, c))
      (List.append_nil body).symm

theorem desugarStmt_completed (program : Program) (s : Stmt) (c : Nat) :
    Completed program s (desugarStmt (traitMethods program.stmts) s c).1 := by
  cases s with
  | impl typeParams traitName typeName body =>
    cases traitName with
    | some traitExpr =>
      rw [desugarStmt_impl]
      exact ⟨_, rfl, refreshBlock_erased _ c⟩
    | none =>
      refine ⟨[], ?_, rfl⟩
      rw [List.append_nil]
      rfl
  | _ => rfl

theorem desugarStmt_renumbered (program : Program) (s : Stmt) (c : Nat) :
    Renumbered (keptIds program s) (stmtIds (desugarStmt (traitMethods program.stmts) s c).1) c
      (desugarStmt (traitMethods program.stmts) s c).2 := by
  cases s with
  | impl typeParams traitName typeName body =>
    cases traitName with
    | some traitExpr =>
      rw [desugarStmt_impl]
      have hids : ∀ copies, stmtIds (.impl typeParams (some traitExpr) typeName (body ++ copies)) =
          blockIds body ++ blockIds copies := fun copies => blockIds_append body copies
      rw [hids]
      exact (Renumbered.rest (blockIds body) c).append (refreshBlock_renumbered _ c)
    | none =>
      rw [keptIds_of_nil rfl]
      exact .rest _ c
  | _ =>
    rw [keptIds_of_nil rfl]
    exact .rest _ c

theorem desugarStmts_completed (program : Program) (ss : List Stmt) (c : Nat) :
    List.Forall₂ (Completed program) ss (desugarStmts (traitMethods program.stmts) ss c).1 := by
  induction ss generalizing c with
  | nil => exact .nil
  | cons s ss ih => exact .cons (desugarStmt_completed program s c) (ih _)

theorem desugarStmts_renumbered (program : Program) (ss : List Stmt) (c : Nat) :
    Renumbered (ss.flatMap (keptIds program))
      (blockIds (desugarStmts (traitMethods program.stmts) ss c).1) c
      (desugarStmts (traitMethods program.stmts) ss c).2 := by
  induction ss generalizing c with
  | nil => exact .rest [] c
  | cons s ss ih => exact (desugarStmt_renumbered program s c).append (ih _)

/-- Without a trait no statement is visited, which is what the visit would come to. -/
theorem desugarStmts_nil (ss : List Stmt) (c : Nat) : desugarStmts [] ss c = (ss, c) := by
  induction ss generalizing c with
  | nil => rfl
  | cons s ss ih =>
    have hs : desugarStmt [] s c = (s, c) := by
      cases s with
      | impl typeParams traitName typeName body => cases traitName <;> rfl
      | _ => rfl
    have hss : desugarStmts [] (s :: ss) c =
        ((desugarStmt [] s c).1 :: (desugarStmts [] ss (desugarStmt [] s c).2).1,
          (desugarStmts [] ss (desugarStmt [] s c).2).2) := rfl
    rw [hss, hs, ih]

theorem desugarTraitDefaults_stmts (program : Program) (c : Nat) :
    (desugarTraitDefaults program c).1.stmts =
      (desugarStmts (traitMethods program.stmts) program.stmts c).1 := by
  unfold desugarTraitDefaults
  cases h : traitMethods program.stmts with
  | nil =>
    rw [desugarStmts_nil]
    rfl
  | cons method traits => rfl

theorem blockIds_flatMap (ss : List Stmt) : blockIds ss = ss.flatMap stmtIds := by
  induction ss with
  | nil => rfl
  | cons s ss ih => rw [blockIds, ih, List.flatMap_cons]

theorem unreachedBlock_flatMap (ss : List Stmt) : unreachedBlock ss = ss.flatMap unreachedStmt := by
  induction ss with
  | nil => rfl
  | cons s ss ih => rw [unreachedBlock, ih, List.flatMap_cons]

theorem stmtIds_mem {s : Stmt} {ss : List Stmt} {i : Nat} (hs : s ∈ ss) (hi : i ∈ stmtIds s) :
    i ∈ blockIds ss := by
  rw [blockIds_flatMap]
  exact List.mem_flatMap.mpr ⟨s, hs, hi⟩

/-- A default method stands in the program, in its trait. -/
theorem inherited_ids {program : Program} {s m : Stmt} {i : Nat} (hm : m ∈ inherited program s)
    (hi : i ∈ unreachedStmt m) : i ∈ blockIds program.stmts := by
  cases s with
  | impl typeParams traitName typeName body =>
    cases traitName with
    | some traitExpr =>
      have hdefault := List.mem_of_mem_filter hm
      cases htrait : traitNamed (typeExprName traitExpr) program.stmts with
      | some methods =>
        rw [htrait, Option.getD_some] at hdefault
        obtain ⟨typeParams, hmem⟩ := traitNamed_mem htrait
        have hids : i ∈ blockIds methods := stmtIds_mem hdefault ((unreachedStmt_sub m).subset hi)
        exact stmtIds_mem hmem hids
      | none =>
        rw [htrait] at hdefault
        cases hdefault
    | none => cases hm
  | _ => cases hm

theorem keptIds_mem {program : Program} {i : Nat}
    (hi : i ∈ program.stmts.flatMap (keptIds program)) : i ∈ blockIds program.stmts := by
  obtain ⟨s, hs, hkept⟩ := List.mem_flatMap.mp hi
  rcases List.mem_append.mp hkept with hown | hshared
  · exact stmtIds_mem hs hown
  · rw [unreachedBlock_flatMap] at hshared
    obtain ⟨m, hm, hmi⟩ := List.mem_flatMap.mp hshared
    exact inherited_ids hm hmi

/-- An id that a copy shares stands twice among the kept ones. -/
theorem keptIds_nodup_iff {program : Program} (hids : (blockIds program.stmts).Nodup) :
    (program.stmts.flatMap (keptIds program)).Nodup ↔
      ∀ s ∈ program.stmts, ∀ m ∈ inherited program s, unreachedStmt m = [] := by
  have hperm : (program.stmts.flatMap (keptIds program)).Perm (blockIds program.stmts ++
      program.stmts.flatMap fun s => unreachedBlock (inherited program s)) := by
    rw [blockIds_flatMap]
    exact (List.flatMap_append_perm _ _ _).symm
  rw [hperm.nodup_iff, List.nodup_append]
  constructor
  · rintro ⟨-, -, hapart⟩ s hs m hm
    apply List.eq_nil_iff_forall_not_mem.mpr
    intro i hi
    refine hapart i (inherited_ids hm hi) i (List.mem_flatMap.mpr ⟨s, hs, ?_⟩) rfl
    rw [unreachedBlock_flatMap]
    exact List.mem_flatMap.mpr ⟨m, hm, hi⟩
  · intro hreached
    have hnone : (program.stmts.flatMap fun s => unreachedBlock (inherited program s)) = [] := by
      apply List.flatMap_eq_nil_iff.mpr
      intro s hs
      rw [unreachedBlock_flatMap]
      exact List.flatMap_eq_nil_iff.mpr (hreached s hs)
    rw [hnone]
    exact ⟨hids, List.nodup_nil, fun i _ j hj => absurd hj List.not_mem_nil⟩

/-- The ids stay distinct exactly when no default method that is copied has an expression where the
copying does not come to; the copies themselves are always as they should be. -/
theorem trait_defaults_desugared_iff (program : Program) (counter : Nat)
    (hids : (blockIds program.stmts).Nodup) (hcounter : ∀ id ∈ blockIds program.stmts, id < counter) :
    Desugared program (desugarTraitDefaults program counter).1 ↔
      ∀ s ∈ program.stmts, ∀ m ∈ inherited program s, unreachedStmt m = [] := by
  have hkept : ∀ i ∈ program.stmts.flatMap (keptIds program), i < counter :=
    fun i hi => hcounter i (keptIds_mem hi)
  have hnodup := (desugarStmts_renumbered program program.stmts counter).nodup_iff hkept
  rw [← keptIds_nodup_iff hids, ← hnodup, ← desugarTraitDefaults_stmts]
  constructor
  · exact fun h => h.ids
  · intro h
    refine ⟨?_, h⟩
    rw [desugarTraitDefaults_stmts]
    exact desugarStmts_completed program program.stmts counter

/-- A trait with one default method, and a type that takes it. -/
def greeting : Program where
  stmts := [
    .traitDef "Greet" [] [.fn "name" [] [.mk "self" none .regular]
      [.returnStmt (some (.mk 1 (.identifier "self")))] false],
    .impl [] (some (.name "Greet")) (.name "Cat") []]

theorem trait_defaults_desugared_greeting :
    Desugared greeting (desugarTraitDefaults greeting 2).1 :=
  (trait_defaults_desugared_iff greeting 2 (by decide) (by decide)).mpr (by decide)

/-- A default method that counts by two, and two types that take it. -/
def countingByTwo : Program where
  stmts := [
    .traitDef "Count" [] [.fn "count" [] [.mk "self" none .regular]
      [.forStmt (.name "i") (.mk 1 (.range (.mk 2 (.integer 0)) (.mk 3 (.integer 10)) false
        (some (.mk 4 (.integer 2))))) [.pass] []] false],
    .impl [] (some (.name "Count")) (.name "Cat") [],
    .impl [] (some (.name "Count")) (.name "Dog") []]

/-- The step of the range has one id in the trait and in both copies. -/
theorem trait_defaults_share_step : ¬ ∀ (program : Program) (counter : Nat),
    (blockIds program.stmts).Nodup → (∀ id ∈ blockIds program.stmts, id < counter) →
      Desugared program (desugarTraitDefaults program counter).1 := by
  intro h
  have hids := (h countingByTwo 5 (by decide) (by decide)).ids
  have hshared : blockIds (desugarTraitDefaults countingByTwo 5).1.stmts =
      [1, 2, 3, 4, 5, 6, 7, 4, 8, 9, 10, 4] := by decide
  rw [hshared] at hids
  exact absurd hids (by decide)

end TraitDefaults

end Olive
