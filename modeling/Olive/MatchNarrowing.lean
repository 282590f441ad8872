import Olive.MatchPatterns

/-! The type a binding arm of a match is given: the union without the members that the arms before it
have named. -/

namespace Olive

open MatchPatterns

namespace MatchNarrowing

structure Arm where
  pattern : MatchPattern
  guarded : Bool

/-- The variants named by arms without a guard. -/
def matchedVariants (arms : List Arm) : List String :=
  arms.filterMap fun arm =>
    match arm.guarded, arm.pattern with
    | false, .variant name _ => some name
    | _, _ => none

/-- Whether an arm without a guard is `None`. -/
def matchedNull (arms : List Arm) : Bool :=
  arms.any fun arm =>
    match arm.guarded, arm.pattern with
    | false, .literal .none => true
    | _, _ => false

variable (decls : Decls)

/-- Whether a member of the union stays. -/
def remains (matched : List String) (null : Bool) (member : OliveType) : Bool :=
  !(null && member.isNull) &&
    match (enumName? member).bind decls.enumDefs with
    | some variants => !variants.all fun variant => variant.1 ∈ matched
    | none => true

/-- `narrow_match_ty`. -/
def narrowMatchTy (ty : OliveType) (matched : List String) (null : Bool) : OliveType :=
  match ty with
  | .union members =>
    match members.filter (remains decls matched null) with
    | [only] => only
    | _ => ty
  | ty => ty

/-- The type that the binding after `arms` is given. -/
def bindingTy (members : List OliveType) (arms : List Arm) : OliveType :=
  narrowMatchTy decls (.union members) (matchedVariants arms) (matchedNull arms)

/-- The value gets past `arms`: where a pattern accepts it, the guard does not. -/
def Reaches (members : List OliveType) (arms : List Arm) (guards : Arm → Bool) (v : MatchValue) : Prop :=
  ∀ arm ∈ arms, accepts decls (.union members) arm.pattern v = true →
    arm.guarded = true ∧ guards arm = false

/-- Where one member is left, the arms without a guard accept every value of each enum that is not
left, unless the value belongs to the member left. -/
def EnumsCovered (members : List OliveType) (arms : List Arm) : Prop :=
  ∀ only, members.filter (remains decls (matchedVariants arms) (matchedNull arms)) = [only] →
    ∀ name args, .enum name args ∈ members →
      remains decls (matchedVariants arms) (matchedNull arms) (.enum name args) = false →
      ∀ variant tys payload, decls.payloadTypes name variant = some tys →
        payload.length = tys.length → (∀ p ∈ tys.zip payload, HasType decls p.1 p.2) →
        HasType decls only (.enum name variant payload) ∨
          ∃ arm ∈ arms, arm.guarded = false ∧
            accepts decls (.union members) arm.pattern (.enum name variant payload) = true

section Sound

variable {decls} {members : List OliveType} {arms : List Arm} {guards : Arm → Bool} {v : MatchValue}

theorem Reaches.not_accepted (h : Reaches decls members arms guards v) {arm : Arm} (harm : arm ∈ arms)
    (hguard : arm.guarded = false) : accepts decls (.union members) arm.pattern v ≠ true := by
  intro haccepts
  have hguarded := (h arm harm haccepts).1
  rw [hguard] at hguarded
  cases hguarded

theorem Reaches.not_null (h : Reaches decls members arms guards v)
    (hnull : matchedNull arms = true) : v ≠ .null := by
  rintro rfl
  obtain ⟨arm, harm, hnone⟩ := List.any_eq_true.mp hnull
  split at hnone
  next hguard hpattern =>
    refine h.not_accepted harm hguard ?_
    rw [hpattern]
    simp only [accepts, acceptsLit, acceptsNull, MatchValue.isNull, MatchValue.isZero]
    split <;> rfl
  next => cases hnone

/-- What is not left of the union is `None`, or an enum. -/
theorem not_remains {matched : List String} {null : Bool} {member : OliveType}
    (h : remains decls matched null member = false) :
    (null = true ∧ member = .null) ∨ ∃ name args, member = .enum name args := by
  cases member with
  | enum name args => exact .inr ⟨name, args, rfl⟩
  | null =>
    cases null with
    | true => exact .inl ⟨rfl, rfl⟩
    | false => simp [remains, OliveType.isNull, enumName?] at h
  | _ => simp [remains, OliveType.isNull, enumName?] at h

theorem bindingTy_of_single {only : OliveType}
    (h : members.filter (remains decls (matchedVariants arms) (matchedNull arms)) = [only]) :
    bindingTy decls members arms = only := by
  simp only [bindingTy, narrowMatchTy, h]

theorem bindingTy_of_not_single
    (h : ∀ only, members.filter (remains decls (matchedVariants arms) (matchedNull arms)) ≠ [only]) :
    bindingTy decls members arms = .union members := by
  rcases hfilter : members.filter (remains decls (matchedVariants arms) (matchedNull arms)) with
    _ | ⟨only, _ | ⟨second, rest⟩⟩
  · simp only [bindingTy, narrowMatchTy, hfilter]
  · exact absurd hfilter (h only)
  · simp only [bindingTy, narrowMatchTy, hfilter]

/-- A name or a wildcard. -/
def isBare : MatchPattern → Bool
  | .wildcard | .identifier _ => true
  | _ => false

theorem acceptsAll_bare {tys : List OliveType} {inner : List MatchPattern} {vs : List MatchValue}
    (hbare : ∀ p ∈ inner, isBare p = true) (hlen : inner.length ≤ tys.length)
    (hvs : inner.length ≤ vs.length) : acceptsAll decls tys inner vs = true := by
  induction inner generalizing tys vs with
  | nil => cases tys <;> cases vs <;> simp [acceptsAll]
  | cons p ps ih =>
    match tys, vs, hlen, hvs with
    | ty :: tys, v :: vs, hlen, hvs =>
      have hp : accepts decls ty p v = true := by
        have hb := hbare p List.mem_cons_self
        cases p with
        | wildcard | identifier name => simp [accepts]
        | _ => cases hb
      rw [acceptsAll, hp, Bool.true_and]
      exact ih (fun q hq => hbare q (List.mem_cons_of_mem _ hq)) (Nat.le_of_succ_le_succ hlen)
        (Nat.le_of_succ_le_succ hvs)

/-- Arms that only bind the payload cover the enums they name, if no two enums of the union share the
name of a variant. -/
theorem enumsCovered_of_bare
    (hresolve : ∀ name args variant tys, .enum name args ∈ members →
      decls.payloadTypes name variant = some tys →
      resolveVariant decls (.union members) variant = some name)
    (hbare : ∀ arm ∈ arms, arm.guarded = false → ∀ variant inner, arm.pattern = .variant variant inner →
      (∀ p ∈ inner, isBare p = true) ∧
        ∀ name tys, decls.payloadTypes name variant = some tys → inner.length = tys.length) :
    EnumsCovered decls members arms := by
  intro only _ name args hmem hdropped variant tys payload hvariant hlen _
  obtain ⟨variants, hdefs, hlookup⟩ := Option.bind_eq_some_iff.mp hvariant
  obtain ⟨before, after, hvariants, _⟩ := List.lookup_eq_some_iff.mp hlookup
  have hmatched : variant ∈ matchedVariants arms := by
    simp only [remains, OliveType.isNull, Bool.and_false, Bool.not_false, Bool.true_and, enumName?,
      Option.bind_some, hdefs, Bool.not_eq_false'] at hdropped
    have hall := List.all_eq_true.mp hdropped (variant, tys) (by simp [hvariants])
    exact of_decide_eq_true hall
  obtain ⟨arm, harm, hname⟩ := List.mem_filterMap.mp hmatched
  split at hname
  next variant' inner hguard hpattern =>
    obtain rfl := Option.some.inj hname
    obtain ⟨hinner, harity⟩ := hbare arm harm hguard _ inner hpattern
    have hcount := harity name tys hvariant
    refine .inr ⟨arm, harm, hguard, ?_⟩
    rw [hpattern, accepts, if_pos ⟨hresolve name args _ tys hmem hvariant, rfl⟩, hvariant]
    exact acceptsAll_bare hinner (Nat.le_of_eq hcount) (by omega)
  next => cases hname

end Sound

/-- `Left` and `Right` both have a variant `Item` with an `int`. -/
def twoEnums : Decls where
  enumDefs name := if name = "Left" ∨ name = "Right" then some [("Item", [.int])] else none
  structFieldTypes _ _ := none
  floatEq _ _ := false
  floatLe _ _ := false
  floatLt _ _ := false

theorem item_hasType {name : String} (hname : name = "Left" ∨ name = "Right") (w : Word) :
    HasType twoEnums (.enum name []) (.enum name "Item" [.int w]) := by
  have htys : twoEnums.payloadTypes name "Item" = some [.int] := by
    simp [Decls.payloadTypes, twoEnums, hname]
  refine .enum htys rfl fun p hp => ?_
  obtain rfl := List.mem_singleton.mp hp
  exact .int rfl w

end MatchNarrowing

end Olive
